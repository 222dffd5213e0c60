import StackFlow.Routine.Basic

/-!
Regions of a routine: its main part, and each subroutine that a subroutine call
reaches. A walk claims the unclaimed instructions that it reaches without following
subroutine calls into their targets or returns out of their subroutine. Code that
several subroutines share belongs to the first that reaches it.
-/
namespace StackFlow

/-- A subroutine call and where it goes. -/
structure Call where
  site : Nat
  target : Nat
  deriving DecidableEq, Repr, Inhabited

/-- What one walk claimed, in order, and the calls that it met. -/
structure Scan where
  visited : List Nat
  calls : List Call
  deriving DecidableEq, Repr, Inhabited

structure Region where
  id : Nat
  entry : Nat
  /-- The calls that go to the region. -/
  callers : List Nat
  size : Nat
  deriving DecidableEq, Repr, Inhabited

structure RegionMap where
  /-- The region of each instruction that has one. -/
  tags : Array (Option Nat)
  regions : Array Region
  deriving DecidableEq, Repr, Inhabited

namespace Regions

/-- No instruction claimed. -/
def untagged (r : Routine) : Array (Option Nat) := Array.replicate r.size none

/-- The subroutine call at an instruction. -/
def callsOf (index : Nat) : Instr → List Call
  | .jsr target => [⟨index, target⟩]
  | _ => []

/-- Where a walk goes from an instruction, exceptions apart. -/
def localTargets (index : Nat) : Instr → List Nat
  | .jsr _ => [index + 1]
  | .return _ | .throw | .ret _ => []
  | instr => instr.targets ++ (if instr.fallsThrough then [index + 1] else [])

/-- Where a walk goes from an instruction, and the calls there. -/
def follow (r : Routine) (index : Nat) : Result (List Nat × List Call) := do
  let instr ← r.instr index
  return (localTargets index instr ++ (← r.exceptionSuccessors index), callsOf index instr)

theorem countP_claim {tags : Array (Option Nat)} {i : Nat} (inside : i < tags.size) (free : tags[i] = none)
    (region : Nat) : (tags.set i (some region)).countP Option.isNone < tags.countP Option.isNone := by
  have some : 0 < tags.countP Option.isNone :=
    Array.countP_pos_iff.mpr ⟨tags[i], Array.getElem_mem inside, by simp [free]⟩
  rw [Array.countP_set, free]
  change tags.countP Option.isNone - 1 + 0 < tags.countP Option.isNone
  omega

/-- Claims for a region what the instructions of `stack` reach, depth first. The tags
    made before a failure stay. -/
def walk (r : Routine) (region : Nat) (stack : List Nat) (tags : Array (Option Nat)) (scan : Scan) :
    Array (Option Nat) × Result Scan :=
  match stack with
  | [] => (tags, .ok scan)
  | index :: rest =>
    if index < r.size then
      if inside : index < tags.size then
        if free : tags[index] = none then
          match follow r index with
          | .error e => (tags, .error e)
          | .ok (next, calls) =>
            have := countP_claim inside free region
            walk r region (next ++ rest) (tags.set index (some region))
              ⟨scan.visited ++ [index], scan.calls ++ calls⟩
        else walk r region rest tags scan
      else (tags, abort (.outOfRange index tags.size))
    else (tags, reject (.regionEscapes region index r.size))
termination_by (tags.countP Option.isNone, stack.length)

/-- Claims what an entry reaches. -/
def findRegion (r : Routine) (tags : Array (Option Nat)) (entry region : Nat) : Array (Option Nat) × Result Scan :=
  walk r region [entry] tags ⟨[], []⟩

/-- A walk only claims. -/
theorem countP_walk (r : Routine) (region : Nat) (stack : List Nat) (tags : Array (Option Nat)) (scan : Scan) :
    (walk r region stack tags scan).1.countP Option.isNone ≤ tags.countP Option.isNone := by
  fun_induction walk r region stack tags scan with
  | case1 => exact Nat.le_refl _
  | case2 => exact Nat.le_refl _
  | case3 tags scan index rest _ inside free next calls _ smaller ih => exact Nat.le_trans ih (Nat.le_of_lt smaller)
  | case4 tags scan index rest _ inside taken ih => exact ih
  | case5 => exact Nat.le_refl _
  | case6 => exact Nat.le_refl _

/-- A successful walk from an unclaimed entry claims at least the entry. -/
theorem countP_findRegion {r : Routine} {tags after : Array (Option Nat)} {entry region : Nat} {scan : Scan}
    (free : tags[entry]?.join = none) (run : findRegion r tags entry region = (after, .ok scan)) :
    after.countP Option.isNone < tags.countP Option.isNone := by
  unfold findRegion walk at run
  split at run
  · split at run
    · rename_i inside
      split at run
      · rename_i vacant
        split at run
        · cases run
        · have fewer := countP_claim inside vacant region
          rw [← show _ = after from congrArg Prod.fst run]
          exact Nat.lt_of_le_of_lt (countP_walk r region _ _ _) fewer
      · rename_i taken
        simp [inside] at free
        exact absurd free taken
    · cases run
  · cases run

/-- Notes a call for the region that its target belongs to. -/
def addCaller (regions : Array Region) (owner site : Nat) : Result (Array Region) := do
  let region ← fetch regions owner
  if region.callers.contains site then return regions
  else replace regions owner { region with callers := region.callers ++ [site] }

/-- Works off calls, first come first served: the target belongs to a region already,
    or is the entry of a new one. -/
def settle (r : Routine) (tags : Array (Option Nat)) (regions : Array Region) (pending : List Call) :
    Result RegionMap :=
  match pending with
  | [] => .ok ⟨tags, regions⟩
  | call :: rest =>
    match owned : tags[call.target]?.join with
    | some owner =>
      match addCaller regions owner call.site with
      | .error e => .error e
      | .ok regions => settle r tags regions rest
    | none =>
      match found : findRegion r tags call.target regions.size with
      | (_, .error e) => .error e
      | (after, .ok scan) =>
        have := countP_findRegion owned found
        settle r after (regions.push ⟨regions.size, call.target, [call.site], scan.visited.length⟩)
          (rest ++ scan.calls)
termination_by (tags.countP Option.isNone, pending.length)

/-- Splits a routine into its regions; the main one is the first. -/
def partition (r : Routine) : Result RegionMap :=
  match findRegion r (untagged r) 0 0 with
  | (_, .error e) => .error e
  | (tags, .ok scan) => settle r tags #[⟨0, 0, [], scan.visited.length⟩] scan.calls

end Regions

namespace RegionMap

/-- The region of an instruction, if it has one. -/
def regionOf (m : RegionMap) (index : Nat) : Option Nat := m.tags[index]?.join

def region? (m : RegionMap) (id : Nat) : Option Region := m.regions[id]?

/-- The instructions of a region, in ascending order. -/
def instructions (m : RegionMap) (id : Nat) : List Nat :=
  m.tags.toList.zipIdx.filterMap fun (tag, index) => if tag == some id then some index else none

end RegionMap

end StackFlow
