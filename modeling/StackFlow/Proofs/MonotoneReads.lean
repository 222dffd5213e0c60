import Mathlib
import StackFlow.Proofs.BuildExact
import StackFlow.Proofs.LivenessExact

/-!
Reading more keeps more alive. Liveness is a matter of paths (`liveSets_exact`), so two
routines with the same paths are compared instruction by instruction: the one that reads
more and overwrites less (`ReadsMore`) has the larger live sets, whatever nodes its
skeleton has and however the two runs went. Putting a load in the place of an instruction
that does nothing to variables or control (`AddsRead`) leaves the paths as they are.
-/
namespace StackFlow

namespace Routine

/-- The second routine has the paths, boundaries and exits of the first. On them it reads
    at least as much, and overwrites nothing else. -/
structure ReadsMore (r r' : Routine) : Prop where
  edges : ∀ a b, r.flow.Edge a b ↔ r'.flow.Edge a b
  exits : ∀ i, r.ExitsAt i ↔ r'.ExitsAt i
  boundaries : ∀ i : Nat, r.code[i]? = some .boundary ↔ r'.code[i]? = some .boundary
  reads : ∀ v i, r.ReadsAt v i → r'.ReadsAt v i
  overwrites : ∀ v i, r'.OverwritesAt v i → r.OverwritesAt v i

/-- The codes are equal but for one plain instruction, in whose place the second code
    loads a variable. -/
structure AddsRead (code code' : Array Instr) (i : Nat) (w : VarId) : Prop where
  plain : ∃ instr, code[i]? = some instr ∧ instr.category = .fallthrough
  read : code'[i]? = some (.load w)
  elsewhere : ∀ j, j ≠ i → code'[j]? = code[j]?

namespace ReadsMore

variable {r r' : Routine} (more : ReadsMore r r')

include more

theorem leaves_iff {i : Nat} {path : List Nat} : r.Leaves i path ↔ r'.Leaves i path := by
  induction path generalizing i with
  | nil => rw [leaves_nil, leaves_nil, more.exits]
  | cons j path ih => rw [leaves_cons, leaves_cons, more.edges, ih]

theorem readsFirst {v : VarId} {path : List Nat} (reads : r.ReadsFirst v path) : r'.ReadsFirst v path := by
  obtain ⟨before, i, after, rfl, here, intact⟩ := reads
  exact ⟨before, i, after, rfl, more.reads v i here, fun j member written => intact j member (more.overwrites v j written)⟩

/-- The live sets of a routine that reads more are larger. -/
theorem liveSets_mono {config config' : Config} {live live' : LiveSets} (analysed : r.liveSets config = .ok live)
    (analysed' : r'.liveSets config' = .ok live') (b : Nat) :
    ((live.at? b).isSome = true ↔ (live'.at? b).isSome = true) ∧
    ∀ set set', live.at? b = some set → live'.at? b = some set' → ∀ v, set.contains v = true → set'.contains v = true := by
  constructor
  · rw [isSome_at?_iff analysed, isSome_at?_iff analysed', more.boundaries]
    simp only [ReachesExit, more.leaves_iff]
  · intro set set' entry entry' v member
    obtain ⟨path, leaves, reads⟩ := (contains_at?_iff analysed entry).mp member
    exact (contains_at?_iff analysed' entry').mpr ⟨path, more.leaves_iff.mp leaves, more.readsFirst reads⟩

end ReadsMore

/-- The edges of a routine, read off its code and its ranges. -/
theorem Built.edge_iff_follows {r : Routine} (built : r.Built) (a b : Nat) :
    r.flow.Edge a b ↔ Follows r.code a b ∨ r.code[a]?.isSome = true ∧ Catches r.ranges a b := by
  rw [built.edge_iff]
  constructor
  · rintro ⟨passage, pass⟩
    obtain ⟨instr, listed⟩ := built.getElem?_of_passes pass
    cases passage with
    | normal => exact .inl ((follows_iff listed).mpr ((built.passes_normal listed).mp pass))
    | exceptional => exact .inr ⟨by simp [listed], catches_iff.mpr ((built.passes_exceptional listed).mp pass)⟩
  · rintro (follows | ⟨inside, catches⟩)
    · obtain ⟨instr, listed, _⟩ := id follows
      exact ⟨.normal, (built.passes_normal listed).mpr ((follows_iff listed).mp follows)⟩
    · obtain ⟨instr, listed⟩ := Option.isSome_iff_exists.mp inside
      exact ⟨.exceptional, (built.passes_exceptional listed).mpr (catches_iff.mp catches)⟩

/-- Control only goes past an instruction that transfers none. -/
theorem follows_of_inert {code : Array Instr} {a b : Nat} {instr : Instr} (listed : code[a]? = some instr)
    (inert : instr.category = .fallthrough ∨ instr.category = .read) : Follows code a b ↔ b = a + 1 := by
  have passes : instr.targets = [] ∧ instr.fallsThrough = true ∧ instr.isRet = false := by
    cases instr <;> simp_all [Instr.category, Instr.targets, Instr.fallsThrough, Instr.isRet]
  rw [follows_iff listed, mem_normalTargets]
  simp [passes]

namespace AddsRead

variable {code code' : Array Instr} {i : Nat} {w : VarId} (adds : AddsRead code code' i w)

include adds

/-- Both codes have the same instructions of any other category. -/
theorem listed_iff {instr : Instr} (kind : Category) (same : instr.category = kind)
    (other : kind ≠ .fallthrough ∧ kind ≠ .read) {j : Nat} : code[j]? = some instr ↔ code'[j]? = some instr := by
  by_cases here : j = i
  · subst here
    obtain ⟨old, listed, plain⟩ := adds.plain
    rw [listed, adds.read, Option.some.injEq, Option.some.injEq]
    constructor
    · rintro rfl
      exact absurd (same.symm.trans plain) other.1
    · rintro rfl
      exact absurd same.symm other.2
  · rw [adds.elsewhere j here]

theorem isSome_iff (j : Nat) : code[j]?.isSome = code'[j]?.isSome := by
  by_cases here : j = i
  · subst here
    obtain ⟨old, listed, _⟩ := adds.plain
    rw [listed, adds.read]
    rfl
  · rw [adds.elsewhere j here]

theorem follows_iff_follows {a b : Nat} : Follows code a b ↔ Follows code' a b := by
  by_cases here : a = i
  · subst here
    obtain ⟨old, listed, plain⟩ := adds.plain
    rw [follows_of_inert listed (.inl plain), follows_of_inert adds.read (.inr rfl)]
  · have calls : ∀ j target : Nat, code[j]? = some (.jsr target) ↔ code'[j]? = some (.jsr target) :=
      fun j target => adds.listed_iff .subroutineCall rfl (by decide)
    simp only [Follows, adds.elsewhere a here, calls]

theorem readsMore {ranges : List Range} {scope : Scope} {r r' : Routine} (built : build code ranges scope = .ok r)
    (built' : build code' ranges scope = .ok r') : ReadsMore r r' := by
  have edges := (built_of_build built).edge_iff_follows
  have edges' := (built_of_build built').edge_iff_follows
  obtain ⟨_, _, _, _, _, _, _, rfl⟩ := build_eq_ok.mp built
  obtain ⟨_, _, _, _, _, _, _, rfl⟩ := build_eq_ok.mp built'
  refine ⟨fun a b => ?_, fun j => ?_, fun j => ?_, fun v j => ?_, fun v j => ?_⟩
  · rw [edges, edges']
    change Follows code a b ∨ code[a]?.isSome = true ∧ _ ↔ Follows code' a b ∨ code'[a]?.isSome = true ∧ _
    rw [adds.follows_iff_follows, adds.isSome_iff]
  · exact or_congr (exists_congr fun value => adds.listed_iff .return rfl (by decide))
      (adds.listed_iff .throw rfl (by decide))
  · exact adds.listed_iff .statementBoundary rfl (by decide)
  · rintro (⟨u, listed, above⟩ | ⟨slot, listed, member⟩)
    · have other : j ≠ i := by
        rintro rfl
        obtain ⟨old, listed', plain⟩ := adds.plain
        cases listed.symm.trans listed'
        cases plain
      exact .inl ⟨u, (adds.elsewhere j other).trans listed, above⟩
    · exact .inr ⟨slot, (adds.listed_iff .subroutineReturn rfl (by decide)).mp listed, member⟩
  · rintro ⟨u, above, listed⟩
    exact ⟨u, above, listed.imp (adds.listed_iff .write rfl (by decide)).mpr (adds.listed_iff .write rfl (by decide)).mpr⟩

end AddsRead

end Routine

open Routine

/-- A read that is put in the place of a plain instruction only makes more variables live:
    the live sets have entries for the same boundaries as before, and what was in an entry
    is still there. -/
theorem liveSets_grow {code code' : Array Instr} {i : Nat} {w : VarId} (adds : AddsRead code code' i w)
    {ranges : List Range} {scope : Scope} {r r' : Routine} (built : Routine.build code ranges scope = .ok r)
    (built' : Routine.build code' ranges scope = .ok r') {config config' : Config} {live live' : LiveSets}
    (analysed : r.liveSets config = .ok live) (analysed' : r'.liveSets config' = .ok live') (b : Nat) :
    ((live.at? b).isSome = true ↔ (live'.at? b).isSome = true) ∧
    ∀ set set', live.at? b = some set → live'.at? b = some set' → ∀ v, set.contains v = true → set'.contains v = true :=
  (adds.readsMore built built').liveSets_mono analysed analysed' b

/-- A loop over two boundaries, with a plain instruction between them. It is left over a
    store to variable 0 and a load of variable 2; variable 1 is a field of variable 0. -/
def circling : Array Instr :=
  #[.boundary, .branch 5 1, .nop, .boundary, .goto 0, .store 0, .load 2, .return false]

theorem liveSets_grow_circling :
    ∃ scope r r' live live', Scope.empty.declareAll [.local 0 Flags.none, .field 0 "f", .local 1 Flags.none] = .ok scope ∧
      Routine.build circling [⟨2, 3, 6⟩] scope = .ok r ∧ r.liveSets Config.standard = .ok live ∧
      Routine.build (circling.set 2 (.load 1)) [⟨2, 3, 6⟩] scope = .ok r' ∧ r'.liveSets Config.fast = .ok live' ∧
      (live'.at? 3).map BitSet.toList = some [0, 1, 2] ∧
      ∃ set, live.at? 3 = some set ∧ ∀ v, set.contains v = true → v ∈ [0, 1, 2] := by
  have computed : (do
      let scope ← Scope.empty.declareAll [.local 0 Flags.none, .field 0 "f", .local 1 Flags.none]
      let r ← Routine.build circling [⟨2, 3, 6⟩] scope
      let live ← r.liveSets Config.standard
      let r' ← Routine.build (circling.set 2 (.load 1)) [⟨2, 3, 6⟩] scope
      let live' ← r'.liveSets Config.fast
      return (live'.at? 3).map BitSet.toList : Result _) = .ok (some [0, 1, 2]) := by cbv
  obtain ⟨scope, declared, computed⟩ := bind_eq_ok.mp computed
  obtain ⟨r, built, computed⟩ := bind_eq_ok.mp computed
  obtain ⟨live, analysed, computed⟩ := bind_eq_ok.mp computed
  obtain ⟨r', built', computed⟩ := bind_eq_ok.mp computed
  obtain ⟨live', analysed', computed⟩ := bind_eq_ok.mp computed
  obtain ⟨set', entry', members⟩ := Option.map_eq_some_iff.mp (Except.ok.inj computed)
  have adds : AddsRead circling (circling.set 2 (.load 1)) 2 1 :=
    ⟨⟨.nop, rfl, rfl⟩, rfl, fun j other => Array.getElem?_set_ne _ (Ne.symm other)⟩
  obtain ⟨present, grows⟩ := liveSets_grow adds built built' analysed analysed' 3
  obtain ⟨set, entry⟩ := Option.isSome_iff_exists.mp (present.mpr (by rw [entry']; rfl))
  refine ⟨scope, r, r', live, live', declared, built, analysed, built', analysed', Except.ok.inj computed, set, entry, ?_⟩
  intro v member
  rw [← members]
  exact BitSet.mem_toList.mpr (grows set set' entry entry' v member)

end StackFlow
