import Mathlib.Data.List.Chain
import StackFlow.Proofs.SkeletonPaths
import StackFlow.Scope.Chain

/-!
What it means for a variable to be live, along the paths of a routine, and the sets of
variables that arrive at its nodes when they go backwards from the exits (`Arrives`).
A set that arrives at a node comes from paths that leave the routine, and has nothing
but variables that such a path reads first (`Arrives.leaves`, `Arrives.readFirst`).
Conversely, each path that leaves the routine brings a set with all variables it reads
first (`arrives_of_leaves`).
-/
namespace StackFlow

namespace Routine

/-- The instructions follow one another over the edges of the routine. -/
def IsPath (r : Routine) (path : List Nat) : Prop := path.IsChain r.flow.Edge

/-- The routine ends at this instruction: it returns or throws. -/
def ExitsAt (r : Routine) (i : Nat) : Prop := (∃ value, r.code[i]? = some (.return value)) ∨ r.code[i]? = some .throw

/-- The instruction reads `v`: it loads `v` or something that `v` holds, or it returns
    from a subroutine over the slot of `v`. -/
def ReadsAt (r : Routine) (v : VarId) (i : Nat) : Prop :=
  (∃ w, r.code[i]? = some (.load w) ∧ v ∈ r.scope.chain w) ∨
    ∃ slot, r.code[i]? = some (.ret slot) ∧ r.scope.Backs slot v

/-- The instruction overwrites `v`: it stores to or discards `v` or something that holds it. -/
def OverwritesAt (r : Routine) (v : VarId) (i : Nat) : Prop :=
  ∃ u ∈ r.scope.chain v, r.code[i]? = some (.store u) ∨ r.code[i]? = some (.discard u)

/-- The path from `i` on through `path` ends at an exit. -/
structure Leaves (r : Routine) (i : Nat) (path : List Nat) : Prop where
  isPath : r.IsPath (i :: path)
  exits : ∃ e ∈ (i :: path).getLast?, r.ExitsAt e

/-- An exit can be reached. -/
def ReachesExit (r : Routine) (i : Nat) : Prop := ∃ path, r.Leaves i path

/-- The path reads `v`, and does not overwrite it before. -/
def ReadsFirst (r : Routine) (v : VarId) (path : List Nat) : Prop :=
  ∃ before i after, path = before ++ i :: after ∧ r.ReadsAt v i ∧ ∀ j ∈ before, ¬ r.OverwritesAt v j

variable {r : Routine}

theorem exitsAt_iff {i : Nat} : r.ExitsAt i ↔ ∃ instr, r.code[i]? = some instr ∧ instr.isExit = true := by
  simp only [ExitsAt, Instr.isExit_iff]
  constructor
  · rintro (⟨value, listed⟩ | listed)
    · exact ⟨_, listed, .inl ⟨value, rfl⟩⟩
    · exact ⟨_, listed, .inr rfl⟩
  · rintro ⟨instr, listed, ⟨value, rfl⟩ | rfl⟩
    · exact .inl ⟨value, listed⟩
    · exact .inr listed

theorem isPath_snoc {path : List Nat} {i j : Nat} : r.IsPath (path ++ [i, j]) ↔ r.IsPath (path ++ [i]) ∧ r.flow.Edge i j := by
  unfold IsPath
  rw [List.isChain_split, List.isChain_pair]

theorem leaves_nil {i : Nat} : r.Leaves i [] ↔ r.ExitsAt i := by
  constructor
  · rintro ⟨_, e, last, ends⟩
    cases last
    exact ends
  · intro ends
    exact ⟨List.isChain_singleton i, i, rfl, ends⟩

theorem leaves_cons {i j : Nat} {path : List Nat} : r.Leaves i (j :: path) ↔ r.flow.Edge i j ∧ r.Leaves j path := by
  constructor
  · rintro ⟨isPath, e, last, ends⟩
    obtain ⟨pass, isPath⟩ := List.isChain_cons_cons.mp isPath
    rw [List.getLast?_cons_cons] at last
    exact ⟨pass, isPath, e, last, ends⟩
  · rintro ⟨pass, isPath, e, last, ends⟩
    rw [← List.getLast?_cons_cons (a := i)] at last
    exact ⟨List.isChain_cons_cons.mpr ⟨pass, isPath⟩, e, last, ends⟩

/-- A path to an instruction goes on as a path from there. -/
theorem Leaves.append {i j : Nat} {before after : List Nat} (isPath : r.IsPath (i :: (before ++ [j])))
    (leaves : r.Leaves j after) : r.Leaves i (before ++ j :: after) := by
  induction before generalizing i with
  | nil =>
    obtain ⟨pass, _⟩ := List.isChain_cons_cons.mp isPath
    exact leaves_cons.mpr ⟨pass, leaves⟩
  | cons k rest ih =>
    obtain ⟨pass, isPath⟩ := List.isChain_cons_cons.mp isPath
    exact leaves_cons.mpr ⟨pass, ih isPath⟩

theorem not_readsFirst_nil {v : VarId} : ¬ r.ReadsFirst v [] := by
  rintro ⟨before, i, after, split, _⟩
  cases before <;> cases split

theorem readsFirst_cons {v : VarId} {i : Nat} {path : List Nat} :
    r.ReadsFirst v (i :: path) ↔ r.ReadsAt v i ∨ ¬ r.OverwritesAt v i ∧ r.ReadsFirst v path := by
  constructor
  · rintro ⟨before, k, after, split, reads, intact⟩
    cases before with
    | nil =>
      cases split
      exact .inl reads
    | cons j before =>
      cases split
      exact .inr ⟨intact i (by simp), before, k, after, rfl, reads, fun j member => intact j (by simp [member])⟩
  · rintro (reads | ⟨kept, before, k, after, rfl, reads, intact⟩)
    · exact ⟨[], i, path, rfl, reads, by simp⟩
    · exact ⟨i :: before, k, after, rfl, reads, List.forall_mem_cons.mpr ⟨kept, intact⟩⟩

end Routine

open Routine Skeleton

variable {r : Routine}

namespace Skeleton

theorem mem_nodesOf_of_exitsAt {i : Nat} (ends : r.ExitsAt i) : i ∈ nodesOf r := by
  rcases ends with ⟨value, listed⟩ | listed
  · exact mem_nodesOf.mpr ⟨_, listed, isNode_iff.mpr (.inr (.inr (.inr (.return value))))⟩
  · exact mem_nodesOf.mpr ⟨_, listed, isNode_iff.mpr (.inr (.inr (.inr .throw)))⟩

/-- A plain instruction touches no variable and transfers no control. -/
theorem Plain.inert {i : Nat} (plain : Plain r i) {instr : Instr} (listed : r.code[i]? = some instr) :
    (∀ v, ¬ instr.Touches v) ∧ ¬ instr.Transfers := by
  have other : ¬ isNode i instr = true := fun node => plain.not_mem (mem_nodesOf.mpr ⟨instr, listed, node⟩)
  rw [isNode_iff, not_or, not_or, not_or, not_exists] at other
  exact ⟨other.2.1, other.2.2.2⟩

theorem Plain.not_readsAt {v : VarId} {i : Nat} (plain : Plain r i) : ¬ r.ReadsAt v i := by
  rintro (⟨w, listed, _⟩ | ⟨slot, listed, _⟩)
  · exact (plain.inert listed).1 w (.inl rfl)
  · exact (plain.inert listed).2 (.ret slot)

theorem Plain.not_overwritesAt {v : VarId} {i : Nat} (plain : Plain r i) : ¬ r.OverwritesAt v i := by
  rintro ⟨u, _, listed | listed⟩
  · exact (plain.inert listed).1 u (.inr (.inl rfl))
  · exact (plain.inert listed).1 u (.inr (.inr rfl))

theorem Plain.readsFirst {v : VarId} {i : Nat} {path : List Nat} (plain : Plain r i) :
    r.ReadsFirst v (i :: path) ↔ r.ReadsFirst v path := by
  rw [readsFirst_cons]
  constructor
  · rintro (reads | ⟨_, later⟩)
    · exact absurd reads plain.not_readsAt
    · exact later
  · intro later
    exact .inr ⟨plain.not_overwritesAt, later⟩

/-- A path from a node extends backwards over the way that leads to it, which reads and
    overwrites nothing. -/
theorem Leads.leaves {i j : Nat} {path : List Nat} (way : Leads r i j) (leaves : r.Leaves j path) :
    ∃ longer, r.Leaves i longer ∧ ∀ v, r.ReadsFirst v (j :: path) → r.ReadsFirst v longer := by
  induction way generalizing path with
  | edge pass => exact ⟨_, leaves_cons.mpr ⟨pass, leaves⟩, fun v reads => reads⟩
  | through way plain pass ih =>
    obtain ⟨longer, leaves, reads⟩ := ih (leaves_cons.mpr ⟨pass, leaves⟩)
    exact ⟨longer, leaves, fun v first => reads v (plain.readsFirst.mpr first)⟩

end Skeleton

/-- `out` has what is live before the instruction at `i`, if `after` has what is live
    after it. -/
structure Before (r : Routine) (i : Nat) (after out : BitSet) : Prop where
  capacity : out.capacity = r.scope.size
  members : ∀ v, out.contains v = true ↔ r.ReadsAt v i ∨ after.contains v = true ∧ ¬ r.OverwritesAt v i

theorem Before.unique {i : Nat} {after out out' : BitSet} (one : Before r i after out) (other : Before r i after out') :
    out = out' := by
  refine BitSet.ext (one.capacity.trans other.capacity.symm) fun v => ?_
  rw [Bool.eq_iff_iff, one.members, other.members]

/-- The sets of variables that arrive at the nodes from behind, starting with an empty
    set at each exit. -/
inductive Arrives (r : Routine) : Nat → BitSet → Prop
  | exit {i : Nat} (ends : r.ExitsAt i) : Arrives r i (BitSet.empty r.scope.size)
  | back {i j : Nat} {after out : BitSet} (later : Arrives r j after) (before : Before r j after out)
      (node : i ∈ nodesOf r) (way : Leads r i j) : Arrives r i out

namespace Arrives

variable {i : Nat} {f : BitSet}

theorem capacity (arrives : Arrives r i f) : f.capacity = r.scope.size := by
  cases arrives with
  | exit => rfl
  | back _ before => exact before.capacity

theorem mem_nodesOf (arrives : Arrives r i f) : i ∈ nodesOf r := by
  cases arrives with
  | exit ends => exact mem_nodesOf_of_exitsAt ends
  | back _ _ node => exact node

theorem leaves (arrives : Arrives r i f) : r.ReachesExit i := by
  induction arrives with
  | exit ends => exact ⟨[], leaves_nil.mpr ends⟩
  | back _ _ _ way ih =>
    obtain ⟨path, leaves⟩ := ih
    obtain ⟨longer, leaves, _⟩ := way.leaves leaves
    exact ⟨longer, leaves⟩

/-- A variable in a set that arrives is read first on some path that leaves the routine. -/
theorem readsFirst (arrives : Arrives r i f) {v : VarId} (member : f.contains v = true) :
    ∃ path, r.Leaves i path ∧ r.ReadsFirst v path := by
  induction arrives with
  | exit ends => simp at member
  | @back i j after out later before node way ih =>
    have ahead : ∃ path, r.Leaves j path ∧ r.ReadsFirst v (j :: path) := by
      rcases (before.members v).mp member with reads | ⟨old, kept⟩
      · obtain ⟨path, leaves⟩ := later.leaves
        exact ⟨path, leaves, readsFirst_cons.mpr (.inl reads)⟩
      · obtain ⟨path, leaves, reads⟩ := ih old
        exact ⟨path, leaves, readsFirst_cons.mpr (.inr ⟨kept, reads⟩)⟩
    obtain ⟨path, leaves, reads⟩ := ahead
    obtain ⟨longer, leaves, first⟩ := way.leaves leaves
    exact ⟨longer, leaves, first v reads⟩

end Arrives

/-- Each path that leaves the routine brings a set with all that it reads first, both to
    its first instruction and to the nodes that lead there. -/
theorem arrives_of_leaves {s : Skeleton} (built : Skeleton.ofRoutine r = .ok s)
    (supplied : ∀ j after, Arrives r j after → ∃ out, Before r j after out) {j : Nat} {path : List Nat}
    (leaves : r.Leaves j path) :
    (j ∈ nodesOf r → ∃ f, Arrives r j f ∧ ∀ v, r.ReadsFirst v path → f.contains v = true) ∧
    ∀ i ∈ nodesOf r, Leads r i j → ∃ f, Arrives r i f ∧ ∀ v, r.ReadsFirst v (j :: path) → f.contains v = true := by
  -- A set at a node goes on to the nodes that lead there.
  have onward : ∀ {j : Nat} {path : List Nat},
      (∃ f, Arrives r j f ∧ ∀ v, r.ReadsFirst v path → f.contains v = true) → ∀ i ∈ nodesOf r, Leads r i j →
      ∃ f, Arrives r i f ∧ ∀ v, r.ReadsFirst v (j :: path) → f.contains v = true := by
    rintro j path ⟨f, arrives, holds⟩ i node way
    obtain ⟨out, before⟩ := supplied j f arrives
    refine ⟨out, .back arrives before node way, fun v reads => (before.members v).mpr ?_⟩
    rcases readsFirst_cons.mp reads with here | ⟨kept, later⟩
    · exact .inl here
    · exact .inr ⟨holds v later, kept⟩
  induction path generalizing j with
  | nil =>
    have ends := leaves_nil.mp leaves
    have seed : ∃ f, Arrives r j f ∧ ∀ v, r.ReadsFirst v [] → f.contains v = true :=
      ⟨_, .exit ends, fun v reads => absurd reads not_readsFirst_nil⟩
    exact ⟨fun _ => seed, onward seed⟩
  | cons k rest ih =>
    obtain ⟨pass, leaves⟩ := leaves_cons.mp leaves
    have here : j ∈ nodesOf r → ∃ f, Arrives r j f ∧ ∀ v, r.ReadsFirst v (k :: rest) → f.contains v = true :=
      fun node => (ih leaves).2 j node (.edge pass)
    refine ⟨here, fun i node way => ?_⟩
    rcases plain_or_node built node way with plain | node'
    · obtain ⟨f, arrives, holds⟩ := (ih leaves).2 i node (.through way plain pass)
      exact ⟨f, arrives, fun v reads => holds v (plain.readsFirst.mp reads)⟩
    · exact onward (here node') i node way

end StackFlow
