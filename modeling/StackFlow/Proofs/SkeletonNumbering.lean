import StackFlow.Proofs.InstrKinds
import StackFlow.Proofs.Sequencing
import StackFlow.Routine.Skeleton

/-!
The numbering of the nodes. One pass over the code writes down two tables, the instruction
of each node and the node of each instruction, and after every step the one is the inverse
of the other (`Inverse.visit`). At the end the first table lists the nodes of the routine
in the order of its code, and the second says of each instruction that it is plain, or
which place it has in that list (`numbering_spec`).
-/
namespace StackFlow.Skeleton

variable {r : Routine}

/-- The instructions of a routine that are nodes, in the order of its code. -/
def nodesOf (r : Routine) : List Nat :=
  r.code.toList.zipIdx.filterMap fun (instr, index) => if isNode index instr then some index else none

/-- An instruction of the routine that is no node of its skeleton. -/
def Plain (r : Routine) (i : Nat) : Prop := ∃ instr, r.code[i]? = some instr ∧ isNode i instr = false

theorem isNode_iff {i : Nat} {instr : Instr} :
    isNode i instr = true ↔ i = 0 ∨ (∃ v, instr.Touches v) ∨ instr = .boundary ∨ instr.Transfers := by
  simp only [isNode, Bool.or_eq_true, beq_iff_eq, Option.isSome_iff_ne_none, Instr.touches_ne_none,
    Instr.isBoundary_iff, Instr.isTransfer_iff, or_assoc]

theorem mem_nodesOf {i : Nat} : i ∈ nodesOf r ↔ ∃ instr, r.code[i]? = some instr ∧ isNode i instr = true := by
  unfold nodesOf
  rw [List.mem_filterMap]
  constructor
  · rintro ⟨⟨instr, index⟩, listed, kept⟩
    rw [List.mk_mem_zipIdx_iff_getElem?, Array.getElem?_toList] at listed
    by_cases node : isNode index instr = true
    · simp only [node, if_true, Option.some.injEq] at kept
      exact kept ▸ ⟨instr, listed, node⟩
    · simp [node] at kept
  · rintro ⟨instr, listed, node⟩
    refine ⟨(instr, i), ?_, by simp [node]⟩
    rw [List.mk_mem_zipIdx_iff_getElem?, Array.getElem?_toList]
    exact listed

theorem mem_nodesOf_of_boundary {i : Nat} (boundary : r.code[i]? = some .boundary) : i ∈ nodesOf r :=
  mem_nodesOf.mpr ⟨.boundary, boundary, by simp [isNode, Instr.isBoundary]⟩

theorem plain_iff {i : Nat} (inside : i < r.size) : Plain r i ↔ i ∉ nodesOf r := by
  have listed : r.code[i]? = some r.code[i] := Array.getElem?_eq_getElem inside
  simp only [Plain, mem_nodesOf, listed, Option.some.injEq, exists_eq_left', Bool.not_eq_true]

theorem Plain.lt {i : Nat} (plain : Plain r i) : i < r.size := by
  obtain ⟨instr, listed, _⟩ := plain
  exact (Array.getElem?_eq_some_iff.mp listed).1

theorem Plain.not_mem {i : Nat} (plain : Plain r i) : i ∉ nodesOf r := (plain_iff plain.lt).mp plain

/-- The places of the code are in ascending order. -/
theorem places_ascending (r : Routine) : (r.code.toList.zipIdx.map Prod.snd).Pairwise (· < ·) := by
  rw [List.zipIdx_map_snd]
  exact List.pairwise_lt_range'

theorem nodesOf_ascending (r : Routine) : (nodesOf r).Pairwise (· < ·) := by
  unfold nodesOf
  rw [List.pairwise_filterMap]
  refine (List.pairwise_map.mp (places_ascending r)).imp ?_
  rintro ⟨instr, i⟩ ⟨instr', j⟩ below a first b second
  simp only [Option.ite_none_right_eq_some, Option.some.injEq] at first second
  obtain ⟨_, rfl⟩ := first
  obtain ⟨_, rfl⟩ := second
  exact below

theorem nodesOf_nodup (r : Routine) : (nodesOf r).Nodup := (nodesOf_ascending r).imp Nat.ne_of_lt

theorem place_injective {n m i : Nat} (one : (nodesOf r)[n]? = some i) (other : (nodesOf r)[m]? = some i) : n = m := by
  obtain ⟨inside, _⟩ := List.getElem?_eq_some_iff.mp one
  exact (List.getElem?_inj inside (nodesOf_nodup r)).mp (one.trans other.symm)

theorem place_zero (nonempty : 0 < r.size) : (nodesOf r)[0]? = some 0 := by
  have first : 0 ∈ nodesOf r := mem_nodesOf.mpr ⟨_, Array.getElem?_eq_getElem nonempty, rfl⟩
  obtain ⟨n, place⟩ := List.mem_iff_getElem?.mp first
  obtain ⟨inside, at_n⟩ := List.getElem?_eq_some_iff.mp place
  have ascending := List.pairwise_iff_getElem.mp (nodesOf_ascending r)
  cases n with
  | zero => exact place
  | succ n =>
    have less := ascending 0 (n + 1) (by omega) inside (by omega)
    omega

namespace Numbering

/-- The number of an instruction is the place where the nodes list it. -/
structure Inverse (numbered : Numbering) (count : Nat) : Prop where
  size : numbered.index.size = count
  inverse : ∀ i n : Nat, numbered.index[i]? = some (some n) ↔ numbered.nodes[n]? = some i

variable {numbered : Numbering} {count : Nat}

/-- Before the first step nothing is numbered. -/
theorem inverse_start (count : Nat) : Inverse ⟨#[], Array.replicate count none⟩ count := by
  refine ⟨Array.size_replicate, fun i n => ?_⟩
  rw [Array.getElem?_replicate]
  split <;> simp

/-- The next number goes to an instruction that has none. -/
theorem Inverse.push (inv : numbered.Inverse count) {i : Nat} (inside : i < numbered.index.size)
    (fresh : i ∉ numbered.nodes) :
    Inverse ⟨numbered.nodes.push i, numbered.index.set i (some numbered.nodes.size)⟩ count := by
  refine ⟨(Array.size_set inside).trans inv.size, fun j n => ?_⟩
  rw [Array.getElem?_set, Array.getElem?_push]
  by_cases last : n = numbered.nodes.size
  · have unused : numbered.index[j]? ≠ some (some n) := by
      rw [Ne, inv.inverse, last]
      simp
    by_cases here : i = j <;> simp [here, last, last ▸ unused]
  · by_cases here : i = j
    · subst here
      have absent : numbered.nodes[n]? ≠ some i := fun found => fresh (Array.mem_of_getElem? found)
      simp [last, absent, Ne.symm last]
    · simp [here, last, inv.inverse]

/-- A step numbers an instruction if it is a node, and the tables stay inverse to each other. -/
theorem Inverse.visit (inv : numbered.Inverse count) (instr : Instr) {i : Nat} (inside : i < count)
    (fresh : i ∉ numbered.nodes) :
    ∃ out, numbered.visit (instr, i) = .ok out ∧ out.Inverse count ∧
      out.nodes.toList = numbered.nodes.toList ++ if isNode i instr then [i] else [] := by
  unfold Numbering.visit
  by_cases node : isNode i instr = true
  · have bound : i < numbered.index.size := inv.size.symm ▸ inside
    rw [if_pos node, if_pos node]
    exact ⟨_, bind_eq_ok.mpr ⟨_, replace_of_lt bound _, rfl⟩, inv.push bound fresh, Array.toList_push⟩
  · rw [if_neg node, if_neg node]
    exact ⟨numbered, rfl, inv, by simp⟩

theorem Inverse.visitAll (inv : numbered.Inverse count) {placed : List (Instr × Nat)}
    (inside : ∀ p ∈ placed, p.2 < count) (fresh : ∀ p ∈ placed, p.2 ∉ numbered.nodes)
    (ascending : (placed.map Prod.snd).Pairwise (· < ·)) :
    ∃ out, placed.foldlM Numbering.visit numbered = .ok out ∧ out.Inverse count ∧ out.nodes.toList =
      numbered.nodes.toList ++ placed.filterMap fun (instr, i) => if isNode i instr then some i else none := by
  induction placed generalizing numbered with
  | nil => exact ⟨numbered, rfl, inv, by simp⟩
  | cons p rest ih =>
    obtain ⟨instr, i⟩ := p
    obtain ⟨bound, bounds⟩ := List.forall_mem_cons.mp inside
    obtain ⟨unused, others⟩ := List.forall_mem_cons.mp fresh
    obtain ⟨below, ascending⟩ := List.pairwise_cons.mp ascending
    obtain ⟨mid, first, inv, nodes⟩ := inv.visit instr bound unused
    -- What comes later in the code is not the instruction that has just been numbered.
    have fresh : ∀ p ∈ rest, p.2 ∉ mid.nodes := by
      intro p later
      rw [← Array.mem_toList_iff, nodes, List.mem_append, Array.mem_toList_iff]
      rintro (old | new)
      · exact others p later old
      · have less := below p.2 (List.mem_map_of_mem later)
        split at new
        · exact Nat.ne_of_gt less (List.mem_singleton.mp new)
        · cases new
    obtain ⟨out, run, inv, listed⟩ := ih inv bounds fresh ascending
    refine ⟨out, bind_eq_ok.mpr ⟨mid, first, run⟩, inv, ?_⟩
    rw [listed, nodes, List.append_assoc]
    by_cases node : isNode i instr = true <;> simp [node]

end Numbering

/-- A table that gives each node its place among the nodes, and nothing to plain
    instructions. -/
structure Numbers (r : Routine) (index : Array (Option Nat)) : Prop where
  size : index.size = r.size
  place : ∀ i n : Nat, index[i]? = some (some n) ↔ (nodesOf r)[n]? = some i

theorem Numbers.plain {index : Array (Option Nat)} (numbers : Numbers r index) {i : Nat} :
    index[i]? = some none ↔ Plain r i := by
  constructor
  · intro none
    obtain ⟨inside, _⟩ := Array.getElem?_eq_some_iff.mp none
    refine (plain_iff (numbers.size ▸ inside)).mpr fun node => ?_
    obtain ⟨n, place⟩ := List.mem_iff_getElem?.mp node
    cases none.symm.trans ((numbers.place i n).mpr place)
  · intro plain
    have bound : i < index.size := numbers.size.symm ▸ plain.lt
    have found : index[i]? = some index[i] := Array.getElem?_eq_getElem bound
    cases entry : index[i] with
    | none => rw [found, entry]
    | some n =>
      rw [entry] at found
      exact absurd (List.mem_of_getElem? ((numbers.place i n).mp found)) plain.not_mem

/-- The pass over the code lists the nodes, and numbers them by their places. -/
theorem numbering_spec (r : Routine) :
    ∃ numbered, numbering r = .ok numbered ∧ numbered.nodes.toList = nodesOf r ∧ Numbers r numbered.index := by
  have inside : ∀ p ∈ r.code.toList.zipIdx, p.2 < r.size := by
    rintro ⟨instr, i⟩ listed
    rw [List.mk_mem_zipIdx_iff_getElem?, Array.getElem?_toList] at listed
    exact (Array.getElem?_eq_some_iff.mp listed).1
  obtain ⟨out, run, inv, nodes⟩ :=
    (Numbering.inverse_start r.size).visitAll inside (fun p _ => by simp) (places_ascending r)
  have listed : out.nodes.toList = nodesOf r := by simpa [nodesOf] using nodes
  refine ⟨out, run, listed, inv.size, fun i n => ?_⟩
  rw [inv.inverse, ← listed, Array.getElem?_toList]

end StackFlow.Skeleton
