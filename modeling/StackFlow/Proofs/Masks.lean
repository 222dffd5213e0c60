import StackFlow.Liveness.Basic
import StackFlow.Proofs.Sequencing

/-!
The masks of a scope are relations between its variables, a set for each variable.
Marking the qualifiers of one variable after the other collects in the kill mask of a
variable just those whose chain goes through it, and the read masks are the chains
themselves. Both are always found, since the qualifiers of a variable are known. The table
of slots has a mask for each slot that a node returns over, with the variables that the
slot backs (`SlotMasks`). What a mask does to a set is said in terms of members
(`withMask_of_eq`, `withoutMask_of_eq`), whether or not the set changes.
-/
namespace StackFlow

/-- A set for each of `size` variables, which together hold a relation. -/
structure Represents (size : Nat) (masks : Array BitSet) (rel : VarId → VarId → Prop) : Prop where
  length : masks.size = size
  entry : ∀ (u : VarId) (mask : BitSet), masks[u]? = some mask →
    mask.capacity = size ∧ ∀ v, mask.contains v = true ↔ rel u v

namespace Represents

variable {size : Nat} {masks : Array BitSet} {rel : VarId → VarId → Prop}

theorem congr (rep : Represents size masks rel) {rel' : VarId → VarId → Prop}
    (same : ∀ u < size, ∀ v, rel u v ↔ rel' u v) : Represents size masks rel' := by
  refine ⟨rep.length, fun u mask found => ?_⟩
  obtain ⟨inside, _⟩ := Array.getElem?_eq_some_iff.mp found
  obtain ⟨capacity, members⟩ := rep.entry u mask found
  exact ⟨capacity, fun v => (members v).trans (same u (rep.length ▸ inside) v)⟩

theorem fetch (rep : Represents size masks rel) {u : VarId} (inside : u < size) :
    ∃ mask, StackFlow.fetch masks u = .ok mask ∧ mask.capacity = size ∧ ∀ v, mask.contains v = true ↔ rel u v := by
  have bound : u < masks.size := rep.length.symm ▸ inside
  have found : masks[u]? = some masks[u] := Array.getElem?_eq_getElem bound
  exact ⟨masks[u], fetch_of_lt bound, rep.entry u _ found⟩

/-- A set for each variable, made of a list for each variable. -/
theorem of_lists (size : Nat) (lists : VarId → List VarId) (inside : ∀ u < size, ∀ v ∈ lists u, v < size) :
    ∃ sets, (List.range size).mapM (fun u => BitSet.ofIndices size (lists u)) = .ok sets ∧
      Represents size sets.toArray fun u v => v ∈ lists u := by
  have each : ∀ u ∈ List.range size, ∃ set, BitSet.ofIndices size (lists u) = .ok set := by
    intro u member
    obtain ⟨set, made, _⟩ := BitSet.ofIndices_of_lt (inside u (List.mem_range.mp member))
    exact ⟨set, made⟩
  obtain ⟨sets, run⟩ := exists_mapM each
  refine ⟨sets, run, ?_, fun u set found => ?_⟩
  · rw [List.size_toArray, length_of_mapM run, List.length_range]
  · rw [List.getElem?_toArray] at found
    obtain ⟨x, at_u, made⟩ := (getElem?_of_mapM run).mp found
    obtain ⟨bound, rfl⟩ := List.getElem?_eq_some_iff.mp at_u
    rw [List.getElem_range] at made
    rw [List.length_range] at bound
    obtain ⟨set', made', capacity, members⟩ := BitSet.ofIndices_of_lt (inside u bound)
    cases made.symm.trans made'
    exact ⟨capacity, members⟩

/-- Marking `v` in the set of `q`. -/
theorem mark (rep : Represents size masks rel) {q v : VarId} (known : q < size) (inside : v < size) :
    ∃ out, (do
        let mask ← StackFlow.fetch masks q
        let (marked, _) ← mask.insert v
        replace masks q marked : Result (Array BitSet)) = .ok out ∧
      Represents size out fun a b => rel a b ∨ a = q ∧ b = v := by
  obtain ⟨mask, found, capacity, members⟩ := rep.fetch known
  have bound : q < masks.size := rep.length.symm ▸ known
  have fits : v < mask.capacity := capacity.symm ▸ inside
  refine ⟨masks.set q (mask.put v fits), ?_, ?_, fun u set at_u => ?_⟩
  · rw [found, ← replace_of_lt bound]
    simp only [bind, Except.bind, BitSet.insert_of_lt fits]
  · rw [Array.size_set, rep.length]
  · rw [Array.getElem?_set] at at_u
    split at at_u
    · rename_i here
      subst here
      cases at_u
      refine ⟨capacity, fun w => ?_⟩
      rw [BitSet.contains_put, Bool.or_eq_true, decide_eq_true_eq, members]
      exact or_congr_right ⟨fun same => ⟨rfl, same.symm⟩, fun same => same.2.symm⟩
    · rename_i there
      obtain ⟨capacity, members⟩ := rep.entry u set at_u
      refine ⟨capacity, fun w => (members w).trans ⟨.inl, fun either => ?_⟩⟩
      exact either.resolve_right fun same => there same.1.symm

/-- Marking `v` in the sets of a list of variables. -/
theorem mark_list (rep : Represents size masks rel) {qs : List VarId} {v : VarId} (known : ∀ q ∈ qs, q < size)
    (inside : v < size) :
    ∃ out, qs.foldlM (fun masks q => do
        let mask ← StackFlow.fetch masks q
        let (marked, _) ← mask.insert v
        replace masks q marked) masks = (.ok out : Result (Array BitSet)) ∧
      Represents size out fun a b => rel a b ∨ a ∈ qs ∧ b = v := by
  induction qs generalizing masks rel with
  | nil => exact ⟨masks, rfl, rep.congr fun a _ b => by simp⟩
  | cons q rest ih =>
    obtain ⟨next, first, rep⟩ := rep.mark (known q (by simp)) inside
    obtain ⟨out, others, rep⟩ := ih rep fun q member => known q (by simp [member])
    refine ⟨out, ?_, rep.congr fun a _ b => ?_⟩
    · rw [List.foldlM_cons, first]
      exact others
    · rw [List.mem_cons, or_assoc, or_and_right]

end Represents

namespace Scope

variable {s : Scope}

theorem ids_eq (s : Scope) : s.vars.toList.map Variable.id = List.range s.size := by
  apply List.ext_getElem?
  intro i
  rw [List.getElem?_map, Array.getElem?_toList]
  by_cases inside : i < s.size
  · have found : s.vars[i]? = some s.vars[i] := Array.getElem?_eq_getElem inside
    rw [found, Option.map_some, s.id_eq i _ found, List.getElem?_range inside]
  · rw [Array.getElem?_eq_none (Nat.le_of_not_lt inside), List.getElem?_eq_none (by simpa using inside)]
    rfl

theorem ancestors_lt {v q : VarId} (above : q ∈ s.ancestors v) : q < v := by
  fun_induction s.ancestors v with
  | case1 v none => cases above
  | case2 v p qualified lower ih =>
    rcases List.mem_cons.mp above with rfl | further
    · exact lower
    · exact Nat.lt_trans (ih further) lower

theorem mem_chain {u v : VarId} : u ∈ s.chain v ↔ u = v ∨ u ∈ s.ancestors v := by
  rw [chain, List.mem_reverse, List.mem_cons]

theorem le_of_mem_chain {u v : VarId} (member : u ∈ s.chain v) : u ≤ v := by
  rcases mem_chain.mp member with rfl | above
  · exact Nat.le_refl u
  · exact Nat.le_of_lt (ancestors_lt above)

variable {masks : Array BitSet} {rel : VarId → VarId → Prop}

theorem markAncestors_represents (rep : Represents s.size masks rel) {v : VarId} (known : v < s.size) :
    ∃ out, s.markAncestors masks v = .ok out ∧
      Represents s.size out fun a b => rel a b ∨ a ∈ s.ancestors v ∧ b = v :=
  rep.mark_list (fun _ above => Nat.lt_trans (ancestors_lt above) known) known

theorem foldlM_markAncestors (rep : Represents s.size masks rel) {vs : List VarId} (known : ∀ v ∈ vs, v < s.size) :
    ∃ out, vs.foldlM s.markAncestors masks = .ok out ∧
      Represents s.size out fun a b => rel a b ∨ b ∈ vs ∧ a ∈ s.ancestors b := by
  induction vs generalizing masks rel with
  | nil => exact ⟨masks, rfl, rep.congr fun a _ b => by simp⟩
  | cons v rest ih =>
    obtain ⟨next, first, rep⟩ := markAncestors_represents rep (known v (by simp))
    obtain ⟨out, others, rep⟩ := ih rep fun v member => known v (by simp [member])
    refine ⟨out, ?_, rep.congr fun a _ b => ?_⟩
    · rw [List.foldlM_cons, first]
      exact others
    · rw [List.mem_cons, or_assoc, or_and_right]
      refine or_congr_right (or_congr_left ⟨?_, ?_⟩)
      · rintro ⟨above, rfl⟩; exact ⟨rfl, above⟩
      · rintro ⟨rfl, above⟩; exact ⟨above, rfl⟩

/-- The kill mask of `u` has the variables whose chain goes through `u`. -/
theorem killMasks_represents (s : Scope) :
    ∃ masks, s.killMasks = .ok masks ∧ Represents s.size masks fun u v => v < s.size ∧ u ∈ s.chain v := by
  obtain ⟨own, made, rep⟩ := Represents.of_lists s.size (fun v => [v])
    fun u inside v member => List.mem_singleton.mp member ▸ inside
  obtain ⟨masks, run, rep⟩ := foldlM_markAncestors rep fun v => List.mem_range.mp
  refine ⟨masks, ?_, rep.congr fun u inside v => ?_⟩
  · rw [killMasks, made, ids_eq]
    exact run
  · rw [List.mem_singleton, List.mem_range, mem_chain]
    constructor
    · rintro (rfl | ⟨known, above⟩)
      · exact ⟨inside, .inl rfl⟩
      · exact ⟨known, .inr above⟩
    · rintro ⟨known, rfl | above⟩
      · exact .inl rfl
      · exact .inr ⟨known, above⟩

end Scope

theorem readMasks_represents (s : Scope) :
    ∃ masks, Liveness.readMasks s = .ok masks ∧ Represents s.size masks fun u v => v ∈ s.chain u := by
  obtain ⟨sets, made, rep⟩ := Represents.of_lists s.size s.chain
    fun u inside v member => Nat.lt_of_le_of_lt (Scope.le_of_mem_chain member) inside
  refine ⟨sets.toArray, ?_, rep⟩
  rw [Liveness.readMasks, Scope.ids_eq, made]
  rfl

namespace Liveness

variable {a : Liveness}

section Slots

variable {masks out : Std.HashMap UInt16 BitSet} {done nodes : List Nat} {n : Nat}

/-- The masks in the table are those of their slots, and no slot that one of the nodes
    returns over is missing. -/
structure SlotMasks (a : Liveness) (masks : Std.HashMap UInt16 BitSet) (nodes : List Nat) : Prop where
  entry : ∀ slot mask, masks[slot]? = some mask →
    mask.capacity = a.width ∧ ∀ v, mask.contains v = true ↔ a.routine.scope.Backs slot v
  present : ∀ n ∈ nodes, ∀ slot, a.instr n = .ok (.ret slot) → masks.contains slot = true

theorem slotMask_total (a : Liveness) (slot : UInt16) :
    ∃ mask, BitSet.ofIndices a.width (a.routine.scope.slotVariables slot) = .ok mask ∧ mask.capacity = a.width ∧
      ∀ v, mask.contains v = true ↔ a.routine.scope.Backs slot v := by
  obtain ⟨mask, made, capacity, members⟩ :=
    BitSet.ofIndices_of_lt fun v (backed : v ∈ a.routine.scope.slotVariables slot) => (Scope.mem_slotVariables.mp backed).lt
  exact ⟨mask, made, capacity, fun v => (members v).trans Scope.mem_slotVariables⟩

theorem SlotMasks.snoc (table : a.SlotMasks masks done)
    (known : ∀ slot, a.instr n = .ok (.ret slot) → masks.contains slot = true) : a.SlotMasks masks (done ++ [n]) := by
  refine ⟨table.entry, fun m member slot decoded => ?_⟩
  rcases List.mem_append.mp member with old | new
  · exact table.present m old slot decoded
  · cases List.mem_singleton.mp new
    exact known slot decoded

theorem SlotMasks.insert (table : a.SlotMasks masks done) {slot : UInt16} {mask : BitSet}
    (capacity : mask.capacity = a.width) (members : ∀ v, mask.contains v = true ↔ a.routine.scope.Backs slot v) :
    a.SlotMasks (masks.insert slot mask) done := by
  refine ⟨fun slot' mask' found => ?_, fun m member slot' decoded => ?_⟩
  · rw [Std.HashMap.getElem?_insert] at found
    split at found
    · rename_i same
      cases beq_iff_eq.mp same
      cases found
      exact ⟨capacity, members⟩
    · exact table.entry slot' mask' found
  · rw [Std.HashMap.contains_insert, table.present m member slot' decoded, Bool.or_true]

/-- A mask that is there already is kept, and a node that returns over no slot needs none. -/
theorem noteSlot_total (table : a.SlotMasks masks done) {instr : Instr} (decoded : a.instr n = .ok instr) :
    ∃ out, a.noteSlot masks n = .ok out ∧ a.SlotMasks out (done ++ [n]) := by
  unfold noteSlot
  rw [decoded]
  cases instr with
  | ret slot =>
    have only : ∀ slot', a.instr n = .ok (.ret slot') → slot' = slot := by
      intro slot' decoded'
      cases decoded.symm.trans decoded'
      rfl
    change ∃ out, (if masks.contains slot = true then pure masks else _) = Except.ok out ∧ _
    by_cases known : masks.contains slot = true
    · rw [if_pos known]
      exact ⟨masks, rfl, table.snoc fun slot' decoded' => only slot' decoded' ▸ known⟩
    · rw [if_neg known]
      obtain ⟨mask, made, capacity, members⟩ := slotMask_total a slot
      refine ⟨_, bind_eq_ok.mpr ⟨mask, made, rfl⟩, (table.insert capacity members).snoc fun slot' decoded' => ?_⟩
      rw [only slot' decoded']
      exact Std.HashMap.contains_insert_self
  | _ =>
    refine ⟨masks, rfl, table.snoc fun slot returns => ?_⟩
    cases decoded.symm.trans returns

theorem foldlM_noteSlot (table : a.SlotMasks masks done) (decodes : ∀ n ∈ nodes, ∃ instr, a.instr n = .ok instr) :
    ∃ out, nodes.foldlM a.noteSlot masks = .ok out ∧ a.SlotMasks out (done ++ nodes) := by
  induction nodes generalizing masks done with
  | nil => exact ⟨masks, rfl, by rwa [List.append_nil]⟩
  | cons n rest ih =>
    obtain ⟨⟨instr, decoded⟩, later⟩ := List.forall_mem_cons.mp decodes
    obtain ⟨mid, first, table⟩ := noteSlot_total table decoded
    obtain ⟨out, others, table⟩ := ih table later
    refine ⟨out, bind_eq_ok.mpr ⟨mid, first, others⟩, ?_⟩
    rwa [List.append_assoc] at table

end Slots

/-- Masks for all variables of the routine and all slots that it returns over. -/
structure Masked (a : Liveness) (masks : Masks) : Prop where
  kills : Represents a.width masks.kill fun u v => v < a.width ∧ u ∈ a.routine.scope.chain v
  reads : Represents a.width masks.read fun u v => v ∈ a.routine.scope.chain u
  slots : a.SlotMasks masks.slot (List.range a.skeleton.size)

/-- The masks are found if the nodes can be decoded, for then the slots can be noted. -/
theorem masks_total (decodes : ∀ n < a.skeleton.size, ∃ instr, a.instr n = .ok instr) :
    ∃ masks, a.masks = .ok masks ∧ a.Masked masks := by
  obtain ⟨kill, killed, kills⟩ := Scope.killMasks_represents a.routine.scope
  obtain ⟨read, marked, reads⟩ := readMasks_represents a.routine.scope
  have start : a.SlotMasks ∅ [] := ⟨by simp, by simp⟩
  obtain ⟨slot, noted, slots⟩ := foldlM_noteSlot start fun n member => decodes n (List.mem_range.mp member)
  refine ⟨⟨kill, read, slot⟩, ?_, kills, reads, slots⟩
  exact bind_eq_ok.mpr ⟨kill, killed, bind_eq_ok.mpr ⟨read, marked, bind_eq_ok.mpr ⟨slot, noted, rfl⟩⟩⟩

variable {live mask : BitSet}

/-- A set with a mask has the members of both. -/
theorem withMask_of_eq (same : live.capacity = mask.capacity) :
    ∃ out, withMask live mask = .ok out ∧ out.capacity = live.capacity ∧
      ∀ v, out.contains v = true ↔ live.contains v = true ∨ mask.contains v = true := by
  obtain ⟨included, tested, holds⟩ := BitSet.subset_of_eq same.symm
  cases included with
  | true =>
    have all := holds.mp rfl
    exact ⟨live, bind_eq_ok.mpr ⟨true, tested, rfl⟩, rfl, fun v => ⟨.inl, fun either => either.elim id (all v)⟩⟩
  | false =>
    have joined := BitSet.union_of_eq same
    refine ⟨live.join mask same, bind_eq_ok.mpr ⟨false, tested, bind_eq_ok.mpr ⟨_, joined, rfl⟩⟩, rfl, fun v => ?_⟩
    rw [BitSet.contains_join, Bool.or_eq_true]

/-- A set without a mask has the members that are not in the mask. -/
theorem withoutMask_of_eq (same : live.capacity = mask.capacity) :
    ∃ out, withoutMask live mask = .ok out ∧ out.capacity = live.capacity ∧
      ∀ v, out.contains v = true ↔ live.contains v = true ∧ ¬ mask.contains v = true := by
  have reduced := BitSet.difference_of_eq same
  have members : ∀ v, (live.minus mask same).contains v = true ↔ live.contains v = true ∧ ¬ mask.contains v = true := by
    intro v
    rw [BitSet.contains_minus, Bool.and_eq_true, Bool.not_eq_true', ← Bool.not_eq_true]
  by_cases kept : (live.minus mask same).words = live.words
  · refine ⟨live, bind_eq_ok.mpr ⟨_, reduced, ?_⟩, rfl, fun v => ?_⟩
    · simp [kept, pure, Except.pure]
    · rw [← members, BitSet.contains, BitSet.contains, kept]
  · refine ⟨live.minus mask same, bind_eq_ok.mpr ⟨_, reduced, ?_⟩, rfl, members⟩
    simp [kept, pure, Except.pure]

end Liveness

end StackFlow
