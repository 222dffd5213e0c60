import Mathlib
import StackFlow.Proofs.Masks

/-!
Qualifier chains and kill masks, after any list of declarations. Each declaration adds the
next number at the end or is refused, so a qualifier is always there before what it
qualifies; going from a variable to its qualifier again and again comes to an end, after
as many steps as the variable is deep (`climb_eq`). What the kill masks collect by climbing
each chain once is what the dependents are by definition: the variables whose chain goes
through a given one.
-/
namespace StackFlow

/-- The variable that is to hold the new one, if any, is among the first `count`. -/
def Declaration.knownTo (count : Nat) (d : Declaration) : Bool := d.kind.qualifier.all (· < count)

namespace Scope

/-- Makes a list of declarations; one that fails changes nothing. -/
def declareEach (s : Scope) (calls : List Declaration) : Scope :=
  calls.foldl (fun s d => match s.declare d with
    | .ok next => next
    | .error _ => s) s

/-- The declarations that succeed in a scope of `count` variables. -/
def admitted (count : Nat) : List Declaration → List Declaration
  | [] => []
  | d :: rest => if d.knownTo count then d :: admitted (count + 1) rest else admitted count rest

/-- The variable that is reached by going `k` times from a variable to its qualifier. -/
def climb (s : Scope) (v : VarId) : Nat → Option VarId
  | 0 => some v
  | k + 1 => (s.climb v k).bind s.qualifier

variable {s : Scope}

/-- A declaration adds one variable at the end, or its qualifier is unknown. -/
theorem declare_cases (s : Scope) (d : Declaration) :
    (d.knownTo s.size = true ∧ ∃ next, s.declare d = .ok next ∧ next.vars = s.vars.push ⟨s.size, d.kind, d.flags⟩) ∨
    (d.knownTo s.size = false ∧ ∃ q, d.kind.qualifier = some q ∧ s.declare d = reject (.unknownVariable q s.size)) := by
  unfold declare
  split
  · rename_i root
    exact .inl ⟨by simp [Declaration.knownTo, root], _, rfl, rfl⟩
  · rename_i q field
    by_cases inside : q < s.size
    · exact .inl ⟨by simpa [Declaration.knownTo, field] using inside, _, dif_pos inside, rfl⟩
    · exact .inr ⟨by simpa [Declaration.knownTo, field] using inside, q, field, dif_neg inside⟩

theorem vars_declareEach (s : Scope) (calls : List Declaration) :
    (s.declareEach calls).vars.toList =
      s.vars.toList ++ ((admitted s.size calls).zipIdx s.size).map fun (d, i) => ⟨i, d.kind, d.flags⟩ := by
  induction calls generalizing s with
  | nil => simp [declareEach, admitted]
  | cons d rest ih =>
    rw [declareEach, List.foldl_cons, admitted]
    rcases declare_cases s d with ⟨known, next, declared, vars⟩ | ⟨unknown, q, _, refused⟩
    · have size : next.size = s.size + 1 := by rw [Scope.size, vars, Array.size_push]; rfl
      rw [declared, if_pos known]
      refine (ih next).trans ?_
      rw [vars, size, Array.toList_push, List.append_assoc, List.zipIdx_cons, List.map_cons]
      rfl
    · rw [refused, if_neg (by simp [unknown])]
      exact ih s

theorem length_ancestors (s : Scope) (v : VarId) : (s.ancestors v).length = s.depth v := by
  fun_induction s.depth v with
  | case1 v root => rw [ancestors_root root]; rfl
  | case2 v q field lower ih => rw [ancestors_field field, List.length_cons, ih]

theorem ancestors_descending (s : Scope) (v : VarId) : (v :: s.ancestors v).Pairwise (· > ·) := by
  fun_induction s.ancestors v with
  | case1 v root => exact List.pairwise_singleton _ v
  | case2 v q field lower ih =>
    refine List.pairwise_cons.mpr ⟨fun u above => ?_, ih⟩
    rcases List.mem_cons.mp above with rfl | further
    · exact lower
    · exact Nat.lt_trans (ancestors_lt further) lower

theorem chain_ascending (s : Scope) (v : VarId) : (s.chain v).Pairwise (· < ·) :=
  List.pairwise_reverse.mpr (s.ancestors_descending v)

theorem climb_field {v q : VarId} (field : s.qualifier v = some q) (k : Nat) : s.climb v (k + 1) = s.climb q k := by
  induction k with
  | zero => exact field
  | succ k ih => rw [climb, ih, climb]

theorem climb_root {v : VarId} (root : s.qualifier v = none) (k : Nat) : s.climb v (k + 1) = none := by
  induction k with
  | zero => exact root
  | succ k ih => rw [climb, ih]; rfl

/-- Going from qualifier to qualifier meets the ancestors one after the other, and then ends. -/
theorem climb_eq (s : Scope) (v : VarId) (k : Nat) : s.climb v k = (v :: s.ancestors v)[k]? := by
  cases k with
  | zero => rfl
  | succ k =>
    rw [List.getElem?_cons_succ]
    fun_induction s.ancestors v generalizing k with
    | case1 v root => rw [climb_root root]; rfl
    | case2 v q field lower ih =>
      rw [climb_field field]
      cases k with
      | zero => rfl
      | succ k => rw [ih, List.getElem?_cons_succ]

theorem mem_dependents {v w : VarId} : w ∈ s.dependents v ↔ w < s.size ∧ w ≠ v ∧ v ∈ s.chain w := by
  rw [dependents, ids_eq, List.mem_filter, List.mem_range, Bool.and_eq_true, bne_iff_ne, List.contains_iff_mem]

theorem dependents_ascending (s : Scope) (v : VarId) : (s.dependents v).Pairwise (· < ·) := by
  rw [dependents, ids_eq]
  exact List.pairwise_lt_range.filter _

theorem mem_chain_iff {v w : VarId} (known : w < s.size) : v ∈ s.chain w ↔ w = v ∨ w ∈ s.dependents v := by
  rw [mem_dependents]
  constructor
  · intro member
    by_cases same : w = v
    · exact .inl same
    · exact .inr ⟨known, same, member⟩
  · rintro (rfl | ⟨_, _, member⟩)
    · exact mem_chain.mpr (.inl rfl)
    · exact member

/-- After any declarations, refused ones among them: the variables are those of the accepted
    declarations, numbered in their order, and a qualifier has the smaller number. The chain of
    a variable is what a walk over its qualifiers meets until it ends. A kill mask has just the
    variables whose chain goes through its own variable, that is, the variable and its
    dependents. -/
theorem masks_agree (calls : List Declaration) :
    let s := empty.declareEach calls
    s.vars.toList = (admitted 0 calls).zipIdx.map (fun (d, i) => ⟨i, d.kind, d.flags⟩) ∧
    (∀ i var, s.get? i = some var → var.id = i) ∧ (∀ v q, s.qualifier v = some q → q < v) ∧
    (∀ v k, s.climb v k = (s.chain v).reverse[k]? ∧ (s.climb v k = none ↔ s.depth v < k)) ∧
    (∀ v, (s.chain v).Pairwise (· < ·) ∧ (s.chain v).getLast? = some v ∧ (s.chain v).length = s.depth v + 1) ∧
    (∀ v, (s.dependents v).Pairwise (· < ·)) ∧
    ∃ masks, s.killMasks = .ok masks ∧ masks.size = s.size ∧
      ∀ v < s.size, ∀ w < s.size, ∃ mask, masks[v]? = some mask ∧
        (mask.contains w = true ↔ v ∈ s.chain w) ∧ (v ∈ s.chain w ↔ w = v ∨ w ∈ s.dependents v) := by
  intro s
  obtain ⟨masks, computed, rep⟩ := s.killMasks_represents
  have reversed : ∀ v, (s.chain v).reverse = v :: s.ancestors v := fun v => List.reverse_reverse _
  refine ⟨empty.vars_declareEach calls, fun i var => s.id_eq i var, fun v q => lt_of_qualifier, fun v k => ⟨?_, ?_⟩,
    fun v => ⟨s.chain_ascending v, ?_, ?_⟩, s.dependents_ascending, masks, computed, rep.length, fun v known w known' => ?_⟩
  · rw [reversed, climb_eq]
  · rw [climb_eq, List.getElem?_eq_none_iff, List.length_cons, length_ancestors, Nat.succ_le_iff]
  · rw [List.getLast?_eq_head?_reverse, reversed]; rfl
  · rw [chain, List.length_reverse, List.length_cons, length_ancestors]
  · obtain ⟨mask, found, _, marked⟩ := rep.fetch known
    refine ⟨mask, fetch_eq_ok.mp found, ?_, mem_chain_iff known'⟩
    rw [marked]
    exact and_iff_right known'

/-- A field of a field of an object, and among them a field whose holder is not there. -/
def holders : List Declaration :=
  [.this 0, .local 1 Flags.none, .field 0 "a", .field 7 "lost", .field 2 "b", .assertions]

theorem masks_agree_holders :
    ∃ masks mask, (empty.declareEach holders).killMasks = .ok masks ∧ masks[0]? = some mask ∧
      mask.contains 3 = true ∧ 3 ∈ (empty.declareEach holders).dependents 0 ∧ mask.contains 1 = false := by
  have size : (empty.declareEach holders).size = 5 := by cbv
  have field : (empty.declareEach holders).chain 3 = [0, 2, 3] := by cbv
  have root : (empty.declareEach holders).chain 1 = [1] := by cbv
  obtain ⟨_, _, _, _, _, _, masks, computed, _, agree⟩ := masks_agree holders
  obtain ⟨mask, found, marked, through⟩ := agree 0 (by omega) 3 (by omega)
  obtain ⟨mask', found', apart, _⟩ := agree 0 (by omega) 1 (by omega)
  cases found.symm.trans found'
  have member : 0 ∈ (empty.declareEach holders).chain 3 := by simp [field]
  refine ⟨masks, mask, computed, found, marked.mpr member, ?_, ?_⟩
  · exact (through.mp member).resolve_left (by decide)
  · rw [← Bool.not_eq_true, apart, root]
    simp

end Scope

end StackFlow
