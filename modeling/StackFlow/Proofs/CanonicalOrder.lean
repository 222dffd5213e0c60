import Mathlib
import StackFlow.Proofs.GeneratedClasses

/-!
The order of variables and the canonical members of classes. Chains are compared by their
length and then from the root on; the same order can be said by a recursion that starts
at the variables and climbs both chains at once (`qualifierOrder`). It is a total order in
which no two variables are equal, so a class has one least member, and that member depends
on nothing but the variables that are in one class.
-/
namespace StackFlow

namespace Scope

/-- A variable without a qualifier comes before one with a qualifier. Otherwise the
    qualifiers decide, if there are any, and then the numbers. -/
def qualifierOrder (s : Scope) (a b : VarId) : Ordering :=
  match qualified : s.qualifier a, s.qualifier b with
  | none, none => compare a b
  | none, some _ => .lt
  | some _, none => .gt
  | some p, some q =>
    have := lt_of_qualifier qualified
    (s.qualifierOrder p q).then (compare a b)
termination_by a

variable {s : Scope}

theorem chain_root {v : VarId} (unqualified : s.qualifier v = none) : s.chain v = [v] := by
  rw [chain, ancestors_root unqualified]
  rfl

theorem chain_field {v q : VarId} (qualified : s.qualifier v = some q) : s.chain v = s.chain q ++ [v] := by
  rw [chain, ancestors_field qualified, chain, List.reverse_cons]

theorem length_chain_pos (v : VarId) : 0 < (s.chain v).length := by simp [chain]

/-- A chain ends with its variable. -/
theorem chain_injective {a b : VarId} (same : s.chain a = s.chain b) : a = b :=
  (List.cons.inj (List.reverse_inj.mp same)).1

theorem compare_concat {xs ys : List VarId} (same : xs.length = ys.length) (a b : VarId) :
    compare (xs ++ [a]) (ys ++ [b]) = (compare xs ys).then (compare a b) := by
  induction xs generalizing ys with
  | nil =>
    cases ys with
    | nil =>
      rw [List.nil_append, List.nil_append, List.compare_cons_cons, List.compare_nil_nil, Ordering.then_eq]
      rfl
    | cons y ys => cases same
  | cons x xs ih =>
    cases ys with
    | nil => cases same
    | cons y ys =>
      rw [List.cons_append, List.cons_append, List.compare_cons_cons, List.compare_cons_cons, ih (Nat.succ.inj same),
        Ordering.then_assoc]

/-- One more variable at the end of both chains decides if nothing before it does. -/
theorem compareChains_concat (xs ys : List VarId) (a b : VarId) :
    compareChains (xs ++ [a]) (ys ++ [b]) = (compareChains xs ys).then (compare a b) := by
  have lengths : compare (xs ++ [a]).length (ys ++ [b]).length = compare xs.length ys.length := by
    simp only [List.length_append, List.length_singleton, Nat.compare_eq_ite_lt, Nat.add_lt_add_iff_right]
  unfold compareChains
  rw [lengths, Ordering.then_assoc]
  by_cases same : xs.length = ys.length
  · rw [compare_concat same]
  · have decided : compare xs.length ys.length ≠ .eq := fun equal => same (Nat.compare_eq_eq.mp equal)
    cases longer : compare xs.length ys.length with
    | eq => exact absurd longer decided
    | lt => rfl
    | gt => rfl

/-- Comparing chains from the root on is the recursion over the qualifiers. -/
theorem canonicalOrder_eq (a b : VarId) : s.canonicalOrder a b = s.qualifierOrder a b := by
  unfold canonicalOrder
  -- The recursion climbs both chains at once until one of them ends.
  fun_induction s.qualifierOrder a b with
  | case1 a b rootA rootB =>
    rw [chain_root rootA, chain_root rootB]
    exact compareChains_concat [] [] a b
  | case2 a b q rootA fieldB =>
    rw [chain_root rootA, chain_field fieldB, compareChains]
    have shorter : compare [a].length (s.chain q ++ [b]).length = .lt := by
      have some := length_chain_pos (s := s) q
      rw [Nat.compare_eq_lt, List.length_append, List.length_singleton, List.length_singleton]
      omega
    rw [shorter]
    rfl
  | case3 a b p fieldA rootB =>
    rw [chain_field fieldA, chain_root rootB, compareChains]
    have longer : compare (s.chain p ++ [a]).length [b].length = .gt := by
      have some := length_chain_pos (s := s) p
      rw [Nat.compare_eq_gt, List.length_append, List.length_singleton, List.length_singleton]
      omega
    rw [longer]
    rfl
  | case4 a b p q fieldA fieldB lower ih =>
    rw [chain_field fieldA, chain_field fieldB, compareChains_concat, ih]

instance (s : Scope) : Std.TransCmp s.canonicalOrder :=
  inferInstanceAs (Std.TransCmp (compareLex (compareOn fun v => (s.chain v).length) (compareOn s.chain)))

instance (s : Scope) : Std.LawfulEqCmp s.canonicalOrder where
  compare_self := Std.ReflCmp.compare_self
  eq_of_compare := by
    intro a b equal
    exact chain_injective (Std.LawfulEqCmp.eq_of_compare (Ordering.then_eq_eq.mp equal).2)

end Scope

namespace Classes

/-- The variables are in one class. -/
def Together (c : Classes) (u v : VarId) : Prop := (c.classOf? u).isSome = true ∧ c.classOf? u = c.classOf? v

instance (c : Classes) (u v : VarId) : Decidable (c.Together u v) := inferInstanceAs (Decidable (_ ∧ _))

/-- The variable comes before all others that are like it. -/
def Foremost (scope : Scope) (alike : VarId → Prop) (v : VarId) : Prop :=
  alike v ∧ ∀ w, alike w → w ≠ v → scope.canonicalOrder v w = .lt

variable {scope : Scope} {c : Classes}

theorem Foremost.unique {alike : VarId → Prop} {u v : VarId} (one : Foremost scope alike u)
    (other : Foremost scope alike v) : u = v := by
  by_contra different
  have before := one.2 v other.1 (Ne.symm different)
  have after := other.2 u one.1 different
  exact Std.OrientedCmp.not_lt_of_lt before after

theorem Foremost.congr {alike alike' : VarId → Prop} {v : VarId} (first : Foremost scope alike v)
    (same : ∀ w, alike w ↔ alike' w) : Foremost scope alike' v := by
  have equal : alike = alike' := funext fun w => propext (same w)
  exact equal ▸ first

/-- A variable that comes after one of the others changes nothing. -/
theorem Foremost.insert {alike : VarId → Prop} {u v w : VarId} (first : Foremost scope alike v) (member : alike u)
    (behind : (scope.canonicalOrder u w).isLE = true) : Foremost scope (fun x => x = w ∨ alike x) v := by
  refine ⟨.inr first.1, ?_⟩
  rintro x (rfl | listed) other
  · have ahead : (scope.canonicalOrder v u).isLE = true := by
      by_cases same : u = v
      · rw [same]
        exact Std.ReflCmp.isLE_rfl
      · exact Ordering.isLE_of_eq_lt (first.2 u member same)
    cases place : scope.canonicalOrder v x with
    | lt => rfl
    | eq => exact absurd (Std.LawfulEqCmp.eq_of_compare place).symm other
    | gt =>
      have never := Std.TransCmp.isLE_trans ahead behind
      rw [place] at never
      cases never
  · exact first.2 x listed other

/-- Going through a list, the best so far is the foremost of what has been seen. -/
theorem foremost_foldl (best : VarId) (rest : List VarId) :
    Foremost scope (· ∈ best :: rest)
      (rest.foldl (fun best w => if scope.canonicalOrder w best = .lt then w else best) best) := by
  induction rest generalizing best with
  | nil => exact ⟨by simp, fun w member other => absurd (List.mem_singleton.mp member) other⟩
  | cons x rest ih =>
    rw [List.foldl_cons]
    by_cases earlier : scope.canonicalOrder x best = .lt
    · rw [if_pos earlier]
      refine ((ih x).insert (w := best) List.mem_cons_self (Ordering.isLE_of_eq_lt earlier)).congr fun w => ?_
      rw [List.mem_cons (a := w) (b := best)]
    · rw [if_neg earlier]
      have behind : (scope.canonicalOrder best x).isLE = true := by
        have turned : scope.canonicalOrder best x = (scope.canonicalOrder x best).swap := Std.OrientedCmp.eq_swap
        rw [turned]
        cases place : scope.canonicalOrder x best with
        | lt => exact absurd place earlier
        | eq => rfl
        | gt => rfl
      refine ((ih best).insert (w := x) List.mem_cons_self behind).congr fun w => ?_
      simp only [List.mem_cons]
      exact or_left_comm

theorem foremost_of_least {values : List VarId} {v : VarId} (found : least scope values = some v) :
    Foremost scope (· ∈ values) v := by
  cases values with
  | nil => cases found
  | cons best rest =>
    cases found
    exact foremost_foldl best rest

/-- The canonical member of a class that exists is the foremost of its members. -/
theorem canonical_eq_ok (same : c.scope = scope) (consistent : c.Consistent) {id : Nat} {set : SortedSet}
    (found : c.get id = .ok set) {v : VarId} : c.canonical id = .ok v ↔ Foremost scope (· ∈ set.values) v := by
  obtain ⟨w, answered⟩ := canonical_total consistent found
  have first : Foremost scope (· ∈ set.values) w := by
    obtain ⟨members, found', chosen⟩ := bind_eq_ok.mp answered
    cases found.symm.trans found'
    cases listed : least c.scope set.values with
    | none =>
      rw [listed] at chosen
      cases chosen
    | some u =>
      rw [listed] at chosen
      cases chosen
      exact same ▸ foremost_of_least listed
  rw [answered, Except.ok.injEq]
  constructor
  · rintro rfl
    exact first
  · intro other
    exact first.unique other

/-- The variable that stands for `v` is the foremost of those in one class with `v`, and of
    `v` itself. -/
theorem canonicalOf_eq_ok (same : c.scope = scope) (consistent : c.Consistent) {v w : VarId} :
    c.canonicalOf v = .ok w ↔ Foremost scope (fun u => u = v ∨ c.Together v u) w := by
  unfold canonicalOf
  cases found : c.classOf? v with
  | none =>
    have alone : ∀ u, u = v ∨ c.Together v u ↔ u = v := by
      intro u
      refine ⟨fun either => either.resolve_right ?_, .inl⟩
      rintro ⟨classed, _⟩
      rw [found] at classed
      cases classed
    rw [Except.ok.injEq]
    constructor
    · rintro rfl
      exact ⟨.inl rfl, fun u alike other => absurd ((alone u).mp alike) other⟩
    · intro first
      exact ((alone w).mp first.1).symm
  | some id =>
    obtain ⟨set, listed⟩ := consistent.live v id found
    have members := (consistent.members id set listed).2
    have together : ∀ u, u ∈ set.values ↔ u = v ∨ c.Together v u := by
      intro u
      rw [members]
      constructor
      · intro here
        exact .inr ⟨by rw [found]; rfl, found.trans here.symm⟩
      · rintro (rfl | ⟨_, equal⟩)
        · exact found
        · exact equal.symm.trans found
    change c.canonical id = _ ↔ _
    rw [canonical_eq_ok same consistent (get_eq_ok.mpr listed)]
    exact ⟨fun first => first.congr together, fun first => first.congr fun u => (together u).symm⟩

/-- Classes with the same variables together have the same canonical members, be a variable
    in a class of its own or in none. -/
theorem canonicalOf_congr {c' : Classes} (same : c.scope = scope) (consistent : c.Consistent) (same' : c'.scope = scope)
    (consistent' : c'.Consistent) (together : ∀ u v, u ≠ v → (c.Together u v ↔ c'.Together u v)) (v : VarId) :
    c.canonicalOf v = c'.canonicalOf v := by
  obtain ⟨w, answered⟩ := canonicalOf_total consistent v
  rw [answered, eq_comm, canonicalOf_eq_ok same' consistent']
  refine ((canonicalOf_eq_ok same consistent).mp answered).congr fun u => ?_
  by_cases here : u = v
  · exact iff_of_true (.inl here) (.inl here)
  · exact or_congr_right (together v u (Ne.symm here))

/-- Variables are ordered as their qualifiers say, totally and strictly. The canonical
    member of a class is the one member that comes before all others. Which requests made
    the classes, and in which order, plays no part in this. -/
theorem canonical_foremost (scope : Scope) :
    (∀ a b, scope.canonicalOrder a b = scope.qualifierOrder a b) ∧
    (∀ a b, scope.canonicalOrder a b = .eq ↔ a = b) ∧
    (∀ a b, scope.canonicalOrder b a = (scope.canonicalOrder a b).swap) ∧
    (∀ a b c, scope.canonicalOrder a b = .lt → scope.canonicalOrder b c = .lt → scope.canonicalOrder a c = .lt) ∧
    (∀ requests id set, ((start scope).after requests).get id = .ok set →
      ∃ v, ((start scope).after requests).canonical id = .ok v ∧ v ∈ set.values ∧
        (∀ w ∈ set.values, w ≠ v → scope.canonicalOrder v w = .lt) ∧
        ∀ u ∈ set.values, (∀ w ∈ set.values, w ≠ u → scope.canonicalOrder u w = .lt) → u = v) ∧
    ∀ requests requests',
      (∀ u v, u ≠ v → (((start scope).after requests).Together u v ↔ ((start scope).after requests').Together u v)) →
      ∀ v, ((start scope).after requests).canonicalOf v = ((start scope).after requests').canonicalOf v := by
  refine ⟨Scope.canonicalOrder_eq, fun a b => Std.LawfulEqCmp.compare_eq_iff_eq, fun a b => Std.OrientedCmp.eq_swap,
    fun a b c => Std.TransCmp.lt_trans, fun requests id set found => ?_, fun requests requests' together v => ?_⟩
  · have generates := generates_after scope requests
    obtain ⟨v, answered⟩ := canonical_total generates.consistent found
    have first := (canonical_eq_ok generates.scope generates.consistent found).mp answered
    exact ⟨v, answered, first.1, first.2, fun u member least => Foremost.unique ⟨member, least⟩ first⟩
  · have generates := generates_after scope requests
    have generates' := generates_after scope requests'
    exact canonicalOf_congr generates.scope generates.consistent generates'.scope generates'.consistent together v

theorem Enters.lt_size {request : Request} {v : VarId} (enters : Enters scope request v) : v < scope.size := by
  cases enters <;> assumption

/-- Variables that are together are known. -/
theorem Together.lt_size {requests : List Request} {u v : VarId} (together : ((start scope).after requests).Together u v) :
    u < scope.size ∧ v < scope.size := by
  have known : ∀ w, (((start scope).after requests).classOf? w).isSome = true → w < scope.size := by
    intro w classed
    obtain ⟨request, _, enters⟩ := ((generates_after scope requests).domain w).mp (Option.isSome_iff_exists.mp classed)
    exact enters.lt_size
  exact ⟨known u together.1, known v (together.2 ▸ together.1)⟩

/-- The fields 2 and 4 and the local 3 come into one class, by way of merges in two orders.
    The local is canonical, although it has not the least number. -/
theorem canonical_foremost_twoOrders :
    ∃ scope, Scope.empty.declareAll [.this 0, .local 1 Flags.none, .field 0 "a", .local 2 Flags.none, .field 2 "b"] =
        .ok scope ∧
      ((start scope).after [.merge 4 2, .merge 2 3, .insert 0]).canonicalOf 4 = .ok 3 ∧
      ∀ v, ((start scope).after [.merge 4 2, .merge 2 3, .insert 0]).canonicalOf v =
        ((start scope).after [.merge 3 4, .merge 1 9, .merge 2 4]).canonicalOf v := by
  have computed : (do
      let scope ← Scope.empty.declareAll [.this 0, .local 1 Flags.none, .field 0 "a", .local 2 Flags.none, .field 2 "b"]
      let c := (start scope).after [.merge 4 2, .merge 2 3, .insert 0]
      let c' := (start scope).after [.merge 3 4, .merge 1 9, .merge 2 4]
      let agree := (List.range 5).all fun u => (List.range 5).all fun v =>
        u == v || decide (c.Together u v ↔ c'.Together u v)
      return (scope.size, agree, c.canonicalOf 4) : Result _) = .ok (5, true, .ok 3) := by cbv
  obtain ⟨scope, declared, computed⟩ := bind_eq_ok.mp computed
  simp only [pure, Except.pure, Except.ok.injEq, Prod.mk.injEq] at computed
  obtain ⟨size, agree, answered⟩ := computed
  obtain ⟨_, _, _, _, _, unique⟩ := canonical_foremost scope
  refine ⟨scope, declared, answered, unique _ _ fun u v other => ?_⟩
  simp only [List.all_eq_true, List.mem_range, Bool.or_eq_true, beq_iff_eq, decide_eq_true_eq] at agree
  by_cases known : u < 5 ∧ v < 5
  · exact (agree u known.1 v known.2).resolve_left other
  · exact iff_of_false (fun together => known (size ▸ together.lt_size)) fun together => known (size ▸ together.lt_size)

end Classes

end StackFlow
