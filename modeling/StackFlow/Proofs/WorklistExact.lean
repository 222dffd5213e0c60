import Mathlib
import StackFlow.Proofs.Propagation

/-!
What a run without a cancellation check answers, in terms of the reached items alone.
A run that succeeds has worked off exactly the reached items (`run_exact`). Whether it
succeeds is decided by how many of them there are and by how many of them are charged,
and not by the order in which the queue is emptied (`run_succeeds_iff`).
-/
namespace StackFlow.Worklist

variable {F : Type}

theorem isCharged_iff {p : Problem F} {item : Nat × F} :
    p.isCharged item = true ↔ ∀ out, p.transfer item.1 item.2 ≠ .ok (.pass out) := by
  unfold Problem.isCharged
  cases p.transfer item.1 item.2 with
  | error e => simp
  | ok flow => cases flow <;> simp

/-- The reached items. -/
def closure (p : Problem F) (seeds : List (Nat × F)) : Set (Nat × F) := {item | Reached p seeds item}

/-- The reached items whose transfer is charged. -/
def chargedItems (p : Problem F) (seeds : List (Nat × F)) : Set (Nat × F) :=
  {item | Reached p seeds item ∧ ∀ out, p.transfer item.1 item.2 ≠ .ok (.pass out)}

/-- Where the queue is popped does not matter to what is reached. -/
theorem closure_order (p : Problem F) (seeds : List (Nat × F)) (order : Order) :
    closure { p with order := order } seeds = closure p seeds := by
  ext item
  constructor
  · intro reached
    induction reached with
    | seed given => exact .seed given
    | sent _ becomes target ih => exact .sent ih becomes target
  · intro reached
    induction reached with
    | seed given => exact .seed given
    | sent _ becomes target ih => exact .sent ih becomes target

theorem encard_of_nodup {α : Type} [DecidableEq α] {xs : List α} (nodup : xs.Nodup) :
    {x | x ∈ xs}.encard = xs.length := by
  rw [← List.coe_toFinset, Set.encard_coe_eq_coe_finsetCard, List.toFinset_card_of_nodup nodup]

theorem length_le_encard {α : Type} [DecidableEq α] {xs : List α} {s : Set α} (nodup : xs.Nodup)
    (subset : ∀ x ∈ xs, x ∈ s) : (xs.length : ℕ∞) ≤ s.encard :=
  encard_of_nodup nodup ▸ Set.encard_le_encard subset

variable {p : Problem F} {seeds calls : List (Nat × F)}

/-- What the closure has to be like for a run to succeed. -/
structure Feasible (p : Problem F) (seeds : List (Nat × F)) : Prop where
  inside : ∀ item ∈ closure p seeds, item.1 < p.graph.nodeCount
  transferred : ∀ item ∈ closure p seeds, ∃ flow, p.transfer item.1 item.2 = .ok flow
  few : (closure p seeds).encard ≤ p.cap
  cheap : (chargedItems p seeds).encard ≤ p.budget

/-- The counters of a run that succeeds, and the closure as the list of its items. -/
theorem Verdict.of_ok {stats : Stats} (verdict : Verdict p seeds calls (.ok stats)) :
    stats = ⟨calls.countP p.isCharged, calls.length, calls.length⟩ ∧
      closure p seeds = {item | item ∈ calls} ∧
      chargedItems p seeds = {item | item ∈ calls.filter p.isCharged} := by
  cases verdict with
  | complete exact inside transferred within =>
    refine ⟨rfl, Set.ext fun item => (exact item).symm, Set.ext fun item => ?_⟩
    refine (and_congr (exact item) isCharged_iff).symm.trans ?_
    exact List.mem_filter.symm

theorem chargedItems_order (p : Problem F) (seeds : List (Nat × F)) (order : Order) :
    chargedItems { p with order := order } seeds = chargedItems p seeds := by
  ext item
  exact and_congr_left fun _ => Set.ext_iff.mp (closure_order p seeds order) item

theorem feasible_order (p : Problem F) (seeds : List (Nat × F)) (order : Order) :
    Feasible { p with order := order } seeds ↔ Feasible p seeds := by
  have all := closure_order p seeds order
  have charged := chargedItems_order p seeds order
  constructor
  · rintro ⟨inside, transferred, few, cheap⟩
    exact ⟨all ▸ inside, all ▸ transferred, all ▸ few, charged ▸ cheap⟩
  · rintro ⟨inside, transferred, few, cheap⟩
    exact ⟨all ▸ inside, all ▸ transferred, all ▸ few, charged ▸ cheap⟩

variable [DecidableEq F]

/-- Different items of the closure are charged as often as they are counted. -/
theorem countP_le_encard (nodup : calls.Nodup) (reached : ∀ item ∈ calls, Reached p seeds item) :
    (calls.countP p.isCharged : ℕ∞) ≤ (chargedItems p seeds).encard := by
  rw [List.countP_eq_length_filter]
  refine length_le_encard (nodup.filter _) fun item member => ?_
  obtain ⟨called, charged⟩ := List.mem_filter.mp member
  exact ⟨reached item called, isCharged_iff.mp charged⟩

theorem Verdict.feasible_of_ok {stats : Stats} (verdict : Verdict p seeds calls (.ok stats)) (nodup : calls.Nodup)
    (bounded : calls.length ≤ p.cap) : Feasible p seeds := by
  obtain ⟨_, all, charged⟩ := verdict.of_ok
  cases verdict with
  | complete exact inside transferred within =>
    refine ⟨?_, ?_, ?_, ?_⟩
    · intro item reached
      exact inside item ((exact item).mpr reached)
    · intro item reached
      exact transferred item ((exact item).mpr reached)
    · rw [all, encard_of_nodup nodup]
      exact_mod_cast bounded
    · rw [charged, encard_of_nodup (nodup.filter _), ← List.countP_eq_length_filter]
      exact_mod_cast within

/-- A run that fails on a closure without bad nodes and bad transfers has given up, and
    the closure is too large. -/
theorem Verdict.of_error {e : Failure} (verdict : Verdict p seeds calls (.error e)) (nodup : calls.Nodup)
    (inside : ∀ item ∈ closure p seeds, item.1 < p.graph.nodeCount)
    (transferred : ∀ item ∈ closure p seeds, ∃ flow, p.transfer item.1 item.2 = .ok flow) :
    (∃ steps ≤ p.budget + 1, e = .error (.tooComplex steps p.budget)) ∧
      ((p.cap : ℕ∞) < (closure p seeds).encard ∨ (p.budget : ℕ∞) < (chargedItems p seeds).encard) := by
  cases verdict with
  | outside reached beyond => exact absurd (inside _ reached) (Nat.not_lt.mpr beyond)
  | failed reached fails =>
    obtain ⟨flow, becomes⟩ := transferred _ reached
    cases becomes.symm.trans fails
  | overspent reached charged =>
    refine ⟨⟨p.budget + 1, Nat.le_refl _, rfl⟩, .inr ?_⟩
    have counted := countP_le_encard nodup reached
    rw [charged] at counted
    exact lt_of_lt_of_le (by exact_mod_cast Nat.lt_succ_self p.budget) counted
  | overrun reached waiting full within =>
    refine ⟨⟨_, Nat.le_succ_of_le within, rfl⟩, .inl ?_⟩
    have counted := length_le_encard (List.nodup_cons.mpr ⟨waiting, nodup⟩) reached
    rw [List.length_cons, full] at counted
    exact lt_of_lt_of_le (by exact_mod_cast Nat.lt_succ_self p.cap) counted

/-- A certificate of success: a list, short enough for the budget, that has the seeds and
    whatever its items send on. -/
def certifies (p : Problem F) (seeds items : List (Nat × F)) : Bool :=
  decide (items.length ≤ min p.cap p.budget) && seeds.all items.contains && items.all fun item =>
    decide (item.1 < p.graph.nodeCount) &&
      match p.transfer item.1 item.2 with
      | .ok flow => (flow.sends (p.near item.1)).all items.contains
      | .error _ => false

theorem certifies_iff {items : List (Nat × F)} :
    certifies p seeds items = true ↔ (items.length ≤ min p.cap p.budget ∧ ∀ item ∈ seeds, item ∈ items) ∧
      ∀ item ∈ items, item.1 < p.graph.nodeCount ∧
        ∃ flow, p.transfer item.1 item.2 = .ok flow ∧ ∀ next ∈ flow.sends (p.near item.1), next ∈ items := by
  unfold certifies
  simp only [Bool.and_eq_true, List.all_eq_true, decide_eq_true_eq, List.contains_iff_mem]
  refine and_congr_right fun _ => forall₂_congr fun item _ => and_congr_right fun _ => ?_
  cases p.transfer item.1 item.2 <;> simp

theorem mem_of_certifies {items : List (Nat × F)} (certified : certifies p seeds items = true) {item : Nat × F}
    (reached : Reached p seeds item) : item ∈ items := by
  obtain ⟨⟨_, seeded⟩, closed⟩ := certifies_iff.mp certified
  induction reached with
  | seed given => exact seeded _ given
  | sent _ becomes target ih =>
    obtain ⟨_, flow, same, sent⟩ := closed _ ih
    cases becomes.symm.trans same
    exact sent _ target

theorem feasible_of_certifies {items : List (Nat × F)} (certified : certifies p seeds items = true) : Feasible p seeds := by
  obtain ⟨⟨short, _⟩, closed⟩ := certifies_iff.mp certified
  have listed : ∀ item ∈ closure p seeds, item ∈ items := fun item => mem_of_certifies certified
  have bounded : (closure p seeds).encard ≤ items.length := by
    calc (closure p seeds).encard ≤ {item | item ∈ items}.encard := Set.encard_le_encard listed
      _ = (items.toFinset.card : ℕ∞) := by rw [← List.coe_toFinset, Set.encard_coe_eq_coe_finsetCard]
      _ ≤ items.length := by exact_mod_cast items.toFinset_card_le
  refine ⟨fun item reached => (closed item (listed item reached)).1, fun item reached => ?_, ?_, ?_⟩
  · obtain ⟨_, flow, becomes, _⟩ := closed item (listed item reached)
    exact ⟨flow, becomes⟩
  · exact bounded.trans (by exact_mod_cast short.trans (Nat.min_le_left _ _))
  · calc (chargedItems p seeds).encard ≤ (closure p seeds).encard := Set.encard_le_encard fun item charged => charged.1
      _ ≤ items.length := bounded
      _ ≤ p.budget := by exact_mod_cast short.trans (Nat.min_le_right _ _)

variable [Hashable F]

theorem ok_iff_feasible (p : Problem F) (seeds : List (Nat × F)) :
    (∃ stats, (run p none seeds).result = .ok stats) ↔ Feasible p seeds := by
  obtain ⟨verdict, nodup, bounded⟩ := run_justified p seeds
  constructor
  · rintro ⟨stats, finished⟩
    rw [finished] at verdict
    exact verdict.feasible_of_ok nodup bounded
  · intro feasible
    cases ended : (run p none seeds).result with
    | ok stats => exact ⟨stats, rfl⟩
    | error e =>
      rw [ended] at verdict
      rcases (verdict.of_error nodup feasible.inside feasible.transferred).2 with many | dear
      · exact absurd feasible.few (not_le.mpr many)
      · exact absurd feasible.cheap (not_le.mpr dear)

theorem mem_calls_iff {stats : Stats} (finished : (run p none seeds).result = .ok stats) (item : Nat × F) :
    item ∈ (run p none seeds).log.calls.toList ↔ Reached p seeds item := by
  have verdict := (run_justified p seeds).verdict
  rw [finished] at verdict
  exact (Set.ext_iff.mp verdict.of_ok.2.1 item).symm

/-- An answer is read off reached items, if the closure allows the run to succeed. -/
theorem collect_of_feasible {α : Type} (feasible : Feasible p seeds) (answer : List (Nat × F) → Result α) :
    ∃ calls, ((run p none seeds).collect answer).result = answer calls ∧ ∀ item ∈ calls, Reached p seeds item := by
  obtain ⟨stats, finished⟩ := (ok_iff_feasible p seeds).mpr feasible
  have verdict := (run_justified p seeds).verdict
  rw [finished] at verdict
  cases verdict with
  | complete exact _ _ _ =>
    refine ⟨_, ?_, fun item => (exact item).mp⟩
    unfold Outcome.collect
    rw [finished]

/-- Exactness: a run that succeeds has given every reached item to the transfer function,
    each of them once and no other, and its counters count them. -/
theorem run_exact (p : Problem F) (seeds : List (Nat × F)) (stats : Stats)
    (finished : (run p none seeds).result = .ok stats) :
    (run p none seeds).log.calls.toList.Nodup ∧
      (∀ item, item ∈ (run p none seeds).log.calls.toList ↔ Reached p seeds item) ∧
      (stats.dequeued : ℕ∞) = (closure p seeds).encard ∧ stats.pairs = stats.dequeued ∧
      (stats.steps : ℕ∞) = (chargedItems p seeds).encard := by
  obtain ⟨verdict, nodup, _⟩ := run_justified p seeds
  rw [finished] at verdict
  obtain ⟨rfl, all, charged⟩ := verdict.of_ok
  refine ⟨nodup, fun item => (Set.ext_iff.mp all item).symm, ?_, rfl, ?_⟩
  · rw [all, encard_of_nodup nodup]
  · rw [charged, encard_of_nodup (nodup.filter _), List.countP_eq_length_filter]

/-- Three nodes in a ring, one edge of it doubled. Facts flip at node 1, and node 2 sends
    them back there, so that two facts circle behind the node they came in by. -/
def ring : Problem Nat where
  graph := Digraph.ofEdges 3 [(0, 1), (0, 1), (1, 2), (2, 0)]
  direction := .forward
  order := .lifo
  budget := 4
  interval := 1
  transfer := fun node fact =>
    .ok (if node = 0 then .pass fact else if node = 1 then .continue (1 - fact) else .redirect fact [1])

theorem run_exact_ring :
    (run ring none [(0, 0), (0, 0)]).result = .ok ⟨4, 5, 5⟩ ∧ (closure ring [(0, 0), (0, 0)]).encard = 5 ∧
      (chargedItems ring [(0, 0), (0, 0)]).encard = 4 := by
  have finished : (run ring none [(0, 0), (0, 0)]).result = .ok ⟨4, 5, 5⟩ := by cbv
  obtain ⟨_, _, dequeued, _, steps⟩ := run_exact ring _ _ finished
  exact ⟨finished, dequeued.symm, steps.symm⟩

theorem error_of_sound_closure (p : Problem F) (seeds : List (Nat × F))
    (inside : ∀ item ∈ closure p seeds, item.1 < p.graph.nodeCount)
    (transferred : ∀ item ∈ closure p seeds, ∃ flow, p.transfer item.1 item.2 = .ok flow) {e : Failure}
    (ended : (run p none seeds).result = .error e) : ∃ steps ≤ p.budget + 1, e = .error (.tooComplex steps p.budget) := by
  obtain ⟨verdict, nodup, _⟩ := run_justified p seeds
  rw [ended] at verdict
  exact (verdict.of_error nodup inside transferred).1

theorem ok_order (p : Problem F) (seeds : List (Nat × F)) (order : Order) :
    (∃ stats, (run { p with order := order } none seeds).result = .ok stats) ↔
      ∃ stats, (run p none seeds).result = .ok stats := by
  rw [ok_iff_feasible, ok_iff_feasible, feasible_order]

/-- When a run succeeds: no reached item is off the graph or fails, the closure has at most
    as many items as a run may take, and at most as many of them as there are steps in the
    budget are charged. If only the counts stand in its way, the run gives up. The order of
    the queue has no say in this. -/
theorem run_succeeds_iff (g : Digraph) (direction : Direction) (config : Config)
    (transfer : Nat → F → Result (Flow F)) (seeds : List (Nat × F)) :
    let p := Problem.ofConfig g direction config transfer
    p.budget = min (max g.edgeCount 1 * config.stepMultiplier) 18446744073709551615 ∧
    p.cap = min (2 * p.budget) 18446744073709551615 ∧
    (run p none seeds).log.calls.size ≤ p.cap ∧
    ((∃ stats, (run p none seeds).result = .ok stats) ↔
      (∀ item ∈ closure p seeds, item.1 < g.nodeCount) ∧
      (∀ item ∈ closure p seeds, ∃ flow, transfer item.1 item.2 = .ok flow) ∧
      (closure p seeds).encard ≤ p.cap ∧ (chargedItems p seeds).encard ≤ p.budget) ∧
    ((∀ item ∈ closure p seeds, item.1 < g.nodeCount) →
      (∀ item ∈ closure p seeds, ∃ flow, transfer item.1 item.2 = .ok flow) →
      ∀ e, (run p none seeds).result = .error e → ∃ steps ≤ p.budget + 1, e = .error (.tooComplex steps p.budget)) ∧
    ∀ order, (∃ stats, (run { p with order := order } none seeds).result = .ok stats) ↔
      ∃ stats, (run p none seeds).result = .ok stats := by
  intro p
  refine ⟨rfl, rfl, ?_, ?_, ?_, ok_order p seeds⟩
  · have bounded := (run_justified p seeds).bounded
    rwa [Array.length_toList] at bounded
  · rw [ok_iff_feasible]
    constructor
    · rintro ⟨inside, transferred, few, cheap⟩
      exact ⟨inside, transferred, few, cheap⟩
    · rintro ⟨inside, transferred, few, cheap⟩
      exact ⟨inside, transferred, few, cheap⟩
  · intro inside transferred e ended
    exact error_of_sound_closure p seeds inside transferred ended

/-- A loop whose facts grow without end. -/
def growth : Problem Nat :=
  Problem.ofConfig (Digraph.ofEdges 1 [(0, 0)]) .forward { Config.standard with stepMultiplier := 5 }
    fun _ fact => .ok (.continue (fact + 1))

theorem growth_stays {item : Nat × Nat} (reached : Reached growth [(0, 0)] item) : item.1 = 0 := by
  induction reached with
  | seed given => rw [List.mem_singleton.mp given]
  | @sent item next flow source becomes target ih =>
    have loops : growth.near item.1 = [0] := by rw [ih]; rfl
    cases becomes
    obtain ⟨node, near, rfl⟩ := List.mem_map.mp target
    rw [loops] at near
    exact List.mem_singleton.mp near

theorem run_succeeds_iff_growth :
    (∃ e, (run growth none [(0, 0)]).result = .error e ∧ ∃ steps ≤ 6, e = .error (.tooComplex steps 5)) ∧
      ∀ order stats, (run { growth with order := order } none [(0, 0)]).result ≠ .ok stats := by
  obtain ⟨_, _, _, _, gives_up, order_free⟩ := run_succeeds_iff (Digraph.ofEdges 1 [(0, 0)]) .forward
    { Config.standard with stepMultiplier := 5 } (fun _ fact => .ok (.continue (fact + 1))) [(0, 0)]
  have ended : (run growth none [(0, 0)]).result = .error (.error (.tooComplex 6 5)) := by cbv
  have inside : ∀ item ∈ closure growth [(0, 0)], item.1 < 1 := fun item reached => by rw [growth_stays reached]; decide
  refine ⟨⟨_, ended, gives_up inside (fun item _ => ⟨_, rfl⟩) _ ended⟩, fun order stats finished => ?_⟩
  obtain ⟨other, contrary⟩ := (order_free order).mp ⟨stats, finished⟩
  cases ended.symm.trans contrary

end StackFlow.Worklist
