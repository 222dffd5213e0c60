import StackFlow.Proofs.LivenessTotal
import StackFlow.Proofs.OriginTrails

/-!
The order in which the queue of a run is emptied cannot be seen from outside. It decides
neither what is reached nor whether the run succeeds; if every reached item is charged, it
does not even decide after how many steps the run gives up (`Sane.gaveUp`). So an answer
that depends on the set of reached items only is the same in every order
(`collect_order`). Live sets and flush plans are of this kind, because what comes to a
node is united. In the search for origins items pass without a charge, and so only its
answers are compared.
-/
namespace StackFlow

open Worklist

namespace Worklist

variable {F : Type} [DecidableEq F] [Hashable F] {p : Problem F} {seeds : List (Nat × F)}

/-- With all reached items charged, a run gives up when the budget is exceeded or when it
    has taken as many items as it may, whichever comes first. -/
theorem Sane.gaveUp (sane : Sane p seeds) (charged : ∀ item, Reached p seeds item → p.isCharged item = true) {e : Failure}
    (ended : (run p none seeds).result = .error e) :
    e = .error (.tooComplex (min p.cap (p.budget + 1)) p.budget) := by
  obtain ⟨verdict, _, bounded⟩ := run_justified p seeds
  rw [ended] at verdict
  generalize (run p none seeds).log.calls.toList = calls at verdict bounded
  cases verdict with
  | outside reached beyond => exact absurd (sane.inside _ reached) (Nat.not_lt.mpr beyond)
  | failed reached fails =>
    obtain ⟨flow, becomes⟩ := sane.transferred _ reached
    cases becomes.symm.trans fails
  | overspent reached spent =>
    have counted := List.countP_le_length (p := p.isCharged) (l := calls)
    have first : min p.cap (p.budget + 1) = p.budget + 1 := by omega
    rw [first]
  | overrun reached waiting full within =>
    have counted : calls.countP p.isCharged = calls.length :=
      List.countP_eq_length.mpr fun item member => charged item (reached item (List.mem_cons_of_mem _ member))
    have first : min p.cap (p.budget + 1) = calls.countP p.isCharged := by omega
    rw [first]

/-- An answer that depends on what is reached, and on nothing else, does not depend on the
    order of the queue. -/
theorem collect_order {α : Type} (sane : Sane p seeds) (charged : ∀ item, Reached p seeds item → p.isCharged item = true)
    {answer : List (Nat × F) → Result α}
    (agree : ∀ calls calls', (∀ item, item ∈ calls ↔ Reached p seeds item) →
      (∀ item, item ∈ calls' ↔ Reached p seeds item) → answer calls = answer calls') (order : Order) :
    ((run { p with order := order } none seeds).collect answer).result = ((run p none seeds).collect answer).result := by
  have same : ∀ item, Reached { p with order := order } seeds item ↔ Reached p seeds item :=
    Set.ext_iff.mp (closure_order p seeds order)
  have sane' : Sane { p with order := order } seeds :=
    ⟨fun item reached => sane.inside item ((same item).mp reached),
      fun item reached => sane.transferred item ((same item).mp reached)⟩
  unfold Outcome.collect
  cases here : (run p none seeds).result with
  | ok stats =>
    obtain ⟨stats', there⟩ := (ok_order p seeds order).mpr ⟨stats, here⟩
    rw [there]
    exact agree _ _ (fun item => (mem_calls_iff there item).trans (same item)) (mem_calls_iff here)
  | error e =>
    cases there : (run { p with order := order } none seeds).result with
    | ok stats' =>
      obtain ⟨stats, finished⟩ := (ok_order p seeds order).mp ⟨stats', there⟩
      cases here.symm.trans finished
    | error e' =>
      rw [sane.gaveUp charged here, sane'.gaveUp (fun item reached => charged item ((same item).mp reached)) there]
      rfl

end Worklist

namespace Liveness

variable {a : Liveness}

theorem unionAll_congr {width : Nat} {sets sets' : List BitSet} (capacities : ∀ t ∈ sets, t.capacity = width)
    (same : ∀ t, t ∈ sets ↔ t ∈ sets') : unionAll width sets = unionAll width sets' := by
  obtain ⟨out, joined, capacity, members⟩ := unionAll_spec capacities
  obtain ⟨out', joined', capacity', members'⟩ := unionAll_spec fun t listed => capacities t ((same t).mpr listed)
  rw [joined, joined', BitSet.ext (capacity.trans capacity'.symm) fun v => ?_]
  rw [Bool.eq_iff_iff, members, members']
  exact exists_congr fun t => and_congr_left fun _ => same t

variable {calls calls' : List (Nat × BitSet)}

theorem mem_factsAt_congr (same : ∀ item, item ∈ calls ↔ item ∈ calls') (n : Nat) (f : BitSet) :
    f ∈ factsAt calls n ↔ f ∈ factsAt calls' n := by
  rw [mem_factsAt, mem_factsAt, same]

/-- The entry of a node depends on which sets came there, not on the order they came in. -/
theorem entryAt_congr (fit : ∀ item ∈ calls, a.Fits item) (same : ∀ item, item ∈ calls ↔ item ∈ calls') (n : Nat) :
    a.entryAt calls n = a.entryAt calls' n := by
  have facts := mem_factsAt_congr same n
  have united := unionAll_congr (fun f => capacity_factsAt fit) facts
  unfold entryAt
  cases first : factsAt calls n with
  | nil =>
    have none : factsAt calls' n = [] := by
      rw [first] at facts
      exact List.eq_nil_iff_forall_not_mem.mpr fun f member => List.not_mem_nil ((facts f).mpr member)
    rw [none]
  | cons f rest =>
    cases second : factsAt calls' n with
    | nil =>
      rw [first, second] at facts
      exact absurd ((facts f).mp List.mem_cons_self) List.not_mem_nil
    | cons f' rest' =>
      rw [first, second] at united
      simp only [united]

theorem flushesAt_congr (prepared : a.Prepared) {live : LiveSets} {spared : BitSet} (sized : a.Sized live)
    (capacity : spared.capacity = a.width) (fit : ∀ item ∈ calls, a.Fits item)
    (same : ∀ item, item ∈ calls ↔ item ∈ calls') (n : Nat) :
    a.flushesAt live spared calls n = a.flushesAt live spared calls' n := by
  have facts := mem_factsAt_congr same n
  unfold flushesAt
  cases sought : a.liveHere live n with
  | error e => rfl
  | ok found =>
    cases found with
    | none => rfl
    | some here =>
      obtain ⟨i, _, met⟩ := liveHere_eq_ok prepared.made sought
      have size := sized.recorded met
      obtain ⟨deads, taken, capacities⟩ := deads_total size capacity fit n
      obtain ⟨deads', taken', _⟩ := deads_total size capacity (fun item called => fit item ((same item).mpr called)) n
      have united : unionAll a.width deads = unionAll a.width deads' := by
        refine unionAll_congr capacities fun t => ?_
        rw [mem_of_mapM taken, mem_of_mapM taken']
        exact exists_congr fun f => and_congr_left fun _ => facts f
      simp only [bind, Except.bind, taken, taken', united]

namespace Carries

variable {p : Problem BitSet} {seeds : List (Nat × BitSet)}

theorem charged (carries : a.Carries p seeds) (prepared : a.Prepared) {item : Nat × BitSet}
    (reached : Reached p seeds item) : p.isCharged item = true := by
  obtain ⟨out, becomes, _⟩ := carries.steps item (carries.fits prepared reached)
  rw [isCharged_iff, becomes]
  rintro _ ⟨⟩

/-- What is read off the sets at each node does not depend on the order of the queue. -/
theorem collect_order {α : Type} (carries : a.Carries p seeds) (prepared : a.Prepared)
    {answer : List (Nat × BitSet) → Result α}
    (agree : ∀ calls calls', (∀ item ∈ calls, a.Fits item) → (∀ item, item ∈ calls ↔ item ∈ calls') →
      answer calls = answer calls') (order : Order) :
    ((run { p with order := order } none seeds).collect answer).result = ((run p none seeds).collect answer).result := by
  refine Worklist.collect_order (carries.sane prepared) (fun item => carries.charged prepared) ?_ order
  intro calls calls' exact exact'
  exact agree calls calls' (fun item called => carries.fits prepared ((exact item).mp called))
    fun item => (exact item).trans (exact' item).symm

end Carries

theorem liveSets_order (prepared : a.Prepared) (config : Config) (order : Order) :
    (a.liveSets { config with order := order } none).result = (a.liveSets config none).result := by
  obtain ⟨masks, exits, masked, ends, analysis⟩ := liveSets_eq prepared
  rw [analysis, analysis]
  refine (backward_carries prepared masked ends config).collect_order prepared (fun calls calls' fit same => ?_) order
  unfold collect
  rw [funext fun n => entryAt_congr fit same n]

theorem flushPlanFrom_order (prepared : a.Prepared) {live : LiveSets} (sized : a.Sized live) (config : Config)
    (order : Order) :
    (a.flushPlanFrom { config with order := order } none live).result = (a.flushPlanFrom config none live).result := by
  obtain ⟨spared, capacity, _, plans⟩ := flushPlanFrom_eq a
  rw [plans, plans]
  refine (forward_carries prepared sized capacity config).collect_order prepared (fun calls calls' fit same => ?_) order
  unfold plan
  rw [funext fun n => flushesAt_congr prepared sized capacity fit same n]

/-- Without a check, the two passes follow one another. -/
theorem flushPlan_eq (prepared : a.Prepared) (config : Config) :
    (a.flushPlan config none).result =
      (a.liveSets config none).result >>= fun live => (a.flushPlanFrom config none live).result := by
  have free := check_of_liveSets prepared config
  unfold flushPlan
  cases analysed : a.liveSets config none with
  | mk result left =>
    rw [analysed] at free
    cases free
    cases result <;> rfl

theorem flushPlan_order (prepared : a.Prepared) (config : Config) (order : Order) :
    (a.flushPlan { config with order := order } none).result = (a.flushPlan config none).result := by
  rw [flushPlan_eq prepared, flushPlan_eq prepared, liveSets_order prepared]
  cases analysed : (a.liveSets config none).result with
  | error e => rfl
  | ok live => exact flushPlanFrom_order prepared (liveSets_sized prepared analysed) config order

end Liveness

namespace Origins

variable {r : Routine} {frames : Array (Option (Frame Value))}

theorem marks_ext {marks marks' : Array Bool} (sizes : marks.size = marks'.size)
    (same : ∀ i : Nat, marks[i]? = some true ↔ marks'[i]? = some true) : marks = marks' := by
  apply Array.ext sizes
  intro i inside inside'
  have here := same i
  rw [Array.getElem?_eq_getElem inside, Array.getElem?_eq_getElem inside', Option.some.injEq, Option.some.injEq] at here
  exact Bool.eq_iff_iff.mpr here

theorem feasible_of_answer {config : Config} {marks : Array Bool}
    (answered : (resultOrigins r config none frames).result = .ok marks) :
    frames.size = r.size ∧ ∃ items, seeds r frames = .ok items ∧ Feasible (problem r config frames) items := by
  unfold resultOrigins at answered
  split at answered
  · rename_i sized
    split at answered
    · cases answered
    · rename_i items found
      exact ⟨sized, items, found, (ok_iff_feasible _ _).mp (answer_of_collect answered).1⟩
  · cases answered

theorem resultOrigins_order (built : r.Built) {config : Config} {marks : Array Bool}
    (answered : (resultOrigins r config none frames).result = .ok marks) (order : Order) :
    (resultOrigins r { config with order := order } none frames).result = .ok marks := by
  obtain ⟨sized, items, found, feasible⟩ := feasible_of_answer answered
  have feasible' : Feasible (problem r { config with order := order } frames) items :=
    (feasible_order (problem r config frames) items order).mpr feasible
  obtain ⟨marks', answered'⟩ := exists_marks built sized found feasible'
  obtain ⟨size, marked⟩ := marked_iff built answered
  obtain ⟨size', marked'⟩ := marked_iff built answered'
  rw [answered', marks_ext (size'.trans size.symm) fun i => (marked' i).trans (marked i).symm]

end Origins

/-- The order of the queue cannot be seen in live sets and flush plans, not even if the
    analysis gives up, and no more in the origins that are found. -/
theorem order_unobservable {code : Array Instr} {ranges : List Range} {scope : Scope} {r : Routine}
    (built : Routine.build code ranges scope = .ok r) (config : Config) (order : Order)
    (frames : Array (Option (Frame Value))) :
    r.liveSets { config with order := order } = r.liveSets config ∧
    r.flushPlan { config with order := order } = r.flushPlan config ∧
    ∀ marks, (Origins.resultOrigins r { config with order := order } none frames).result = .ok marks ↔
      (Origins.resultOrigins r config none frames).result = .ok marks := by
  have checked := Routine.checked_of_build built
  obtain ⟨a, made, _, prepared⟩ := Liveness.ofRoutine_total checked
  refine ⟨?_, ?_, fun marks => ⟨fun answered => ?_, fun answered => ?_⟩⟩
  · unfold Routine.liveSets
    rw [made]
    exact Liveness.liveSets_order prepared config order
  · unfold Routine.flushPlan
    rw [made]
    exact Liveness.flushPlan_order prepared config order
  · exact Origins.resultOrigins_order checked.toBuilt answered config.order
  · exact Origins.resultOrigins_order checked.toBuilt answered order

/-- What is returned at 8 was made at 0 or at 4, and the trace goes both ways from 6. -/
def twoOrigins : Result Routine := do
  let scope ← Scope.empty.declareAll [.local 0 Flags.none, .local 1 Flags.none]
  Routine.build #[.new, .store 0, .load 1, .branch 6 1, .new, .store 0, .boundary, .load 0, .return true] [] scope

theorem order_unobservable_twoOrigins :
    ∃ r frames marks, twoOrigins = .ok r ∧ r.frames 2 = .ok frames ∧
      r.flushPlan { Config.standard with stepMultiplier := 1, order := .lifo } = .error (.error (.tooComplex 9 8)) ∧
      (Origins.resultOrigins r Config.standard none frames).result = .ok marks ∧
      (Origins.resultOrigins r { Config.standard with order := .lifo } none frames).result = .ok marks := by
  have computed : (do
      let r ← twoOrigins
      let frames ← r.frames 2
      let items ← Origins.seeds r frames
      return (frames.size == r.size, r.flushPlan { Config.standard with stepMultiplier := 1 },
        certifies (Origins.problem r Config.standard frames) items
          [(7, .stack 0), (6, .local 0), (3, .local 0), (5, .local 0), (2, .local 0), (4, .stack 0), (1, .local 0),
            (0, .stack 0)]) : Result _) =
      .ok (true, .error (.error (.tooComplex 9 8)), true) := by cbv
  obtain ⟨r, made, computed⟩ := bind_eq_ok.mp computed
  obtain ⟨frames, framed, computed⟩ := bind_eq_ok.mp computed
  obtain ⟨items, found, computed⟩ := bind_eq_ok.mp computed
  simp only [pure, Except.pure, Except.ok.injEq, Prod.mk.injEq, beq_iff_eq] at computed
  obtain ⟨sized, gaveUp, certified⟩ := computed
  obtain ⟨scope, _, built⟩ := bind_eq_ok.mp made
  obtain ⟨marks, answered⟩ :=
    Origins.exists_marks (Routine.built_of_build built) sized found (feasible_of_certifies certified)
  obtain ⟨_, plans, _⟩ := order_unobservable built { Config.standard with stepMultiplier := 1 } .lifo frames
  obtain ⟨_, _, origins⟩ := order_unobservable built Config.standard .lifo frames
  exact ⟨r, frames, marks, made, framed, plans.trans gaveUp, answered, (origins marks).mpr answered⟩

end StackFlow
