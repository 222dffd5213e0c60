import Mathlib
import StackFlow.Assembly
import StackFlow.Proofs.RoutineEdges

/-!
What is left of directives that are refused. Code is written with the directives that are
accepted only: the variables, the instructions and the ranges are those that one gets by
leaving out the refused ones from the start (`Alike`). The places of labels are not. A
label is bound before it is refused, so with the refused directives its name stands for
the last place where it was to be defined, and without them for the first
(`labels_after`, `labels_accepted`). So what is written is the same just if no label that
is named as a target is defined twice.
-/
namespace StackFlow

/-- The labels that an instruction names. -/
def Draft.names : Draft → List String
  | .ready _ => []
  | .goto label => [label]
  | .branch label _ => [label]
  | .switch labels default => labels ++ [default]
  | .jsr label => [label]

def NamedRange.names (range : NamedRange) : List String := [range.start, range.stop, range.handler]

namespace Directive

/-- The instruction that a directive appends, if it does. -/
def drafts : Directive → List Draft
  | .declare _ => []
  | .emit instr => [.ready instr]
  | .load v => [.ready (.load v)]
  | .store v => [.ready (.store v)]
  | .discard v => [.ready (.discard v)]
  | .goto target => [.goto target]
  | .branch target pops => [.branch target pops]
  | .switch targets default => [.switch targets default]
  | .jsr target => [.jsr target]
  | .label _ => [.ready .label]
  | .protect _ _ _ => []

/-- The range that a directive protects, if it does. -/
def ranges : Directive → List NamedRange
  | .protect start stop handler => [⟨start, stop, handler⟩]
  | _ => []

/-- The labels that a directive names. -/
def names (d : Directive) : List String := d.drafts.flatMap Draft.names ++ d.ranges.flatMap NamedRange.names

end Directive

namespace Assembly

/-- The assembly after directives, of which some may be refused. -/
def after (a : Assembly) (ds : List Directive) : Assembly := ds.foldl (fun a d => (a.apply d).1) a

/-- The directives that are not refused when their turn comes. -/
def accepted (a : Assembly) : List Directive → List Directive
  | [] => []
  | d :: rest =>
    match a.apply d with
    | (next, .ok _) => d :: next.accepted rest
    | (next, .error _) => next.accepted rest

/-- The positions at which the label is to be defined, one for each attempt. -/
def places (a : Assembly) (name : String) : List Directive → List Nat
  | [] => []
  | d :: rest =>
    if d = .label name then a.position :: (a.apply d).1.places name rest else (a.apply d).1.places name rest

variable {a b : Assembly} {name : String} {d : Directive}

theorem after_cons (a : Assembly) (d : Directive) (ds : List Directive) : a.after (d :: ds) = (a.apply d).1.after ds := rfl

theorem apply_declare (a : Assembly) (declaration : Declaration) :
    a.apply (.declare declaration) =
      match a.scope.declare declaration with
      | .ok scope => ({ a with scope }, .ok (some a.scope.size))
      | .error e => (a, .error e) := rfl

theorem apply_known (known : a.labels.contains name = true) :
    a.apply (.label name) = (a.bindLabel name, reject (.duplicateLabel name)) := if_pos known

theorem apply_new (new : a.labels.contains name = false) :
    a.apply (.label name) = ((a.bindLabel name).append (.ready .label), .ok none) := by
  have unknown : ¬ a.labels.contains name = true := by simp [new]
  exact if_neg unknown

/-- What a directive does: if it is accepted, it appends what it says, and if it is refused,
    it appends nothing and declares nothing. -/
inductive Applied (a : Assembly) (d : Directive) : Assembly × Result (Option VarId) → Prop
  | accepted {next : Assembly} {answer : Option VarId} (code : next.code.toList = a.code.toList ++ d.drafts)
      (ranges : next.ranges = a.ranges ++ d.ranges) : Applied a d (next, .ok answer)
  | refused {next : Assembly} {e : Failure} (scope : next.scope = a.scope) (code : next.code = a.code)
      (ranges : next.ranges = a.ranges) (silent : d.names = []) : Applied a d (next, .error e)

theorem applied_append {draft : Draft} (drafts : d.drafts = [draft]) (ranges : d.ranges = []) :
    Applied a d (a.append draft, .ok none) := by
  refine .accepted ?_ ?_
  · rw [drafts]
    exact Array.toList_push
  · rw [ranges, List.append_nil]
    rfl

theorem applied_access {instr : Instr} {v : VarId} (drafts : d.drafts = [.ready instr]) (ranges : d.ranges = []) :
    Applied a d (a.access instr v) := by
  unfold access
  cases a.scope.find v with
  | ok var => exact applied_append drafts ranges
  | error e => exact .refused rfl rfl rfl (by simp [Directive.names, drafts, ranges, Draft.names])

theorem applied (a : Assembly) (d : Directive) : Applied a d (a.apply d) := by
  cases d with
  | declare declaration =>
    rw [apply_declare]
    cases a.scope.declare declaration with
    | ok scope => exact .accepted (List.append_nil _).symm (List.append_nil _).symm
    | error e => exact .refused rfl rfl rfl rfl
  | load v => exact applied_access rfl rfl
  | store v => exact applied_access rfl rfl
  | discard v => exact applied_access rfl rfl
  | label name =>
    cases known : a.labels.contains name with
    | true =>
      rw [apply_known known]
      exact .refused rfl rfl rfl rfl
    | false =>
      rw [apply_new known]
      exact .accepted Array.toList_push (List.append_nil _).symm
  | protect start stop handler => exact .accepted (List.append_nil _).symm rfl
  | emit instr => exact applied_append rfl rfl
  | goto target => exact applied_append rfl rfl
  | branch target pops => exact applied_append rfl rfl
  | switch targets default => exact applied_append rfl rfl
  | jsr target => exact applied_append rfl rfl

/-- Accepted or not, a label is bound to the present position, and nothing else is. -/
theorem labels_apply (a : Assembly) (d : Directive) (name : String) :
    (a.apply d).1.labels[name]? = if d = .label name then some a.position else a.labels[name]? := by
  have accessed : ∀ instr v, (a.access instr v).1.labels = a.labels := by
    intro instr v
    unfold access
    cases a.scope.find v <;> rfl
  cases d with
  | label other =>
    have bound : (a.apply (.label other)).1.labels = a.labels.insert other a.position := by
      cases known : a.labels.contains other with
      | true => rw [apply_known known]; rfl
      | false => rw [apply_new known]; rfl
    rw [bound, Std.HashMap.getElem?_insert]
    by_cases same : other = name <;> simp [same]
  | declare declaration =>
    rw [apply_declare]
    cases a.scope.declare declaration <;> rfl
  | load v => exact congrArg (·[name]?) (accessed (.load v) v)
  | store v => exact congrArg (·[name]?) (accessed (.store v) v)
  | discard v => exact congrArg (·[name]?) (accessed (.discard v) v)
  | _ => rfl

/-- Two assemblies of the same code, whose labels may have different places. -/
structure Alike (a b : Assembly) : Prop where
  scope : a.scope = b.scope
  code : a.code = b.code
  ranges : a.ranges = b.ranges
  named : ∀ name, a.labels.contains name = b.labels.contains name

namespace Alike

theorem append (alike : Alike a b) (draft : Draft) : Alike (a.append draft) (b.append draft) :=
  ⟨alike.scope, congrArg (·.push draft) alike.code, alike.ranges, alike.named⟩

theorem bindLabel (alike : Alike a b) (name : String) : Alike (a.bindLabel name) (b.bindLabel name) := by
  refine ⟨alike.scope, alike.code, alike.ranges, fun other => ?_⟩
  change (a.labels.insert name a.position).contains other = (b.labels.insert name b.position).contains other
  rw [Std.HashMap.contains_insert, Std.HashMap.contains_insert, alike.named]

/-- What a directive does to two assemblies that are alike: both accept it and stay alike,
    or both refuse it, and the second one need not have been asked. -/
inductive Answered (b : Assembly) : Assembly × Result (Option VarId) → Assembly × Result (Option VarId) → Prop
  | accepted {next next' : Assembly} {answer : Option VarId} (alike : Alike next next') :
      Answered b (next, .ok answer) (next', .ok answer)
  | refused {next next' : Assembly} {e : Failure} (alike : Alike next b) :
      Answered b (next, .error e) (next', .error e)

theorem access (alike : Alike a b) (instr : Instr) (v : VarId) : Answered b (a.access instr v) (b.access instr v) := by
  unfold Assembly.access
  rw [alike.scope]
  cases b.scope.find v with
  | ok var => exact .accepted (alike.append _)
  | error e => exact .refused alike

theorem apply (alike : Alike a b) (d : Directive) : Answered b (a.apply d) (b.apply d) := by
  cases d with
  | declare declaration =>
    rw [apply_declare, apply_declare, alike.scope]
    cases b.scope.declare declaration with
    | ok scope => exact .accepted ⟨rfl, alike.code, alike.ranges, alike.named⟩
    | error e => exact .refused alike
  | load v => exact alike.access (.load v) v
  | store v => exact alike.access (.store v) v
  | discard v => exact alike.access (.discard v) v
  | label name =>
    cases known : a.labels.contains name with
    | true =>
      -- `b` is left as it is; the name that `a` binds once more is one that `b` has
      rw [apply_known known, apply_known (alike.named name ▸ known)]
      refine .refused ⟨alike.scope, alike.code, alike.ranges, fun other => ?_⟩
      change (a.labels.insert name a.position).contains other = _
      rw [Std.HashMap.contains_insert, ← alike.named]
      by_cases same : name = other
      · rw [← same, known, Bool.or_true]
      · simp [same]
    | false =>
      rw [apply_new known, apply_new (alike.named name ▸ known)]
      exact .accepted ((alike.bindLabel name).append _)
  | protect start stop handler => exact .accepted ⟨alike.scope, alike.code, congrArg (· ++ _) alike.ranges, alike.named⟩
  | emit instr => exact .accepted (alike.append _)
  | goto target => exact .accepted (alike.append _)
  | branch target pops => exact .accepted (alike.append _)
  | switch targets default => exact .accepted (alike.append _)
  | jsr target => exact .accepted (alike.append _)

theorem position (alike : Alike a b) : a.position = b.position := congrArg Array.size alike.code

/-- Without the directives that are refused, none is refused, and the assemblies stay alike. -/
theorem after (alike : Alike a b) (ds : List Directive) :
    b.applyAll (a.accepted ds) = .ok (b.after (a.accepted ds)) ∧ Alike (a.after ds) (b.after (a.accepted ds)) := by
  induction ds generalizing a b with
  | nil => exact ⟨rfl, alike⟩
  | cons d rest ih =>
    have answered := alike.apply d
    rw [after_cons]
    unfold accepted
    generalize applied : a.apply d = outcome at answered ⊢
    generalize applied' : b.apply d = outcome' at answered
    cases answered with
    | @accepted next next' answer alike' =>
      obtain ⟨followed, same⟩ := ih alike'
      have first : b.applyAll (d :: next.accepted rest) = next'.applyAll (next.accepted rest) := by
        unfold applyAll
        rw [List.foldlM_cons, applied']
        rfl
      rw [first, after_cons, applied']
      exact ⟨followed, same⟩
    | refused alike' => exact ih alike'

end Alike

theorem length_places (a : Assembly) (name : String) (ds : List Directive) :
    (a.places name ds).length = ds.count (.label name) := by
  induction ds generalizing a with
  | nil => rfl
  | cons d rest ih =>
    unfold places
    by_cases here : d = .label name
    · rw [if_pos here, List.length_cons, ih, here, List.count_cons_self]
    · rw [if_neg here, ih, List.count_cons_of_ne here]

/-- A name stands for the last place where it was to be defined. -/
theorem labels_after (a : Assembly) (name : String) (ds : List Directive) :
    (a.after ds).labels[name]? = (a.labels[name]?.toList ++ a.places name ds).getLast? := by
  induction ds generalizing a with
  | nil => cases bound : a.labels[name]? <;> simp [after, places, bound]
  | cons d rest ih =>
    rw [after_cons, ih, labels_apply, places]
    by_cases here : d = .label name
    · rw [if_pos here, if_pos here]
      simp [List.getLast?_append, List.getLast?_cons]
    · rw [if_neg here, if_neg here]

theorem unbound_of_accepted {next : Assembly} {answer : Option VarId}
    (followed : a.apply (.label name) = (next, .ok answer)) : a.labels[name]? = none := by
  cases known : a.labels.contains name with
  | true =>
    rw [apply_known known] at followed
    cases followed
  | false => exact Std.HashMap.getElem?_eq_none_of_contains_eq_false known

theorem bound_of_refused {next : Assembly} {e : Failure} (refused : a.apply (.label name) = (next, .error e)) :
    ∃ place, a.labels[name]? = some place := by
  cases known : a.labels.contains name with
  | true =>
    rw [← Std.HashMap.isSome_getElem?_eq_contains] at known
    exact Option.isSome_iff_exists.mp known
  | false =>
    rw [apply_new known] at refused
    cases refused

/-- Without the refused directives, a name stands for the first of these places. -/
theorem labels_accepted (alike : Alike a b) (name : String) (ds : List Directive) :
    (b.after (a.accepted ds)).labels[name]? = (b.labels[name]?.toList ++ a.places name ds).head? := by
  induction ds generalizing a b with
  | nil => cases bound : b.labels[name]? <;> simp [after, accepted, places, bound]
  | cons d rest ih =>
    have answered := alike.apply d
    have bound := labels_apply b d name
    unfold accepted places
    generalize applied : a.apply d = outcome at answered ⊢
    generalize applied' : b.apply d = outcome' at answered bound
    cases answered with
    | @accepted next next' answer alike' =>
      change (b.after (d :: next.accepted rest)).labels[name]? = _
      change next'.labels[name]? = _ at bound
      rw [after_cons, applied', ih alike', bound]
      by_cases here : d = .label name
      · subst here
        rw [if_pos rfl, if_pos rfl, unbound_of_accepted applied', alike.position]
        rfl
      · rw [if_neg here, if_neg here]
    | @refused next next' e alike' =>
      change (b.after (next.accepted rest)).labels[name]? = _
      rw [ih alike']
      by_cases here : d = .label name
      · subst here
        obtain ⟨place, old⟩ := bound_of_refused applied'
        rw [if_pos rfl, old]
        rfl
      · rw [if_neg here]

theorem position_le_apply (a : Assembly) (d : Directive) : a.position ≤ (a.apply d).1.position := by
  have applied := applied a d
  generalize a.apply d = outcome at applied
  cases applied with
  | @accepted next answer code ranges =>
    have length := congrArg List.length code
    rw [List.length_append] at length
    exact Nat.le.intro length.symm
  | refused scope code ranges silent => exact Nat.le_of_eq (congrArg Array.size code.symm)

theorem position_le_places {place : Nat} {ds : List Directive} (member : place ∈ a.places name ds) :
    a.position ≤ place := by
  induction ds generalizing a with
  | nil => cases member
  | cons d rest ih =>
    have later := position_le_apply a d
    unfold places at member
    by_cases here : d = .label name
    · rw [if_pos here] at member
      rcases List.mem_cons.mp member with rfl | further
      · exact Nat.le_refl _
      · exact later.trans (ih further)
    · rw [if_neg here] at member
      exact later.trans (ih member)

/-- A label that is defined for the first time takes its place, so that any later attempt is
    made further on. -/
theorem places_ascend (unbound : a.labels[name]? = none) {ds : List Directive} {first : Nat} {others : List Nat}
    (listed : a.places name ds = first :: others) : ∀ place ∈ others, first < place := by
  induction ds generalizing a with
  | nil => cases listed
  | cons d rest ih =>
    unfold places at listed
    by_cases here : d = .label name
    · subst here
      have new : a.labels.contains name = false := by
        rw [← Std.HashMap.isSome_getElem?_eq_contains, unbound]
        rfl
      rw [if_pos rfl, apply_new new] at listed
      cases listed
      intro place member
      have further := position_le_places member
      have grown : ((a.bindLabel name).append (.ready .label)).position = a.position + 1 := Array.size_push _
      rw [grown] at further
      omega
    · rw [if_neg here] at listed
      refine ih ?_ listed
      rw [labels_apply, if_neg here, unbound]

/-- The first place is the last one just if there is at most one. -/
theorem head?_places_iff (unbound : a.labels[name]? = none) (ds : List Directive) :
    (a.places name ds).getLast? = (a.places name ds).head? ↔ ds.count (.label name) ≤ 1 := by
  rw [← length_places a]
  cases listed : a.places name ds with
  | nil => simp
  | cons first others =>
    cases others with
    | nil => simp
    | cons second others =>
      have further := places_ascend unbound listed
      refine iff_of_false (fun same => ?_) (by simp)
      rw [List.getLast?_cons_cons, List.head?_cons] at same
      exact Nat.lt_irrefl _ (further first (List.mem_of_getLast? same))

/-- The labels that are named in what has been written. -/
def names (a : Assembly) : List String := a.code.toList.flatMap Draft.names ++ a.ranges.flatMap NamedRange.names

theorem mem_names_apply {target : String} : target ∈ (a.apply d).1.names ↔ target ∈ a.names ∨ target ∈ d.names := by
  have applied := applied a d
  generalize a.apply d = outcome at applied
  cases applied with
  | accepted code ranges =>
    simp only [names, Directive.names, code, ranges, List.flatMap_append, List.mem_append]
    tauto
  | refused scope code ranges silent => simp [names, code, ranges, silent]

theorem mem_names_after {target : String} {ds : List Directive} :
    target ∈ (a.after ds).names ↔ target ∈ a.names ∨ target ∈ ds.flatMap Directive.names := by
  induction ds generalizing a with
  | nil => simp [after]
  | cons d rest ih =>
    rw [after_cons, ih, mem_names_apply, List.flatMap_cons, List.mem_append, or_assoc]

theorem resolve_eq_ok {index : Nat} : a.resolve name = .ok index ↔ a.labels[name]? = some index := by
  unfold resolve
  cases a.labels[name]? <;> simp [reject]

/-- Two assemblies that put a label to the same place. -/
theorem agree_of_resolve {index : Nat} (left : a.resolve name = .ok index) (right : b.resolve name = .ok index) :
    a.labels[name]? = b.labels[name]? := (resolve_eq_ok.mp left).trans (resolve_eq_ok.mp right).symm

theorem resolve_congr {names : List String} (agree : ∀ name ∈ names, a.labels[name]? = b.labels[name]?) :
    ∀ name ∈ names, a.resolve name = b.resolve name := by
  intro name member
  unfold resolve
  rw [agree name member]

theorem resolveDraft_congr {draft : Draft} (agree : ∀ name ∈ draft.names, a.labels[name]? = b.labels[name]?) :
    a.resolveDraft draft = b.resolveDraft draft := by
  have resolved := resolve_congr agree
  cases draft with
  | ready instr => rfl
  | goto label => simp only [resolveDraft, resolved label (by simp [Draft.names])]
  | branch label pops => simp only [resolveDraft, resolved label (by simp [Draft.names])]
  | switch labels default =>
    have targets : labels.mapM a.resolve = labels.mapM b.resolve :=
      mapM_congr fun name member => resolved name (by simp [Draft.names, member])
    simp only [resolveDraft, targets, resolved default (by simp [Draft.names])]
  | jsr label => simp only [resolveDraft, resolved label (by simp [Draft.names])]

/-- An instruction with one target tells the place of its label. -/
theorem agree_of_target {make : Nat → Instr} (injective : Function.Injective make) {instr : Instr}
    (left : (do return make (← a.resolve name) : Result Instr) = .ok instr)
    (right : (do return make (← b.resolve name) : Result Instr) = .ok instr) : a.labels[name]? = b.labels[name]? := by
  obtain ⟨target, found, same⟩ := bind_eq_ok.mp left
  obtain ⟨target', found', same'⟩ := bind_eq_ok.mp right
  have equal : target = target' := injective (Except.ok.inj (same.trans same'.symm))
  exact agree_of_resolve found (equal ▸ found')

theorem agree_of_resolveDraft {draft : Draft} {instr : Instr} (left : a.resolveDraft draft = .ok instr)
    (right : b.resolveDraft draft = .ok instr) : ∀ name ∈ draft.names, a.labels[name]? = b.labels[name]? := by
  cases draft with
  | ready instr => simp [Draft.names]
  | goto label =>
    have distinct : Function.Injective Instr.goto := fun s t => Instr.goto.inj
    simpa [Draft.names] using agree_of_target distinct left right
  | branch label pops =>
    have distinct : Function.Injective fun target => Instr.branch target pops := fun s t same => (Instr.branch.inj same).1
    simpa [Draft.names] using agree_of_target distinct left right
  | switch labels default =>
    obtain ⟨targets, all, left⟩ := bind_eq_ok.mp left
    obtain ⟨target, found, same⟩ := bind_eq_ok.mp left
    obtain ⟨targets', all', right⟩ := bind_eq_ok.mp right
    obtain ⟨target', found', same'⟩ := bind_eq_ok.mp right
    cases same
    cases same'
    intro name member
    rcases List.mem_append.mp member with listed | last
    · obtain ⟨index, here, there⟩ := agree_of_mapM all all' listed
      exact agree_of_resolve here there
    · rw [List.mem_singleton.mp last]
      exact agree_of_resolve found found'
  | jsr label =>
    have distinct : Function.Injective Instr.jsr := fun s t => Instr.jsr.inj
    simpa [Draft.names] using agree_of_target distinct left right

theorem resolveRange_congr {range : NamedRange} (agree : ∀ name ∈ range.names, a.labels[name]? = b.labels[name]?) :
    a.resolveRange range = b.resolveRange range := by
  have resolved := resolve_congr agree
  unfold resolveRange
  rw [resolved range.start (by simp [NamedRange.names]), resolved range.stop (by simp [NamedRange.names]),
    resolved range.handler (by simp [NamedRange.names])]

theorem agree_of_resolveRange {range : NamedRange} {out : Range} (left : a.resolveRange range = .ok out)
    (right : b.resolveRange range = .ok out) : ∀ name ∈ range.names, a.labels[name]? = b.labels[name]? := by
  obtain ⟨start, start_eq, left⟩ := bind_eq_ok.mp left
  obtain ⟨stop, stop_eq, left⟩ := bind_eq_ok.mp left
  obtain ⟨handler, handler_eq, left⟩ := bind_eq_ok.mp left
  obtain ⟨start', start_eq', right⟩ := bind_eq_ok.mp right
  obtain ⟨stop', stop_eq', right⟩ := bind_eq_ok.mp right
  obtain ⟨handler', handler_eq', right⟩ := bind_eq_ok.mp right
  cases left
  cases right
  simp only [NamedRange.names, List.forall_mem_cons]
  exact ⟨agree_of_resolve start_eq start_eq', agree_of_resolve stop_eq stop_eq',
    agree_of_resolve handler_eq handler_eq', by simp⟩

/-- Assemblies of the same code finish alike if the labels it names have the same places. -/
theorem Alike.finish_congr (alike : Alike a b) (agree : ∀ name ∈ a.names, a.labels[name]? = b.labels[name]?) :
    a.finish = b.finish := by
  have code : a.code.toList.mapM a.resolveDraft = b.code.toList.mapM b.resolveDraft := by
    rw [← alike.code]
    refine mapM_congr fun draft listed => resolveDraft_congr fun name member => agree name ?_
    exact List.mem_append_left _ (List.mem_flatMap.mpr ⟨draft, listed, member⟩)
  have ranges : a.ranges.mapM a.resolveRange = b.ranges.mapM b.resolveRange := by
    rw [← alike.ranges]
    refine mapM_congr fun range listed => resolveRange_congr fun name member => agree name ?_
    exact List.mem_append_right _ (List.mem_flatMap.mpr ⟨range, listed, member⟩)
  unfold finish
  rw [code, ranges, alike.scope]

/-- The parts that a routine is finished from. -/
theorem parts_of_finish {r : Routine} (finished : a.finish = .ok r) :
    a.code.toList.mapM a.resolveDraft = .ok r.code.toList ∧ a.ranges.mapM a.resolveRange = .ok r.ranges := by
  obtain ⟨code, resolved, finished⟩ := bind_eq_ok.mp finished
  obtain ⟨ranges, resolved', built⟩ := bind_eq_ok.mp finished
  obtain ⟨_, _, _, _, _, _, _, rfl⟩ := Routine.build_eq_ok.mp built
  exact ⟨resolved, resolved'⟩

/-- A routine tells the places of all labels that are named in it. -/
theorem Alike.agree_of_finish (alike : Alike a b) {r : Routine} (left : a.finish = .ok r) (right : b.finish = .ok r) :
    ∀ name ∈ a.names, a.labels[name]? = b.labels[name]? := by
  obtain ⟨code, ranges⟩ := parts_of_finish left
  obtain ⟨code', ranges'⟩ := parts_of_finish right
  rw [← alike.code] at code'
  rw [← alike.ranges] at ranges'
  intro name member
  rcases List.mem_append.mp member with inCode | inRange
  · obtain ⟨draft, listed, named⟩ := List.mem_flatMap.mp inCode
    obtain ⟨instr, here, there⟩ := agree_of_mapM code code' listed
    exact agree_of_resolveDraft here there name named
  · obtain ⟨range, listed, named⟩ := List.mem_flatMap.mp inRange
    obtain ⟨out, here, there⟩ := agree_of_mapM ranges ranges' listed
    exact agree_of_resolveRange here there name named

/-- Directives that are refused leave nothing behind but the places of labels. Without them
    all others are accepted and give the same variables, instructions and ranges; but with
    them, a label stands for the last place where it was to be defined, and without them for
    the first. So the same routine is written just if no label that it names is defined
    twice. -/
theorem finish_accepted (scope : Scope) (ds : List Directive) :
    let full := (start scope).after ds
    let clean := (start scope).after ((start scope).accepted ds)
    (start scope).applyAll ((start scope).accepted ds) = .ok clean ∧
    (full.scope = clean.scope ∧ full.code = clean.code ∧ full.ranges = clean.ranges) ∧
    (∀ name, full.labels[name]? = ((start scope).places name ds).getLast? ∧
      clean.labels[name]? = ((start scope).places name ds).head?) ∧
    ((∀ name ∈ ds.flatMap Directive.names, ds.count (.label name) ≤ 1) → full.finish = clean.finish) ∧
    ∀ r, clean.finish = .ok r →
      (full.finish = .ok r ↔ ∀ name ∈ ds.flatMap Directive.names, ds.count (.label name) ≤ 1) := by
  intro full clean
  have same : Alike (start scope) (start scope) := ⟨rfl, rfl, rfl, fun _ => rfl⟩
  obtain ⟨followed, alike⟩ := same.after ds
  have unbound : ∀ name, (start scope).labels[name]? = none := fun name => Std.HashMap.getElem?_empty
  -- which places the labels have in the end, with and without the refused directives
  have last : ∀ name, full.labels[name]? = ((start scope).places name ds).getLast? := by
    intro name
    rw [labels_after, unbound]
    rfl
  have first : ∀ name, clean.labels[name]? = ((start scope).places name ds).head? := by
    intro name
    rw [labels_accepted same, unbound]
    rfl
  have named : ∀ name, name ∈ full.names ↔ name ∈ ds.flatMap Directive.names := by
    intro name
    rw [mem_names_after]
    simp [names, start]
  have agree : ∀ name, full.labels[name]? = clean.labels[name]? ↔ ds.count (.label name) ≤ 1 := by
    intro name
    rw [last, first, head?_places_iff (unbound name)]
  have kept : (∀ name ∈ ds.flatMap Directive.names, ds.count (.label name) ≤ 1) → full.finish = clean.finish := by
    intro once
    exact alike.finish_congr fun name member => (agree name).mpr (once name ((named name).mp member))
  refine ⟨followed, ⟨alike.scope, alike.code, alike.ranges⟩, fun name => ⟨last name, first name⟩, kept, fun r finished => ?_⟩
  constructor
  · intro finished' name member
    exact (agree name).mp (alike.agree_of_finish finished' finished name ((named name).mpr member))
  · intro once
    rw [kept once, finished]

/-- A jump to a label that is defined again two instructions later. -/
def rebinding : List Directive := [.goto "a", .label "a", .emit .nop, .label "a", .emit .nop, .returnVoid]

theorem accepted_rebinding :
    (start .empty).accepted rebinding = [.goto "a", .label "a", .emit .nop, .emit .nop, .returnVoid] := by
  simp [rebinding, accepted, apply, start, append, bindLabel, reject, Directive.returnVoid]

theorem finish_rebinding :
    ∃ r, ((start .empty).after rebinding).finish = .ok r ∧ r.code = #[.goto 3, .label, .nop, .nop, .return false] := by
  have finished : ((start .empty).after rebinding).finish =
      Routine.build #[.goto 3, .label, .nop, .nop, .return false] [] .empty := by
    simp [rebinding, after, apply, start, append, bindLabel, position, Directive.returnVoid, finish, resolveDraft,
      resolve, bind, Except.bind, pure, Except.pure]
  rw [finished]
  exact ⟨_, by cbv, rfl⟩

theorem finish_accepted_rebinding :
    ∃ r, ((start .empty).after ((start .empty).accepted rebinding)).finish = .ok r ∧
      r.code = #[.goto 1, .label, .nop, .nop, .return false] := by
  have finished : ((start .empty).after ((start .empty).accepted rebinding)).finish =
      Routine.build #[.goto 1, .label, .nop, .nop, .return false] [] .empty := by
    rw [accepted_rebinding]
    simp [after, apply, start, append, bindLabel, position, Directive.returnVoid, finish, resolveDraft, resolve,
      bind, Except.bind, pure, Except.pure]
  rw [finished]
  exact ⟨_, by cbv, rfl⟩

/-- A refused directive can change the routine: here the second definition of the label is
    refused, but it takes the jump with it. -/
theorem finish_changed_by_refused :
    ((start .empty).after rebinding).finish ≠ ((start .empty).after ((start .empty).accepted rebinding)).finish := by
  obtain ⟨r, finished, code⟩ := finish_rebinding
  obtain ⟨r', finished', code'⟩ := finish_accepted_rebinding
  intro same
  have equal : r = r' := Except.ok.inj (finished.symm.trans (same.trans finished'))
  rw [equal, code'] at code
  exact absurd code (by decide)

/-- Two directives that are refused: the variable is not known, and the label that is
    defined twice is not the one that the jump names. -/
def tolerated : List Directive := [.label "a", .load 0, .label "b", .emit .nop, .label "b", .goto "a"]

theorem accepted_tolerated :
    (start .empty).accepted tolerated = [.label "a", .label "b", .emit .nop, .goto "a"] := by
  have unknown : Scope.empty.find 0 = reject (.unknownVariable 0 0) := rfl
  simp [tolerated, accepted, apply, access, unknown, start, append, bindLabel, reject]

theorem finish_tolerated : ∃ r, ((start .empty).after ((start .empty).accepted tolerated)).finish = .ok r := by
  have finished : ((start .empty).after ((start .empty).accepted tolerated)).finish =
      Routine.build #[.label, .label, .nop, .goto 0] [] .empty := by
    rw [accepted_tolerated]
    simp [after, apply, start, append, bindLabel, position, finish, resolveDraft, resolve, bind, Except.bind, pure,
      Except.pure, Std.HashMap.getElem_insert]
  rw [finished]
  exact ⟨_, by cbv⟩

theorem finish_accepted_tolerated :
    (∃ r, ((start .empty).after ((start .empty).accepted tolerated)).finish = .ok r ∧
      ((start .empty).after tolerated).finish = .ok r) ∧
    ∃ r, ((start .empty).after ((start .empty).accepted rebinding)).finish = .ok r ∧
      ((start .empty).after rebinding).finish ≠ .ok r := by
  obtain ⟨_, _, _, _, same_tolerated⟩ := finish_accepted .empty tolerated
  obtain ⟨_, _, _, _, same_rebinding⟩ := finish_accepted .empty rebinding
  have once : ∀ name ∈ tolerated.flatMap Directive.names, tolerated.count (.label name) ≤ 1 := by decide
  have twice : ¬ ∀ name ∈ rebinding.flatMap Directive.names, rebinding.count (.label name) ≤ 1 := by decide
  obtain ⟨r, finished⟩ := finish_tolerated
  obtain ⟨r', finished', _⟩ := finish_accepted_rebinding
  exact ⟨⟨r, finished, (same_tolerated r finished).mpr once⟩,
    ⟨r', finished', fun same => twice ((same_rebinding r' finished').mp same)⟩⟩

end Assembly

end StackFlow
