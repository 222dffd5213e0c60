import Mathlib
import StackFlow.Proofs.BuildExact
import StackFlow.Proofs.RefusedDirectives

/-!
What the names in finished code stand for. To finish code is to look up its names one
after the other, first those of the instructions and then those of the ranges, so that it
fails at the first name without a place (`Resolves`). As long as no directive is refused,
every label is defined at most once, and its place is the number of instructions that are
appended before it (`labels_of_applyAll`), whether it is used before or after.
-/
namespace StackFlow

/-- The instruction that is meant when each name stands for a place. -/
def Draft.meant (place : String → Nat) : Draft → Instr
  | .ready instr => instr
  | .goto label => .goto (place label)
  | .branch label pops => .branch (place label) pops
  | .switch labels default => .switch (labels.map place) (place default)
  | .jsr label => .jsr (place label)

def NamedRange.meant (place : String → Nat) (range : NamedRange) : Range :=
  ⟨place range.start, place range.stop, place range.handler⟩

theorem Draft.meant_congr {p q : String → Nat} {draft : Draft} (agree : ∀ name ∈ draft.names, p name = q name) :
    draft.meant p = draft.meant q := by
  cases draft with
  | ready instr => rfl
  | goto label => simp [meant, agree label (by simp [names])]
  | branch label pops => simp [meant, agree label (by simp [names])]
  | switch labels default =>
    have targets : labels.map p = labels.map q := List.map_congr_left fun name member => agree name (by simp [names, member])
    simp [meant, targets, agree default (by simp [names])]
  | jsr label => simp [meant, agree label (by simp [names])]

theorem NamedRange.meant_congr {p q : String → Nat} {range : NamedRange} (agree : ∀ name ∈ range.names, p name = q name) :
    range.meant p = range.meant q := by
  simp [meant, agree range.start (by simp [names]), agree range.stop (by simp [names]),
    agree range.handler (by simp [names])]

namespace Directive

/-- The instruction that a directive stands for, if it appends one. -/
def instrs (place : String → Nat) (d : Directive) : List Instr := d.drafts.map (Draft.meant place)

/-- The range that a directive stands for, if it protects one. -/
def protects (place : String → Nat) (d : Directive) : List Range := d.ranges.map (NamedRange.meant place)

def declarations : Directive → List Declaration
  | .declare declaration => [declaration]
  | _ => []

theorem instrs_eq {place : String → Nat} {d : Directive} {instr : Instr} (member : instr ∈ d.instrs place) :
    d.instrs place = [instr] := by
  cases d <;> simp_all [instrs, drafts]

end Directive

namespace Assembly

variable {α β : Type} {a b : Assembly} {d : Directive} {ds : List Directive} {name : String} {names : List String}

/-- A computation that looks up names one after the other: it fails at the first that has no
    place, and has the given value if all of them have one. -/
def Resolves (a : Assembly) (names : List String) (x : Result α) (value : α) : Prop :=
  x = match names.find? fun name => !a.labels.contains name with
    | some name => reject (.unresolvedLabel name)
    | none => .ok value

/-- The place of a name that has one. -/
def place (a : Assembly) (name : String) : Nat := a.labels[name]?.getD 0

namespace Resolves

theorem pure (value : α) : Resolves a [] (.ok value) value := rfl

theorem bind {x : Result α} {f : α → Result β} {later : List String} {value : α} {out : β}
    (first : Resolves a names x value) (next : Resolves a later (f value) out) :
    Resolves a (names ++ later) (x >>= f) out := by
  unfold Resolves at *
  rw [List.find?_append, first]
  cases names.find? fun name => !a.labels.contains name with
  | some name => rfl
  | none => exact next

theorem mapM (xs : List α) {f : α → Result β} {uses : α → List String} {g : α → β}
    (each : ∀ x, Resolves a (uses x) (f x) (g x)) : Resolves a (xs.flatMap uses) (xs.mapM f) (xs.map g) := by
  induction xs with
  | nil => exact pure []
  | cons x rest ih =>
    rw [List.flatMap_cons, List.mapM_cons]
    have last := ih.bind (pure (g x :: rest.map g)) (f := fun ys => Pure.pure (g x :: ys))
    rw [List.append_nil] at last
    exact (each x).bind last

end Resolves

theorem resolves_name (a : Assembly) (name : String) : Resolves a [name] (a.resolve name) (a.place name) := by
  unfold Resolves resolve place
  rw [List.find?_singleton, ← Std.HashMap.isSome_getElem?_eq_contains]
  cases a.labels[name]? <;> rfl

theorem resolves_names (a : Assembly) (names : List String) :
    Resolves a names (names.mapM a.resolve) (names.map a.place) := by
  have all := Resolves.mapM names a.resolves_name
  rwa [List.flatMap_singleton'] at all

theorem resolves_draft (a : Assembly) (draft : Draft) :
    Resolves a draft.names (a.resolveDraft draft) (draft.meant a.place) := by
  cases draft with
  | ready instr => exact .pure instr
  | goto label => exact (a.resolves_name label).bind (.pure _)
  | branch label pops => exact (a.resolves_name label).bind (.pure _)
  | switch labels default => exact (a.resolves_names labels).bind ((a.resolves_name default).bind (.pure _))
  | jsr label => exact (a.resolves_name label).bind (.pure _)

theorem resolves_range (a : Assembly) (range : NamedRange) :
    Resolves a range.names (a.resolveRange range) (range.meant a.place) :=
  (a.resolves_name range.start).bind ((a.resolves_name range.stop).bind ((a.resolves_name range.handler).bind (.pure _)))

/-- What it is to finish code: all names are looked up before the routine is built. -/
theorem finish_eq (a : Assembly) :
    a.finish = match a.names.find? fun name => !a.labels.contains name with
      | some name => reject (.unresolvedLabel name)
      | none => Routine.build (a.code.toList.map (Draft.meant a.place)).toArray (a.ranges.map (NamedRange.meant a.place)) a.scope := by
  have code := Resolves.mapM a.code.toList a.resolves_draft
  have ranges := Resolves.mapM a.ranges a.resolves_range
  unfold Resolves at code ranges
  unfold finish names
  rw [List.find?_append, code]
  cases (a.code.toList.flatMap Draft.names).find? fun name => !a.labels.contains name with
  | some name => rfl
  | none =>
    change (a.ranges.mapM a.resolveRange >>= fun ranges => _) = _
    rw [ranges, Option.none_or]
    cases (a.ranges.flatMap NamedRange.names).find? fun name => !a.labels.contains name with
    | some name => rfl
    | none => rfl

theorem applyAll_cons :
    a.applyAll (d :: ds) = .ok b ↔ ∃ next answer, a.apply d = (next, .ok answer) ∧ next.applyAll ds = .ok b := by
  unfold applyAll
  rw [List.foldlM_cons, bind_eq_ok]
  rcases a.apply d with ⟨next, e | answer⟩
  · simp
  · simp

theorem applyAll_append {before rest : List Directive} :
    a.applyAll (before ++ rest) = .ok b ↔ ∃ c, a.applyAll before = .ok c ∧ c.applyAll rest = .ok b := by
  unfold applyAll
  rw [List.foldlM_append, bind_eq_ok]

/-- Directives that are all accepted append what they say, in their order. -/
theorem written_of_applyAll (followed : a.applyAll ds = .ok b) :
    b.code.toList = a.code.toList ++ ds.flatMap Directive.drafts ∧ b.ranges = a.ranges ++ ds.flatMap Directive.ranges := by
  induction ds generalizing a with
  | nil =>
    cases followed
    simp
  | cons d rest ih =>
    obtain ⟨next, answer, accepted, others⟩ := applyAll_cons.mp followed
    obtain ⟨code, ranges⟩ := ih others
    have applied := applied a d
    rw [accepted] at applied
    cases applied with
    | accepted first first' =>
      rw [code, ranges, first, first', List.flatMap_cons, List.flatMap_cons, List.append_assoc, List.append_assoc]
      exact ⟨rfl, rfl⟩

theorem position_of_applyAll (followed : a.applyAll ds = .ok b) :
    b.position = a.position + (ds.flatMap Directive.drafts).length := by
  have lengths := congrArg List.length (written_of_applyAll followed).1
  rwa [List.length_append] at lengths

theorem scope_of_accepted {next : Assembly} {answer : Option VarId} (accepted : a.apply d = (next, .ok answer)) :
    a.scope.declareAll d.declarations = .ok next.scope := by
  have accessed : ∀ {instr : Instr} {v : VarId}, a.access instr v = (next, .ok answer) → next.scope = a.scope := by
    intro instr v run
    unfold access at run
    cases found : a.scope.find v with
    | ok var =>
      rw [found] at run
      cases run
      rfl
    | error e =>
      rw [found] at run
      cases run
  cases d with
  | declare declaration =>
    rw [apply_declare] at accepted
    cases declared : a.scope.declare declaration with
    | ok scope =>
      rw [declared] at accepted
      cases accepted
      exact bind_eq_ok.mpr ⟨scope, declared, rfl⟩
    | error e =>
      rw [declared] at accepted
      cases accepted
  | load v => exact congrArg _ (accessed accepted).symm
  | store v => exact congrArg _ (accessed accepted).symm
  | discard v => exact congrArg _ (accessed accepted).symm
  | label name =>
    cases known : a.labels.contains name with
    | true =>
      rw [apply_known known] at accepted
      cases accepted
    | false =>
      rw [apply_new known] at accepted
      cases accepted
      rfl
  | protect start stop handler =>
    cases accepted
    rfl
  | _ =>
    cases accepted
    rfl

theorem scope_of_applyAll (followed : a.applyAll ds = .ok b) :
    a.scope.declareAll (ds.flatMap Directive.declarations) = .ok b.scope := by
  induction ds generalizing a with
  | nil =>
    cases followed
    rfl
  | cons d rest ih =>
    obtain ⟨next, answer, accepted, others⟩ := applyAll_cons.mp followed
    rw [List.flatMap_cons, Scope.declareAll, List.foldlM_append]
    exact bind_eq_ok.mpr ⟨next.scope, scope_of_accepted accepted, ih others⟩

/-- A label that has a place cannot be defined again. -/
theorem not_mem_of_bound {place : Nat} (bound : a.labels[name]? = some place) (followed : a.applyAll ds = .ok b) :
    .label name ∉ ds := by
  induction ds generalizing a place with
  | nil => exact List.not_mem_nil
  | cons d rest ih =>
    obtain ⟨next, answer, accepted, others⟩ := applyAll_cons.mp followed
    have here : d ≠ .label name := by
      rintro rfl
      cases bound.symm.trans (unbound_of_accepted accepted)
    have kept := labels_apply a d name
    rw [accepted, if_neg here, bound] at kept
    simpa [here.symm] using ih kept others

/-- How many instructions are appended before the label is defined. -/
def labelPlace (ds : List Directive) (name : String) : Nat :=
  ((ds.takeWhile (· ≠ .label name)).flatMap Directive.drafts).length

theorem labelPlace_here (rest : List Directive) (name : String) : labelPlace (.label name :: rest) name = 0 := by
  simp [labelPlace]

theorem labelPlace_later (here : d ≠ .label name) (rest : List Directive) :
    labelPlace (d :: rest) name = d.drafts.length + labelPlace rest name := by
  simp [labelPlace, here]

/-- After directives that are all accepted, a label stands for the place where it is defined. -/
theorem labels_of_applyAll (followed : a.applyAll ds = .ok b) (name : String) :
    b.labels[name]? = if .label name ∈ ds then some (a.position + labelPlace ds name) else a.labels[name]? := by
  induction ds generalizing a with
  | nil =>
    cases followed
    rfl
  | cons d rest ih =>
    obtain ⟨next, answer, accepted, others⟩ := applyAll_cons.mp followed
    have bound := labels_apply a d name
    rw [accepted] at bound
    by_cases here : d = .label name
    · subst here
      rw [if_pos rfl] at bound
      rw [ih others, if_neg (not_mem_of_bound bound others), bound, if_pos List.mem_cons_self, labelPlace_here]
      rfl
    · rw [if_neg here] at bound
      have grown := position_of_applyAll (applyAll_cons.mpr ⟨next, answer, accepted, rfl⟩ : a.applyAll [d] = .ok next)
      rw [List.flatMap_singleton] at grown
      rw [ih others, bound, labelPlace_later here, grown, Nat.add_assoc]
      simp [Ne.symm here]

variable {scope : Scope}

theorem names_of_applyAll (followed : (start scope).applyAll ds = .ok a) :
    name ∈ a.names ↔ name ∈ ds.flatMap Directive.names := by
  obtain ⟨code, ranges⟩ := written_of_applyAll followed
  unfold names
  rw [code, ranges]
  simp only [start, List.nil_append, List.flatMap_assoc, List.mem_append, List.mem_flatMap, Directive.names]
  constructor
  · rintro (⟨d, listed, used⟩ | ⟨d, listed, used⟩)
    · exact ⟨d, listed, .inl used⟩
    · exact ⟨d, listed, .inr used⟩
  · rintro ⟨d, listed, used | used⟩
    · exact .inl ⟨d, listed, used⟩
    · exact .inr ⟨d, listed, used⟩

theorem labels_of_start (followed : (start scope).applyAll ds = .ok a) (name : String) :
    a.labels[name]? = if .label name ∈ ds then some (labelPlace ds name) else none := by
  have empty : (start scope).labels[name]? = none := Std.HashMap.getElem?_empty
  have first : (start scope).position = 0 := rfl
  rw [labels_of_applyAll followed, empty, first, Nat.zero_add]

theorem contains_iff_defined (followed : (start scope).applyAll ds = .ok a) :
    a.labels.contains name = true ↔ .label name ∈ ds := by
  rw [← Std.HashMap.isSome_getElem?_eq_contains, labels_of_start followed]
  split <;> simp_all

/-- With a label for each name, what is finished is what the directives mean. -/
theorem build_of_defined (followed : (start scope).applyAll ds = .ok a)
    (defined : ∀ name ∈ ds.flatMap Directive.names, .label name ∈ ds) :
    Routine.build (a.code.toList.map (Draft.meant a.place)).toArray (a.ranges.map (NamedRange.meant a.place)) a.scope =
      Routine.build (ds.flatMap (Directive.instrs (labelPlace ds))).toArray
        (ds.flatMap (Directive.protects (labelPlace ds))) a.scope := by
  obtain ⟨code, ranges⟩ := written_of_applyAll followed
  have agree : ∀ name ∈ a.names, a.place name = labelPlace ds name := by
    intro name used
    rw [place, labels_of_start followed, if_pos (defined name ((names_of_applyAll followed).mp used))]
    rfl
  have meant : a.code.toList.map (Draft.meant a.place) = a.code.toList.map (Draft.meant (labelPlace ds)) :=
    List.map_congr_left fun draft listed => Draft.meant_congr fun name used =>
      agree name (List.mem_append_left _ (List.mem_flatMap.mpr ⟨draft, listed, used⟩))
  have meant' : a.ranges.map (NamedRange.meant a.place) = a.ranges.map (NamedRange.meant (labelPlace ds)) :=
    List.map_congr_left fun range listed => NamedRange.meant_congr fun name used =>
      agree name (List.mem_append_right _ (List.mem_flatMap.mpr ⟨range, listed, used⟩))
  rw [meant, meant', code, ranges]
  simp only [start, List.nil_append, List.map_flatMap]
  rfl

theorem finish_of_defined (followed : (start scope).applyAll ds = .ok a)
    (defined : ∀ name ∈ ds.flatMap Directive.names, .label name ∈ ds) :
    a.finish = Routine.build (ds.flatMap (Directive.instrs (labelPlace ds))).toArray
      (ds.flatMap (Directive.protects (labelPlace ds))) a.scope := by
  have none : a.names.find? (fun name => !a.labels.contains name) = none := by
    refine List.find?_eq_none.mpr fun name used => ?_
    rw [(contains_iff_defined followed).mpr (defined name ((names_of_applyAll followed).mp used))]
    simp
  rw [finish_eq, none]
  exact build_of_defined followed defined

theorem finish_of_undefined (followed : (start scope).applyAll ds = .ok a)
    (undefined : ∃ name ∈ ds.flatMap Directive.names, .label name ∉ ds) :
    ∃ name ∈ ds.flatMap Directive.names, .label name ∉ ds ∧ a.finish = reject (.unresolvedLabel name) := by
  have missing : ∀ name, (!a.labels.contains name) = true ↔ .label name ∉ ds := by
    intro name
    rw [Bool.not_eq_true', ← Bool.not_eq_true, contains_iff_defined followed]
  obtain ⟨name, used, absent⟩ := undefined
  cases found : a.names.find? fun name => !a.labels.contains name with
  | none =>
    have known := List.find?_eq_none.mp found name ((names_of_applyAll followed).mpr used)
    exact absurd ((missing name).mpr absent) known
  | some first =>
    refine ⟨first, (names_of_applyAll followed).mp (List.mem_of_find?_eq_some found), ?_, ?_⟩
    · have absent := List.find?_some found
      exact (missing first).mp absent
    · rw [finish_eq, found]

/-- Building a routine looks up no names. -/
theorem build_ne_unresolved (code : Array Instr) (ranges : List Range) (scope : Scope) (name : String) :
    Routine.build code ranges scope ≠ reject (.unresolvedLabel name) := by
  intro failed
  obtain ⟨defect, misfit, same⟩ := Routine.build_misfit code ranges scope _ failed
  cases same
  cases misfit

/-- The position before a directive is where its instruction goes, and its label, if it
    defines one. -/
theorem placed_of_applyAll {before rest : List Directive} (followed : (start scope).applyAll (before ++ d :: rest) = .ok a)
    (p : String → Nat) :
    ∃ b, (start scope).applyAll before = .ok b ∧
      (∀ instr ∈ d.instrs p, ((before ++ d :: rest).flatMap (Directive.instrs p))[b.position]? = some instr) ∧
      ∀ name, d = .label name → labelPlace (before ++ d :: rest) name = b.position := by
  obtain ⟨b, first, others⟩ := applyAll_append.mp followed
  obtain ⟨next, answer, accepted, _⟩ := applyAll_cons.mp others
  have position : b.position = (before.flatMap Directive.drafts).length := by
    rw [position_of_applyAll first]
    exact Nat.zero_add _
  refine ⟨b, first, fun instr member => ?_, fun name label => ?_⟩
  · have length : (before.flatMap (Directive.instrs p)).length = b.position := by
      rw [position]
      simp [Directive.instrs, List.length_flatMap]
    rw [List.flatMap_append, List.flatMap_cons, Directive.instrs_eq member, ← length, List.getElem?_append_right (Nat.le_refl _),
      Nat.sub_self]
    rfl
  · subst label
    have absent : .label name ∉ before := by
      intro earlier
      have bound := labels_of_start first name
      rw [if_pos earlier, unbound_of_accepted accepted] at bound
      cases bound
    have new : ∀ d ∈ before, decide (d ≠ .label name) = true := by
      intro d member
      exact decide_eq_true fun same => absent (same ▸ member)
    rw [position, labelPlace, List.takeWhile_append_of_pos new]
    simp

/-- What directives of which none is refused come to. Finishing fails at a name just if some
    name that they use has no label among them. Otherwise the routine is built of just the
    instructions and the ranges that the directives stand for, in their order, over the
    variables they declare. An instruction stands at the position that was reached before
    its directive, and a name stands for the position that was reached before its label. -/
theorem finish_resolved (followed : (start scope).applyAll ds = .ok a) :
    ((∃ name, a.finish = reject (.unresolvedLabel name)) ↔
      ∃ name ∈ ds.flatMap Directive.names, .label name ∉ ds) ∧
    (∀ name, a.finish = reject (.unresolvedLabel name) → name ∈ ds.flatMap Directive.names ∧ .label name ∉ ds) ∧
    ((∀ name ∈ ds.flatMap Directive.names, .label name ∈ ds) →
      a.finish = Routine.build (ds.flatMap (Directive.instrs (labelPlace ds))).toArray
        (ds.flatMap (Directive.protects (labelPlace ds))) a.scope) ∧
    scope.declareAll (ds.flatMap Directive.declarations) = .ok a.scope ∧
    ∀ before d rest, ds = before ++ d :: rest → ∃ b, (start scope).applyAll before = .ok b ∧
      (∀ instr ∈ d.instrs (labelPlace ds), (ds.flatMap (Directive.instrs (labelPlace ds)))[b.position]? = some instr) ∧
      ∀ name, d = .label name → labelPlace ds name = b.position := by
  have culprit : ∀ name, a.finish = reject (.unresolvedLabel name) →
      name ∈ ds.flatMap Directive.names ∧ .label name ∉ ds := by
    intro name failed
    by_cases undefined : ∃ name ∈ ds.flatMap Directive.names, .label name ∉ ds
    · obtain ⟨first, used, absent, failed'⟩ := finish_of_undefined followed undefined
      cases failed.symm.trans failed'
      exact ⟨used, absent⟩
    · have defined : ∀ name ∈ ds.flatMap Directive.names, .label name ∈ ds := by
        intro name used
        by_contra absent
        exact undefined ⟨name, used, absent⟩
      rw [finish_of_defined followed defined] at failed
      exact absurd failed (build_ne_unresolved _ _ _ name)
  refine ⟨⟨?_, fun undefined => ?_⟩, culprit, finish_of_defined followed, scope_of_applyAll followed, ?_⟩
  · rintro ⟨name, failed⟩
    exact ⟨name, culprit name failed⟩
  · obtain ⟨name, _, _, failed⟩ := finish_of_undefined followed undefined
    exact ⟨name, failed⟩
  · rintro before d rest rfl
    exact placed_of_applyAll followed _

/-- A subroutine that is called before it is written, a switch back to the start and on to
    the end, and a range around both whose handler comes last. -/
def crossing : List Directive :=
  [.declare (.local 0 Flags.none), .label "top", .jsr "sub", .switch ["top", "end"] "end", .label "sub", .store 0,
    .emit (.ret 0), .protect "top" "sub" "end", .label "end", .returnVoid]

theorem crossing_accepted : ∃ a, (start .empty).applyAll crossing = .ok a := by
  obtain ⟨scope, var, declared, known⟩ : ∃ scope var, Scope.empty.declare (.local 0 Flags.none) = .ok scope ∧
      scope.find 0 = .ok var := ⟨_, _, rfl, rfl⟩
  simp [crossing, applyAll, apply, start, append, bindLabel, access, declared, known, Directive.returnVoid, bind,
    Except.bind, pure, Except.pure]

theorem finish_resolved_crossing :
    (∃ a, (start .empty).applyAll crossing = .ok a ∧ Scope.empty.declareAll [.local 0 Flags.none] = .ok a.scope ∧
      a.finish = Routine.build #[.label, .jsr 3, .switch [0, 6] 6, .label, .store 0, .ret 0, .label, .return false]
        [⟨0, 3, 6⟩] a.scope) ∧
    ∃ a, (start .empty).applyAll [.label "a", .goto "b"] = .ok a ∧ ∃ name, a.finish = reject (.unresolvedLabel name) := by
  obtain ⟨a, followed⟩ := crossing_accepted
  have defined : ∀ name ∈ crossing.flatMap Directive.names, .label name ∈ crossing := by decide
  have instrs : crossing.flatMap (Directive.instrs (labelPlace crossing)) =
      [.label, .jsr 3, .switch [0, 6] 6, .label, .store 0, .ret 0, .label, .return false] := by decide
  have ranges : crossing.flatMap (Directive.protects (labelPlace crossing)) = [⟨0, 3, 6⟩] := by decide
  obtain ⟨_, _, finished, declared, _⟩ := finish_resolved followed
  refine ⟨⟨a, followed, declared, ?_⟩, ?_⟩
  · rw [finished defined, instrs, ranges]
  · obtain ⟨b, followed'⟩ : ∃ b, (start .empty).applyAll [.label "a", .goto "b"] = .ok b := by
      simp [applyAll, apply, start, append, bindLabel, bind, Except.bind, pure, Except.pure]
    refine ⟨b, followed', (finish_resolved followed').1.mpr ⟨"b", ?_⟩⟩
    decide

end Assembly

end StackFlow
