import Mathlib
import StackFlow.Classes

/-!
The classes of variables after any requests. The table of classes and the class of each
variable always tell the same story (`Consistent`), so that moving one class into another
cannot fail, and what a request does to the class of each variable can be said in a few
words (`Inserts`, `Unites`). Two variables then have one class just if a chain of merges
links them (`Generates`), and a number that a merge gives up is never used again
(`classes_generated`).
-/
namespace StackFlow

namespace Scope

theorem find_of_lt {s : Scope} {v : VarId} (known : v < s.size) : ∃ var, s.find v = .ok var := by
  obtain ⟨var, found⟩ : ∃ var, s.get? v = some var := ⟨_, Array.getElem?_eq_getElem known⟩
  exact ⟨var, by rw [find, found]⟩

theorem find_of_le {s : Scope} {v : VarId} (unknown : s.size ≤ v) : s.find v = reject (.unknownVariable v s.size) := by
  have absent : s.get? v = none := Array.getElem?_eq_none unknown
  rw [find, absent]

end Scope

namespace Classes

/-- A call that may change the classes. -/
inductive Request where
  | insert (v : VarId)
  | merge (a b : VarId)
  deriving DecidableEq, Repr

/-- The classes after a request, and its answer. -/
def handle (c : Classes) : Request → Classes × Result Nat
  | .insert v =>
    match c.insert v with
    | .error e => (c, .error e)
    | .ok (id, c) => (c, .ok id)
  | .merge a b => c.merge a b

/-- The classes after a list of requests, whether they fail or not. -/
def after (c : Classes) (requests : List Request) : Classes := requests.foldl (fun c request => (c.handle request).1) c

/-- The request gives a class to the variable. -/
inductive Enters (scope : Scope) : Request → VarId → Prop
  | insert {v : VarId} (known : v < scope.size) : Enters scope (.insert v) v
  /-- The first variable of a merge has a class even if the second one is unknown. -/
  | first {a b : VarId} (known : a < scope.size) : Enters scope (.merge a b) a
  | second {a b : VarId} (known : a < scope.size) (known' : b < scope.size) : Enters scope (.merge a b) b

def Inserted (scope : Scope) (requests : List Request) (v : VarId) : Prop :=
  ∃ request ∈ requests, Enters scope request v

/-- A merge of the two variables is requested, and succeeds when its turn comes. -/
def Joined (scope : Scope) (requests : List Request) (a b : VarId) : Prop :=
  ∃ front rest id, requests = front ++ .merge a b :: rest ∧ (((start scope).after front).merge a b).2 = .ok id

/-- Of the two classes that a merge finds for its variables, `old` is the one that does
    not keep its number. -/
def Absorbs (c : Classes) (a b : VarId) (old : Nat) : Prop :=
  ∃ classA c₁ classB c₂ id, c.insert a = .ok (classA, c₁) ∧ c₁.insert b = .ok (classB, c₂) ∧
    (c.merge a b).2 = .ok id ∧ (old = classA ∨ old = classB) ∧ old ≠ id

/-- The members of a class are the variables that have it. -/
structure Consistent (c : Classes) : Prop where
  members : ∀ (id : Nat) (set : SortedSet), c.members[id]? = some (some set) →
    set.values ≠ [] ∧ ∀ v, v ∈ set.values ↔ c.classOf? v = some id
  live : ∀ v id, c.classOf? v = some id → ∃ set, c.members[id]? = some (some set)

/-- What giving a variable the class `id` does: nothing if it has this class already,
    else the class is new. -/
structure Inserts (c : Classes) (v : VarId) (id : Nat) (d : Classes) : Prop where
  scope : d.scope = c.scope
  consistent : d.Consistent
  here : d.classOf? v = some id
  keeps : ∀ w i, c.classOf? w = some i → d.classOf? w = some i
  added : ∀ w i, d.classOf? w = some i → c.classOf? w = some i ∨ w = v ∧ i = id
  own : ∀ w, c.classOf? w = some id → c.classOf? v = some id
  retired : ∀ old : Nat, c.members[old]? = some none → d.members[old]? = some none

/-- What making one class of two does: it has one of their numbers, and the other number
    is retired. -/
structure Unites (c : Classes) (a b id : Nat) (d : Classes) : Prop where
  scope : d.scope = c.scope
  consistent : d.Consistent
  either : id = a ∨ id = b
  classOf : ∀ w, d.classOf? w = if c.classOf? w = some a ∨ c.classOf? w = some b then some id else c.classOf? w
  retired : ∀ old : Nat, c.members[old]? = some none ∨ (old = a ∨ old = b) ∧ old ≠ id → d.members[old]? = some none

variable {c d : Classes} {scope : Scope}

theorem enters_insert {v w : VarId} : Enters scope (.insert v) w ↔ v < scope.size ∧ w = v := by
  constructor
  · rintro ⟨known⟩
    exact ⟨known, rfl⟩
  · rintro ⟨known, rfl⟩
    exact .insert known

theorem enters_merge {a b w : VarId} :
    Enters scope (.merge a b) w ↔ a < scope.size ∧ (w = a ∨ b < scope.size ∧ w = b) := by
  constructor
  · rintro (_ | ⟨known⟩ | ⟨known, known'⟩)
    · exact ⟨known, .inl rfl⟩
    · exact ⟨known, .inr ⟨known', rfl⟩⟩
  · rintro ⟨known, rfl | ⟨known', rfl⟩⟩
    · exact .first known
    · exact .second known known'

theorem insert_of_le {v : VarId} (unknown : c.scope.size ≤ v) :
    c.insert v = reject (.unknownVariable v c.scope.size) := by
  rw [insert, Scope.find_of_le unknown]
  rfl

theorem insert_old {v : VarId} {id : Nat} (known : v < c.scope.size) (old : c.classOf? v = some id) :
    c.insert v = .ok (id, c) := by
  obtain ⟨var, found⟩ := Scope.find_of_lt known
  simp only [insert, found, old, bind, Except.bind]
  rfl

theorem insert_new {v : VarId} (known : v < c.scope.size) (new : c.classOf? v = none) :
    ∃ d, c.insert v = .ok (c.members.size, d) ∧ d.scope = c.scope ∧
      d.members = c.members.push (some (SortedSet.singleton v)) ∧
      ∀ w, d.classOf? w = if w = v then some c.members.size else c.classOf? w := by
  obtain ⟨var, found⟩ := Scope.find_of_lt known
  refine ⟨{ c with
    members := c.members.push (some (SortedSet.singleton v)), classOf := c.classOf.insert v c.members.size },
    ?_, rfl, rfl, fun w => ?_⟩
  · simp only [insert, found, new, bind, Except.bind]
    rfl
  · simp only [classOf?, Std.HashMap.getElem?_insert, beq_iff_eq, @eq_comm _ v w]

theorem consistent_start (scope : Scope) : (start scope).Consistent := by
  refine ⟨?_, ?_⟩
  · intro id set listed
    simp [start] at listed
  · intro v id found
    simp [start, classOf?] at found

theorem Consistent.lt_size (consistent : c.Consistent) {v : VarId} {id : Nat} (found : c.classOf? v = some id) :
    id < c.members.size := by
  obtain ⟨set, listed⟩ := consistent.live v id found
  exact (Array.getElem?_eq_some_iff.mp listed).1

theorem inserts_old (consistent : c.Consistent) {v : VarId} {id : Nat} (old : c.classOf? v = some id) :
    Inserts c v id c :=
  ⟨rfl, consistent, old, fun _ _ found => found, fun _ _ => .inl, fun _ _ => old, fun _ gone => gone⟩

theorem inserts_new (consistent : c.Consistent) {v : VarId} (new : c.classOf? v = none) (same : d.scope = c.scope)
    (members : d.members = c.members.push (some (SortedSet.singleton v)))
    (classOf : ∀ w, d.classOf? w = if w = v then some c.members.size else c.classOf? w) :
    Inserts c v c.members.size d := by
  have unused : ∀ w, c.classOf? w ≠ some c.members.size := fun w found => Nat.lt_irrefl _ (consistent.lt_size found)
  have keeps : ∀ w i, c.classOf? w = some i → d.classOf? w = some i := by
    intro w i found
    have other : w ≠ v := by
      rintro rfl
      cases new.symm.trans found
    rw [classOf, if_neg other, found]
  refine ⟨same, ⟨?_, ?_⟩, by rw [classOf, if_pos rfl], keeps, ?_, fun w found => absurd found (unused w), ?_⟩
  · intro id set listed
    rw [members, Array.getElem?_push] at listed
    split at listed
    · rename_i last
      cases listed
      refine ⟨by simp [SortedSet.singleton], fun w => ?_⟩
      rw [classOf, last]
      by_cases here : w = v
      · simp [here, SortedSet.singleton]
      · simp [here, SortedSet.singleton, unused w]
    · rename_i earlier
      obtain ⟨nonempty, mine⟩ := consistent.members id set listed
      refine ⟨nonempty, fun w => (mine w).trans ?_⟩
      rw [classOf]
      by_cases here : w = v
      · simp [here, new, Ne.symm earlier]
      · simp [here]
  · intro w id found
    rw [classOf] at found
    rw [members]
    split at found
    · cases found
      exact ⟨_, Array.getElem?_push_size⟩
    · obtain ⟨set, listed⟩ := consistent.live w id found
      refine ⟨set, ?_⟩
      rw [Array.getElem?_push, if_neg (Nat.ne_of_lt (consistent.lt_size found)), listed]
  · intro w i found
    rw [classOf] at found
    split at found
    · rename_i here
      exact .inr ⟨here, (Option.some.inj found).symm⟩
    · exact .inl found
  · intro old gone
    have inside := (Array.getElem?_eq_some_iff.mp gone).1
    rw [members, Array.getElem?_push, if_neg (Nat.ne_of_lt inside), gone]

/-- Inserting a known variable succeeds. -/
theorem insert_total (consistent : c.Consistent) {v : VarId} (known : v < c.scope.size) :
    ∃ id d, c.insert v = .ok (id, d) ∧ Inserts c v id d := by
  cases found : c.classOf? v with
  | some id => exact ⟨id, c, insert_old known found, inserts_old consistent found⟩
  | none =>
    obtain ⟨d, run, same, members, classOf⟩ := insert_new known found
    exact ⟨_, d, run, inserts_new consistent found same members classOf⟩

theorem getElem?_foldl_insert (map : Std.HashMap VarId Nat) (vars : List VarId) (id : Nat) (w : VarId) :
    (vars.foldl (fun map v => map.insert v id) map)[w]? = if w ∈ vars then some id else map[w]? := by
  induction vars generalizing map with
  | nil => simp
  | cons v rest ih =>
    rw [List.foldl_cons, ih, Std.HashMap.getElem?_insert]
    by_cases later : w ∈ rest
    · simp [later]
    · by_cases here : w = v
      · simp [here]
      · simp [later, here, Ne.symm here]

theorem Unites.symm {a b id : Nat} (united : Unites c a b id d) : Unites c b a id d := by
  refine ⟨united.scope, united.consistent, united.either.symm, fun w => ?_, fun old gone => ?_⟩
  · rw [united.classOf w]
    simp only [or_comm]
  · exact united.retired old (gone.imp_right fun ⟨one, other⟩ => ⟨one.symm, other⟩)

theorem unites_self (consistent : c.Consistent) (a : Nat) : Unites c a a a c := by
  refine ⟨rfl, consistent, .inl rfl, fun w => ?_, fun old gone => ?_⟩
  · by_cases here : c.classOf? w = some a
    · simp [here]
    · simp [here]
  · rcases gone with before | ⟨same | same, other⟩
    · exact before
    · exact absurd same other
    · exact absurd same other

/-- Moving the members of one class into another, which both have members. -/
theorem absorb_eq {keep gone : Nat} (different : keep ≠ gone) {target absorbed : SortedSet}
    (kept : c.members[keep]? = some (some target)) (left : c.members[gone]? = some (some absorbed)) :
    ∃ d, c.absorb keep gone = .ok d ∧ d.scope = c.scope ∧
      (∀ i : Nat, d.members[i]? =
        if i = keep then some (some (target.union absorbed)) else if i = gone then some none else c.members[i]?) ∧
      ∀ w, d.classOf? w = if w ∈ absorbed.values then some keep else c.classOf? w := by
  have inside := (Array.getElem?_eq_some_iff.mp left).1
  have bound : keep < (c.members.set gone none inside).size := by
    rw [Array.size_set]
    exact (Array.getElem?_eq_some_iff.mp kept).1
  have still : (c.members.set gone none inside)[keep]? = some (some target) := by
    rw [Array.getElem?_set_ne inside (Ne.symm different), kept]
  refine ⟨{ c with
    members := (c.members.set gone none inside).set keep (some (target.union absorbed)) bound
    classOf := absorbed.values.foldl (fun map v => map.insert v keep) c.classOf }, ?_, rfl, fun i => ?_, fun w => ?_⟩
  · simp only [absorb, fetch_eq_ok.mpr left, replace_of_lt inside, fetch_eq_ok.mpr still, replace_of_lt bound, bind,
      Except.bind]
    rfl
  · simp only [Array.getElem?_set, @eq_comm _ keep i, @eq_comm _ gone i]
  · exact getElem?_foldl_insert c.classOf absorbed.values keep w

theorem unites_of_absorb (consistent : c.Consistent) {keep gone : Nat} {target absorbed : SortedSet}
    (kept : c.members[keep]? = some (some target)) (left : c.members[gone]? = some (some absorbed))
    (same : d.scope = c.scope)
    (members : ∀ i : Nat, d.members[i]? =
      if i = keep then some (some (target.union absorbed)) else if i = gone then some none else c.members[i]?)
    (classOf : ∀ w, d.classOf? w = if w ∈ absorbed.values then some keep else c.classOf? w) :
    Unites c keep gone keep d := by
  obtain ⟨nonempty, mine⟩ := consistent.members keep target kept
  obtain ⟨_, theirs⟩ := consistent.members gone absorbed left
  -- A variable has moved just if it had the class that is gone.
  have moved : ∀ w, d.classOf? w =
      if c.classOf? w = some keep ∨ c.classOf? w = some gone then some keep else c.classOf? w := by
    intro w
    rw [classOf]
    by_cases theirs' : w ∈ absorbed.values
    · rw [if_pos theirs', if_pos (.inr ((theirs w).mp theirs'))]
    · rw [if_neg theirs']
      split
      · rename_i either
        exact either.resolve_right fun found => theirs' ((theirs w).mpr found)
      · rfl
  refine ⟨same, ⟨fun id set listed => ?_, fun w id found => ?_⟩, .inl rfl, moved, fun old retired => ?_⟩
  · rw [members] at listed
    split at listed
    · rename_i here
      cases listed
      obtain ⟨v, member⟩ := List.exists_mem_of_ne_nil _ nonempty
      refine ⟨List.ne_nil_of_mem (SortedSet.mem_union.mpr (.inl member)), fun w => ?_⟩
      rw [SortedSet.mem_union, mine, theirs, here, moved]
      split
      · rename_i either
        exact iff_of_true either rfl
      · rename_i neither
        exact iff_of_false neither fun found => neither (.inl found)
    · rename_i notKeep
      split at listed
      · cases listed
      · rename_i notGone
        obtain ⟨nonempty, theirs⟩ := consistent.members id set listed
        refine ⟨nonempty, fun w => ?_⟩
        rw [theirs, moved]
        split
        · rename_i either
          refine iff_of_false (fun found => ?_) fun found => notKeep (Option.some.inj found).symm
          rcases either with one | other
          · exact notKeep (Option.some.inj (found.symm.trans one))
          · exact notGone (Option.some.inj (found.symm.trans other))
        · rfl
  · rw [moved] at found
    rw [members]
    split at found
    · cases found
      exact ⟨_, if_pos rfl⟩
    · rename_i neither
      obtain ⟨set, listed⟩ := consistent.live w id found
      rw [found, Option.some.injEq, Option.some.injEq] at neither
      obtain ⟨notKeep, notGone⟩ := not_or.mp neither
      exact ⟨set, by rw [if_neg notKeep, if_neg notGone, listed]⟩
  · rw [members]
    rcases retired with before | ⟨either, other⟩
    · have notKeep : old ≠ keep := by
        rintro rfl
        cases before.symm.trans kept
      rw [if_neg notKeep, before, ite_self]
    · rw [if_neg other, if_pos (either.resolve_left other)]

/-- Moving the members of a class into another one succeeds. -/
theorem absorb_total (consistent : c.Consistent) {keep gone : Nat} (different : keep ≠ gone) {target absorbed : SortedSet}
    (kept : c.members[keep]? = some (some target)) (left : c.members[gone]? = some (some absorbed)) :
    ∃ d, c.absorb keep gone = .ok d ∧ Unites c keep gone keep d := by
  obtain ⟨d, run, same, members, classOf⟩ := absorb_eq different kept left
  exact ⟨d, run, unites_of_absorb consistent kept left same members classOf⟩

/-- Two classes of variables can be made one. -/
theorem unite_total (consistent : c.Consistent) {u v : VarId} {a b : Nat} (left : c.classOf? u = some a)
    (right : c.classOf? v = some b) : ∃ id d, c.unite a b = .ok (id, d) ∧ Unites c a b id d := by
  obtain ⟨setA, listedA⟩ := consistent.live u a left
  obtain ⟨setB, listedB⟩ := consistent.live v b right
  have gotA : c.get a = .ok setA := by simp [get, listedA]
  have gotB : c.get b = .ok setB := by simp [get, listedB]
  by_cases same : a = b
  · subst same
    exact ⟨a, c, by simp [unite, pure, Except.pure], unites_self consistent a⟩
  by_cases larger : setB.size ≤ setA.size
  · obtain ⟨d, run, united⟩ := absorb_total consistent same listedA listedB
    refine ⟨a, d, ?_, united⟩
    simp only [unite, same, gotA, gotB, larger, run, bind, Except.bind, pure, Except.pure, if_true, if_false]
  · obtain ⟨d, run, united⟩ := absorb_total consistent (Ne.symm same) listedB listedA
    refine ⟨b, d, ?_, united.symm⟩
    simp only [unite, same, gotA, gotB, larger, run, bind, Except.bind, pure, Except.pure, if_false]

/-- What a merge consists of. It fails at a variable that is unknown, and nowhere else. -/
theorem merge_cases (consistent : c.Consistent) (a b : VarId) :
    c.scope.size ≤ a ∧ c.merge a b = (c, reject (.unknownVariable a c.scope.size)) ∨
    ∃ classA c₁, a < c.scope.size ∧ c.insert a = .ok (classA, c₁) ∧ Inserts c a classA c₁ ∧
      (c.scope.size ≤ b ∧ c.merge a b = (c₁, reject (.unknownVariable b c.scope.size)) ∨
      ∃ classB c₂ id d, b < c.scope.size ∧ c₁.insert b = .ok (classB, c₂) ∧ Inserts c₁ b classB c₂ ∧
        c.merge a b = (d, .ok id) ∧ Unites c₂ classA classB id d) := by
  rcases Nat.lt_or_ge a c.scope.size with known | unknown
  · obtain ⟨classA, c₁, first, inserts⟩ := insert_total consistent known
    refine .inr ⟨classA, c₁, known, first, inserts, ?_⟩
    rcases Nat.lt_or_ge b c.scope.size with known' | unknown'
    · obtain ⟨classB, c₂, second, inserts'⟩ := insert_total inserts.consistent (inserts.scope.symm ▸ known')
      obtain ⟨id, d, run, united⟩ :=
        unite_total inserts'.consistent (inserts'.keeps a classA inserts.here) inserts'.here
      refine .inr ⟨classB, c₂, id, d, known', second, inserts', ?_, united⟩
      simp only [merge, first, second, run]
    · have second := insert_of_le (inserts.scope.symm ▸ unknown')
      refine .inl ⟨unknown', ?_⟩
      rw [inserts.scope] at second
      simp only [merge, first, second]
      rfl
  · refine .inl ⟨unknown, ?_⟩
    simp only [merge, insert_of_le unknown]
    rfl

/-- What a request for an insertion consists of. -/
theorem handle_insert_cases (consistent : c.Consistent) (v : VarId) :
    c.scope.size ≤ v ∧ c.handle (.insert v) = (c, reject (.unknownVariable v c.scope.size)) ∨
    ∃ id d, v < c.scope.size ∧ c.handle (.insert v) = (d, .ok id) ∧ Inserts c v id d := by
  rcases Nat.lt_or_ge v c.scope.size with known | unknown
  · obtain ⟨id, d, run, inserts⟩ := insert_total consistent known
    exact .inr ⟨id, d, known, by simp only [handle, run], inserts⟩
  · refine .inl ⟨unknown, ?_⟩
    simp only [handle, insert_of_le unknown]
    rfl

/-- The variables with a class are those that `entered`, and two of them have one class
    just if they are linked by pairs that are `joined`. -/
structure Generates (scope : Scope) (c : Classes) (entered : VarId → Prop) (joined : VarId → VarId → Prop) : Prop where
  scope : c.scope = scope
  consistent : c.Consistent
  domain : ∀ v, (∃ id, c.classOf? v = some id) ↔ entered v
  together : ∀ a b, joined a b → ∃ id, c.classOf? a = some id ∧ c.classOf? b = some id
  linked : ∀ u v id, c.classOf? u = some id → c.classOf? v = some id → Relation.EqvGen joined u v

namespace Generates

variable {entered : VarId → Prop} {joined : VarId → VarId → Prop}

theorem congr (generates : Generates scope c entered joined) {entered' : VarId → Prop} {joined' : VarId → VarId → Prop}
    (enters : ∀ v, entered v ↔ entered' v) (joins : ∀ a b, joined a b ↔ joined' a b) :
    Generates scope c entered' joined' := by
  have same : joined = joined' := by
    funext a b
    exact propext (joins a b)
  refine ⟨generates.scope, generates.consistent, fun v => (generates.domain v).trans (enters v), ?_, ?_⟩
  · exact same ▸ generates.together
  · exact same ▸ generates.linked

theorem insert (generates : Generates scope c entered joined) {v : VarId} {id : Nat} (inserts : Inserts c v id d) :
    Generates scope d (fun w => entered w ∨ w = v) joined := by
  refine ⟨inserts.scope.trans generates.scope, inserts.consistent, fun w => ?_, ?_, fun u w i left right => ?_⟩
  · rw [← generates.domain]
    constructor
    · rintro ⟨i, found⟩
      exact (inserts.added w i found).imp (fun old => ⟨i, old⟩) And.left
    · rintro (⟨i, old⟩ | rfl)
      · exact ⟨i, inserts.keeps w i old⟩
      · exact ⟨id, inserts.here⟩
  · intro a b pair
    obtain ⟨i, left, right⟩ := generates.together a b pair
    exact ⟨i, inserts.keeps a i left, inserts.keeps b i right⟩
  · rcases inserts.added u i left with oldU | ⟨rfl, rfl⟩
    · rcases inserts.added w i right with oldW | ⟨rfl, rfl⟩
      · exact generates.linked u w i oldU oldW
      · exact generates.linked u w i oldU (inserts.own u oldU)
    · rcases inserts.added w i right with oldW | ⟨rfl, _⟩
      · exact generates.linked u w i (inserts.own w oldW) oldW
      · exact .refl _

theorem unite (generates : Generates scope c entered joined) {a b : VarId} {classA classB id : Nat}
    (left : c.classOf? a = some classA) (right : c.classOf? b = some classB) (united : Unites c classA classB id d) :
    Generates scope d entered fun x y => joined x y ∨ x = a ∧ y = b := by
  have grown : ∀ {u v}, Relation.EqvGen joined u v → Relation.EqvGen (fun x y => joined x y ∨ x = a ∧ y = b) u v :=
    fun link => link.mono fun _ _ => .inl
  have step : Relation.EqvGen (fun x y => joined x y ∨ x = a ∧ y = b) a b := .rel a b (.inr ⟨rfl, rfl⟩)
  refine ⟨united.scope.trans generates.scope, united.consistent, fun w => ?_, ?_, fun u v i foundU foundV => ?_⟩
  · rw [← generates.domain, united.classOf]
    by_cases moved : c.classOf? w = some classA ∨ c.classOf? w = some classB
    · rw [if_pos moved]
      exact ⟨fun _ => moved.elim (fun found => ⟨_, found⟩) fun found => ⟨_, found⟩, fun _ => ⟨id, rfl⟩⟩
    · rw [if_neg moved]
  · rintro x y (pair | ⟨rfl, rfl⟩)
    · obtain ⟨i, foundX, foundY⟩ := generates.together x y pair
      rw [united.classOf, united.classOf, foundX, foundY]
      split
      · exact ⟨id, rfl, rfl⟩
      · exact ⟨i, rfl, rfl⟩
    · exact ⟨id, by rw [united.classOf, if_pos (.inl left)], by rw [united.classOf, if_pos (.inr right)]⟩
  · -- Whatever has the number of the united class now is linked to `a`.
    have gathered : ∀ w, c.classOf? w = some classA ∨ c.classOf? w = some classB →
        Relation.EqvGen (fun x y => joined x y ∨ x = a ∧ y = b) w a := by
      rintro w (found | found)
      · exact grown (generates.linked w a classA found left)
      · exact .trans _ _ _ (grown (generates.linked w b classB found right)) (.symm _ _ step)
    have before : ∀ w, d.classOf? w = some i → i = id → c.classOf? w = some classA ∨ c.classOf? w = some classB := by
      rintro w found rfl
      rw [united.classOf] at found
      split at found
      · assumption
      · rw [found, Option.some.injEq, Option.some.injEq]
        exact united.either
    have kept : ∀ w, d.classOf? w = some i → i ≠ id → c.classOf? w = some i := by
      intro w found other
      rw [united.classOf] at found
      split at found
      · exact absurd (Option.some.inj found).symm other
      · exact found
    by_cases number : i = id
    · exact .trans _ _ _ (gathered u (before u foundU number)) (.symm _ _ (gathered v (before v foundV number)))
    · exact grown (generates.linked u v i (kept u foundU number) (kept v foundV number))

end Generates

/-- A merge that fails joins nothing. -/
theorem joined_of_failed {joined : VarId → VarId → Prop} {a b : VarId} {defect : Defect}
    (failed : (c.merge a b).2 = reject defect) (x y : VarId) :
    joined x y ↔ joined x y ∨ Request.merge a b = .merge x y ∧ ∃ id, (c.merge x y).2 = .ok id := by
  constructor
  · exact .inl
  · rintro (old | ⟨same, id, succeeded⟩)
    · exact old
    · cases same
      cases failed.symm.trans succeeded

theorem generates_handle {entered : VarId → Prop} {joined : VarId → VarId → Prop}
    (generates : Generates scope c entered joined) (request : Request) :
    Generates scope (c.handle request).1 (fun v => entered v ∨ Enters scope request v)
      fun a b => joined a b ∨ request = .merge a b ∧ ∃ id, (c.merge a b).2 = .ok id := by
  obtain rfl := generates.scope
  cases request with
  | insert v =>
    rcases handle_insert_cases generates.consistent v with ⟨unknown, run⟩ | ⟨id, d, known, run, inserts⟩
    · rw [run]
      refine generates.congr (fun w => ?_) (by simp)
      simp [enters_insert, Nat.not_lt.mpr unknown]
    · rw [run]
      refine (generates.insert inserts).congr (fun w => ?_) (by simp)
      simp [enters_insert, known]
  | merge a b =>
    change Generates c.scope (c.merge a b).1 _ _
    rcases merge_cases generates.consistent a b with ⟨unknown, run⟩ | ⟨classA, c₁, known, _, first, second⟩
    · rw [run]
      refine generates.congr (fun w => ?_) (joined_of_failed (by rw [run]))
      simp [enters_merge, Nat.not_lt.mpr unknown]
    · have entered' := generates.insert first
      rcases second with ⟨unknown, run⟩ | ⟨classB, c₂, id, d, known', _, second, run, united⟩
      · rw [run]
        refine entered'.congr (fun w => ?_) (joined_of_failed (by rw [run]))
        simp [enters_merge, known, Nat.not_lt.mpr unknown]
      · rw [run]
        refine ((entered'.insert second).unite (second.keeps a classA first.here) second.here united).congr
          (fun w => ?_) fun x y => or_congr_right ?_
        · simp [enters_merge, known, known', or_assoc]
        · constructor
          · rintro ⟨rfl, rfl⟩
            exact ⟨rfl, id, by rw [run]⟩
          · rintro ⟨same, _⟩
            cases same
            exact ⟨rfl, rfl⟩

theorem after_append (c : Classes) (front rest : List Request) : c.after (front ++ rest) = (c.after front).after rest :=
  List.foldl_append

theorem inserted_snoc {requests : List Request} {request : Request} {v : VarId} :
    Inserted scope requests v ∨ Enters scope request v ↔ Inserted scope (requests ++ [request]) v := by
  simp [Inserted, or_and_right, exists_or]

theorem joined_snoc {requests : List Request} {request : Request} {a b : VarId} :
    Joined scope requests a b ∨ (request = .merge a b ∧ ∃ id, (((start scope).after requests).merge a b).2 = .ok id) ↔
      Joined scope (requests ++ [request]) a b := by
  constructor
  · rintro (⟨front, rest, id, rfl, joins⟩ | ⟨rfl, id, joins⟩)
    · exact ⟨front, rest ++ [request], id, by simp, joins⟩
    · exact ⟨requests, [], id, rfl, joins⟩
  · rintro ⟨front, rest, id, split, joins⟩
    rcases List.eq_nil_or_concat rest with rfl | ⟨rest, last, rfl⟩
    · obtain ⟨rfl, same⟩ := List.append_inj' split rfl
      exact .inr ⟨List.singleton_inj.mp same, id, joins⟩
    · rw [List.concat_eq_append, ← List.cons_append, ← List.append_assoc] at split
      exact .inl ⟨front, rest, id, (List.append_inj' split rfl).1, joins⟩

/-- After any requests, the classes are those that the requests generate. -/
theorem generates_after (scope : Scope) (requests : List Request) :
    Generates scope ((start scope).after requests) (Inserted scope requests) (Joined scope requests) := by
  induction requests using List.reverseRecOn with
  | nil =>
    have consistent := consistent_start scope
    have empty : ∀ v id, ((start scope).after []).classOf? v ≠ some id := by
      intro v id found
      simp [after, start, classOf?] at found
    refine ⟨rfl, consistent, fun v => ?_, ?_, fun u v id found => absurd found (empty u id)⟩
    · exact iff_of_false (fun ⟨id, found⟩ => empty v id found) (by simp [Inserted])
    · rintro a b ⟨front, rest, id, split, _⟩
      simp at split
  | append_singleton requests request ih =>
    rw [after_append]
    exact (generates_handle ih request).congr (fun v => inserted_snoc) fun a b => joined_snoc

theorem retired_handle (consistent : c.Consistent) {old : Nat} (gone : c.members[old]? = some none) (request : Request) :
    (c.handle request).1.members[old]? = some none := by
  cases request with
  | insert v =>
    rcases handle_insert_cases consistent v with ⟨_, run⟩ | ⟨id, d, _, run, inserts⟩
    · rw [run]
      exact gone
    · rw [run]
      exact inserts.retired old gone
  | merge a b =>
    change (c.merge a b).1.members[old]? = some none
    rcases merge_cases consistent a b with ⟨_, run⟩ | ⟨_, c₁, _, _, first, ⟨_, run⟩ | ⟨_, c₂, id, d, _, _, second, run, united⟩⟩
    · rw [run]
      exact gone
    · rw [run]
      exact first.retired old gone
    · rw [run]
      exact united.retired old (.inl (second.retired old (first.retired old gone)))

/-- A retired number is not used again. -/
theorem retired_after {front : List Request} {old : Nat} (gone : ((start scope).after front).members[old]? = some none)
    (rest : List Request) : ((start scope).after (front ++ rest)).members[old]? = some none := by
  induction rest using List.reverseRecOn with
  | nil => simpa using gone
  | append_singleton rest request ih =>
    rw [← List.append_assoc, after_append]
    exact retired_handle (generates_after scope (front ++ rest)).consistent ih request

theorem retired_of_absorbs (consistent : c.Consistent) {a b : VarId} {old : Nat} (absorbs : c.Absorbs a b old) :
    (c.merge a b).1.members[old]? = some none := by
  obtain ⟨classA, c₁, classB, c₂, id, first, second, succeeded, either, other⟩ := absorbs
  rcases merge_cases consistent a b with ⟨_, run⟩ | ⟨_, _, _, first', _, ⟨_, run⟩ | ⟨_, _, id', d, _, second', _, run, united⟩⟩
  · rw [run] at succeeded
    cases succeeded
  · rw [run] at succeeded
    cases succeeded
  · rw [run] at succeeded ⊢
    cases succeeded
    cases first.symm.trans first'
    cases second.symm.trans second'
    exact united.retired old (.inr ⟨either, other⟩)

theorem handle_answers (consistent : c.Consistent) (request : Request) :
    (∃ id, (c.handle request).2 = .ok id) ∨
      ∃ v, c.scope.size ≤ v ∧ (c.handle request).2 = reject (.unknownVariable v c.scope.size) := by
  cases request with
  | insert v =>
    rcases handle_insert_cases consistent v with ⟨unknown, run⟩ | ⟨id, d, _, run, _⟩
    · exact .inr ⟨v, unknown, by rw [run]⟩
    · exact .inl ⟨id, by rw [run]⟩
  | merge a b =>
    rcases merge_cases consistent a b with ⟨unknown, run⟩ | ⟨_, _, _, _, _, ⟨unknown, run⟩ | ⟨_, _, id, d, _, _, _, run, _⟩⟩
    · exact .inr ⟨a, unknown, congrArg Prod.snd run⟩
    · exact .inr ⟨b, unknown, congrArg Prod.snd run⟩
    · exact .inl ⟨id, congrArg Prod.snd run⟩

theorem get_eq_ok {id : Nat} {set : SortedSet} : c.get id = .ok set ↔ c.members[id]? = some (some set) := by
  unfold get
  rw [← Option.join_eq_some_iff]
  cases c.members[id]?.join <;> simp [reject]

theorem get_retired {id : Nat} (gone : c.members[id]? = some none) : c.get id = reject (.unknownClass id) := by
  simp [get, gone]

/-- A class that exists has a canonical member. -/
theorem canonical_total (consistent : c.Consistent) {id : Nat} {set : SortedSet} (found : c.get id = .ok set) :
    ∃ v, c.canonical id = .ok v := by
  obtain ⟨nonempty, _⟩ := consistent.members id set (get_eq_ok.mp found)
  obtain ⟨v, rest, values⟩ := List.exists_cons_of_ne_nil nonempty
  simp only [canonical, found, values, least, bind, Except.bind]
  exact ⟨_, rfl⟩

theorem canonical_cases (consistent : c.Consistent) (id : Nat) :
    (∃ v, c.canonical id = .ok v) ∨ c.canonical id = reject (.unknownClass id) := by
  cases joined : c.members[id]?.join with
  | some set => exact .inl (canonical_total consistent (get_eq_ok.mpr (Option.join_eq_some_iff.mp joined)))
  | none =>
    have missing : c.get id = reject (.unknownClass id) := by rw [get, joined]
    refine .inr ?_
    rw [canonical, missing]
    rfl

theorem canonicalOf_total (consistent : c.Consistent) (v : VarId) : ∃ w, c.canonicalOf v = .ok w := by
  unfold canonicalOf
  cases found : c.classOf? v with
  | none => exact ⟨v, rfl⟩
  | some id =>
    obtain ⟨set, listed⟩ := consistent.live v id found
    exact canonical_total consistent (get_eq_ok.mpr listed)

/-- Variables that are linked by joined pairs have one class. -/
theorem Generates.classOf_eq {entered : VarId → Prop} {joined : VarId → VarId → Prop}
    (generates : Generates scope c entered joined) {u v : VarId} (link : Relation.EqvGen joined u v) :
    c.classOf? u = c.classOf? v := by
  induction link with
  | rel a b pair =>
    obtain ⟨id, left, right⟩ := generates.together a b pair
    exact left.trans right.symm
  | refl a => rfl
  | symm a b _ ih => exact ih.symm
  | trans a b d _ _ first second => exact first.trans second

/-- After any requests, failed ones included, the variables with a class are those that
    were inserted, and two of them have one class just if successful merges link them. A
    class that exists lists the variables that have it, in ascending order, and there is
    always one; the numbers of the existing classes are those of the variables, and the
    number that a merge gives up stays without a class from then on. Requests fail for want
    of a variable only, and asking for canonical members for want of a class only. -/
theorem classes_generated (scope : Scope) (requests : List Request) :
    let c := (start scope).after requests
    (∀ v, (∃ id, c.classOf? v = some id) ↔ Inserted scope requests v) ∧
    (∀ u v, Inserted scope requests u → Inserted scope requests v →
      (c.classOf? u = c.classOf? v ↔ Relation.EqvGen (Joined scope requests) u v)) ∧
    (∀ id set, c.get id = .ok set →
      set.values.Pairwise (· < ·) ∧ set.values ≠ [] ∧ ∀ v, v ∈ set.values ↔ c.classOf? v = some id) ∧
    (∀ id, (∃ set, c.get id = .ok set) ↔ ∃ v, c.classOf? v = some id) ∧
    (∀ front a b rest old, requests = front ++ .merge a b :: rest → ((start scope).after front).Absorbs a b old →
      c.get old = reject (.unknownClass old)) ∧
    (∀ front request rest, requests = front ++ request :: rest →
      (∃ id, (((start scope).after front).handle request).2 = .ok id) ∨
        ∃ v, scope.size ≤ v ∧ (((start scope).after front).handle request).2 = reject (.unknownVariable v scope.size)) ∧
    (∀ id, (∃ v, c.canonical id = .ok v) ∨ c.canonical id = reject (.unknownClass id)) ∧
    ∀ v, ∃ w, c.canonicalOf v = .ok w := by
  intro c
  have generates := generates_after scope requests
  have consistent := generates.consistent
  refine ⟨generates.domain, fun u v enteredU _ => ⟨fun same => ?_, generates.classOf_eq⟩, fun id set found => ?_,
    fun id => ⟨?_, ?_⟩, ?_, ?_, canonical_cases consistent, canonicalOf_total consistent⟩
  · obtain ⟨id, found⟩ := (generates.domain u).mpr enteredU
    exact generates.linked u v id found (same ▸ found)
  · obtain ⟨nonempty, members⟩ := consistent.members id set (get_eq_ok.mp found)
    exact ⟨set.ascending, nonempty, members⟩
  · rintro ⟨set, found⟩
    obtain ⟨nonempty, members⟩ := consistent.members id set (get_eq_ok.mp found)
    obtain ⟨v, member⟩ := List.exists_mem_of_ne_nil _ nonempty
    exact ⟨v, (members v).mp member⟩
  · rintro ⟨v, found⟩
    obtain ⟨set, listed⟩ := consistent.live v id found
    exact ⟨set, get_eq_ok.mpr listed⟩
  · rintro front a b rest old rfl absorbs
    have gone := retired_of_absorbs (generates_after scope front).consistent absorbs
    have later : ((start scope).after (front ++ [.merge a b])).members[old]? = some none := by
      rw [after_append]
      exact gone
    have last := retired_after later rest
    rw [List.append_assoc] at last
    exact get_retired last
  · rintro front request rest _
    have before := generates_after scope front
    have answers := handle_answers before.consistent request
    rwa [before.scope] at answers

/-- Of five locals, 0, 1 and 3 come into one class. The last two requests fail, but the
    first of them gives 2 a class of its own. -/
def mixedRequests : List Request := [.merge 0 1, .insert 3, .merge 3 0, .merge 2 9, .merge 9 4]

theorem classes_generated_mixedRequests :
    ∃ scope, Scope.empty.declareAll ((List.range 5).map fun n => .local (UInt16.ofNat n) Flags.none) = .ok scope ∧
      Relation.EqvGen (Joined scope mixedRequests) 3 1 ∧ ¬ Relation.EqvGen (Joined scope mixedRequests) 2 1 ∧
      ¬ Inserted scope mixedRequests 4 ∧
      ((start scope).after mixedRequests).get 2 = reject (.unknownClass 2) := by
  have computed : (do
      let scope ← Scope.empty.declareAll ((List.range 5).map fun n => .local (UInt16.ofNat n) Flags.none)
      let c := (start scope).after mixedRequests
      let d := (start scope).after [.merge 0 1, .insert 3]
      let (classA, d₁) ← d.insert 3
      let (classB, _) ← d₁.insert 0
      let id ← (d.merge 3 0).2
      return (c.classOf? 1, c.classOf? 2, c.classOf? 3, c.classOf? 4, classA, classB, id) : Result _) =
      .ok (some 0, some 3, some 0, none, 2, 0, 0) := by cbv
  obtain ⟨scope, declared, computed⟩ := bind_eq_ok.mp computed
  obtain ⟨⟨classA, c₁⟩, first, computed⟩ := bind_eq_ok.mp computed
  obtain ⟨⟨classB, c₂⟩, second, computed⟩ := bind_eq_ok.mp computed
  obtain ⟨id, succeeded, computed⟩ := bind_eq_ok.mp computed
  simp only [pure, Except.pure, Except.ok.injEq, Prod.mk.injEq] at computed
  obtain ⟨one, two, three, four, rfl, rfl, rfl⟩ := computed
  obtain ⟨domain, same, _, _, gone, _⟩ := classes_generated scope mixedRequests
  have inserted : ∀ v id, ((start scope).after mixedRequests).classOf? v = some id → Inserted scope mixedRequests v :=
    fun v id found => (domain v).mp ⟨id, found⟩
  refine ⟨scope, declared, ?_, fun link => ?_, fun entered => ?_, ?_⟩
  · exact (same 3 1 (inserted 3 0 three) (inserted 1 0 one)).mp (three.trans one.symm)
  · have equal := (same 2 1 (inserted 2 3 two) (inserted 1 0 one)).mpr link
    cases two.symm.trans (equal.trans one)
  · obtain ⟨id, found⟩ := (domain 4).mpr entered
    cases four.symm.trans found
  · exact gone [.merge 0 1, .insert 3] 3 0 [.merge 2 9, .merge 9 4] 2 rfl
      ⟨2, c₁, 0, c₂, 0, first, second, succeeded, .inl rfl, by decide⟩

end Classes

end StackFlow
