import Std.Data.HashMap
import StackFlow.Scope.Chain
import StackFlow.SortedSet

/-!
Classes of variables that are known to be equal. Classes are numbered as they are
made; when two are merged, the larger one keeps its number and the other number is
never used again. Each class has a canonical member: the one with the least
qualifier chain.
-/
namespace StackFlow

structure Classes where
  scope : Scope
  /-- The members of each class; none once it has been merged into another. -/
  members : Array (Option SortedSet)
  classOf : Std.HashMap VarId Nat

namespace Classes

def start (scope : Scope) : Classes := ⟨scope, #[], ∅⟩

def classOf? (c : Classes) (v : VarId) : Option Nat := c.classOf[v]?

/-- The members of a class that has not been merged away. -/
def get (c : Classes) (id : Nat) : Result SortedSet :=
  match c.members[id]?.join with
  | some set => .ok set
  | none => reject (.unknownClass id)

/-- The class of a variable, a new one if it has none yet. -/
def insert (c : Classes) (v : VarId) : Result (Nat × Classes) := do
  let _ ← c.scope.find v
  match c.classOf? v with
  | some id => return (id, c)
  | none =>
    let id := c.members.size
    return (id, { c with members := c.members.push (some (SortedSet.singleton v)), classOf := c.classOf.insert v id })

/-- Moves the members of one class into another. -/
def absorb (c : Classes) (keep gone : Nat) : Result Classes := do
  match ← fetch c.members gone with
  | none => reject (.mergedClass gone)
  | some absorbed =>
    let members ← replace c.members gone none
    match ← fetch members keep with
    | none => reject (.mergedClass keep)
    | some target =>
      let members ← replace members keep (some (target.union absorbed))
      let classOf := absorbed.values.foldl (fun map v => map.insert v keep) c.classOf
      return { c with members, classOf }

/-- Makes one class of two, and says which number it has: that of the larger class,
    of the first if they are of one size. -/
def unite (c : Classes) (a b : Nat) : Result (Nat × Classes) := do
  if a = b then return (a, c)
  else
    let left ← c.get a
    let right ← c.get b
    let (keep, gone) := if right.size ≤ left.size then (a, b) else (b, a)
    return (keep, ← c.absorb keep gone)

/-- Merges the classes of two variables. If only the second one is unknown, the first
    has a class afterwards. -/
def merge (c : Classes) (a b : VarId) : Classes × Result Nat :=
  match c.insert a with
  | .error e => (c, .error e)
  | .ok (classA, c) =>
    match c.insert b with
    | .error e => (c, .error e)
    | .ok (classB, c) =>
      match c.unite classA classB with
      | .error e => (c, .error e)
      | .ok (id, c) => (c, .ok id)

/-- The first of the least variables of a list. -/
def least (scope : Scope) : List VarId → Option VarId
  | [] => none
  | v :: rest =>
    some (rest.foldl (fun best w => if scope.canonicalOrder w best = .lt then w else best) v)

/-- The member that stands for a class. -/
def canonical (c : Classes) (id : Nat) : Result VarId := do
  match least c.scope (← c.get id).values with
  | some v => return v
  | none => reject (.emptyClass id)

/-- The variable that stands for another; a variable without a class stands for
    itself. -/
def canonicalOf (c : Classes) (v : VarId) : Result VarId :=
  match c.classOf? v with
  | some id => c.canonical id
  | none => .ok v

/-- The classes that have not been merged away, by number. -/
def live (c : Classes) : List (Nat × SortedSet) :=
  c.members.toList.zipIdx.filterMap fun (set, id) => set.map (id, ·)

end Classes

end StackFlow
