import StackFlow.BitSet.Basic
import StackFlow.Scope.Basic

/-!
Qualifier chains. A field `a.b.c` hangs below `a.b`, which hangs below `a`; the
chain of a variable lists them from the root to the variable itself. Writing a
variable changes all that hang below it, which the kill masks collect. Chains also
order variables: the shorter chain first, then the chains as words.
-/
namespace StackFlow.Scope

/-- The qualifiers above a variable, nearest first. They have ever smaller numbers. -/
def ancestors (s : Scope) (v : VarId) : List VarId :=
  match qualified : s.qualifier v with
  | none => []
  | some q =>
    have := lt_of_qualifier qualified
    q :: s.ancestors q
termination_by v

theorem ancestors_root {s : Scope} {v : VarId} (unqualified : s.qualifier v = none) : s.ancestors v = [] := by
  unfold ancestors
  split
  · rfl
  · rename_i qualified
    cases unqualified.symm.trans qualified

theorem ancestors_field {s : Scope} {v q : VarId} (qualified : s.qualifier v = some q) :
    s.ancestors v = q :: s.ancestors q := by
  conv => lhs; unfold ancestors
  split
  · rename_i unqualified
    cases unqualified.symm.trans qualified
  · rename_i other
    cases other.symm.trans qualified
    rfl

/-- From the root down to the variable. -/
def chain (s : Scope) (v : VarId) : List VarId := (v :: s.ancestors v).reverse

/-- How many qualifiers a variable has. -/
def depth (s : Scope) (v : VarId) : Nat :=
  match qualified : s.qualifier v with
  | none => 0
  | some q =>
    have := lt_of_qualifier qualified
    s.depth q + 1
termination_by v

/-- The other variables whose chain goes through `v`. -/
def dependents (s : Scope) (v : VarId) : List VarId :=
  (s.vars.toList.map Variable.id).filter fun w => w != v && (s.chain w).contains v

/-- Adds `v` to the mask of each of its qualifiers. -/
def markAncestors (s : Scope) (masks : Array BitSet) (v : VarId) : Result (Array BitSet) :=
  (s.ancestors v).foldlM (fun masks q => do
    let mask ← fetch masks q
    let (marked, _) ← mask.insert v
    replace masks q marked) masks

/-- For each variable, those that a write to it overwrites. -/
def killMasks (s : Scope) : Result (Array BitSet) := do
  let own ← (List.range s.size).mapM fun v => BitSet.ofIndices s.size [v]
  (s.vars.toList.map Variable.id).foldlM s.markAncestors own.toArray

/-- Shorter chains first, chains of one length as words. -/
def compareChains (a b : List VarId) : Ordering := (compare a.length b.length).then (compare a b)

/-- The order in which a representative is chosen. -/
def canonicalOrder (s : Scope) (a b : VarId) : Ordering := compareChains (s.chain a) (s.chain b)

end StackFlow.Scope
