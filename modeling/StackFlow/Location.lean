/-!
Storage locations of a frame: local slots and cells of the operand stack, both
numbered with sixteen bits. Locals come before stack cells, then the number decides.
-/
namespace StackFlow

inductive Location where
  | local (slot : UInt16)
  /-- A cell of the operand stack, counted from the bottom. -/
  | stack (depth : UInt16)
  deriving DecidableEq, Hashable, Repr, Inhabited

namespace Location

def isStack : Location → Bool
  | .local _ => false
  | stack _ => true

def render : Location → String
  | .local n => s!"local[{n}]"
  | stack n => s!"stack[{n}]"

/-- The position of a location in the order: locals first. -/
def rank : Location → Nat
  | .local n => n.toNat
  | stack n => 65536 + n.toNat

def le (a b : Location) : Bool := a.rank ≤ b.rank

/-- Locations in ascending order, equal ones kept. -/
def sort (ls : List Location) : List Location := ls.mergeSort le

theorem rank_injective {a b : Location} (same : a.rank = b.rank) : a = b := by
  have small := fun n : UInt16 => n.toNat_lt
  cases a with
  | «local» n =>
    cases b with
    | «local» m => exact congrArg Location.local (UInt16.toNat_inj.mp same)
    | stack m => have := small n; simp only [rank] at same; omega
  | stack n =>
    cases b with
    | «local» m => have := small m; simp only [rank] at same; omega
    | stack m => exact congrArg Location.stack (UInt16.toNat_inj.mp (by simp only [rank] at same; omega))

end Location

end StackFlow
