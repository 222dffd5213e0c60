import StackFlow.Error

/-!
The variables of a routine. A scope numbers its variables in the order of their
declaration; a field is declared after the variable that holds it, so a qualifier
always has a smaller number than what it qualifies.
-/
namespace StackFlow

/-- Marks on a variable. -/
structure Flags where
  /-- Read by code outside of the routine. -/
  implicitRead : Bool
  /-- Not written by a programmer. -/
  synthetic : Bool
  deriving DecidableEq, Repr, Inhabited

namespace Flags

def none : Flags := ⟨false, false⟩

def bits (f : Flags) : Nat := (if f.implicitRead then 1 else 0) + (if f.synthetic then 2 else 0)

/-- The marks in the two lowest bits of a number. -/
def ofBits (n : Nat) : Flags := ⟨n.testBit 0, n.testBit 1⟩

theorem ofBits_bits (f : Flags) : ofBits f.bits = f := by
  rcases f with ⟨_ | _, _ | _⟩ <;> rfl

end Flags

/-- What a variable stands for. -/
inductive Kind where
  | local (slot : UInt16)
  /-- The object whose method the routine is. -/
  | this (slot : UInt16)
  | field (qualifier : VarId) (name : String)
  | static (name : String)
  /-- The switch that turns assertions on. -/
  | assertions
  deriving DecidableEq, Repr, Inhabited

namespace Kind

/-- The variable whose field this is. -/
def qualifier : Kind → Option VarId
  | field q _ => some q
  | _ => none

/-- The frame slot that holds the variable. -/
def slot : Kind → Option UInt16
  | .local s | this s => some s
  | _ => none

theorem slot_eq_some {k : Kind} {s : UInt16} : k.slot = some s ↔ k = .local s ∨ k = .this s := by
  cases k <;> simp [slot]

end Kind

structure Variable where
  id : VarId
  kind : Kind
  flags : Flags
  deriving DecidableEq, Repr, Inhabited

namespace Variable

def qualifier (v : Variable) : Option VarId := v.kind.qualifier

def slot (v : Variable) : Option UInt16 := v.kind.slot

/-- A variable that is never flushed: it may be read without a visible load. -/
def isExempt (v : Variable) : Bool :=
  match v.kind with
  | .this _ | .assertions => true
  | .local _ | .field _ _ | .static _ => v.flags.implicitRead

end Variable

/-- A request for a new variable. -/
inductive Declaration where
  | local (slot : UInt16) (flags : Flags)
  | this (slot : UInt16)
  | field (qualifier : VarId) (name : String)
  | static (name : String)
  | assertions
  deriving DecidableEq, Repr, Inhabited

namespace Declaration

def kind : Declaration → Kind
  | .local slot _ => .local slot
  | this slot => .this slot
  | field q name => .field q name
  | static name => .static name
  | assertions => .assertions

/-- Locals have the marks they ask for; what no programmer wrote is synthetic. -/
def flags : Declaration → Flags
  | .local _ flags => flags
  | this _ | assertions => ⟨false, true⟩
  | field _ _ | static _ => Flags.none

end Declaration

structure Scope where
  vars : Array Variable
  id_eq : ∀ (i : Nat) (v : Variable), vars[i]? = some v → v.id = i
  qualifier_lt : ∀ (i : Nat) (v : Variable) (q : VarId), vars[i]? = some v → v.qualifier = some q → q < i
  deriving DecidableEq

namespace Scope

def empty : Scope := ⟨#[], by simp, by simp⟩

instance : Inhabited Scope := ⟨empty⟩

/-- How many variables there are; their numbers are those below it. -/
def size (s : Scope) : Nat := s.vars.size

def get? (s : Scope) (v : VarId) : Option Variable := s.vars[v]?

/-- The variable with a number, which has to be known. -/
def find (s : Scope) (v : VarId) : Result Variable :=
  match s.get? v with
  | some var => .ok var
  | none => reject (.unknownVariable v s.size)

/-- The scope with one more variable, whose qualifier is known. -/
def push (s : Scope) (kind : Kind) (flags : Flags) (known : ∀ q, kind.qualifier = some q → q < s.size) : Scope where
  vars := s.vars.push ⟨s.size, kind, flags⟩
  id_eq := by
    intro i v at_i
    rw [Array.getElem?_push] at at_i
    split at at_i
    · rename_i last; cases at_i; exact last.symm
    · exact s.id_eq i v at_i
  qualifier_lt := by
    intro i v q at_i qualified
    rw [Array.getElem?_push] at at_i
    split at at_i
    · rename_i last; cases at_i; subst last; exact known q qualified
    · exact s.qualifier_lt i v q at_i qualified

/-- Declares a variable; only a field can fail, for want of its qualifier. The new
    variable is the last of the scope. -/
def declare (s : Scope) (d : Declaration) : Result Scope :=
  match known : d.kind.qualifier with
  | none => .ok (s.push d.kind d.flags (by simp [known]))
  | some q =>
    if inside : q < s.size then .ok (s.push d.kind d.flags (by rw [known]; rintro _ ⟨⟩; exact inside))
    else reject (.unknownVariable q s.size)

/-- Declares a list of variables, stopping at the first that fails. -/
def declareAll (s : Scope) (ds : List Declaration) : Result Scope := ds.foldlM declare s

/-- The variable that holds `v` as a field; an unknown variable has none. -/
def qualifier (s : Scope) (v : VarId) : Option VarId := (s.get? v).bind Variable.qualifier

theorem lt_of_qualifier {s : Scope} {v q : VarId} (qualified : s.qualifier v = some q) : q < v := by
  obtain ⟨var, found, same⟩ := Option.bind_eq_some_iff.mp qualified
  exact s.qualifier_lt v var q found same

/-- The variables that a slot backs. -/
def slotVariables (s : Scope) (slot : UInt16) : List VarId :=
  (s.vars.toList.filter fun v => v.slot == some slot).map Variable.id

/-- The variable is a local, or the object itself, that lives in the slot. -/
def Backs (s : Scope) (slot : UInt16) (v : VarId) : Prop :=
  ∃ var, s.get? v = some var ∧ (var.kind = .local slot ∨ var.kind = .this slot)

theorem mem_slotVariables {s : Scope} {slot : UInt16} {v : VarId} : v ∈ s.slotVariables slot ↔ s.Backs slot v := by
  simp only [slotVariables, List.mem_map, List.mem_filter, beq_iff_eq, Variable.slot, Kind.slot_eq_some]
  constructor
  · rintro ⟨var, ⟨listed, placed⟩, rfl⟩
    obtain ⟨i, found⟩ := List.mem_iff_getElem?.mp listed
    rw [Array.getElem?_toList] at found
    exact ⟨var, by rw [s.id_eq i var found]; exact found, placed⟩
  · rintro ⟨var, found, placed⟩
    exact ⟨var, ⟨Array.mem_toList_iff.mpr (Array.mem_of_getElem? found), placed⟩, s.id_eq v var found⟩

theorem Backs.lt {s : Scope} {slot : UInt16} {v : VarId} (backs : s.Backs slot v) : v < s.size := by
  obtain ⟨var, found, _⟩ := backs
  exact (Array.getElem?_eq_some_iff.mp found).1

/-- Never flush this variable. Nothing is known of an unknown one, so it is kept. -/
def isExempt (s : Scope) (v : VarId) : Bool :=
  match s.get? v with
  | some var => var.isExempt
  | none => true

end Scope

end StackFlow
