import StackFlow.Instr.Basic

/-!
The one-line description of an instruction that error messages quote: the name of
the instruction, a lone operand in parentheses, and named operands in braces.
-/
namespace StackFlow

/-- A variable as messages number it. -/
def VarId.describe (v : VarId) : String := s!"VarId({v})"

/-- A variable as listings show it. -/
def VarId.render (v : VarId) : String := s!"v{v}"

namespace Dispatch

def name : Dispatch → String
  | static => "Static"
  | special => "Special"
  | virtual => "Virtual"
  | interface => "Interface"

end Dispatch

namespace Instr

/-- A truth value as messages write it. -/
def flagText (b : Bool) : String := if b then "true" else "false"

/-- Named operands in braces after the name of the instruction. -/
def withFields (name : String) (fields : List (String × String)) : String :=
  name ++ " \x7b " ++ ", ".intercalate (fields.map fun (key, text) => key ++ ": " ++ text) ++ " \x7d"

def describe : Instr → String
  | nop => "Nop"
  | label => "Label"
  | lineMarker => "LineMarker"
  | boundary => "StatementBoundary"
  | pushConst => "PushConst"
  | new => "New"
  | load v => s!"Load({v.describe})"
  | store v => s!"Store({v.describe})"
  | discard v => s!"Discard({v.describe})"
  | dup => "Dup"
  | swap => "Swap"
  | pop => "Pop"
  | compute pops => withFields "Compute" [("pops", toString pops)]
  | fieldRead isStatic => withFields "FieldRead" [("is_static", flagText isStatic)]
  | fieldWrite isStatic => withFields "FieldWrite" [("is_static", flagText isStatic)]
  | arrayRead => "ArrayRead"
  | arrayWrite => "ArrayWrite"
  | invoke dispatch args returns =>
    withFields "Invoke" [("dispatch", dispatch.name), ("args", toString args), ("returns", flagText returns)]
  | goto t => s!"Goto({t})"
  | branch t pops => withFields "If" [("target", toString t), ("pops", toString pops)]
  | switch ts d =>
    withFields "Switch" [("targets", "[" ++ ", ".intercalate (ts.map toString) ++ "]"), ("default", toString d)]
  | .return value => withFields "Return" [("value", flagText value)]
  | throw => "Throw"
  | jsr t => s!"Jsr({t})"
  | ret slot => s!"Ret({slot})"

end Instr

end StackFlow
