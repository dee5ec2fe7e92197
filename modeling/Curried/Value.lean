import Curried.Expr.Text

/-!
# Values

A value is a number or a function that still waits for arguments. A function
keeps the bindings that were visible where it was made, together with the
arguments it has had so far, so values and environments contain each other.
An environment lists its bindings by name, in ascending order.
-/

namespace Curried

mutual

inductive Value where
  | number (value : UInt32)
  | closure (params : List String) (body : Expr) (captured : Environment)

inductive Environment where
  | empty
  | bind (name : String) (value : Value) (rest : Environment)

end

deriving instance DecidableEq for Value, Environment

namespace Value

def typeName : Value → String
  | number _ => "number"
  | closure .. => "function"

/-- Only the number zero counts as false. -/
def isTruthy : Value → Bool
  | number n => n != 0
  | closure .. => true

/-- A function is written like its literal, with the parameters that are left. -/
def text : Value → String
  | number n => toString n.toNat
  | closure params body _ => functionText params body

end Value

end Curried
