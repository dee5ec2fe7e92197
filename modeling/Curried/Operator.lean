import Curried.Token

/-!
# Binary operators

Five operators join two numbers. Sums and differences are taken modulo `2 ^ 32`
and a comparison gives one or zero.
-/

namespace Curried

inductive Operator where
  | lessThan
  | equalEqual
  | greaterThan
  | plus
  | minus
  deriving DecidableEq, Repr

namespace Operator

def ofToken? : Token → Option Operator
  | .lessThan => some .lessThan
  | .equalEqual => some .equalEqual
  | .greaterThan => some .greaterThan
  | .plus => some .plus
  | .minus => some .minus
  | _ => none

def token : Operator → Token
  | lessThan => .lessThan
  | equalEqual => .equalEqual
  | greaterThan => .greaterThan
  | plus => .plus
  | minus => .minus

def text (op : Operator) : String := op.token.text

@[simp] theorem ofToken?_token (op : Operator) : ofToken? op.token = some op := by
  cases op <;> rfl

theorem ofToken?_eq_some_iff {t : Token} {op : Operator} :
    ofToken? t = some op ↔ t = op.token := by
  constructor
  · intro h
    unfold ofToken? at h
    split at h <;> cases h <;> rfl
  · rintro rfl
    exact ofToken?_token op

def combine (op : Operator) (left right : UInt32) : UInt32 :=
  match op with
  | lessThan => if left < right then 1 else 0
  | equalEqual => if left = right then 1 else 0
  | greaterThan => if right < left then 1 else 0
  | plus => left + right
  | minus => left - right

end Operator

end Curried
