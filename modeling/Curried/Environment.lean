import Curried.Value

/-!
# Environments

Bindings of names to values. To bind a name again replaces its value and leaves
every other name alone, and a copy of an environment is a snapshot.
-/

namespace Curried.Environment

def get? (env : Environment) (name : String) : Option Value :=
  match env with
  | empty => none
  | bind x v rest => if x = name then some v else rest.get? name

/-- Binds a name at its place in the order, or replaces its value. -/
def define (env : Environment) (name : String) (value : Value) : Environment :=
  match env with
  | empty => bind name value empty
  | bind x v rest =>
    if name < x then bind name value (bind x v rest)
    else if x = name then bind name value rest
    else bind x v (rest.define name value)

def toList : Environment → List (String × Value)
  | empty => []
  | bind x v rest => (x, v) :: rest.toList

def contains (env : Environment) (name : String) : Bool := (env.get? name).isSome

def names (env : Environment) : List String := env.toList.map Prod.fst

def size (env : Environment) : Nat := env.toList.length

def isEmpty (env : Environment) : Bool := env.toList.isEmpty

def listing (env : Environment) : List (String × String) :=
  env.toList.map fun (x, v) => (x, v.text)

/-- Follows a path of names: each name but the first is looked up in what the function found so
far has captured. -/
def follow? (env : Environment) : List String → Option Value
  | [] => none
  | [x] => env.get? x
  | x :: y :: path =>
    match env.get? x with
    | some (.closure _ _ captured) => captured.follow? (y :: path)
    | _ => none

/-- Binds one name to the value of another, if that has one. -/
def copy? (env : Environment) (source target : String) : Option Environment :=
  (env.get? source).map (env.define target)

theorem get?_define (env : Environment) (x y : String) (v : Value) :
    (env.define x v).get? y = if x = y then some v else env.get? y := by
  match env with
  | empty => simp [define, get?]
  | bind z w rest =>
    have ih := get?_define rest x y v
    unfold define
    split
    · simp [get?]
    · split
      next h => subst h; by_cases hy : z = y <;> simp [get?, hy]
      next h =>
        simp only [get?, ih]
        by_cases hz : z = y
        · subst hz; simp [Ne.symm h]
        · simp [hz]

@[simp] theorem get?_define_self (env : Environment) (x : String) (v : Value) :
    (env.define x v).get? x = some v := by
  simp [get?_define]

theorem get?_define_of_ne (env : Environment) {x y : String} (v : Value) (h : x ≠ y) :
    (env.define x v).get? y = env.get? y := by
  simp [get?_define, h]

theorem contains_define (env : Environment) (x y : String) (v : Value) :
    (env.define x v).contains y = (decide (x = y) || env.contains y) := by
  by_cases h : x = y <;> simp [contains, get?_define, h]

@[simp] theorem names_bind (x : String) (v : Value) (rest : Environment) :
    (bind x v rest).names = x :: rest.names := rfl

theorem mem_names_define (env : Environment) (x y : String) (v : Value) :
    y ∈ (env.define x v).names ↔ y = x ∨ y ∈ env.names := by
  match env with
  | empty => simp [define, names, toList]
  | bind z w rest =>
    have ih := mem_names_define rest x y v
    unfold define
    split
    · simp
    · split
      next h => subst h; simp
      next => simp only [names_bind, List.mem_cons, ih]; exact or_left_comm

end Curried.Environment
