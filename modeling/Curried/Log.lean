/-!
# Logs

A log collects what is reported along the way. It is kept as the function that
puts its entries in front of a list, so two logs are joined without copying
either of them.
-/

namespace Curried

structure Log (α : Type) where
  /-- The entries of the log, in front of a list. -/
  onto : List α → List α
  onto_nil_append : ∀ tail, onto [] ++ tail = onto tail

namespace Log

variable {α : Type}

/-- The entries, oldest first. -/
def toList (l : Log α) : List α := l.onto []

theorem onto_eq_toList_append (l : Log α) (tail : List α) : l.onto tail = l.toList ++ tail :=
  (l.onto_nil_append tail).symm

def empty : Log α := ⟨fun tail => tail, fun _ => rfl⟩

def single (entry : α) : Log α := ⟨fun tail => entry :: tail, fun _ => rfl⟩

def append (k l : Log α) : Log α where
  onto tail := k.onto (l.onto tail)
  onto_nil_append tail := by
    rw [k.onto_eq_toList_append, k.onto_eq_toList_append (l.onto tail), List.append_assoc,
      l.onto_nil_append]

instance : Append (Log α) := ⟨append⟩

@[simp] theorem toList_single (entry : α) : (single entry).toList = [entry] := rfl

@[simp] theorem toList_append (k l : Log α) : (k ++ l).toList = k.toList ++ l.toList :=
  k.onto_eq_toList_append (l.onto [])

@[simp] theorem empty_append (l : Log α) : empty ++ l = l := rfl

theorem append_assoc (j k l : Log α) : j ++ k ++ l = j ++ (k ++ l) := rfl

end Log

end Curried
