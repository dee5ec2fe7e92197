/-!
# Texts

A character is blank when the Unicode property `White_Space` holds of it. The
property is a short table of code point ranges. Blanks separate the words of a
source text and carry no meaning of their own.

Places in a text are counted in bytes of its UTF-8 form. An offset is a
boundary when some split of the characters puts exactly that many bytes before
it; `dropBytes?` answers for boundaries and for no other offset.

Text from outside comes as bytes. It is cut behind each line feed, and each line
is decoded on its own, so that one line that is not UTF-8 spoils no other.
-/

namespace Curried.Text

section Blanks

/-- The first and last code point of each run of blank characters, in order. -/
def blankRanges : List (Nat × Nat) :=
  [(0x0009, 0x000D), (0x0020, 0x0020), (0x0085, 0x0085), (0x00A0, 0x00A0),
   (0x1680, 0x1680), (0x2000, 0x200A), (0x2028, 0x2029), (0x202F, 0x202F),
   (0x205F, 0x205F), (0x3000, 0x3000)]

def isBlank (c : Char) : Bool :=
  blankRanges.any fun (first, last) => decide (first ≤ c.toNat) && decide (c.toNat ≤ last)

def dropBlanks (cs : List Char) : List Char := cs.dropWhile isBlank

def trim (text : String) : String :=
  .ofList (dropBlanks (dropBlanks text.toList).reverse).reverse

end Blanks

section Offsets

/-- The number of bytes that the characters take. -/
def size : List Char → Nat
  | [] => 0
  | c :: cs => c.utf8Size + size cs

@[simp] theorem size_nil : size [] = 0 := rfl

@[simp] theorem size_cons (c : Char) (cs : List Char) :
    size (c :: cs) = c.utf8Size + size cs := rfl

@[simp] theorem size_append (as bs : List Char) : size (as ++ bs) = size as + size bs := by
  induction as with
  | nil => simp
  | cons c as ih => simp [ih, Nat.add_assoc]

theorem size_eq_zero_iff {cs : List Char} : size cs = 0 ↔ cs = [] := by
  cases cs with
  | nil => simp
  | cons c cs =>
    have := c.utf8Size_pos
    simp only [size_cons, reduceCtorEq, iff_false]
    omega

theorem size_toList (text : String) : size text.toList = text.utf8ByteSize := by
  suffices ∀ cs : List Char, size cs = (String.ofList cs).utf8ByteSize by
    rw [this, String.ofList_toList]
  intro cs
  induction cs with
  | nil => rfl
  | cons c cs ih =>
    rw [size_cons, ih, String.ofList_cons, String.utf8ByteSize_append,
      String.utf8ByteSize_singleton]

theorem append_inj_of_size {as bs as' bs' : List Char} (same : as ++ bs = as' ++ bs')
    (sizes : size as = size as') : as = as' ∧ bs = bs' := by
  rcases List.append_eq_append_iff.mp same with ⟨between, rfl, rfl⟩ | ⟨between, rfl, rfl⟩
  · obtain rfl : between = [] := size_eq_zero_iff.mp (by rw [size_append] at sizes; omega)
    simp
  · obtain rfl : between = [] := size_eq_zero_iff.mp (by rw [size_append] at sizes; omega)
    simp

/-- The offset reached behind each character of the text, from an offset before it. -/
def offsets (start : Nat) : List Char → List Nat
  | [] => []
  | c :: cs => (start + c.utf8Size) :: offsets (start + c.utf8Size) cs

/-- The characters from an offset on, or nothing when the offset lies behind the end
or inside a character. -/
def dropBytes? : Nat → List Char → Option (List Char)
  | 0, cs => some cs
  | _ + 1, [] => none
  | n + 1, c :: cs => if c.utf8Size ≤ n + 1 then dropBytes? (n + 1 - c.utf8Size) cs else none

def IsBoundary (cs : List Char) (offset : Nat) : Prop :=
  ∃ before after, cs = before ++ after ∧ size before = offset

@[simp] theorem dropBytes?_zero (cs : List Char) : dropBytes? 0 cs = some cs := by
  cases cs <;> rfl

theorem dropBytes?_size_append (before after : List Char) :
    dropBytes? (size before) (before ++ after) = some after := by
  induction before with
  | nil => simp
  | cons c before ih =>
    obtain ⟨n, hn⟩ : ∃ n, size (c :: before) = n + 1 :=
      ⟨size (c :: before) - 1, by have := c.utf8Size_pos; simp; omega⟩
    have hle : c.utf8Size ≤ n + 1 := by rw [← hn]; simp
    have hsub : n + 1 - c.utf8Size = size before := by rw [← hn]; simp
    rw [hn, List.cons_append, dropBytes?, if_pos hle, hsub, ih]

theorem exists_of_dropBytes?_eq_some {n : Nat} {cs after : List Char}
    (h : dropBytes? n cs = some after) :
    ∃ before, cs = before ++ after ∧ size before = n := by
  induction cs generalizing n with
  | nil =>
    cases n with
    | zero => exact ⟨[], by simpa using h, rfl⟩
    | succ n => simp [dropBytes?] at h
  | cons c cs ih =>
    cases n with
    | zero => exact ⟨[], by simpa using h, rfl⟩
    | succ n =>
      rw [dropBytes?] at h
      split at h
      · obtain ⟨before, rfl, hs⟩ := ih h
        exact ⟨c :: before, rfl, by simp; omega⟩
      · cases h

theorem dropBytes?_eq_some_iff {n : Nat} {cs after : List Char} :
    dropBytes? n cs = some after ↔ ∃ before, cs = before ++ after ∧ size before = n := by
  refine ⟨exists_of_dropBytes?_eq_some, ?_⟩
  rintro ⟨before, rfl, rfl⟩
  exact dropBytes?_size_append before after

theorem dropBytes?_isSome_iff {n : Nat} {cs : List Char} :
    (dropBytes? n cs).isSome = true ↔ IsBoundary cs n := by
  rw [Option.isSome_iff_exists]
  constructor
  · rintro ⟨after, h⟩
    obtain ⟨before, h⟩ := dropBytes?_eq_some_iff.mp h
    exact ⟨before, after, h⟩
  · rintro ⟨before, after, h⟩
    exact ⟨after, dropBytes?_eq_some_iff.mpr ⟨before, h⟩⟩

end Offsets

section Lines

/-- The pieces of a sequence of bytes, each up to and with its line feed. -/
def cutLines : List UInt8 → List (List UInt8)
  | [] => []
  | b :: bs =>
    if b = 10 then [b] :: cutLines bs
    else
      match cutLines bs with
      | [] => [[b]]
      | line :: lines => (b :: line) :: lines

def decode? (bs : List UInt8) : Option String := String.fromUTF8? bs.toByteArray

/-- The lines of a text with their line ends; nothing stands for a line that is not UTF-8. -/
def lines (bytes : ByteArray) : List (Option String) := (cutLines bytes.toList).map decode?

/-- A line without its line feed, and without a carriage return before that. -/
def dropLineEnd (line : String) : String :=
  match line.toList.reverse with
  | '\n' :: '\r' :: cs => .ofList cs.reverse
  | '\n' :: cs => .ofList cs.reverse
  | _ => line

end Lines

end Curried.Text
