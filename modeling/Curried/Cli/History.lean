import Curried.Text

/-!
# The history of a session

The lines that were entered, oldest first. A line equal to the one before it is
not entered again and only the newest hundred are kept. The file starts with a
mark of its format; in each entry a line feed and a backslash are escaped, so
that one entry is one line. A file without the mark holds plain lines.
-/

namespace Curried.Cli

structure History where
  entries : List String := []
  /-- Whether some entry is not in the file yet. -/
  hasNew : Bool := false
  deriving DecidableEq, Repr

namespace History

def capacity : Nat := 100

def mark : String := "#V2"

/-- Adds an entry, unless it is empty or repeats the last one. -/
def add (h : History) (entry : String) : History :=
  if entry.isEmpty || h.entries.getLast? = some entry then h
  else
    let kept := if h.entries.length < capacity then h.entries else h.entries.tail
    ⟨kept ++ [entry], true⟩

def saved (h : History) : History := { h with hasNew := false }

def escape : List Char → List Char
  | [] => []
  | '\\' :: cs => '\\' :: '\\' :: escape cs
  | '\n' :: cs => '\\' :: 'n' :: escape cs
  | c :: cs => c :: escape cs

/-- Undoes `escape`; nothing if a backslash is followed by anything that it does not write. -/
def unescape? : List Char → Option (List Char)
  | [] => some []
  | '\\' :: 'n' :: cs => (unescape? cs).map ('\n' :: ·)
  | '\\' :: '\\' :: cs => (unescape? cs).map ('\\' :: ·)
  | '\\' :: _ => none
  | c :: cs => (unescape? cs).map (c :: ·)

theorem unescape?_escape (cs : List Char) : unescape? (escape cs) = some cs := by
  fun_induction escape cs with
  | case1 => rfl
  | case2 cs ih => simp [unescape?, ih]
  | case3 cs ih => simp [unescape?, ih]
  | case4 c cs hslash hfeed ih =>
    rw [unescape?, ih] <;> simp_all

def text (h : History) : String :=
  String.join (mark :: "\n" :: h.entries.map fun e => .ofList (escape e.toList) ++ "\n")

def unsaved? (h : History) : Option String := if h.hasNew then some h.text else none

/-- The entry on a line of a file with the mark. A line that was never written by `text` stands
for itself. -/
def ofLine (line : String) : String :=
  ((unescape? line.toList).map String.ofList).getD line

/-- Adds the lines of a file, up to the first that is not UTF-8. Entries read before such a line
stay, and count as new. -/
def addLines (entryOf : String → String) (h : History) : List (Option String) → History
  | [] => h.saved
  | none :: _ => h
  | some line :: lines =>
    let line := Text.dropLineEnd line
    addLines entryOf (if line.isEmpty then h else h.add (entryOf line)) lines

def ofFile (bytes : ByteArray) : History :=
  match Text.lines bytes with
  | some first :: others =>
    if Text.dropLineEnd first = mark then addLines ofLine {} others
    else addLines id {} (some first :: others)
  | lines => addLines id {} lines

/-- The number of bytes that are read from a file at a time. -/
def blockSize : Nat := 8192

/-- Whether a whole line is not UTF-8, so that nothing behind it is added. -/
def isSettled (bytes : ByteArray) : Bool :=
  (Text.cutLines bytes.toList).any fun line =>
    line.getLast? = some 10 && (Text.decode? line).isNone

/-- How many bytes of a file are read: the fewest blocks that settle the history, or else all. -/
def bytesRead (bytes : ByteArray) : Nat :=
  let blocks := (List.range (bytes.size / blockSize)).map fun n => (n + 1) * blockSize
  (blocks.find? fun n => isSettled (bytes.extract 0 n)).getD bytes.size

end History

end Curried.Cli
