/-!
# A directory of files

The files below the working directory, each under the names that lead to it
from the root. Paths are walked name by name as the file system does it: a dot
stays, two dots go up, a link goes on elsewhere, and a file ends the walk. A
path and each name in it have a greatest length. Outside the working directory
only what every system has is known: its folders and a few devices, of which
one is standard input.
-/

namespace Curried.Cli

inductive FileError where
  | missing
  | noDevice
  | isDirectory
  | notADirectory
  | nameTooLong
  | notText
  | other (details : String)
  deriving DecidableEq, Repr

def FileError.message : FileError → String
  | missing => "No such file or directory (os error 2)"
  | noDevice => "No such device or address (os error 6)"
  | isDirectory => "Is a directory (os error 21)"
  | notADirectory => "Not a directory (os error 20)"
  | nameTooLong => "File name too long (os error 36)"
  | notText => "stream did not contain valid UTF-8"
  | other details => details

structure Directory where
  files : List (List String × ByteArray) := []
  /-- What is still to be read from standard input. -/
  input : ByteArray := .empty

namespace Directory

/-- The greatest number of bytes in a name. -/
def maxName : Nat := 255

/-- The greatest number of bytes in a path. -/
def maxPath : Nat := 4095

/-- The names from the root to the working directory. No path can hold the last one, so that
only relative paths and one link lead there. -/
def working : List String := ["tmp", "/"]

def systemFolders : List (List String) :=
  [["bin"], ["boot"], ["dev"], ["etc"], ["home"], ["lib"], ["media"], ["mnt"], ["opt"], ["proc"],
   ["root"], ["run"], ["sbin"], ["srv"], ["sys"], ["tmp"], ["usr"], ["var"],
   ["dev", "pts"], ["dev", "shm"], ["proc", "self"], ["proc", "self", "fd"],
   ["usr", "bin"], ["usr", "lib"], ["usr", "local"], ["usr", "sbin"], ["usr", "share"],
   ["var", "cache"], ["var", "lib"], ["var", "log"], ["var", "spool"], ["var", "tmp"]]

def links : List (List String × List String) :=
  [(["dev", "fd"], ["proc", "self", "fd"]),
   (["dev", "stdin"], ["proc", "self", "fd", "0"]),
   (["proc", "self", "cwd"], working),
   (["proc", "self", "root"], [])]

inductive Device where
  | null
  /-- Standard input, whose bytes can be read once. What is written to it is lost. -/
  | input
  | terminal
  deriving DecidableEq, Repr

def devices : List (List String × Device) :=
  [(["dev", "null"], .null), (["dev", "tty"], .terminal), (["proc", "self", "fd", "0"], .input)]

inductive Place where
  | file (path : List String) (content : ByteArray)
  | folder
  | device (device : Device)
  | free (path : List String)

def isFolder (d : Directory) (path : List String) : Bool :=
  path.isPrefixOf working || systemFolders.contains path ||
    d.files.any fun (p, _) => path.isPrefixOf p && path != p

/-- Whether a name leads from a folder to a folder, whatever there is. -/
def isStep (name : String) : Bool := name = "" || name = "." || name = ".."

/-- Where a name leads to from a folder. Links are followed, and the root is above itself. -/
def next (here : List String) (name : String) : List String :=
  if name = ".." then here.dropLast
  else if isStep name then here
  else
    let path := here ++ [name]
    (links.lookup path).getD path

def walk (d : Directory) (here : List String) : List String → Except FileError Place
  | [] => .ok .folder
  | name :: names =>
    if isStep name then d.walk (next here name) names
    else if maxName < name.utf8ByteSize then .error .nameTooLong
    else
      let path := next here name
      let last (place : Place) : Except FileError Place :=
        if names.isEmpty then .ok place else .error .notADirectory
      match d.files.lookup path, devices.lookup path with
      | some content, _ => last (.file path content)
      | none, some device => last (.device device)
      | none, none =>
        if d.isFolder path then d.walk path names
        else if names.isEmpty then .ok (.free path)
        else .error .missing

/-- The folder where a path starts, and the names in it. -/
def start (path : String) : List String × List String :=
  match path.splitOn "/" with
  | "" :: name :: names => ([], name :: names)
  | names => (working, names)

def place (d : Directory) (path : String) : Except FileError Place :=
  if maxPath < path.utf8ByteSize then .error .nameTooLong
  else
    let (here, names) := start path
    d.walk here names

def read (d : Directory) (path : String) : Except FileError ByteArray := do
  match ← d.place path with
  | .file _ content => return content
  | .folder => throw .isDirectory
  | .device .null => return .empty
  | .device .input => return d.input
  | .device .terminal => throw .noDevice
  | .free _ => throw .missing

def readText (d : Directory) (path : String) : Except FileError String := do
  match String.fromUTF8? (← d.read path) with
  | some text => return text
  | none => throw .notText

/-- What is left when some bytes at a path were read: those of standard input are gone. -/
def afterReading (d : Directory) (path : String) (count : ByteArray → Nat) : Directory :=
  match d.place path with
  | .ok (.device .input) => { d with input := d.input.extract (count d.input) d.input.size }
  | _ => d

def set (d : Directory) (path : List String) (content : ByteArray) : Directory :=
  { d with files := (path, content) :: d.files.filter fun (p, _) => p != path }

/-- Writes a file anew, if the path leads to a file or to a free place in a folder. -/
def write? (d : Directory) (path : String) (content : ByteArray) : Option Directory :=
  match d.place path with
  | .ok (.file p _) => some (d.set p content)
  | .ok (.free p) => some (d.set p content)
  | .ok (.device .null) => some d
  | .ok (.device .input) => some d
  | _ => none

/-- Puts a file at its place, below folders that need not be there yet. -/
def add (d : Directory) (path : String) (content : ByteArray) : Directory :=
  let (here, names) := start path
  d.set (names.foldl next here) content

end Directory

end Curried.Cli
