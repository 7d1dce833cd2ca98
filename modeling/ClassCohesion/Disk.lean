import ClassCohesion.Log.Logger
import ClassCohesion.Text.Units

/-!
# The disk

The part of a file system that a run can see, as a value: directories and files by their places. A
file has a text and a size in bytes; where the size exceeds that of the text, zero bytes follow it.
What can go wrong is a `Disk.Failure`, with the code and the wording of a system error.

A place is a directory if it was made, or if a directory or a file is below it.
-/

namespace ClassCohesion

namespace Disk

inductive Reason where
  | missing
  | notDirectory
  | isDirectory
  | taken
deriving DecidableEq, Repr

def Reason.code : Reason → String
  | missing => "ENOENT"
  | notDirectory => "ENOTDIR"
  | isDirectory => "EISDIR"
  | taken => "EEXIST"

def Reason.words : Reason → String
  | missing => "no such file or directory"
  | notDirectory => "not a directory"
  | isDirectory => "illegal operation on a directory"
  | taken => "file already exists"

/-- A refusal: what was asked for, of which path, and why it was refused. -/
structure Failure where
  reason : Reason
  call : String
  path : Option String
deriving DecidableEq, Repr

def Failure.message (f : Failure) : String :=
  f.reason.code ++ ": " ++ f.reason.words ++ ", " ++ f.call ++
    match f.path with
    | some path => " '" ++ path ++ "'"
    | none => ""

structure File where
  text : String
  size : Nat
deriving DecidableEq, Repr

namespace File

def ofText (text : String) : File := ⟨text, text.utf8ByteSize⟩

/-- The text of the characters that lie within a number of bytes. A character that is cut leaves the
replacement character. -/
def takeBytes : Nat → List Char → List Char
  | _, [] => []
  | n, c :: cs =>
    if c.utf8Size ≤ n then c :: takeBytes (n - c.utf8Size) cs
    else if n = 0 then [] else [Text.replacement]

def resize (f : File) (size : Nat) : File :=
  if f.text.utf8ByteSize ≤ size then ⟨f.text, size⟩
  else ⟨String.ofList (takeBytes size f.text.toList), size⟩

def content (f : File) : String :=
  f.text ++ String.ofList (List.replicate (f.size - f.text.utf8ByteSize) '\x00')

end File

end Disk

structure Disk where
  directories : List (List String) := []
  files : List (List String × Disk.File) := []
deriving Repr

namespace Disk

def file? (d : Disk) (place : List String) : Option File := d.files.lookup place

def isDirectory (d : Disk) (place : List String) : Bool :=
  place.isEmpty || d.directories.any place.isPrefixOf ||
    d.files.any fun f => place.isPrefixOf f.1 && f.1 != place

def has (d : Disk) (place : List String) : Bool := (d.file? place).isSome || d.isDirectory place

/-- The directories above a place, the root first. -/
def above (place : List String) : List (List String) :=
  (List.range place.length).map (place.take ·)

/-- Why a place cannot be reached: a file stands in the way, or a directory is missing. -/
def obstacle? (d : Disk) (place : List String) : Option Reason :=
  (above place).findSome? fun dir =>
    if d.isDirectory dir then none
    else if (d.file? dir).isSome then some .notDirectory
    else some .missing

def stat (d : Disk) (host : Host) (path : String) : Except Failure Nat :=
  let place := Path.segments host path
  let refuse reason := Except.error (⟨reason, "stat", some path⟩ : Failure)
  match d.obstacle? place, d.file? place with
  | some reason, _ => refuse reason
  | none, some f => .ok f.size
  | none, none => if d.isDirectory place then .ok 0 else refuse .missing

def read (d : Disk) (host : Host) (path : String) : Except Failure String :=
  let place := Path.segments host path
  match d.obstacle? place, d.file? place with
  | some reason, _ => .error ⟨reason, "open", some path⟩
  | none, some f => .ok f.content
  | none, none =>
    if d.isDirectory place then .error ⟨.isDirectory, "read", none⟩
    else .error ⟨.missing, "open", some path⟩

/-- Files with one put in place of any other at its place; a new one comes last. -/
def put (place : List String) (file : File) :
    List (List String × File) → List (List String × File)
  | [] => [(place, file)]
  | f :: fs => if f.1 = place then (place, file) :: fs else f :: put place file fs

/-- Changes the file at a path, which may not be there yet. -/
def change (d : Disk) (host : Host) (path : String) (f : Option File → File) :
    Except Failure Disk :=
  let place := Path.segments host path
  let refuse reason := Except.error (⟨reason, "open", some path⟩ : Failure)
  match d.obstacle? place with
  | some reason => refuse reason
  | none =>
    if d.isDirectory place then refuse .isDirectory
    else .ok { d with files := put place (f (d.file? place)) d.files }

def write (d : Disk) (host : Host) (path text : String) : Except Failure Disk :=
  d.change host path fun _ => .ofText text

def append (d : Disk) (host : Host) (path text : String) : Except Failure Disk :=
  d.change host path fun
    | some f => ⟨f.content ++ text, f.size + text.utf8ByteSize⟩
    | none => .ofText text

/-- Makes a directory with all those above it. -/
def makeDirectory (d : Disk) (host : Host) (path : String) : Except Failure Disk :=
  let place := Path.segments host path
  if (d.file? place).isSome then .error ⟨.taken, "mkdir", some path⟩
  else if (above place).any fun dir => (d.file? dir).isSome then
    .error ⟨.notDirectory, "mkdir", some path⟩
  else .ok { d with directories := d.directories ++ [place] }

def logStore (host : Host) : Log.Store Disk where
  makeDirectory d path := (d.makeDirectory host path).mapError Failure.message
  append d path text := (d.append host path text).mapError Failure.message

end Disk

end ClassCohesion
