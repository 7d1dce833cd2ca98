import ClassCohesion.Log.Entry
import ClassCohesion.Path.Basic

/-!
# Faults

What can go wrong in a run, as causes. A fault has a code, a message for the user and one for the
developer; those that are confined to one file are recoverable. Making a fault leaves a log entry, a
warning if it is recoverable and an error otherwise.

`Problem` is what can be told about work that was stopped: a fault, an error of another kind with its
name and message, or a bare text. Work may also be stopped by a value that is no error and has no
text: whoever asks for its text is stopped in turn. `Thrown` is anything that can stop work.
-/

namespace ClassCohesion

structure Cause where
  name : String := "Error"
  message : String
deriving Repr, DecidableEq

def Cause.trace (c : Cause) : String := c.name ++ ": " ++ c.message

inductive Fault where
  | parseFailed (path reason : String) (cause : Option Cause)
  | fileTooLarge (path : String) (size limit : Number)
  | fileNotFound (path : String) (cause : Option Cause)
  | permissionDenied (path : String) (cause : Option Cause)
  | pathNotFound (path : String)
  | scanFailed (path : String) (cause : Cause)
  | parserUnavailable (cause : Cause)
  | invalidOption (option detail : String)
deriving Repr, DecidableEq

namespace Fault

def code : Fault → String
  | parseFailed .. => "PARSE_FAILED"
  | fileTooLarge .. => "FILE_TOO_LARGE"
  | fileNotFound .. => "FILE_NOT_FOUND"
  | permissionDenied .. => "PERMISSION_DENIED"
  | pathNotFound .. => "PATH_NOT_FOUND"
  | scanFailed .. => "SCAN_FAILED"
  | parserUnavailable .. => "PARSER_UNAVAILABLE"
  | invalidOption .. => "INVALID_OPTION"

/-- Whether a fault is confined to one file. -/
def recoverable : Fault → Bool
  | parseFailed .. => true
  | fileTooLarge .. => true
  | fileNotFound .. => true
  | _ => false

def cause? : Fault → Option Cause
  | parseFailed _ _ cause => cause
  | fileNotFound _ cause => cause
  | permissionDenied _ cause => cause
  | scanFailed _ cause => some cause
  | parserUnavailable cause => some cause
  | _ => none

def userMessage : Fault → String
  | parseFailed .. => "A source file could not be parsed and was skipped."
  | fileTooLarge .. => "A source file exceeds the size limit and was skipped."
  | fileNotFound .. => "The requested file could not be found."
  | permissionDenied .. =>
    "Access denied. Please check that you have permission to access this location."
  | pathNotFound .. => "The directory to analyze does not exist."
  | scanFailed .. => "Could not list the files of the project."
  | parserUnavailable .. =>
    "The source parser could not be loaded. Reinstall the package and try again."
  | invalidOption option detail => "Invalid value for " ++ option ++ ": " ++ detail

def developerMessage (host : Host) : Fault → String
  | parseFailed path reason _ =>
    "Failed to parse " ++ Path.display host path none ++ ": " ++ reason
  | fileTooLarge path size limit =>
    "File too large: " ++ Path.display host path none ++ " (" ++ size.text ++ " bytes, limit " ++
      limit.text ++ " bytes)"
  | fileNotFound path _ => "File not found: " ++ Path.display host path none
  | permissionDenied path _ =>
    "Permission denied accessing path: " ++ Path.display host path none
  | pathNotFound path =>
    "Analysis root is missing or not a directory: " ++ Path.display host path none
  | scanFailed path cause =>
    "Failed to scan " ++ Path.display host path none ++ ": " ++ cause.message
  | parserUnavailable cause => "Tree-sitter initialization failed: " ++ cause.message
  | invalidOption option detail => "Invalid option " ++ option ++ ": " ++ detail

def name (f : Fault) : String := "CohesionError[" ++ f.code ++ "]"

def summary (host : Host) (f : Fault) : String := f.name ++ ": " ++ f.developerMessage host

def toJson (host : Host) (f : Fault) : Json :=
  .ofOptional
    [("code", some (.str f.code)),
     ("userMessage", some (.str f.userMessage)),
     ("developerMessage", some (.str (f.developerMessage host))),
     ("cause", f.cause?.map fun c => .obj [("name", .str c.name), ("message", .str c.message)])]

/-- The log entry that making a fault leaves. -/
def entry (host : Host) (f : Fault) : Log.Entry where
  level := if f.recoverable then .warn else .error
  component := "CohesionError"
  message := f.developerMessage host
  details :=
    [("code", .str f.code), ("userMessage", .str f.userMessage)] ++
      f.cause?.toList.map fun c => ("cause",
        .obj [("name", .str c.name), ("message", .str c.message), ("stack", .str c.trace)])

end Fault

/-- What can be told about work that was stopped. -/
inductive Problem where
  | fault (fault : Fault)
  | error (name message : String)
  | bare (text : String)
deriving Repr, DecidableEq

namespace Problem

def userMessage : Problem → String
  | fault f => f.userMessage
  | error _ message => message
  | bare text => text

def developerMessage (host : Host) : Problem → String
  | fault f => f.developerMessage host
  | error _ message => message
  | bare text => text

/-- The log entries that making a problem leaves: one for a fault, none for anything else. -/
def entries (host : Host) : Problem → List Log.Entry
  | fault f => [f.entry host]
  | _ => []

/-- A bare text as an error with that message. -/
def asError : Problem → Problem
  | bare text => error "Error" text
  | other => other

end Problem

/-- Anything that can stop a piece of work. The text of a textless value cannot be had: asking for it
is stopped by what `why` says. -/
inductive Thrown where
  | problem (p : Problem)
  | textless (why : Thrown)
deriving Repr, DecidableEq

namespace Thrown

instance : Coe Problem Thrown := ⟨problem⟩

/-- An answer that a problem may take the place of. -/
def lift {α : Type} (answer : Except Problem α) : Except Thrown α := answer.mapError problem

/-- The problem that is left when every question for a text has been asked. -/
def root : Thrown → Problem
  | problem p => p
  | textless why => why.root

/-- The log entries that are left: those of a problem, or of what asking for a text comes to. -/
def entries (host : Host) (t : Thrown) : List Log.Entry := t.root.entries host

/-- A thrown value as an error, unless its text cannot be had. -/
def asError : Thrown → Except Thrown Problem
  | problem p => .ok p.asError
  | textless why => .error why

end Thrown

end ClassCohesion
