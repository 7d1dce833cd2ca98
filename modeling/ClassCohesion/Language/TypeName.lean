import ClassCohesion.Text.Split

/-!
# Names of types

Classes are known by their simple name. `simpleName` reduces the text of a type reference to it:
everything from the first `<` or `[` on is cut off, of a qualified name the last segment stays, and
blanks at the ends go. Names of built-in types are told apart by `isPrimitive`.
-/

namespace ClassCohesion.Language

/-- The characters of a text before its type arguments or array brackets, without blanks at the
ends. -/
def withoutArguments (cs : List Char) : List Char :=
  Text.trim (cs.takeWhile fun c => c != '<' && c != '[')

/-- The characters behind the last of the separators `::`, `.` and backslash, where `current` holds,
in reverse, those since the last separator so far. -/
def lastSegment (current : List Char) : List Char → List Char
  | [] => current.reverse
  | ':' :: ':' :: cs => lastSegment [] cs
  | c :: cs =>
    if c = '.' ∨ c = '\\' then lastSegment [] cs else lastSegment (c :: current) cs

def cleanTypeName (name : String) : String := String.ofList (withoutArguments name.toList)

def unqualifiedName (name : String) : String :=
  String.ofList (Text.trim (lastSegment [] name.toList))

/-- The name by which a referenced type is known. -/
def simpleName (name : String) : String := unqualifiedName (cleanTypeName name)

/-- The names of built-in types and of words that stand for values. -/
def primitives : List String :=
  ["int", "int8", "int16", "int32", "int64",
   "uint", "uint8", "uint16", "uint32", "uint64",
   "float", "float32", "float64", "double",
   "bool", "boolean", "Boolean",
   "string", "String", "str",
   "void", "None", "null", "nil",
   "byte", "char", "short", "long",
   "any", "object", "Object",
   "number", "Number",
   "true", "false",
   "self", "this", "super"]

def isPrimitive (name : String) : Bool := primitives.contains name

end ClassCohesion.Language
