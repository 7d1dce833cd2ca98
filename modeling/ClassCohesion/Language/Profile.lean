import ClassCohesion.Language.TypeName
import ClassCohesion.Path.Name
import ClassCohesion.Syntax.Walk

/-!
# Language profiles

A profile says how classes, methods, fields, inheritance clauses and accesses to the object's own
fields look in the syntax trees of one language. The extractors consult nothing else, so a language
is one record here. A language without a profile has the empty one, under which nothing is found.

There is a grammar for some languages; which files are written in them is told by their extension.
-/

namespace ClassCohesion.Language

open Syntax (Node)

structure Profile where
  /-- The tag of the language, none for the empty profile. -/
  language : Option String
  classKinds : List String
  methodKinds : List String
  fieldKinds : List String
  /-- Kinds of inheritance clauses, as children of a class node. -/
  heritageKinds : List String
  /-- Kinds of nodes that name one parent inside an inheritance clause. -/
  parentKinds : List String
  /-- Whether a bare identifier with the name of a declared field uses that field. -/
  bareAccess : Bool
  /-- The name of the method at a node, empty if there is none. -/
  methodName : Node → String
  /-- The names of the fields that a node declares. -/
  fieldNames : Node → List String
  /-- The field of the object itself that is accessed at a node. -/
  fieldAccess : Node → Option String

namespace Profile

def nonempty (names : List String) : List String := names.filter (· ≠ "")

/-! ## Shared rules -/

/-- An access `receiver.member` at a node of kind `kind`, where the receiver is written `self`. -/
def ownAccess (kind receiverField memberField self : String) (n : Node) : Option String :=
  if n.kind ≠ kind then none
  else match n.child? receiverField, n.child? memberField with
    | some receiver, some member => if receiver.text = self then some member.text else none
    | _, _ => none

theorem ownAccess_eq_some {kind receiverField memberField self name : String} {n : Node} :
    ownAccess kind receiverField memberField self n = some name ↔
      n.kind = kind ∧ ∃ receiver member, n.child? receiverField = some receiver ∧
        n.child? memberField = some member ∧ receiver.text = self ∧ member.text = name := by
  unfold ownAccess
  by_cases hk : n.kind = kind
  · rw [if_neg (not_not_intro hk)]
    cases hr : n.child? receiverField with
    | none => simp
    | some receiver =>
      cases hm : n.child? memberField with
      | none => simp
      | some member => simp [hk]
  · simp [hk]

def declaratorNames : List String :=
  ["field_identifier", "identifier", "qualified_identifier", "destructor_name", "operator_name"]

/-- The child that a declarator continues with: the one in the field `declarator`, else the last
named one. -/
def innerDeclarator (n : Node) : Option Node :=
  match n.child? "declarator" with
  | some inner => some inner
  | none => n.namedChildren.getLast?

theorem innerDeclarator_mem_children {n inner : Node} (h : innerDeclarator n = some inner) :
    inner ∈ n.children := by
  unfold innerDeclarator at h
  split at h
  · next c hc =>
    cases h
    exact List.mem_of_find?_eq_some hc
  · exact (List.mem_filter.mp (List.mem_of_getLast? h)).1

theorem size_innerDeclarator_lt {n inner : Node} (h : innerDeclarator n = some inner) :
    inner.size < n.size := by
  have hm : inner ∈ n.children := innerDeclarator_mem_children h
  have hs : inner.size ≤ Syntax.rowSize n.children := by
    generalize n.children = cs at hm
    induction cs with
    | nil => cases hm
    | cons c cs ih =>
      rw [Syntax.rowSize_cons]
      cases hm with
      | head => omega
      | tail _ hm => have := ih hm; omega
  rw [n.size_eq_children]
  omega

/-- Follows a declarator inwards to the declared name. A function declarator is passed through only
when `functions` allows it. -/
def declaredName (functions : Bool) (n : Node) : Option Node :=
  if declaratorNames.contains n.kind then some n
  else if n.kind = "function_declarator" ∧ functions = false then none
  else match _h : innerDeclarator n with
    | some inner => declaredName functions inner
    | none => none
termination_by n.size
decreasing_by exact size_innerDeclarator_lt (by assumption)

def functionKinds : List String := ["arrow_function", "function", "function_expression"]

/-- Whether the value of a class field is a function. -/
def isFunctionValued (n : Node) : Bool :=
  match n.child? "value" with
  | some value => functionKinds.contains value.kind
  | none => false

/-- The name of a class field, in the field `name` or else `property`. -/
def classFieldName (n : Node) : String :=
  match n.child? "name" with
  | some name => name.text
  | none => ((n.child? "property").map Node.text).getD ""

/-! ## The profiles -/

def java : Profile where
  language := some "java"
  classKinds :=
    ["class_declaration", "interface_declaration", "enum_declaration", "record_declaration"]
  methodKinds := ["method_declaration", "constructor_declaration"]
  fieldKinds := ["field_declaration"]
  heritageKinds := ["superclass", "super_interfaces", "extends_interfaces"]
  parentKinds := ["type_identifier", "scoped_type_identifier", "generic_type"]
  bareAccess := true
  methodName := Node.nameText
  fieldNames n :=
    nonempty ((n.namedChildren.filter (·.kind = "variable_declarator")).map Node.nameText)
  fieldAccess := ownAccess "field_access" "object" "field" "this"

def csharpVariable (n : Node) : String :=
  if n.nameText ≠ "" then n.nameText
  else ((n.namedChildren.find? (·.kind = "identifier")).map Node.text).getD ""

def csharp : Profile where
  language := some "csharp"
  classKinds :=
    ["class_declaration", "interface_declaration", "struct_declaration", "record_declaration"]
  methodKinds := ["method_declaration", "constructor_declaration"]
  fieldKinds := ["field_declaration", "property_declaration"]
  heritageKinds := ["base_list"]
  parentKinds := ["identifier", "generic_name", "qualified_name"]
  bareAccess := true
  methodName := Node.nameText
  fieldNames n :=
    if n.kind = "property_declaration" then nonempty [n.nameText]
    else
      let declarations := n.namedChildren.filter (·.kind = "variable_declaration")
      let declarators := declarations.flatMap fun d =>
        d.namedChildren.filter (·.kind = "variable_declarator")
      nonempty (declarators.map csharpVariable)
  fieldAccess := ownAccess "member_access_expression" "expression" "name" "this"

def cpp : Profile where
  language := some "cpp"
  classKinds := ["class_specifier", "struct_specifier"]
  methodKinds := ["function_definition", "function_declarator"]
  fieldKinds := ["field_declaration"]
  heritageKinds := ["base_class_clause"]
  parentKinds := ["type_identifier", "qualified_identifier", "template_type"]
  bareAccess := true
  methodName n :=
    let start := if n.kind = "function_declarator" then n.child? "declarator" else some n
    ((start.bind (declaredName true)).map Node.text).getD ""
  fieldNames n :=
    ((n.namedChildren.filterMap (declaredName false)).filter (·.kind = "field_identifier")).map
      Node.text
  fieldAccess := ownAccess "field_expression" "argument" "field" "this"

def selfAttribute : Node → Option String := ownAccess "attribute" "object" "attribute" "self"

def python : Profile where
  language := some "python"
  classKinds := ["class_definition"]
  methodKinds := ["function_definition"]
  fieldKinds := ["assignment"]
  heritageKinds := ["argument_list"]
  parentKinds := ["identifier", "attribute", "subscript"]
  bareAccess := false
  methodName := Node.nameText
  fieldNames n :=
    match n.child? "left" with
    | some left =>
      let targets := if left.kind = "attribute" then [left] else left.namedChildren
      nonempty (targets.filterMap selfAttribute)
    | none => []
  fieldAccess := selfAttribute

/-- The profile of JavaScript and its typed relatives. -/
def ecmaScript (tag : String) : Profile where
  language := some tag
  classKinds := ["class_declaration", "abstract_class_declaration", "class"]
  methodKinds := ["method_definition", "public_field_definition", "field_definition"]
  fieldKinds := ["public_field_definition", "field_definition"]
  heritageKinds := ["class_heritage"]
  parentKinds :=
    ["identifier", "type_identifier", "member_expression", "nested_identifier",
     "nested_type_identifier", "generic_type"]
  bareAccess := false
  methodName n :=
    if n.kind = "method_definition" then n.nameText
    else if isFunctionValued n then classFieldName n else ""
  fieldNames n := if isFunctionValued n then [] else nonempty [classFieldName n]
  fieldAccess := ownAccess "member_expression" "object" "property" "this"

def ruby : Profile where
  language := some "ruby"
  classKinds := ["class", "module"]
  methodKinds := ["method", "singleton_method"]
  fieldKinds := ["instance_variable"]
  heritageKinds := ["superclass"]
  parentKinds := ["constant", "scope_resolution"]
  bareAccess := false
  methodName := Node.nameText
  fieldNames n := [n.text]
  fieldAccess n := if n.kind = "instance_variable" then some n.text else none

def withoutDollar (s : String) : String :=
  match s.toList with
  | '$' :: cs => String.ofList cs
  | _ => s

def php : Profile where
  language := some "php"
  classKinds := ["class_declaration", "interface_declaration", "trait_declaration"]
  methodKinds := ["method_declaration"]
  fieldKinds := ["property_declaration"]
  heritageKinds := ["base_clause", "class_interface_clause"]
  parentKinds := ["name", "qualified_name"]
  bareAccess := false
  methodName := Node.nameText
  fieldNames := Syntax.collect fun n =>
    if n.kind = "variable_name" then ([withoutDollar n.text], false) else ([], true)
  fieldAccess := ownAccess "member_access_expression" "object" "name" "$this"

def empty : Profile where
  language := none
  classKinds := []
  methodKinds := []
  fieldKinds := []
  heritageKinds := []
  parentKinds := []
  bareAccess := false
  methodName _ := ""
  fieldNames _ := []
  fieldAccess _ := none

def table : List (String × Profile) :=
  [("java", java), ("csharp", csharp), ("cpp", cpp), ("python", python),
   ("javascript", ecmaScript "javascript"), ("typescript", ecmaScript "typescript"),
   ("tsx", ecmaScript "tsx"), ("ruby", ruby), ("php", php)]

def ofTag (tag : String) : Profile := (table.lookup tag).getD empty

end Profile

def withClasses : List String := Profile.table.map (·.1)

def hasClasses (tag : String) : Bool := withClasses.contains tag

/-! ## Languages by file extension -/

def extensions : List (String × String) :=
  [(".js", "javascript"), (".mjs", "javascript"), (".cjs", "javascript"), (".jsx", "javascript"),
   (".ts", "typescript"), (".mts", "typescript"), (".cts", "typescript"),
   (".tsx", "tsx"),
   (".py", "python"), (".pyi", "python"),
   (".go", "go"),
   (".java", "java"),
   (".rs", "rust"),
   (".c", "c"), (".h", "c"),
   (".cpp", "cpp"), (".cc", "cpp"), (".cxx", "cpp"), (".hpp", "cpp"), (".hxx", "cpp"),
   (".cs", "csharp"),
   (".rb", "ruby"),
   (".php", "php")]

/-- The language of a file, by its extension in letters of either case. -/
def ofPath? (path : String) : Option String := extensions.lookup (Path.fileExtension path)

def isSupported (path : String) : Bool := (ofPath? path).isSome

/-- The languages with a grammar, in table order. -/
def supported : List String :=
  extensions.foldl (fun seen e => if seen.contains e.2 then seen else seen ++ [e.2]) []

end ClassCohesion.Language
