import ClassCohesion.Language.Profile
import ClassCohesion.Metrics.Cohesion
import ClassCohesion.Text.Units

/-!
# What a class consists of

Fields, methods, called names and coupled classes of a class node. Fields are listed once for every
declaration; called names and coupled classes once for every name, in the order of their first
occurrence. A method inside a method is no method of the class.

The complexity of a piece of code is one more than the number of its decision points: named nodes of
a kind that branches, and the anonymous tokens of the logical operators.
-/

namespace ClassCohesion.Metrics

open Syntax (Node)
open ClassCohesion.Language (Profile)

/-! ## Complexity -/

/-- Kinds of nodes that branch: conditions, loops, cases, handlers and conditional expressions. -/
def decisionKinds : List String :=
  ["if_statement", "if_expression", "if", "elif_clause", "else_if_clause",
   "elsif", "if_modifier", "unless", "unless_modifier",
   "for_statement", "for_expression", "for", "for_in_statement",
   "enhanced_for_statement", "foreach_statement", "for_range_loop",
   "while_statement", "while_expression", "while", "while_modifier",
   "until", "until_modifier", "do_statement",
   "switch_statement", "switch_expression", "match_expression",
   "case_clause", "case_statement", "switch_case", "switch_section",
   "switch_block_statement_group", "switch_rule", "when",
   "catch_clause", "except_clause", "rescue",
   "conditional_expression", "ternary_expression", "conditional"]

def logicalOperators : List String := ["&&", "||", "and", "or"]

def isDecision (n : Node) : Bool :=
  if n.named then decisionKinds.contains n.kind else logicalOperators.contains n.kind

def complexity (n : Node) : Nat := 1 + Syntax.countNodes isDecision n

/-! ## Parts of a class -/

/-- The fields declared anywhere below a class node. -/
def fieldsOf (profile : Profile) (classNode : Node) : List String :=
  Syntax.collect (fun n =>
    (if profile.fieldKinds.contains n.kind then profile.fieldNames n else [], true)) classNode

/-- The field that is used at a node: one accessed through the object itself or, where `bare` allows
it, a declared one that is named by a lone identifier. -/
def fieldUse (profile : Profile) (bare : Bool) (declared : List String) (n : Node) :
    Option String :=
  match profile.fieldAccess n with
  | some name => if name ≠ "" then some name else bareUse
  | none => bareUse
where
  bareUse : Option String :=
    if bare ∧ n.kind = "identifier" ∧ declared.contains n.text then some n.text else none

/-- The fields that a method uses, in the order of their first use. Without a body, the method node
itself is searched, and lone identifiers, which are parameters there, do not count. -/
def usedFields (profile : Profile) (declared : List String) (method : Node) : List String :=
  let body := method.child? "body"
  let bare := profile.bareAccess && body.isSome
  Syntax.firstSeen (Syntax.collect (fun n => ((fieldUse profile bare declared n).toList, true))
    (body.getD method))

structure Method where
  name : String
  complexity : Nat
  usedFields : List String
deriving Repr, DecidableEq

def methodsOf (profile : Profile) (declared : List String) (classNode : Node) : List Method :=
  Syntax.collect (fun n =>
    if profile.methodKinds.contains n.kind then
      let name := profile.methodName n
      -- the walk does not go on below a method, named or not
      (if name = "" then [] else [⟨name, complexity n, usedFields profile declared n⟩], false)
    else ([], true)) classNode

def callKinds : List String :=
  ["call_expression", "method_invocation", "invocation_expression", "call", "method_call",
   "function_call_expression", "member_call_expression", "scoped_call_expression"]

/-- The fields of a call that name what is called. -/
def calleeFields : List String := ["function", "name", "method"]

def calleesAt (n : Node) : List String :=
  if callKinds.contains n.kind then (calleeFields.filterMap n.child?).map Node.text else []

def calledNames (classNode : Node) : List String :=
  Syntax.firstSeen (Syntax.collect (fun n => (calleesAt n, true)) classNode)

def typeKinds : List String :=
  ["type_identifier", "class_type", "simple_type", "named_type", "type_name", "identifier",
   "constant"]

/-- The class that a node refers to: names of one unit and of built-in types do not count. -/
def couplingAt (n : Node) : List String :=
  if typeKinds.contains n.kind ∧ 1 < Text.width n.text ∧ Language.isPrimitive n.text = false then
    [n.text]
  else []

def coupledClasses (classNode : Node) : List String :=
  Syntax.firstSeen (Syntax.collect (fun n => (couplingAt n, true)) classNode)

end ClassCohesion.Metrics
