import ClassCohesion.Language.Declaration

/-!
# The inheritance graph

A fact says that a file declares a class with certain parents. Every named class node of a file gives
one, nested classes included.

The graph of a project has the declared classes with their parents and, the other way round, the
children of every class that is named as a parent. It is folded from the facts in order: of several
facts for one class the last one gives its parents, while children accumulate over all facts.

The depth of a class is the length of the longest chain of parents up to a root. A parent that is
already on the chain closes a cycle, and that branch counts for nothing; a class all of whose
branches cycle back is a root itself. `branch` is the search: it yields a depth, or the classes of
the chain at which every branch closes.
-/

namespace ClassCohesion.Inheritance

structure Fact where
  className : String
  parents : List String
  file : String
deriving Repr, DecidableEq

/-- The facts of a file, in document order. -/
def factsIn (profile : Language.Profile) (file : String) (root : Syntax.Node) : List Fact :=
  Syntax.collect (fun n =>
    (if profile.classKinds.contains n.kind ∧ n.nameText ≠ "" then
      [⟨n.nameText, Language.parentNames profile n, file⟩]
    else [], true)) root

/-! ## The graph -/

/-- An association list whose keys come in the order in which they were first set. -/
abbrev Table (α : Type) := List (String × α)

namespace Table

def get? {α : Type} (t : Table α) (key : String) : Option α := t.lookup key

/-- Sets a key: a new one goes to the end, a known one keeps its place. -/
def put {α : Type} (t : Table α) (key : String) (value : α) : Table α :=
  match t with
  | [] => [(key, value)]
  | (k, v) :: rest => if k = key then (key, value) :: rest else (k, v) :: put rest key value

end Table

structure Graph where
  parentsOf : Table (List String)
  childrenOf : Table (List String)
deriving Repr

namespace Graph

def empty : Graph := ⟨[], []⟩

def addOnce (names : List String) (name : String) : List String :=
  if names.contains name then names else names ++ [name]

def addChild (child : String) (childrenOf : Table (List String)) (parent : String) :
    Table (List String) :=
  Table.put childrenOf parent (addOnce ((Table.get? childrenOf parent).getD []) child)

def addFact (g : Graph) (fact : Fact) : Graph where
  parentsOf := Table.put g.parentsOf fact.className fact.parents
  childrenOf := fact.parents.foldl (addChild fact.className) g.childrenOf

def ofFacts (facts : List Fact) : Graph := facts.foldl addFact empty

def declared (g : Graph) : List String := g.parentsOf.map (·.1)

def size (g : Graph) : Nat := g.parentsOf.length

def has (g : Graph) (name : String) : Bool := (Table.get? g.parentsOf name).isSome

/-- The recorded parents of a class, none for one that is not declared. -/
def parents (g : Graph) (name : String) : List String := (Table.get? g.parentsOf name).getD []

/-- The children of a class, in the order in which they were first seen. -/
def children (g : Graph) (name : String) : List String := (Table.get? g.childrenOf name).getD []

def childCount (g : Graph) (name : String) : Nat := (g.children name).length

/-! ## Depth -/

/-- What a branch of the search comes to: a depth, or the classes of the chain it closes at. -/
inductive Branch where
  | depth (n : Nat)
  | closes (names : List String)
deriving Repr, DecidableEq

/-- The depth that a branch gives the class it starts from, if it has one. -/
def Branch.above? : Branch → Option Nat
  | .depth n => some (n + 1)
  | .closes _ => none

def Branch.closing : Branch → List String
  | .depth _ => []
  | .closes names => names

/-- What a class comes to, given what its parents come to. The longest branch with a depth wins; if
all of them close, those that close at the class itself stop there. -/
def combine (name : String) (branches : List Branch) : Branch :=
  match branches.filterMap Branch.above? with
  | d :: ds => .depth (ds.foldl max d)
  | [] =>
    -- a chain that closes here has come round; one that closes further down has not
    match (branches.flatMap Branch.closing).filter (· ≠ name) with
    | [] => .depth 0
    | names => .closes names

theorem mem_declared_of_parents_ne_nil {g : Graph} {name : String} (h : g.parents name ≠ []) :
    name ∈ g.declared := by
  unfold parents Table.get? at h
  unfold declared
  generalize g.parentsOf = table at h ⊢
  induction table with
  | nil => simp at h
  | cons p rest ih =>
    by_cases hp : name = p.1
    · simp [hp]
    · have hb : (name == p.1) = false := by simp [hp]
      rw [List.lookup_cons, hb] at h
      exact List.mem_cons_of_mem _ (ih h)

/-- The number of declared classes that are not on a chain. -/
def offPath (g : Graph) (path : List String) : Nat := g.declared.countP fun n => n ∉ path

theorem countP_not_mem_cons_lt {names path : List String} {name : String}
    (h : name ∈ names) (hp : name ∉ path) :
    names.countP (fun n => n ∉ name :: path) < names.countP (fun n => n ∉ path) := by
  induction names with
  | nil => cases h
  | cons n ns ih =>
    have mono : ns.countP (fun n => n ∉ name :: path) ≤ ns.countP (fun n => n ∉ path) :=
      List.countP_mono_left fun a _ ha => by
        simp only [List.mem_cons, not_or, decide_eq_true_eq] at ha ⊢
        exact ha.2
    by_cases hn : n = name
    · subst hn
      rw [List.countP_cons_of_neg (by simp), List.countP_cons_of_pos (by simpa using hp)]
      omega
    · have lt := ih ((List.mem_cons.mp h).resolve_left fun e => hn e.symm)
      by_cases hq : n ∈ path
      · rwa [List.countP_cons_of_neg (by simp [hq]), List.countP_cons_of_neg (by simp [hq])]
      · rw [List.countP_cons_of_pos (by simp [hq, hn]), List.countP_cons_of_pos (by simpa using hq)]
        omega

theorem offPath_cons_lt {g : Graph} {path : List String} {name : String}
    (hn : g.parents name ≠ []) (hp : name ∉ path) : g.offPath (name :: path) < g.offPath path :=
  countP_not_mem_cons_lt (mem_declared_of_parents_ne_nil hn) hp

/-- Searches upwards from a class, with the classes of the chain below it in `path`. -/
def branch (g : Graph) (path : List String) (name : String) : Branch :=
  if _hp : name ∈ path then .closes [name]
  else if _hn : g.parents name = [] then .depth 0
  else combine name ((g.parents name).map (branch g (name :: path)))
termination_by g.offPath path
decreasing_by exact offPath_cons_lt (by assumption) (by assumption)

def depth (g : Graph) (name : String) : Nat :=
  match g.branch [] name with
  | .depth n => n
  | .closes _ => 0

end Graph

end ClassCohesion.Inheritance
