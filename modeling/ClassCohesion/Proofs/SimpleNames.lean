import Mathlib.Data.List.Chain
import Mathlib.Data.List.DropRight
import Mathlib.Data.List.Infix
import ClassCohesion.Language.TypeName

/-!
# Simple names

A simple name is what is left of the text of a type: it has no arguments, no separators and no blanks
at its ends. So it is its own simple name (`simpleName_simpleName`), and the names of parents, which
are simple, are never those of classes whose declared name is not. The other way round, a text in
this form is left as it is (`simpleName_eq_self_iff`).
-/

namespace ClassCohesion

namespace Text

theorem isInfix_trim (cs : List Char) : trim cs <:+: cs := by
  have hfront : trim cs <+: cs.dropWhile isBlank := List.rdropWhile_prefix isBlank _
  have hback : cs.dropWhile isBlank <:+ cs := List.dropWhile_suffix isBlank
  exact hfront.isInfix.trans hback.isInfix

/-- Cutting off blanks at the end brings none to the front. -/
theorem dropWhile_trim (cs : List Char) : (trim cs).dropWhile isBlank = trim cs := by
  have hfront : trim cs <+: cs.dropWhile isBlank := List.rdropWhile_prefix isBlank _
  obtain ⟨rest, hrest⟩ := hfront
  cases htrim : trim cs with
  | nil => rfl
  | cons c tail =>
    rw [htrim, List.cons_append] at hrest
    have hc : isBlank c = false := by
      have hne : cs.dropWhile isBlank ≠ [] := by
        rw [← hrest]
        exact List.cons_ne_nil _ _
      have hhead := List.head_dropWhile_not isBlank hne
      simp only [← hrest, List.head_cons] at hhead
      exact hhead
    rw [List.dropWhile_cons_of_neg (by simp [hc])]

theorem trim_trim (cs : List Char) : trim (trim cs) = trim cs := by
  have hend : trimEnd (trim cs) = trim cs := List.rdropWhile_idempotent _ _
  rw [trim, dropWhile_trim, hend]

/-- Trimming leaves a text as it is if there is no blank at either end. -/
theorem trim_eq_self_iff {cs : List Char} :
    trim cs = cs ↔ (∀ c, cs.head? = some c → isBlank c = false) ∧
      ∀ c, cs.getLast? = some c → isBlank c = false := by
  have hfront : cs.dropWhile isBlank = cs ↔ ∀ c, cs.head? = some c → isBlank c = false := by
    cases cs with
    | nil => simp
    | cons c cs => simp [List.dropWhile_eq_self_iff]
  have hback : trimEnd cs = cs ↔ ∀ c, cs.getLast? = some c → isBlank c = false := by
    have hlast : trimEnd cs = cs ↔ ∀ hne : cs ≠ [], ¬ isBlank (cs.getLast hne) = true :=
      List.rdropWhile_eq_self_iff
    rw [hlast]
    constructor
    · intro h c hc
      have hne : cs ≠ [] := List.ne_nil_of_mem (List.mem_of_getLast? hc)
      rw [List.getLast?_eq_some_getLast hne] at hc
      cases hc
      simpa using h hne
    · intro h hne
      simp [h _ (List.getLast?_eq_some_getLast hne)]
  rw [← hfront, ← hback]
  constructor
  · intro h
    have hdrop : cs.dropWhile isBlank = cs := by rw [← h, dropWhile_trim]
    refine ⟨hdrop, ?_⟩
    rw [trim, hdrop] at h
    exact h
  · rintro ⟨hdrop, htrim⟩
    rw [trim, hdrop, htrim]

end Text

namespace Language

/-! ## Segments -/

/-- A text without a separator of qualified names. -/
structure Unseparated (cs : List Char) : Prop where
  dot : '.' ∉ cs
  backslash : '\\' ∉ cs
  colons : cs.IsChain fun a b => ¬ (a = ':' ∧ b = ':')

theorem Unseparated.nil : Unseparated [] := ⟨by simp, by simp, .nil⟩

theorem Unseparated.of_isInfix {cs ds : List Char} (h : Unseparated cs) (hd : ds <:+: cs) :
    Unseparated ds :=
  ⟨fun hm => h.dot (hd.subset hm), fun hm => h.backslash (hd.subset hm),
    List.IsChain.infix h.colons hd⟩

/-- A character goes to a segment unless it makes a separator there. -/
theorem Unseparated.snoc {cs : List Char} {c : Char} (h : Unseparated cs)
    (hc : ¬ (c = '.' ∨ c = '\\')) (hcolon : c = ':' → cs.getLast? ≠ some ':') :
    Unseparated (cs ++ [c]) := by
  rw [not_or] at hc
  refine ⟨?_, ?_, ?_⟩
  · simp [h.dot, Ne.symm hc.1]
  · simp [h.backslash, Ne.symm hc.2]
  · rw [List.isChain_append]
    refine ⟨h.colons, .singleton c, ?_⟩
    rintro a ha b hb ⟨rfl, rfl⟩
    rw [List.head?_cons, Option.mem_some_iff] at hb
    exact hcolon hb ha

theorem mem_lastSegment {current cs : List Char} {c : Char} (h : c ∈ lastSegment current cs) :
    c ∈ current ∨ c ∈ cs := by
  fun_induction lastSegment current cs with
  | case1 current => exact .inl (List.mem_reverse.mp h)
  | case2 current cs ih =>
    have hm : c ∈ cs := (ih h).resolve_left List.not_mem_nil
    exact .inr (List.mem_cons_of_mem _ (List.mem_cons_of_mem _ hm))
  | case3 current d cs _ hd ih =>
    have hm : c ∈ cs := (ih h).resolve_left List.not_mem_nil
    exact .inr (List.mem_cons_of_mem _ hm)
  | case4 current d cs _ hd ih =>
    rcases ih h with hm | hm
    · rcases List.mem_cons.mp hm with rfl | hm
      · exact .inr List.mem_cons_self
      · exact .inl hm
    · exact .inr (List.mem_cons_of_mem _ hm)

/-- The last segment has no separator. A colon that has gone to the segment is not followed by
another one, or the two would have ended it. -/
theorem lastSegment_unseparated (current cs : List Char) (h : Unseparated current.reverse)
    (hcolon : current.head? = some ':' → cs.head? ≠ some ':') :
    Unseparated (lastSegment current cs) := by
  fun_induction lastSegment current cs with
  | case1 current => exact h
  | case2 current cs ih => exact ih .nil (by simp)
  | case3 current d cs _ hd ih => exact ih .nil (by simp)
  | case4 current d cs hpair hd ih =>
    refine ih ?_ ?_
    · rw [List.reverse_cons]
      refine h.snoc hd fun hd' hlast => ?_
      rw [List.getLast?_reverse] at hlast
      exact hcolon hlast (by rw [List.head?_cons, hd'])
    · intro hhead hnext
      rw [List.head?_cons] at hhead
      cases cs with
      | nil => cases hnext
      | cons e es =>
        rw [List.head?_cons] at hnext
        exact hpair es (Option.some.inj hhead) (by rw [Option.some.inj hnext])

/-- A text without a separator is one segment. -/
theorem lastSegment_eq (current cs : List Char) (h : Unseparated (current.reverse ++ cs)) :
    lastSegment current cs = current.reverse ++ cs := by
  fun_induction lastSegment current cs with
  | case1 current => rw [List.append_nil]
  | case2 current cs ih =>
    -- the two colons are next to each other in the whole text
    have hpair : Unseparated [':', ':'] := h.of_isInfix ⟨current.reverse, cs, by simp⟩
    exact absurd ⟨rfl, rfl⟩ (List.isChain_cons.mp hpair.colons |>.1 ':' rfl)
  | case3 current d cs _ hd ih =>
    have hmem : d ∈ current.reverse ++ d :: cs := List.mem_append_right _ List.mem_cons_self
    rcases hd with rfl | rfl
    · exact absurd hmem h.dot
    · exact absurd hmem h.backslash
  | case4 current d cs _ hd ih =>
    have hsplit : (d :: current).reverse ++ cs = current.reverse ++ d :: cs := by simp
    rw [ih (hsplit ▸ h), hsplit]

/-! ## Simple names are simple -/

/-- Whether a character can stand in a name without arguments. -/
def isPlain (c : Char) : Bool := c != '<' && c != '['

/-- The characters of a simple name. -/
def simpleChars (cs : List Char) : List Char :=
  Text.trim (lastSegment [] (withoutArguments cs))

theorem simpleName_eq (s : String) : simpleName s = String.ofList (simpleChars s.toList) := by
  rw [simpleName, unqualifiedName, cleanTypeName, String.toList_ofList]
  rfl

theorem simpleChars_plain (cs : List Char) : ∀ c ∈ simpleChars cs, isPlain c = true := by
  intro c hc
  have hseg : c ∈ lastSegment [] (withoutArguments cs) := (Text.isInfix_trim _).subset hc
  have hclean : c ∈ withoutArguments cs :=
    (mem_lastSegment hseg).resolve_left List.not_mem_nil
  exact List.mem_takeWhile_imp ((Text.isInfix_trim _).subset hclean)

theorem simpleChars_unseparated (cs : List Char) : Unseparated (simpleChars cs) :=
  (lastSegment_unseparated [] (withoutArguments cs) .nil (by simp)).of_isInfix (Text.isInfix_trim _)

/-- Characters without arguments, separators and blanks at the ends are left as they are. -/
theorem simpleChars_eq_self {cs : List Char} (hplain : ∀ c ∈ cs, isPlain c = true)
    (hsegment : Unseparated cs) (htrim : Text.trim cs = cs) : simpleChars cs = cs := by
  have hclean : withoutArguments cs = cs := by
    have htake : cs.takeWhile (fun c => c != '<' && c != '[') = cs :=
      List.takeWhile_eq_self_iff.mpr hplain
    rw [withoutArguments, htake, htrim]
  have hlast : lastSegment [] cs = cs := lastSegment_eq [] cs hsegment
  rw [simpleChars, hclean, hlast, htrim]

theorem simpleChars_simpleChars (cs : List Char) :
    simpleChars (simpleChars cs) = simpleChars cs :=
  simpleChars_eq_self (simpleChars_plain cs) (simpleChars_unseparated cs) (Text.trim_trim _)

/-- **A simple name is its own simple name.** -/
theorem simpleName_simpleName (s : String) : simpleName (simpleName s) = simpleName s := by
  rw [simpleName_eq (simpleName s), simpleName_eq s, String.toList_ofList, simpleChars_simpleChars]

/-! ## The form of simple names -/

theorem chain_colons_iff {cs : List Char} :
    (cs.IsChain fun a b => ¬ (a = ':' ∧ b = ':')) ↔ ¬ [':', ':'] <:+: cs := by
  rw [List.isChain_iff_forall_rel_of_append_cons_cons]
  constructor
  · rintro h ⟨front, back, rfl⟩
    exact @h ':' ':' front back (by simp) ⟨rfl, rfl⟩
  · rintro h a b front back rfl ⟨rfl, rfl⟩
    exact h ⟨front, back, by simp⟩

/-- A name with no beginning of arguments, no separator of qualified names, and no blank at either
end. -/
structure IsSimple (name : String) : Prop where
  angle : '<' ∉ name.toList
  bracket : '[' ∉ name.toList
  dot : '.' ∉ name.toList
  backslash : '\\' ∉ name.toList
  colons : ¬ [':', ':'] <:+: name.toList
  front : ∀ c, name.toList.head? = some c → Text.isBlank c = false
  back : ∀ c, name.toList.getLast? = some c → Text.isBlank c = false

theorem isSimple_iff {name : String} :
    IsSimple name ↔ (∀ c ∈ name.toList, isPlain c = true) ∧ Unseparated name.toList ∧
      Text.trim name.toList = name.toList := by
  rw [Text.trim_eq_self_iff]
  constructor
  · intro h
    refine ⟨fun c hc => ?_, ⟨h.dot, h.backslash, chain_colons_iff.mpr h.colons⟩, h.front, h.back⟩
    have hangle : c ≠ '<' := fun heq => h.angle (heq ▸ hc)
    have hbracket : c ≠ '[' := fun heq => h.bracket (heq ▸ hc)
    simp [isPlain, hangle, hbracket]
  · rintro ⟨hplain, hsegment, hfront, hback⟩
    refine ⟨fun hm => ?_, fun hm => ?_, hsegment.dot, hsegment.backslash,
      chain_colons_iff.mp hsegment.colons, hfront, hback⟩
    · exact absurd (hplain _ hm) (by decide)
    · exact absurd (hplain _ hm) (by decide)

theorem isSimple_simpleName (s : String) : IsSimple (simpleName s) := by
  rw [isSimple_iff, simpleName_eq, String.toList_ofList]
  exact ⟨simpleChars_plain _, simpleChars_unseparated _, Text.trim_trim _⟩

/-- **The names that are their own.** Reducing a name leaves exactly the simple ones as they are. -/
theorem simpleName_eq_self_iff {name : String} : simpleName name = name ↔ IsSimple name := by
  constructor
  · intro h
    rw [← h]
    exact isSimple_simpleName name
  · intro h
    obtain ⟨hplain, hsegment, htrim⟩ := isSimple_iff.mp h
    rw [simpleName_eq, simpleChars_eq_self hplain hsegment htrim, String.ofList_toList]

end Language

end ClassCohesion
