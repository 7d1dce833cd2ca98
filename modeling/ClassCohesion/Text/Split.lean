/-!
# Cutting texts

`pieces` cuts a text at every occurrence of a separator; the pieces, joined by the separator, are
the text again, and none of them holds it. There is always at least one piece.

`trim` cuts off blanks: the five ASCII controls from tab to carriage return, every Unicode space
separator, the line and paragraph separators, and the byte order mark. The next-line control U+0085,
the Mongolian vowel separator U+180E and the zero-width space U+200B are not blank.
-/

namespace ClassCohesion.Text

/-- The pieces between the occurrences of a separator. -/
def pieces (sep : Char) : List Char → List (List Char)
  | [] => [[]]
  | c :: cs =>
    if c = sep then [] :: pieces sep cs
    else match pieces sep cs with
      | [] => [[c]]
      | p :: ps => (c :: p) :: ps

@[simp] theorem pieces_nil (sep : Char) : pieces sep [] = [[]] := rfl

@[simp] theorem pieces_cons_sep (sep : Char) (cs : List Char) :
    pieces sep (sep :: cs) = [] :: pieces sep cs := by simp [pieces]

theorem pieces_ne_nil (sep : Char) (cs : List Char) : pieces sep cs ≠ [] := by
  cases cs with
  | nil => simp
  | cons c cs =>
    unfold pieces
    split
    · simp
    · split <;> simp

def split (sep : Char) (s : String) : List String := (pieces sep s.toList).map String.ofList

def join (sep : String) (ss : List String) : String := sep.intercalate ss

/-- A text with every occurrence of one character exchanged for another. -/
def exchange (old new : Char) (s : String) : String :=
  String.ofList (s.toList.map fun c => if c = old then new else c)

def startsWith (s start : String) : Bool := start.toList.isPrefixOf s.toList

def endsWith (s finish : String) : Bool := finish.toList.isSuffixOf s.toList

/-! ## Blanks -/

def isBlank (c : Char) : Bool :=
  let n := c.toNat
  (0x9 ≤ n && n ≤ 0xD) || n == 0x20 || n == 0xA0 || n == 0x1680 || (0x2000 ≤ n && n ≤ 0x200A) ||
    n == 0x2028 || n == 0x2029 || n == 0x202F || n == 0x205F || n == 0x3000 || n == 0xFEFF

def trimEnd (cs : List Char) : List Char := (cs.reverse.dropWhile isBlank).reverse

def trim (cs : List Char) : List Char := trimEnd (cs.dropWhile isBlank)

end ClassCohesion.Text
