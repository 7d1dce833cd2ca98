import ClassCohesion.Json.Writer
import ClassCohesion.Proofs.DecimalText

/-!
# JSON read back from its text

The text of every value is in the grammar, and it is read as the value, but for what JSON cannot
hold: a number that is not finite becomes `null`, and the fields of an object come into writing
order (`reread`). This holds of the compact and of the pretty text alike: both are texts with blanks
in certain places (`Layout`, `spread`), and blanks are skipped.

- `readString_quote`: a string is read back from its quoted form.
- `parse?_compact`, `parse?_pretty`: what is read from the text of a value.
- `Fields.lookup_reread`: the fields of an object that is read from its text.
-/

namespace ClassCohesion.Json

open Number (Ends)

/-! ## Strings -/

theorem charsOfCodes_toNat (cs : List Char) : charsOfCodes (cs.map Char.toNat) = cs := by
  have hplain : ∀ c : Char, (decide (0xD800 ≤ c.toNat) && decide (c.toNat < 0xE000)) = false := by
    intro c
    have hvalid := c.valid
    simp only [UInt32.isValidChar, Nat.isValidChar] at hvalid
    have htoNat : c.toNat = c.val.toNat := rfl
    simp only [Bool.and_eq_false_iff, decide_eq_false_iff_not]
    omega
  have hlow : ∀ c : Char, (decide (0xD800 ≤ c.toNat) && decide (c.toNat < 0xDC00)) = false := by
    intro c
    have h := hplain c
    simp only [Bool.and_eq_false_iff, decide_eq_false_iff_not] at h ⊢
    omega
  induction cs with
  | nil => rfl
  | cons c cs ih =>
    cases cs with
    | nil => simp [charsOfCodes, hplain]
    | cons d cs =>
      simp only [List.map_cons, charsOfCodes, hplain, hlow, Bool.false_and, Bool.false_eq_true,
        if_false, Char.ofNat_toNat]
      rw [← List.map_cons, ih]

theorem hexCode?_hexDigit :
    ∀ n < 0x20, hexCode? '0' '0' (hexDigit (n / 16)) (hexDigit (n % 16)) = some n := by
  decide

/-- A character in quotes has an escape, or is a control character, or stands for itself. -/
theorem quoteChar_cases (c : Char) :
    (∃ e, quoteChar c = ['\\', e] ∧ escapeCode? e = some c.toNat) ∨
      (c.toNat < 0x20 ∧
        quoteChar c = ['\\', 'u', '0', '0', hexDigit (c.toNat / 16), hexDigit (c.toNat % 16)]) ∨
      (0x20 ≤ c.toNat ∧ c ≠ '"' ∧ c ≠ '\\' ∧ quoteChar c = [c]) := by
  have hne : ∀ d : Char, c.toNat ≠ d.toNat → c ≠ d := by
    rintro d h rfl
    exact h rfl
  unfold quoteChar
  split
  case h_8 hquote hslash _ _ _ _ _ =>
    right
    split
    · rename_i hcontrol
      exact .inl ⟨hcontrol, rfl⟩
    · rename_i hplain
      exact .inr ⟨by omega, hne '"' hquote, hne '\\' hslash, rfl⟩
  all_goals
    rename_i hcode
    exact .inl ⟨_, rfl, by rw [hcode]; rfl⟩

theorem readCodes_quoteChar (c : Char) (cs : List Char) :
    readCodes (quoteChar c ++ cs) = (readCodes cs).map fun r => (c.toNat :: r.1, r.2) := by
  rcases quoteChar_cases c with ⟨e, hc, he⟩ | ⟨hcontrol, hc⟩ | ⟨hplain, hquote, hslash, hc⟩
  · rw [hc]
    show readCodes ('\\' :: e :: cs) = _
    rw [readCodes]
    · rw [he]
      cases readCodes cs <;> rfl
    · rintro a b c' d rest rfl
      cases he
  · rw [hc]
    show readCodes ('\\' :: 'u' :: '0' :: '0' :: hexDigit (c.toNat / 16) ::
      hexDigit (c.toNat % 16) :: cs) = _
    rw [readCodes, hexCode?_hexDigit c.toNat hcontrol]
    cases readCodes cs <;> rfl
  · rw [hc]
    show readCodes (c :: cs) = _
    rw [readCodes]
    · rw [if_neg (by simp [hslash]; omega)]
      cases readCodes cs <;> rfl
    · exact hquote
    · intros
      exact hslash ‹_›
    · intros
      exact hslash ‹_›

theorem readString_quote (s : String) (rest : List Char) :
    readString (s.toList.flatMap quoteChar ++ '"' :: rest) = some (s, rest) := by
  have hcodes : ∀ cs : List Char, readCodes (cs.flatMap quoteChar ++ '"' :: rest) =
      some (cs.map Char.toNat, rest) := by
    intro cs
    induction cs with
    | nil => rfl
    | cons c cs ih => rw [List.flatMap_cons, List.append_assoc, readCodes_quoteChar, ih]; rfl
  simp [readString, hcodes, charsOfCodes_toNat]

/-! ## Texts with blanks -/

/-- The blanks of a text: `gap` stands before every item, field and closing bracket, `sep` behind
every colon. -/
structure Layout where
  gap : Nat → List Char
  sep : List Char
  gap_blank : ∀ depth, ∀ c ∈ gap depth, isSpace c = true
  sep_blank : ∀ c ∈ sep, isSpace c = true

section Spread

variable (l : Layout)

mutual

/-- The characters of a value with the blanks of a layout. -/
def spread (depth : Nat) : Json → List Char
  | null => "null".toList
  | bool true => "true".toList
  | bool false => "false".toList
  | num n => numberText n
  | str s => quote s
  | arr [] => ['[', ']']
  | arr (item :: items) =>
    '[' :: l.gap (depth + 1) ++ spread (depth + 1) item ++ spreadItems depth items
  | obj [] => ['\x7b', '\x7d']
  | obj ((name, value) :: fields) =>
    '\x7b' :: l.gap (depth + 1) ++ quote name ++ ':' :: (l.sep ++ spread (depth + 1) value) ++
      spreadFields depth fields

def spreadItems (depth : Nat) : List Json → List Char
  | [] => l.gap depth ++ [']']
  | item :: items => ',' :: l.gap (depth + 1) ++ spread (depth + 1) item ++ spreadItems depth items

def spreadFields (depth : Nat) : List (String × Json) → List Char
  | [] => l.gap depth ++ ['\x7d']
  | (name, value) :: fields =>
    ',' :: l.gap (depth + 1) ++ quote name ++ ':' :: (l.sep ++ spread (depth + 1) value) ++
      spreadFields depth fields

end

variable (depth : Nat) (item value : Json) (items : List Json) (name : String) (fields : Fields)

theorem spread_arr : spread l depth (arr (item :: items)) =
    '[' :: l.gap (depth + 1) ++ spread l (depth + 1) item ++ spreadItems l depth items := rfl

theorem spread_obj : spread l depth (obj ((name, value) :: fields)) =
    '\x7b' :: l.gap (depth + 1) ++ quote name ++
      ':' :: (l.sep ++ spread l (depth + 1) value) ++ spreadFields l depth fields := rfl

theorem spreadItems_cons : spreadItems l depth (item :: items) =
    ',' :: l.gap (depth + 1) ++ spread l (depth + 1) item ++ spreadItems l depth items := rfl

theorem spreadFields_cons : spreadFields l depth ((name, value) :: fields) =
    ',' :: l.gap (depth + 1) ++ quote name ++ ':' :: (l.sep ++ spread l (depth + 1) value) ++
      spreadFields l depth fields := rfl

end Spread

def Layout.compact : Layout where
  gap _ := []
  sep := []
  gap_blank _ := by simp
  sep_blank := by simp

mutual

theorem compactChars_eq_spread : ∀ (j : Json) (depth : Nat),
    compactChars j = spread .compact depth j
  | null, _ => rfl
  | bool true, _ => rfl
  | bool false, _ => rfl
  | num _, _ => rfl
  | str _, _ => rfl
  | arr [], _ => rfl
  | obj [], _ => rfl
  | arr (item :: items), depth => by
    rw [spread_arr, ← compactChars_eq_spread item (depth + 1), ← compactItems_eq_spread items depth]
    rfl
  | obj ((name, value) :: fields), depth => by
    rw [spread_obj, ← compactChars_eq_spread value (depth + 1),
      ← compactFields_eq_spread fields depth]
    rfl

theorem compactItems_eq_spread : ∀ (items : List Json) (depth : Nat),
    compactItems items = spreadItems .compact depth items
  | [], _ => rfl
  | item :: items, depth => by
    rw [spreadItems_cons, ← compactChars_eq_spread item (depth + 1),
      ← compactItems_eq_spread items depth]
    rfl

theorem compactFields_eq_spread : ∀ (fields : List (String × Json)) (depth : Nat),
    compactFields fields = spreadFields .compact depth fields
  | [], _ => rfl
  | (name, value) :: fields, depth => by
    rw [spreadFields_cons, ← compactChars_eq_spread value (depth + 1),
      ← compactFields_eq_spread fields depth]
    rfl

end

def Layout.pretty : Layout where
  gap := newline
  sep := [' ']
  gap_blank depth c hc := by
    rcases List.mem_cons.mp hc with rfl | hblank
    · rfl
    · rw [List.eq_of_mem_replicate hblank]
      rfl
  sep_blank c hc := by
    rw [List.mem_singleton.mp hc]
    rfl

mutual

theorem prettyChars_eq_spread : ∀ (j : Json) (depth : Nat),
    prettyChars depth j = spread .pretty depth j
  | null, _ => rfl
  | bool true, _ => rfl
  | bool false, _ => rfl
  | num _, _ => rfl
  | str _, _ => rfl
  | arr [], _ => rfl
  | obj [], _ => rfl
  | arr (item :: items), depth => by
    rw [spread_arr, ← prettyChars_eq_spread item (depth + 1), ← prettyItems_eq_spread items depth]
    rfl
  | obj ((name, value) :: fields), depth => by
    rw [spread_obj, ← prettyChars_eq_spread value (depth + 1),
      ← prettyFields_eq_spread fields depth]
    rfl

theorem prettyItems_eq_spread : ∀ (items : List Json) (depth : Nat),
    prettyItems depth items = spreadItems .pretty depth items
  | [], _ => rfl
  | item :: items, depth => by
    rw [spreadItems_cons, ← prettyChars_eq_spread item (depth + 1),
      ← prettyItems_eq_spread items depth]
    rfl

theorem prettyFields_eq_spread : ∀ (fields : List (String × Json)) (depth : Nat),
    prettyFields depth fields = spreadFields .pretty depth fields
  | [], _ => rfl
  | (name, value) :: fields, depth => by
    rw [spreadFields_cons, ← prettyChars_eq_spread value (depth + 1),
      ← prettyFields_eq_spread fields depth]
    rfl

end

/-! ## Reading -/

mutual

/-- The value that is read from the text of a value. -/
def reread : Json → Json
  | null => null
  | bool b => bool b
  | num (.finite v) => num (Number.reread v)
  | num _ => null
  | str s => str s
  | arr items => arr (rereadItems items)
  | obj fields => obj (Fields.ofPairs (rereadFields fields))

def rereadItems : List Json → List Json
  | [] => []
  | item :: items => reread item :: rereadItems items

def rereadFields : List (String × Json) → List (String × Json)
  | [] => []
  | (name, value) :: fields => (name, reread value) :: rereadFields fields

end

theorem rereadItems_eq_map (items : List Json) : rereadItems items = items.map reread := by
  induction items with
  | nil => rfl
  | cons item items ih => rw [rereadItems, ih, List.map_cons]

theorem rereadFields_eq_map (fields : List (String × Json)) :
    rereadFields fields = fields.map fun f => (f.1, reread f.2) := by
  induction fields with
  | nil => rfl
  | cons field fields ih => rw [rereadFields, ih, List.map_cons]

theorem Fields.ofPairs_nil : Fields.ofPairs [] = [] := by
  simp [Fields.ofPairs, Fields.arrange]

section Blanks

variable {blanks cs : List Char}

theorem skipSpace_append (h : ∀ c ∈ blanks, isSpace c = true) (cs : List Char) :
    skipSpace (blanks ++ cs) = skipSpace cs :=
  List.dropWhile_append_of_pos h

theorem skipSpace_cons {c : Char} (h : isSpace c = false) (cs : List Char) :
    skipSpace (c :: cs) = c :: cs :=
  List.dropWhile_cons_of_neg (by simp [h])

theorem isSpace_cases {c : Char} (h : isSpace c = true) :
    c = ' ' ∨ c = '\n' ∨ c = '\r' ∨ c = '\t' := by
  simpa [isSpace, or_assoc] using h

theorem not_space_of_digit {c : Char} (h : c.isDigit = true) : isSpace c = false ∧ c ≠ ']' := by
  constructor
  · rw [Bool.eq_false_iff]
    intro hspace
    rcases isSpace_cases hspace with rfl | rfl | rfl | rfl <;> cases h
  · rintro rfl
    cases h

/-- Neither blanks nor what follows them go on with a number. -/
theorem ends_blanks (h : ∀ c ∈ blanks, isSpace c = true) {d : Char} (hd : d = ']' ∨ d = '\x7d')
    (cs : List Char) : Ends (blanks ++ d :: cs) := by
  intro c hc
  cases blanks with
  | nil =>
    obtain rfl : d = c := by simpa using hc
    rcases hd with rfl | rfl <;> decide
  | cons b blanks =>
    obtain rfl : b = c := by simpa using hc
    rcases isSpace_cases (h b List.mem_cons_self) with rfl | rfl | rfl | rfl <;> decide

end Blanks

/-! ### Steps of the reader -/

section Steps

variable {fuel : Nat} {text cs rest after : List Char}

theorem readValue_arr {c : Char} {items : List Json} (hs : skipSpace text = c :: cs) (hc : c ≠ ']')
    (hi : readItems fuel (c :: cs) = some (items, rest)) :
    readValue (fuel + 1) ('[' :: text) = some (arr items, rest) := by
  rw [readValue, hs]
  split
  · rename_i heq
    exact absurd (List.cons.inj heq).1 hc
  · rw [hi]
    rfl

theorem readValue_obj {pairs : List (String × Json)} (hs : skipSpace text = '"' :: cs)
    (hp : readPairs fuel ('"' :: cs) = some (pairs, rest)) :
    readValue (fuel + 1) ('\x7b' :: text) = some (obj (Fields.ofPairs pairs), rest) := by
  simp [readValue, hs, hp]

theorem readItems_last {j : Json} (hj : readValue fuel cs = some (j, after))
    (hs : skipSpace after = ']' :: rest) : readItems (fuel + 1) cs = some ([j], rest) := by
  simp [readItems, hj, hs]

theorem readItems_more {j : Json} {items : List Json} (hj : readValue fuel cs = some (j, after))
    (hs : skipSpace after = ',' :: text)
    (hi : readItems fuel (skipSpace text) = some (items, rest)) :
    readItems (fuel + 1) cs = some (j :: items, rest) := by
  simp [readItems, hj, hs, hi]

theorem readPairs_last {name : String} {j : Json} (hn : readString cs = some (name, ':' :: text))
    (hj : readValue fuel (skipSpace text) = some (j, after))
    (hs : skipSpace after = '\x7d' :: rest) :
    readPairs (fuel + 1) ('"' :: cs) = some ([(name, j)], rest) := by
  have hcolon : skipSpace (':' :: text) = ':' :: text := skipSpace_cons rfl text
  simp [readPairs, hn, hcolon, hj, hs]

theorem readPairs_more {name : String} {j : Json} {next : List Char}
    {pairs : List (String × Json)} (hn : readString cs = some (name, ':' :: text))
    (hj : readValue fuel (skipSpace text) = some (j, after)) (hs : skipSpace after = ',' :: next)
    (hp : readPairs fuel (skipSpace next) = some (pairs, rest)) :
    readPairs (fuel + 1) ('"' :: cs) = some ((name, j) :: pairs, rest) := by
  have hcolon : skipSpace (':' :: text) = ':' :: text := skipSpace_cons rfl text
  simp [readPairs, hn, hcolon, hj, hs, hp]

end Steps

theorem readValue_number {fuel : Nat} {c : Char} {cs : List Char}
    (hc : c.isDigit = true ∨ c = '-') :
    readValue (fuel + 1) (c :: cs) = (readNumber (c :: cs)).map fun r => (num r.1, r.2) := by
  unfold readValue
  split
  case h_7 => rfl
  all_goals
    rename_i heq
    rw [(List.cons.inj heq).1] at hc
    exact absurd hc (by decide)

theorem numberText_head (n : Number) :
    ∃ c cs, numberText n = c :: cs ∧
      ((∃ v, n = .finite v) ∧ (c.isDigit = true ∨ c = '-') ∨ (∀ v, n ≠ .finite v) ∧ c = 'n') := by
  cases n with
  | infinity => exact ⟨'n', _, rfl, .inr ⟨by simp, rfl⟩⟩
  | negInfinity => exact ⟨'n', _, rfl, .inr ⟨by simp, rfl⟩⟩
  | nan => exact ⟨'n', _, rfl, .inr ⟨by simp, rfl⟩⟩
  | finite v =>
    have hread := Number.readNumber_text v (show Ends [] by simp [Ends])
    rw [List.append_nil] at hread
    show ∃ c cs, (Number.finite v).text.toList = c :: cs ∧ _
    cases htext : (Number.finite v).text.toList with
    | nil =>
      rw [htext] at hread
      cases hread
    | cons c cs =>
      refine ⟨c, cs, rfl, .inl ⟨⟨v, rfl⟩, ?_⟩⟩
      rw [htext] at hread
      by_cases hc : c = '-'
      · exact .inr hc
      · left
        unfold readNumber at hread
        split at hread
        · rename_i heq
          exact absurd (List.cons.inj heq).1 hc
        · obtain ⟨d, tail, heq, hd⟩ := Number.readMagnitude_head hread
          rw [(List.cons.inj heq).1]
          exact hd

theorem readValue_numberText (n : Number) (fuel : Nat) {rest : List Char} (hr : Ends rest) :
    readValue (fuel + 1) (numberText n ++ rest) = some (reread (num n), rest) := by
  cases n with
  | infinity => rfl
  | negInfinity => rfl
  | nan => rfl
  | finite v =>
    obtain ⟨c, cs, htext, hhead⟩ := numberText_head (.finite v)
    have hread : readNumber (numberText (.finite v) ++ rest) = some (Number.reread v, rest) :=
      Number.readNumber_text v hr
    rcases hhead with ⟨-, hc⟩ | ⟨hne, -⟩
    · rw [htext] at hread ⊢
      rw [List.cons_append] at hread ⊢
      rw [readValue_number hc, hread]
      rfl
    · exact absurd rfl (hne v)

section Spread

variable (l : Layout)

/-- The text of a value starts neither with a blank nor with a closing bracket. -/
theorem spread_head (depth : Nat) (j : Json) :
    ∃ c cs, spread l depth j = c :: cs ∧ isSpace c = false ∧ c ≠ ']' := by
  cases j with
  | null => exact ⟨'n', _, rfl, rfl, by decide⟩
  | bool b =>
    cases b with
    | true => exact ⟨'t', _, rfl, rfl, by decide⟩
    | false => exact ⟨'f', _, rfl, rfl, by decide⟩
  | num n =>
    obtain ⟨c, cs, htext, hhead⟩ := numberText_head n
    refine ⟨c, cs, htext, ?_⟩
    rcases hhead with ⟨-, hdigit | rfl⟩ | ⟨-, rfl⟩
    · exact not_space_of_digit hdigit
    · exact ⟨rfl, by decide⟩
    · exact ⟨rfl, by decide⟩
  | str s => exact ⟨'"', _, rfl, rfl, by decide⟩
  | arr items => cases items <;> exact ⟨'[', _, rfl, rfl, by decide⟩
  | obj fields => cases fields <;> exact ⟨'\x7b', _, rfl, rfl, by decide⟩

theorem skipSpace_spread {blanks : List Char} (h : ∀ c ∈ blanks, isSpace c = true)
    (depth : Nat) (j : Json) (cs : List Char) :
    skipSpace (blanks ++ (spread l depth j ++ cs)) = spread l depth j ++ cs := by
  obtain ⟨c, tail, htext, hspace, -⟩ := spread_head l depth j
  rw [skipSpace_append h, htext]
  exact skipSpace_cons hspace _

theorem ends_spreadItems (depth : Nat) (items : List Json) (rest : List Char) :
    Ends (spreadItems l depth items ++ rest) := by
  cases items with
  | nil =>
    rw [spreadItems, List.append_assoc]
    exact ends_blanks (l.gap_blank depth) (.inl rfl) rest
  | cons item items =>
    intro c hc
    obtain rfl : ',' = c := by simpa [spreadItems] using hc
    decide

theorem ends_spreadFields (depth : Nat) (fields : Fields) (rest : List Char) :
    Ends (spreadFields l depth fields ++ rest) := by
  cases fields with
  | nil =>
    rw [spreadFields, List.append_assoc]
    exact ends_blanks (l.gap_blank depth) (.inr rfl) rest
  | cons field fields =>
    intro c hc
    obtain rfl : ',' = c := by simpa [spreadFields] using hc
    decide

theorem exists_steps {l : Layout} {depth fuel : Nat} {j : Json}
    (h : 2 * (spread l depth j).length ≤ fuel) : ∃ f, fuel = f + 2 := by
  obtain ⟨c, cs, htext, -⟩ := spread_head l depth j
  rw [htext, List.length_cons] at h
  exact ⟨fuel - 2, by omega⟩

mutual

/-- Every text of a value is read, up to its end, if there are two steps for each character. -/
theorem readValue_spread : ∀ (j : Json) (depth fuel : Nat) (rest : List Char),
    2 * (spread l depth j).length ≤ fuel → Ends rest →
    readValue fuel (spread l depth j ++ rest) = some (reread j, rest) := by
  intro j depth fuel rest hfuel hr
  obtain ⟨f, rfl⟩ := exists_steps hfuel
  match j with
  | null => rfl
  | bool true => rfl
  | bool false => rfl
  | num n => exact readValue_numberText n (f + 1) hr
  | str s =>
    have htext : spread l depth (str s) ++ rest =
        '"' :: (s.toList.flatMap quoteChar ++ '"' :: rest) := by
      show quote s ++ rest = _
      simp [quote]
    rw [htext, readValue, readString_quote]
    rfl
  | arr [] => rfl
  | obj [] =>
    rw [reread, rereadFields, Fields.ofPairs_nil]
    rfl
  | arr (item :: items) =>
    have htext : spread l depth (arr (item :: items)) ++ rest =
        '[' :: (l.gap (depth + 1) ++
          (spread l (depth + 1) item ++ (spreadItems l depth items ++ rest))) := by
      simp [spread_arr]
    simp only [spread_arr, List.length_append, List.length_cons] at hfuel
    have hitem := readValue_spread item (depth + 1) f
      (spreadItems l depth items ++ rest) (by omega) (ends_spreadItems l depth items rest)
    have hitems := readItems_spread items depth f _ rest (reread item) (by omega) hitem
    have hskip := skipSpace_spread l (l.gap_blank (depth + 1)) (depth + 1) item
      (spreadItems l depth items ++ rest)
    obtain ⟨c, cs, hhead, -, hc⟩ := spread_head l (depth + 1) item
    rw [hhead, List.cons_append] at hskip hitems
    rw [htext, hhead, List.cons_append]
    exact readValue_arr hskip hc hitems
  | obj ((name, value) :: fields) =>
    have htext : spread l depth (obj ((name, value) :: fields)) ++ rest =
        '\x7b' :: (l.gap (depth + 1) ++ '"' :: (name.toList.flatMap quoteChar ++ '"' :: ':' ::
          (l.sep ++ (spread l (depth + 1) value ++
            (spreadFields l depth fields ++ rest))))) := by
      simp [spread_obj, quote]
    simp only [spread_obj, List.length_append, List.length_cons] at hfuel
    have hvalue := readValue_spread value (depth + 1) f
      (spreadFields l depth fields ++ rest) (by omega)
      (ends_spreadFields l depth fields rest)
    rw [← skipSpace_spread l l.sep_blank (depth + 1) value] at hvalue
    have hfields := readPairs_spread fields depth f name _ _ rest (reread value) (by omega)
      (readString_quote name _) hvalue
    rw [htext]
    refine readValue_obj ?_ hfields
    rw [skipSpace_append (l.gap_blank (depth + 1))]
    exact skipSpace_cons rfl _

theorem readItems_spread : ∀ (items : List Json) (depth fuel : Nat) (cs rest : List Char)
    (j : Json),
    2 * (spreadItems l depth items).length ≤ fuel →
    readValue fuel cs = some (j, spreadItems l depth items ++ rest) →
    readItems (fuel + 1) cs = some (j :: rereadItems items, rest) := by
  intro items depth fuel cs rest j hfuel hj
  match items with
  | [] =>
    refine readItems_last hj ?_
    rw [spreadItems, List.append_assoc, skipSpace_append (l.gap_blank depth)]
    exact skipSpace_cons rfl rest
  | item :: items =>
    have htext : spreadItems l depth (item :: items) ++ rest =
        ',' :: (l.gap (depth + 1) ++
          (spread l (depth + 1) item ++ (spreadItems l depth items ++ rest))) := by
      simp [spreadItems_cons]
    simp only [spreadItems_cons, List.length_append, List.length_cons] at hfuel
    obtain ⟨f, rfl⟩ : ∃ f, fuel = f + 1 := ⟨fuel - 1, by omega⟩
    have hitem := readValue_spread item (depth + 1) f
      (spreadItems l depth items ++ rest) (by omega) (ends_spreadItems l depth items rest)
    have hitems := readItems_spread items depth f _ rest (reread item) (by omega) hitem
    rw [← skipSpace_spread l (l.gap_blank (depth + 1)) (depth + 1) item] at hitems
    refine readItems_more hj ?_ hitems
    rw [htext]
    exact skipSpace_cons rfl _

theorem readPairs_spread : ∀ (fields : List (String × Json)) (depth fuel : Nat) (name : String)
    (cs text rest : List Char) (j : Json),
    2 * (spreadFields l depth fields).length ≤ fuel →
    readString cs = some (name, ':' :: text) →
    readValue fuel (skipSpace text) = some (j, spreadFields l depth fields ++ rest) →
    readPairs (fuel + 1) ('"' :: cs) = some ((name, j) :: rereadFields fields, rest) := by
  intro fields depth fuel name cs text rest j hfuel hn hj
  match fields with
  | [] =>
    refine readPairs_last hn hj ?_
    rw [spreadFields, List.append_assoc, skipSpace_append (l.gap_blank depth)]
    exact skipSpace_cons rfl rest
  | (next, value) :: fields =>
    have htext : spreadFields l depth ((next, value) :: fields) ++ rest =
        ',' :: (l.gap (depth + 1) ++ '"' :: (next.toList.flatMap quoteChar ++ '"' :: ':' ::
          (l.sep ++ (spread l (depth + 1) value ++
            (spreadFields l depth fields ++ rest))))) := by
      simp [spreadFields_cons, quote]
    simp only [spreadFields_cons, List.length_append, List.length_cons] at hfuel
    obtain ⟨f, rfl⟩ : ∃ f, fuel = f + 1 := ⟨fuel - 1, by omega⟩
    have hvalue := readValue_spread value (depth + 1) f
      (spreadFields l depth fields ++ rest) (by omega)
      (ends_spreadFields l depth fields rest)
    rw [← skipSpace_spread l l.sep_blank (depth + 1) value] at hvalue
    have hfields := readPairs_spread fields depth f next _ _ rest (reread value) (by omega)
      (readString_quote next _) hvalue
    have hskip := skipSpace_append (l.gap_blank (depth + 1))
      ('"' :: (next.toList.flatMap quoteChar ++ '"' :: ':' ::
        (l.sep ++ (spread l (depth + 1) value ++ (spreadFields l depth fields ++ rest)))))
    rw [skipSpace_cons rfl] at hskip
    rw [← hskip] at hfields
    rw [htext] at hj
    exact readPairs_more hn hj (skipSpace_cons rfl _) hfields

end

theorem parse?_spread (j : Json) :
    parse? (String.ofList (spread l 0 j)) = some (reread j) := by
  have hread := readValue_spread l j 0 (2 * (spread l 0 j).length + 2) []
    (by omega) (by simp [Ends])
  have hskip := skipSpace_spread l (List.forall_mem_nil _) 0 j []
  rw [List.append_nil] at hread
  rw [List.nil_append, List.append_nil] at hskip
  simp only [parse?, String.toList_ofList, hskip, hread]
  rfl

end Spread

theorem parse?_compact (j : Json) : parse? j.compact = some (reread j) := by
  rw [compact, compactChars_eq_spread j 0]
  exact parse?_spread .compact j

theorem parse?_pretty (j : Json) : parse? j.pretty = some (reread j) := by
  rw [pretty, prettyChars_eq_spread j 0]
  exact parse?_spread .pretty j

/-! ## Fields -/

namespace Fields

variable {fields : Fields} {name other : String} {value new : Json}

theorem lookup_cons_ite (name first : String) (kept : Json) (fields : Fields) :
    List.lookup name ((first, kept) :: fields) =
      if name = first then some kept else fields.lookup name := by
  rw [List.lookup_cons]
  by_cases hname : name = first
  · simp [hname]
  · rw [if_neg hname, beq_eq_false_iff_ne.mpr hname]

theorem lookup_eq_some_iff_mem (h : (fields.map Prod.fst).Nodup) :
    fields.lookup name = some value ↔ (name, value) ∈ fields := by
  induction fields with
  | nil => simp
  | cons field fields ih =>
    obtain ⟨first, kept⟩ := field
    rw [List.map_cons, List.nodup_cons] at h
    rw [lookup_cons_ite, List.mem_cons, Prod.mk.injEq]
    by_cases hname : name = first
    · subst hname
      have hout : (name, value) ∉ fields := fun hmem => h.1 (List.mem_map.mpr ⟨_, hmem, rfl⟩)
      simp [hout, eq_comm]
    · simp [hname, ih h.2]

theorem lookup_eq_of_perm {fields' : Fields} (h : (fields.map Prod.fst).Nodup)
    (hp : fields.Perm fields') : fields.lookup name = fields'.lookup name := by
  have h' : (fields'.map Prod.fst).Nodup := (hp.map Prod.fst).nodup_iff.mp h
  ext value
  rw [lookup_eq_some_iff_mem h, lookup_eq_some_iff_mem h', hp.mem_iff]

theorem mem_put :
    (name, value) ∈ put fields other new ↔
      name = other ∧ value = new ∨ name ≠ other ∧ (name, value) ∈ fields := by
  unfold put
  split
  · rename_i hany
    obtain ⟨⟨_, kept⟩, hmem, hname⟩ := List.any_eq_true.mp hany
    obtain rfl := eq_of_beq hname
    rw [List.mem_map]
    constructor
    · rintro ⟨⟨first, kept'⟩, hmem', heq⟩
      split at heq
      · cases heq
        exact .inl ⟨rfl, rfl⟩
      · rename_i hne
        cases heq
        exact .inr ⟨by simpa using hne, hmem'⟩
    · rintro (⟨rfl, rfl⟩ | ⟨hne, hmem'⟩)
      · exact ⟨_, hmem, by simp⟩
      · exact ⟨_, hmem', by simp [hne]⟩
  · rename_i hany
    have hfree : (name, value) ∈ fields → name ≠ other := by
      rintro hmem rfl
      exact hany (List.any_eq_true.mpr ⟨_, hmem, beq_self_eq_true _⟩)
    rw [List.mem_append, List.mem_singleton, Prod.mk.injEq]
    tauto

theorem nodup_put (h : (fields.map Prod.fst).Nodup) (name : String) (value : Json) :
    ((put fields name value).map Prod.fst).Nodup := by
  unfold put
  split
  · -- no name changes
    have hnames : (fields.map fun f => if f.1 == name then (name, value) else f).map Prod.fst =
        fields.map Prod.fst := by
      rw [List.map_map]
      apply List.map_congr_left
      intro f _
      by_cases hname : f.1 = name <;> simp [hname]
    exact hnames ▸ h
  · rename_i hany
    rw [List.map_append, List.nodup_append]
    refine ⟨h, by simp, ?_⟩
    rintro first hfirst _ hlast rfl
    obtain ⟨f, hf, rfl⟩ := List.mem_map.mp hfirst
    apply hany
    exact List.any_eq_true.mpr ⟨f, hf, by simpa using hlast⟩

theorem nodup_foldl_put (pairs : List (String × Json)) (h : (fields.map Prod.fst).Nodup) :
    ((pairs.foldl (fun fields p => put fields p.1 p.2) fields).map Prod.fst).Nodup := by
  induction pairs generalizing fields with
  | nil => exact h
  | cons p pairs ih => exact ih (nodup_put h p.1 p.2)

theorem mem_foldl_put (pairs : List (String × Json)) :
    (name, value) ∈ pairs.foldl (fun fields p => put fields p.1 p.2) fields ↔
      pairs.reverse.lookup name = some value ∨
        pairs.reverse.lookup name = none ∧ (name, value) ∈ fields := by
  induction pairs generalizing fields with
  | nil => simp
  | cons p pairs ih =>
    rw [List.foldl_cons, ih, mem_put, List.reverse_cons, List.lookup_append, lookup_cons_ite]
    cases pairs.reverse.lookup name with
    | some last => simp
    | none => by_cases hname : name = p.1 <;> simp [hname, eq_comm]

theorem arrange_perm (fields : Fields) : (arrange fields).Perm fields := by
  have hnamed : (fields.filter fun f => (arrayIndex? f.1).isNone) =
      fields.filter fun f => !(arrayIndex? f.1).isSome :=
    List.filter_congr fun f _ => by cases arrayIndex? f.1 <;> rfl
  unfold arrange
  rw [hnamed]
  exact ((List.mergeSort_perm _ _).append_right _).trans (List.filter_append_perm _ fields)

theorem nodup_ofPairs (pairs : List (String × Json)) :
    ((ofPairs pairs).map Prod.fst).Nodup :=
  ((arrange_perm _).map Prod.fst).nodup_iff.mpr (nodup_foldl_put pairs List.nodup_nil)

theorem lookup_ofPairs (pairs : List (String × Json)) (name : String) :
    (ofPairs pairs).lookup name = pairs.reverse.lookup name := by
  ext value
  rw [lookup_eq_some_iff_mem (nodup_ofPairs pairs), ofPairs, (arrange_perm _).mem_iff,
    mem_foldl_put]
  simp

/-- Of several fields with one name the last one counts. -/
theorem lookup_reread (fields : Fields) (name : String) :
    (ofPairs (rereadFields fields)).lookup name = (fields.reverse.lookup name).map reread := by
  rw [lookup_ofPairs, rereadFields_eq_map, ← List.map_reverse]
  induction fields.reverse with
  | nil => rfl
  | cons field fields ih =>
    rw [List.map_cons, lookup_cons_ite, lookup_cons_ite, ih, apply_ite (Option.map reread)]
    rfl

end Fields

end ClassCohesion.Json
