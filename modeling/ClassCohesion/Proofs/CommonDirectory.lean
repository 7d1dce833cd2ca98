import ClassCohesion.Proofs.Places

/-!
# Common directories as places

The deepest common directory of files is found on texts: the directories of the files are cut at
their slashes, and of the pieces of the first one a shorter and shorter part is kept. The root is
cut into two empty pieces, and every other directory into one empty piece and its names, so that
the root and what is left of two directories without a name in common look different.

On places the same is a fold: the meet of the places under the prefix order. `Writes` is what the
two have in common along the way.

- `dirName_render`: the directory of a path in normal form.
- `take_sharedFrom`: the loop over two rows of pieces finds what they begin with in common.
- `commonDirectory_cons`: the deepest common directory is the path to a meet of places.
-/

namespace ClassCohesion.Path

variable {host : Host} {place a b : List String}

/-- What two lists begin with in common. -/
def shared : List String → List String → List String
  | a :: as, b :: bs => if a = b then a :: shared as bs else []
  | _, _ => []

@[simp] theorem shared_nil_left (b : List String) : shared [] b = [] := by
  cases b <;> rfl

@[simp] theorem shared_nil_right (a : List String) : shared a [] = [] := by
  cases a <;> rfl

@[simp] theorem shared_cons_self (s : String) (a b : List String) :
    shared (s :: a) (s :: b) = s :: shared a b := by
  rw [shared, if_pos rfl]

theorem shared_cons_of_ne {s t : String} (h : s ≠ t) (a b : List String) :
    shared (s :: a) (t :: b) = [] := by
  rw [shared, if_neg h]

theorem shared_append (p a b : List String) : shared (p ++ a) (p ++ b) = p ++ shared a b := by
  induction p with
  | nil => rfl
  | cons s p ih => rw [List.cons_append, List.cons_append, shared_cons_self, ih, List.cons_append]

theorem shared_isPrefix (a b : List String) : shared a b <+: a := by
  fun_induction shared a b with
  | case1 as b bs ih => exact List.cons_prefix_cons.mpr ⟨rfl, ih⟩
  | case2 => exact List.nil_prefix
  | case3 => exact List.nil_prefix

theorem foldl_shared_isPrefix (a : List String) (bs : List (List String)) :
    bs.foldl shared a <+: a := by
  induction bs generalizing a with
  | nil => exact List.prefix_rfl
  | cons b bs ih => exact (ih (shared a b)).trans (shared_isPrefix a b)

/-! ## The directory of a path -/

theorem dropWhile_name {name : List Char} (hne : name ≠ []) (hname : '/' ∉ name)
    (rest : List Char) :
    ((name.reverse ++ rest).dropWhile (· == '/')).dropWhile (· != '/') =
      rest.dropWhile (· != '/') := by
  obtain ⟨front, last, rfl⟩ := (List.eq_nil_or_concat' name).resolve_left hne
  have hlast : last ≠ '/' := by
    rintro rfl
    exact hname (by simp)
  have hall : ∀ c ∈ (front ++ [last]).reverse, (c != '/') = true := by
    intro c hc
    rw [bne_iff_ne]
    rintro rfl
    exact hname (List.mem_reverse.mp hc)
  have hstop : ((front ++ [last]).reverse ++ rest).dropWhile (· == '/') =
      (front ++ [last]).reverse ++ rest := by
    rw [List.reverse_append, List.reverse_singleton, List.singleton_append, List.cons_append,
      List.dropWhile_cons_of_neg (by simpa using hlast)]
  rw [hstop, List.dropWhile_append_of_pos hall]

/-- The directory of a path with one name after the root. -/
theorem dirName_of_name {path : String} {name : List Char} (hne : name ≠ []) (hname : '/' ∉ name)
    (hpath : path.toList = '/' :: name) : dirName path = "/" := by
  have hback := dropWhile_name hne hname []
  rw [List.append_nil, List.dropWhile_nil] at hback
  rw [dirName, hpath]
  simp only [hback, if_true]

/-- The directory of a path with a name after another slash. -/
theorem dirName_of_slash {path : String} {before name : List Char} (hne : name ≠ [])
    (hname : '/' ∉ name) (hbefore : before ≠ [])
    (hpath : path.toList = '/' :: (before ++ '/' :: name)) :
    dirName path = String.ofList ('/' :: before) := by
  have hback := dropWhile_name hne hname ('/' :: before.reverse)
  rw [List.dropWhile_cons_of_neg (by simp)] at hback
  have hreverse : (before ++ '/' :: name).reverse = name.reverse ++ '/' :: before.reverse := by
    simp
  rw [dirName, hpath]
  simp only [hreverse, hback, List.reverse_eq_nil_iff, hbefore, and_false, if_false,
    List.reverse_reverse]

theorem toList_render (place : List String) :
    (render place).toList = '/' :: (Text.join "/" place).toList := by
  rw [render, String.toList_append]
  rfl

theorem toList_join_concat (hne : place ≠ []) (last : String) :
    (Text.join "/" (place ++ [last])).toList =
      (Text.join "/" place).toList ++ '/' :: last.toList := by
  rw [Text.join, String.intercalate_append_of_ne_nil hne (List.cons_ne_nil _ _),
    String.toList_append, String.toList_append]
  simp [Text.join]

theorem toList_join_ne_nil (h : IsPlace place) (hne : place ≠ []) :
    (Text.join "/" place).toList ≠ [] := by
  obtain ⟨front, last, rfl⟩ := (List.eq_nil_or_concat' place).resolve_left hne
  have hlast := (h last (by simp)).ne_empty
  by_cases hfront : front = []
  · subst hfront
    simpa [Text.join] using hlast
  · rw [toList_join_concat hfront]
    simp

/-- **Directories of normal forms.** The directory of the path to a place is the path to the
directory that the place is in. The root is in itself. -/
theorem dirName_render (h : IsPlace place) : dirName (render place) = render (parent place) := by
  by_cases hne : place = []
  · subst hne
    decide
  obtain ⟨front, last, rfl⟩ := (List.eq_nil_or_concat' place).resolve_left hne
  have hlast : IsName last := h last (by simp)
  have hchars : last.toList ≠ [] := by simpa using hlast.ne_empty
  rw [parent, List.dropLast_concat]
  by_cases hfront : front = []
  · subst hfront
    refine dirName_of_name hchars hlast.no_slash ?_
    rw [toList_render]
    simp [Text.join]
  · have hplace : IsPlace front := fun s hs => h s (List.mem_append_left _ hs)
    rw [dirName_of_slash hchars hlast.no_slash (toList_join_ne_nil hplace hfront),
      ← toList_render, String.ofList_toList]
    rw [toList_render, toList_join_concat hfront]

/-! ## The loop over the pieces -/

/-- The loop stops where the two lists differ or the length is reached. -/
theorem take_sharedFrom {first other : List String} {length position : Nat}
    (hposition : position ≤ length) (hlength : length ≤ first.length)
    (hsame : first.take position = other.take position) :
    first.take (sharedFrom first other length position) = shared (first.take length) other := by
  fun_induction sharedFrom first other length position with
  | case1 position hgo ih =>
    refine ih hgo.1 ?_
    rw [List.take_add_one, List.take_add_one, hsame, hgo.2]
  | case2 position hstop =>
    have hfirst : first.take length =
        first.take position ++ (first.take length).drop position := by
      conv_lhs => rw [← List.take_append_drop position (first.take length)]
      rw [List.take_take, Nat.min_eq_left hposition]
    have hother : other = first.take position ++ other.drop position := by
      rw [hsame, List.take_append_drop]
    -- past the position nothing is shared
    have hnone : shared ((first.take length).drop position) (other.drop position) = [] := by
      by_cases hend : position = length
      · subst hend
        rw [List.drop_eq_nil_of_le (List.length_take_le _ _), shared_nil_left]
      have hlt : position < length := by omega
      have hin : position < (first.take length).length := by
        rw [List.length_take]
        omega
      rw [List.drop_eq_getElem_cons hin]
      cases hrest : other.drop position with
      | nil => exact shared_nil_right _
      | cons t more =>
        apply shared_cons_of_ne
        rintro heq
        apply hstop
        refine ⟨hlt, ?_⟩
        have ht : other[position]? = some t := by
          rw [← List.head?_drop, hrest, List.head?_cons]
        rw [ht, ← heq, List.getElem_take, List.getElem?_eq_getElem]
    rw [hfirst, hother, shared_append, hnone, List.append_nil]

theorem sharedFrom_le {first other : List String} {length position : Nat}
    (hposition : position ≤ length) : sharedFrom first other length position ≤ length := by
  fun_induction sharedFrom first other length position with
  | case1 position hgo ih => exact ih hgo.1
  | case2 => exact hposition

/-- What is kept of the first list is what all lists begin with in common. -/
theorem take_foldl_sharedFrom {first : List String} {length : Nat} (hlength : length ≤ first.length)
    (rest : List (List String)) :
    first.take (rest.foldl (fun length other => sharedFrom first other length 0) length) =
      rest.foldl shared (first.take length) := by
  induction rest generalizing length with
  | nil => rfl
  | cons other rest ih =>
    have hle : sharedFrom first other length 0 ≤ length := sharedFrom_le (Nat.zero_le length)
    have hkept : first.take (sharedFrom first other length 0) = shared (first.take length) other :=
      take_sharedFrom (Nat.zero_le length) hlength rfl
    rw [List.foldl_cons, List.foldl_cons, ih (Nat.le_trans hle hlength), hkept]

/-! ## Places and the pieces that write them -/

/-- Pieces that write a place: an empty one and then its names. Two empty ones write the root. -/
def Writes (pieces place : List String) : Prop :=
  pieces = "" :: place ∨ (pieces = ["", ""] ∧ place = [])

theorem writes_split_render (h : IsPlace place) : Writes (Text.split '/' (render place)) place := by
  by_cases hne : place = []
  · subst hne
    exact .inr ⟨by decide, rfl⟩
  · left
    rw [split_render, Text.split_join hne fun s hs => (h s hs).no_slash]

/-- The second empty piece of the root begins no other place. -/
theorem shared_empty_name (h : IsPlace place) : shared [""] place = [] := by
  cases place with
  | nil => rfl
  | cons s place => exact shared_cons_of_ne (h s List.mem_cons_self).ne_empty.symm _ _

theorem shared_comm (a b : List String) : shared a b = shared b a := by
  fun_induction shared a b with
  | case1 as b bs ih => rw [shared_cons_self, ih]
  | case2 a as b bs hne => exact (shared_cons_of_ne (Ne.symm hne) bs as).symm
  | case3 as bs hnil =>
    cases bs with
    | nil => exact (shared_nil_left as).symm
    | cons b bs =>
      cases as with
      | nil => rfl
      | cons a as => exact absurd rfl (hnil a as b bs rfl)

/-- What two rows of pieces begin with in common writes what the places begin with in common. -/
theorem Writes.shared {pieces more : List String} (ha : IsPlace a) (hb : IsPlace b)
    (h : Writes pieces a) (h' : Writes more b) :
    Writes (Path.shared pieces more) (Path.shared a b) := by
  rcases h with rfl | ⟨rfl, rfl⟩ <;> rcases h' with rfl | ⟨rfl, rfl⟩
  · left
    rw [shared_cons_self]
  · left
    rw [shared_cons_self, shared_comm a [""], shared_empty_name ha, shared_nil_right]
  · left
    rw [shared_cons_self, shared_empty_name hb, shared_nil_left]
  · exact .inr ⟨by decide, rfl⟩

theorem IsPlace.shared (ha : IsPlace a) (b : List String) : IsPlace (Path.shared a b) :=
  fun s hs => ha s ((shared_isPrefix a b).subset hs)

theorem Writes.foldl_shared {pieces : List String} {places : List (List String)}
    (h : Writes pieces a) (ha : IsPlace a) (hplaces : ∀ p ∈ places, IsPlace p) :
    Writes ((places.map fun p => Text.split '/' (render p)).foldl Path.shared pieces)
      (places.foldl Path.shared a) := by
  induction places generalizing pieces a with
  | nil => exact h
  | cons b places ih =>
    rw [List.forall_mem_cons] at hplaces
    exact ih (h.shared ha hplaces.1 (writes_split_render hplaces.1)) (ha.shared b) hplaces.2

theorem isDrive_render (place : List String) : isDrive (render place) = false := by
  rw [isDrive, toList_render]
  split
  · rename_i c heq
    rw [← (List.cons.inj heq).1]
    rfl
  · rfl

/-- Joined, and with the slash of the root put back, pieces are the path to the place they write. -/
theorem Writes.render_eq {pieces : List String} (h : Writes pieces place) :
    (if Text.join "/" pieces = "" ∨ isDrive (Text.join "/" pieces) then Text.join "/" pieces ++ "/"
      else Text.join "/" pieces) = render place := by
  by_cases hbare : pieces = [""]
  · have hroot : place = [] := by
      rcases h with rfl | ⟨rfl, rfl⟩
      · exact (List.cons.inj hbare).2
      · rfl
    rw [hbare, hroot]
    decide
  · have hjoined : Text.join "/" pieces = render place := by
      rcases h with rfl | ⟨rfl, rfl⟩
      · have hne : place ≠ [] := fun hnil => hbare (by rw [hnil])
        rw [Text.join, ← List.singleton_append,
          String.intercalate_append_of_ne_nil (List.cons_ne_nil _ _) hne]
        rfl
      · rfl
    have hne : render place ≠ "" := by
      rw [← String.toList_inj.ne, toList_render]
      exact List.cons_ne_nil _ _
    rw [hjoined, isDrive_render, if_neg (by simp [hne])]

/-- **The deepest common directory** of files is the path to the meet of the places that the files
are in. -/
theorem commonDirectory_cons (host : Host) (file : String) (files : List String) :
    commonDirectory host (file :: files) =
      some (render ((files.map fun file => parent (segments host file)).foldl shared
        (parent (segments host file)))) := by
  have hparent (file : String) : IsPlace (parent (segments host file)) :=
    fun s hs => isPlace_segments host file s (List.dropLast_subset _ hs)
  have hpieces (file : String) : Text.split '/' (dirName (normalize host file)) =
      Text.split '/' (render (parent (segments host file))) := by
    rw [normalize, dirName_render (isPlace_segments host file)]
  have hplaces : ∀ p ∈ files.map fun file => parent (segments host file), IsPlace p :=
    List.forall_mem_map.mpr fun file _ => hparent file
  have hwrites := (writes_split_render (hparent file)).foldl_shared (hparent file) hplaces
  rw [List.map_map] at hwrites
  rw [commonDirectory]
  simp only [List.map_cons, hpieces]
  rw [take_foldl_sharedFrom (Nat.le_refl _), List.take_length]
  exact congrArg some hwrites.render_eq

end ClassCohesion.Path
