import JassDecl.Proofs.Segmentation
import Mathlib.Data.List.Sort
import Mathlib.Order.Bounds.Basic

/-! # Keywords in a line

A keyword is found exactly where it stands in the line with no word character on either side. All
these occurrences are found, from left to right.
-/

namespace JassDecl.Token

/-! ## Columns of occurrences -/

/-- Whether a word stands in a text from a column on, with no word character on either side. -/
def OccursAt (w t : Text) (column : Nat) : Prop :=
  Text.slice column (column + w.length) t = w ∧ StandsAlone t column (column + w.length)

instance (w t : Text) (column : Nat) : Decidable (OccursAt w t column) :=
  inferInstanceAs (Decidable (_ ∧ _))

theorem OccursAt.lt_length {w t : Text} (hne : w ≠ []) {column : Nat} (h : OccursAt w t column) :
    column < t.length := by
  obtain ⟨c, w, rfl⟩ := List.exists_cons_of_ne_nil hne
  have hmem : c ∈ Text.slice column (column + (c :: w).length) t := by
    rw [h.1]
    exact List.mem_cons_self
  obtain ⟨later, hle, -, hlater⟩ := Text.mem_slice_iff.mp hmem
  exact hle.trans_lt (List.getElem?_eq_some_iff.mp hlater).1

/-- A word occurs in a column of a line exactly if it is a token there. -/
theorem occursAt_iff_mem_scan {w line : Text} (hw : IsWord w) {column : Nat} :
    OccursAt w line column ↔ ⟨.word, w, column⟩ ∈ scan line := by
  constructor
  · intro h
    have hlength : (line.take column).length = column :=
      List.length_take_of_le (h.lt_length hw.1).le
    have hcut : line = line.take column ++ (w ++ line.drop (column + w.length)) := by
      conv_lhs => rw [← List.take_append_drop column line,
        ← Text.slice_append_drop (Nat.le_add_right column w.length), h.1]
    rw [hcut, scan, scanFrom_append 0 (apart_of_getLast? h.2.1), Nat.zero_add, hlength,
      scanFrom_word_append hw h.2.2]
    exact List.mem_append_right _ List.mem_cons_self
  · intro h
    have hfits := (segmentation_scan line).fits _ (List.mem_map_of_mem h)
    exact ⟨hfits.text, (hfits.word rfl).2⟩

theorem isKeyword_iff_eq {keyword : Text} {t : Token} :
    isKeyword keyword t = true ↔ t = ⟨.word, keyword, t.start⟩ := by
  obtain ⟨kind, text, start⟩ := t
  simp [isKeyword, isWord]

theorem mem_map_start_iff {keyword line : Text} {column : Nat} :
    column ∈ ((scan line).filter (isKeyword keyword)).map start ↔
      ⟨.word, keyword, column⟩ ∈ scan line := by
  simp only [List.mem_map, List.mem_filter, isKeyword_iff_eq]
  constructor
  · rintro ⟨t, ⟨ht, heq⟩, rfl⟩
    exact heq ▸ ht
  · intro h
    exact ⟨_, ⟨h, rfl⟩, rfl⟩

/-- The tokens that are a keyword stand in the columns in which it occurs. -/
theorem map_start_filter_scan {keyword : Text} (hk : IsWord keyword) (line : Text) :
    ((scan line).filter (isKeyword keyword)).map start =
      (List.range line.length).filter (OccursAt keyword line ·) := by
  have hscan : (((scan line).filter (isKeyword keyword)).map start).Pairwise (· < ·) :=
    (pairwise_start_scan line).sublist ((List.filter_sublist).map start)
  refine hscan.eq_of_mem_iff (List.pairwise_lt_range.filter _) fun column => ?_
  rw [mem_map_start_iff, ← occursAt_iff_mem_scan hk, List.mem_filter, List.mem_range,
    decide_eq_true_eq]
  exact ⟨fun h => ⟨h.lt_length hk.1, h⟩, fun h => h.2⟩

/-! ## Positions of keywords -/

/-- Whether the token at a position is the word `keyword`. -/
def KeywordAt (keyword : Text) (tokens : List Token) (position : Nat) : Prop :=
  ∃ t ∈ tokens[position]?, t.kind = .word ∧ t.text = keyword

instance (keyword : Text) (tokens : List Token) (position : Nat) :
    Decidable (KeywordAt keyword tokens position) :=
  inferInstanceAs (Decidable (∃ t ∈ tokens[position]?, _))

variable {keyword : Text} {tokens : List Token}

theorem keywordAt_iff {position : Nat} : KeywordAt keyword tokens position ↔
    ∃ h : position < tokens.length, isKeyword keyword tokens[position] = true := by
  simp only [KeywordAt, isKeyword_iff, lexeme, Prod.mk.injEq, Option.mem_def]
  constructor
  · intro h
    obtain ⟨t, ht, hkeyword⟩ := h
    obtain ⟨hposition, rfl⟩ := List.getElem?_eq_some_iff.mp ht
    exact ⟨hposition, hkeyword⟩
  · intro h
    obtain ⟨hposition, hkeyword⟩ := h
    exact ⟨_, List.getElem?_eq_getElem hposition, hkeyword⟩

theorem keywordAt_drop_iff {start position : Nat} :
    KeywordAt keyword (tokens.drop start) position ↔
      KeywordAt keyword tokens (start + position) := by
  rw [KeywordAt, List.getElem?_drop, KeywordAt]

/-- There are as many positions of a keyword as there are tokens that are this keyword. -/
theorem filter_range_keywordAt :
    (List.range tokens.length).filter (KeywordAt keyword tokens ·) =
      tokens.findIdxs (isKeyword keyword) := by
  refine (List.pairwise_lt_range.filter _).eq_of_mem_iff List.pairwise_findIdxs fun position => ?_
  rw [List.mem_filter, List.mem_range, decide_eq_true_eq, keywordAt_iff,
    List.mem_findIdxs_iff_exists_getElem_pos]
  exact ⟨fun h => h.2, fun h => ⟨h.1, h⟩⟩

theorem findIdx?_isKeyword_eq_some_iff {position : Nat} :
    tokens.findIdx? (isKeyword keyword) = some position ↔
      KeywordAt keyword tokens position ∧ ∀ i < position, ¬ KeywordAt keyword tokens i := by
  rw [List.findIdx?_eq_some_iff_getElem]
  simp only [keywordAt_iff, not_exists]
  constructor
  · intro ⟨hposition, hkeyword, hfirst⟩
    exact ⟨⟨hposition, hkeyword⟩, fun i hi _ => hfirst i hi⟩
  · intro ⟨⟨hposition, hkeyword⟩, hfirst⟩
    exact ⟨hposition, hkeyword, fun i hi => hfirst i hi (hi.trans hposition)⟩

theorem findIdx?_isKeyword_eq_none_iff :
    tokens.findIdx? (isKeyword keyword) = none ↔ ∀ i, ¬ KeywordAt keyword tokens i := by
  rw [List.findIdx?_eq_none_iff, List.forall_mem_iff_forall_getElem]
  simp only [keywordAt_iff, not_exists, Bool.not_eq_true]

/-- The search finds the first position from `start` on. -/
theorem findKeyword?_eq_some_iff {start position : Nat} :
    findKeyword? keyword start tokens = some position ↔
      IsLeast {i | start ≤ i ∧ KeywordAt keyword tokens i} position := by
  simp only [findKeyword?, Option.map_eq_some_iff, findIdx?_isKeyword_eq_some_iff,
    keywordAt_drop_iff]
  constructor
  · rintro ⟨i, ⟨hkeyword, hfirst⟩, rfl⟩
    rw [Nat.add_comm] at hkeyword
    refine ⟨⟨Nat.le_add_left _ _, hkeyword⟩, fun j ⟨hj, hkeyword⟩ => ?_⟩
    by_contra hlt
    refine hfirst (j - start) (by omega) ?_
    rwa [Nat.add_sub_cancel' hj]
  · intro ⟨⟨hstart, hkeyword⟩, hleast⟩
    refine ⟨position - start, ⟨?_, fun i hi hkeyword => ?_⟩, Nat.sub_add_cancel hstart⟩
    · rwa [Nat.add_sub_cancel' hstart]
    · have hle := hleast ⟨Nat.le_add_right _ _, hkeyword⟩
      omega

theorem findKeyword?_eq_none_iff {start : Nat} :
    findKeyword? keyword start tokens = none ↔
      ∀ position, start ≤ position → ¬ KeywordAt keyword tokens position := by
  rw [findKeyword?, Option.map_eq_none_iff, findIdx?_isKeyword_eq_none_iff]
  simp only [keywordAt_drop_iff]
  constructor
  · intro h position hstart
    have hnone := h (position - start)
    rwa [Nat.add_sub_cancel' hstart] at hnone
  · intro h i
    exact h (start + i) (Nat.le_add_right _ _)

/-! ## The search -/

/-- What the search for a keyword finds in a line. -/
structure SearchSpec (keyword line : Text) : Prop where
  has : hasKeyword keyword (scan line) = true ↔ ∃ column, OccursAt keyword line column
  first : ∀ start position, findKeyword? keyword start (scan line) = some position ↔
    IsLeast {i | start ≤ i ∧ KeywordAt keyword (scan line) i} position
  absent : ∀ start, findKeyword? keyword start (scan line) = none ↔
    ∀ position, start ≤ position → ¬ KeywordAt keyword (scan line) position
  /-- Each occurrence is one token, and none is met twice. -/
  columns : ((scan line).filter (isKeyword keyword)).map start =
    (List.range line.length).filter (OccursAt keyword line ·)
  count : ((List.range (scan line).length).filter (KeywordAt keyword (scan line) ·)).length =
    ((List.range line.length).filter (OccursAt keyword line ·)).length

theorem searchSpec_scan {keyword : Text} (hk : IsWord keyword) (line : Text) :
    SearchSpec keyword line where
  has := by
    simp only [hasKeyword, List.any_eq_true, occursAt_iff_mem_scan hk, ← mem_map_start_iff,
      List.mem_map, List.mem_filter]
    constructor
    · rintro ⟨t, ht, hkeyword⟩
      exact ⟨t.start, t, ⟨ht, hkeyword⟩, rfl⟩
    · rintro ⟨column, t, ht, -⟩
      exact ⟨t, ht⟩
  first := fun _ _ => findKeyword?_eq_some_iff
  absent := fun _ => findKeyword?_eq_none_iff
  columns := map_start_filter_scan hk line
  count := by
    rw [filter_range_keywordAt, List.length_findIdxs, ← map_start_filter_scan hk, List.length_map,
      List.countP_eq_length_filter]

/-- Overlaps inside a longer word are no occurrences, and a letter that is not ASCII ends a word. -/
theorem searchSpec_scan_overlaps :
    let keyword := "aba".toList
    let line := "aba,ababa aba\u00E9_aba".toList
    IsWord keyword ∧ SearchSpec keyword line ∧
      (∃ column, OccursAt keyword line column) ∧
      ((List.range (scan line).length).filter (KeywordAt keyword (scan line) ·)).length = 2 ∧
      IsLeast {i | 1 ≤ i ∧ KeywordAt keyword (scan line) i} 3 := by
  intro keyword line
  have hk : IsWord keyword := by decide
  have h := searchSpec_scan hk line
  refine ⟨hk, h, h.has.mp (by decide), ?_, (h.first 1 3).mp (by decide)⟩
  rw [h.count, ← h.columns]
  decide

end JassDecl.Token
