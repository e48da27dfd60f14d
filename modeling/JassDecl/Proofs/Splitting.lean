import JassDecl.Text

/-! # Texts cut at marks -/

namespace JassDecl.Text

/-! ## Pieces between marks -/

theorem splitWhere_eq_splitOnP (p : Char → Bool) (t : Text) :
    splitWhere p t = t.splitOnP p := by
  induction t with
  | nil => rfl
  | cons c t ih => rw [splitWhere, List.splitOnP_cons_eq_if_modifyHead, ih]

theorem splitOn_eq (mark : Char) (t : Text) : splitOn mark t = List.splitOn mark t :=
  splitWhere_eq_splitOnP _ t

/-- A text is free of marks, or a part free of marks, a mark and a rest. -/
@[elab_as_elim]
theorem marks_induction (p : Char → Bool) {motive : Text → Prop}
    (free : ∀ t, (∀ x ∈ t, p x = false) → motive t)
    (mark : ∀ a c b, (∀ x ∈ a, p x = false) → p c = true → motive b → motive (a ++ c :: b))
    (t : Text) : motive t := by
  -- The part before the first mark is collected in front of the text that is still to be read.
  suffices h : ∀ a, (∀ x ∈ a, p x = false) → motive (a ++ t) from h [] (by simp)
  induction t with
  | nil =>
      intro a ha
      simpa using free a ha
  | cons c t ih =>
      intro a ha
      by_cases hc : p c = true
      · exact mark a c t ha hc (ih [] (by simp))
      · have hac : ∀ x ∈ a ++ [c], p x = false := by
          intro x hx
          rcases List.mem_append.mp hx with hx | hx
          · exact ha x hx
          · rw [List.mem_singleton.mp hx]
            simpa using hc
        simpa using ih (a ++ [c]) hac

/-- No piece holds a mark. -/
theorem eq_false_of_mem_splitOnP (p : Char → Bool) (t : Text) :
    ∀ piece ∈ t.splitOnP p, ∀ x ∈ piece, p x = false := by
  induction t using marks_induction p with
  | free t ht => simpa [List.splitOnP_eq_singleton ht] using ht
  | mark a c b ha hc ih =>
      rw [List.splitOnP_append_cons_of_forall_mem ha c hc]
      intro piece hp
      rcases List.mem_cons.mp hp with rfl | hp
      · exact ha
      · exact ih piece hp

theorem notMem_of_mem_splitOn {mark : Char} {t piece : Text}
    (h : piece ∈ List.splitOn mark t) : mark ∉ piece := by
  intro hm
  have hf := eq_false_of_mem_splitOnP (· == mark) t piece h mark hm
  simp at hf

/-- There is one piece more than there are marks. -/
theorem length_splitOn (mark : Char) (t : Text) : (splitOn mark t).length = t.count mark + 1 := by
  rw [splitOn_eq, List.splitOn_eq_splitOnP]
  induction t using marks_induction (· == mark) with
  | free t ht =>
      have hm : mark ∉ t := fun hm => by simpa using ht _ hm
      rw [List.splitOnP_eq_singleton ht, List.count_eq_zero.mpr hm]
      rfl
  | mark a c b ha hc ih =>
      have hm : mark ∉ a := fun hm => by simpa using ha _ hm
      obtain rfl : c = mark := by simpa using hc
      rw [List.splitOnP_append_cons_of_forall_mem ha _ hc, List.length_cons, ih,
        List.count_append, List.count_eq_zero.mpr hm, List.count_cons_self]
      omega

/-- The pieces in a row are the text without its marks. -/
theorem flatten_splitOnP (p : Char → Bool) (t : Text) :
    (t.splitOnP p).flatten = t.filter (!p ·) := by
  induction t using marks_induction p with
  | free t ht =>
      have hall : t.filter (!p ·) = t := List.filter_eq_self.mpr fun x hx => by simp [ht x hx]
      rw [List.splitOnP_eq_singleton ht, List.flatten_singleton, hall]
  | mark a c b ha hc ih =>
      have hall : a.filter (!p ·) = a := List.filter_eq_self.mpr fun x hx => by simp [ha x hx]
      rw [List.splitOnP_append_cons_of_forall_mem ha c hc, List.flatten_cons, ih,
        List.filter_append, hall, List.filter_cons_of_neg (by simp [hc])]

/-- Every piece stands somewhere in the text. -/
theorem infix_of_mem_splitOnP (p : Char → Bool) (t : Text) :
    ∀ piece ∈ t.splitOnP p, piece <:+: t := by
  induction t using marks_induction p with
  | free t ht => simp [List.splitOnP_eq_singleton ht]
  | mark a c b ha hc ih =>
      rw [List.splitOnP_append_cons_of_forall_mem ha c hc]
      intro piece hp
      rcases List.mem_cons.mp hp with rfl | hp
      · exact (List.prefix_append _ _).isInfix
      · exact (ih piece hp).trans (List.suffix_append_of_suffix (List.suffix_cons c b)).isInfix

/-! ## Pieces of two texts side by side -/

/-- The last piece of the first text runs into the first piece of the second. -/
def glue {α : Type} : List (List α) → List (List α) → List (List α)
  | [], ys => ys
  | [x], ys => ys.modifyHead (x ++ ·)
  | x :: x' :: xs, ys => x :: glue (x' :: xs) ys

theorem glue_cons {α : Type} (x : List α) {xs : List (List α)} (hxs : xs ≠ [])
    (ys : List (List α)) : glue (x :: xs) ys = x :: glue xs ys := by
  obtain ⟨x', xs, rfl⟩ := List.exists_cons_of_ne_nil hxs
  rfl

@[simp] theorem glue_nil_left {α : Type} (ys : List (List α)) : glue [[]] ys = ys := by
  cases ys <;> rfl

theorem glue_nil_right {α : Type} {xs : List (List α)} (hxs : xs ≠ []) : glue xs [[]] = xs := by
  induction xs with
  | nil => exact absurd rfl hxs
  | cons x xs ih =>
      cases xs with
      | nil => simp [glue]
      | cons x' xs => rw [glue, ih (by simp)]

theorem glue_modifyHead {α : Type} (a : α) {xs : List (List α)} (hxs : xs ≠ [])
    (ys : List (List α)) :
    glue (xs.modifyHead (a :: ·)) ys = (glue xs ys).modifyHead (a :: ·) := by
  obtain ⟨x, xs, rfl⟩ := List.exists_cons_of_ne_nil hxs
  cases xs with
  | nil => cases ys <;> rfl
  | cons x' xs => rfl

theorem splitOnP_append (p : Char → Bool) (a b : Text) :
    (a ++ b).splitOnP p = glue (a.splitOnP p) (b.splitOnP p) := by
  induction a with
  | nil => simp
  | cons c a ih =>
      have hne : a.splitOnP p ≠ [] := List.splitOnP_ne_nil p a
      rw [List.cons_append, List.splitOnP_cons_eq_if_modifyHead,
        List.splitOnP_cons_eq_if_modifyHead, ih]
      split
      · rw [glue_cons [] hne]
      · rw [glue_modifyHead c hne]

/-! ## Joined texts -/

theorem mem_of_mem_intercalate {c : Char} {mark : Text} {ts : List Text}
    (h : c ∈ List.intercalate mark ts) : c ∈ mark ∨ ∃ t ∈ ts, c ∈ t := by
  induction ts with
  | nil => simp at h
  | cons t ts ih =>
      cases ts with
      | nil => exact Or.inr ⟨t, by simp, by simpa using h⟩
      | cons t' ts =>
          rw [List.intercalate_cons_cons, List.append_assoc, List.mem_append, List.mem_append] at h
          rcases h with h | h | h
          · exact Or.inr ⟨t, by simp, h⟩
          · exact Or.inl h
          · rcases ih h with h | ⟨u, hu, h⟩
            · exact Or.inl h
            · exact Or.inr ⟨u, by simp [hu], h⟩

theorem intercalate_cons (mark t : Text) (ts : List Text) :
    List.intercalate mark (t :: ts) = t ++ ts.flatMap (mark ++ ·) := by
  induction ts generalizing t with
  | nil => simp
  | cons u ts ih => rw [List.intercalate_cons_cons, ih u, List.flatMap_cons, List.append_assoc,
      List.append_assoc]

/-- If a filter takes the mark away, it takes every mark away. -/
theorem filter_intercalate {p : Char → Bool} {mark : Text} (hmark : mark.filter p = [])
    (ts : List Text) : (List.intercalate mark ts).filter p = ts.flatMap (·.filter p) := by
  cases ts with
  | nil => rfl
  | cons t ts =>
      rw [intercalate_cons, List.filter_append, List.filter_flatMap, List.flatMap_cons]
      simp only [List.filter_append, hmark, List.nil_append]

/-! ## Parts -/

theorem hasPart_iff {part t : Text} : hasPart part t = true ↔ part <:+: t := by
  induction t with
  | nil => rw [hasPart, List.isEmpty_iff, List.infix_nil]
  | cons c t ih =>
      rw [hasPart, Bool.or_eq_true, List.isPrefixOf_iff_prefix, ih, List.infix_cons_iff]

/-! ## Slices -/

theorem slice_append (a b c : Text) : slice a.length (a.length + b.length) (a ++ b ++ c) = b := by
  rw [slice, ← List.length_append, List.take_left, List.drop_left]

/-! ## Lines -/

theorem lines_append (a b : Text) : lines (a ++ '\n' :: b) = lines a ++ lines b := by
  simp only [lines, splitOn_eq]
  exact List.splitOn_append_cons_self a b

/-- There is one line more than there are line feeds. -/
theorem length_lines (t : Text) : (lines t).length = t.count '\n' + 1 :=
  length_splitOn '\n' t

theorem newline_notMem_of_mem_lines {t line : Text} (h : line ∈ lines t) : '\n' ∉ line := by
  rw [lines, splitOn_eq] at h
  exact notMem_of_mem_splitOn h

theorem subset_of_mem_lines {t line : Text} (h : line ∈ lines t) : line ⊆ t := by
  rw [lines, splitOn_eq] at h
  exact (infix_of_mem_splitOnP _ t line h).subset

theorem lines_intercalate {ls : List Text} (h : ∀ l ∈ ls, '\n' ∉ l) (hne : ls ≠ []) :
    lines (List.intercalate ['\n'] ls) = ls := by
  rw [lines, splitOn_eq, List.splitOn_intercalate '\n' h hne]

theorem lines_of_newline_notMem {line : Text} (h : '\n' ∉ line) : lines line = [line] := by
  rw [lines, splitOn_eq, List.splitOn_eq_singleton h]

theorem unlines_cons (l : Text) (ls : List Text) : unlines (l :: ls) = l ++ '\n' :: unlines ls := by
  simp [unlines]

theorem unlines_append (ls ms : List Text) : unlines (ls ++ ms) = unlines ls ++ unlines ms :=
  List.flatMap_append

/-- After the last line feed comes one empty line. -/
theorem lines_unlines {ls : List Text} (h : ∀ l ∈ ls, '\n' ∉ l) :
    lines (unlines ls) = ls ++ [[]] := by
  induction ls with
  | nil => rfl
  | cons l ls ih =>
      rw [unlines_cons, lines_append, lines_of_newline_notMem (h l (by simp)),
        ih fun x hx => h x (by simp [hx])]
      rfl

/-! ## Byte-order marks -/

theorem dropMark_of_head?_ne {t : Text} (h : t.head? ≠ some '\uFEFF') : dropMark t = t := by
  unfold dropMark
  split
  · simp at h
  · rfl

theorem dropMark_mark_cons (t : Text) : dropMark ('\uFEFF' :: t) = t :=
  rfl

/-- A text without its mark comes from the text with a mark in front, or from itself if no mark
stands in front of it. -/
theorem dropMark_eq_iff {s t : Text} :
    dropMark s = t ↔ s = '\uFEFF' :: t ∨ (s = t ∧ t.head? ≠ some '\uFEFF') := by
  by_cases hmark : s.head? = some '\uFEFF'
  · obtain ⟨rest, rfl⟩ := List.head?_eq_some_iff.mp hmark
    rw [dropMark_mark_cons, List.cons.injEq]
    constructor
    · rintro rfl
      exact .inl ⟨rfl, rfl⟩
    · rintro (⟨-, h⟩ | ⟨rfl, h⟩)
      · exact h
      · exact absurd rfl h
  · rw [dropMark_of_head?_ne hmark]
    constructor
    · rintro rfl
      exact .inr ⟨rfl, hmark⟩
    · rintro (rfl | ⟨h, -⟩)
      · exact absurd rfl hmark
      · exact h

theorem dropMark_append (a b : Text) : dropMark (a ++ '\n' :: b) = dropMark a ++ '\n' :: b := by
  cases a with
  | nil => rfl
  | cons c a =>
      by_cases hc : c = '\uFEFF'
      · rw [hc]
        rfl
      · rw [dropMark_of_head?_ne (by simpa using hc), dropMark_of_head?_ne (by simpa using hc)]

theorem count_dropMark (t : Text) : (dropMark t).count '\n' = t.count '\n' := by
  unfold dropMark
  split <;> simp

end JassDecl.Text
