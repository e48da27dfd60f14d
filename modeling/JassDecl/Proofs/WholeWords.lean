import JassDecl.Proofs.Layout
import JassDecl.Proofs.Lexemes

/-! # Tokens where they stand in a text

A text is read from its front: blanks, then a word or an operator, then what is left. A word stands
in a text as a token exactly where no word character stands on either side of it.
-/

namespace JassDecl.Token

open Line (Blanks Gap blanks_cons_iff)

/-! ## The first token -/

/-- Whether a text does not go on with the word in front of it. -/
def Breaks (t : Text) : Prop :=
  ∀ c ∈ t.head?, isWordChar c = false

-- The check looks at the first character, and not at all characters.
instance (t : Text) : Decidable (Breaks t) :=
  Option.decidableForallMem t.head?

theorem Breaks.append {s : Text} (hs : Breaks s) (hne : s ≠ []) (t : Text) : Breaks (s ++ t) := by
  obtain ⟨c, s, rfl⟩ := List.exists_cons_of_ne_nil hne
  exact hs

theorem Breaks.of_gap {r : Text} (hr : Gap r) (t : Text) : Breaks (r ++ t) :=
  .append (fun c hc => isWordChar_of_isBlank (hr.2 c (List.mem_of_mem_head? hc))) hr.1 t

theorem Breaks.of_append {s t : Text} (h : Breaks (s ++ t)) : Breaks s := by
  cases s with
  | nil => simp [Breaks]
  | cons c s => exact h

theorem Breaks.append_breaks {s t : Text} (hs : Breaks s) (ht : Breaks t) : Breaks (s ++ t) := by
  by_cases hne : s = []
  · rwa [hne]
  · exact hs.append hne t

theorem Breaks.of_blanks {s : Text} (hs : Blanks s) : Breaks s :=
  fun c hc => isWordChar_of_isBlank (hs c (List.mem_of_mem_head? hc))

theorem not_breaks_of_isWord {w : Text} (hw : IsWord w) (t : Text) : ¬ Breaks (w ++ t) := by
  obtain ⟨c, w, rfl⟩ := List.exists_cons_of_ne_nil hw.1
  intro h
  have hc : isWordChar c = false := h c rfl
  rw [hw.2 c List.mem_cons_self] at hc
  exact absurd hc (by decide)

/-- A word stands at the front of no text that breaks off a word. -/
theorem word_append_ne {w t : Text} (hw : IsWord w) (ht : Breaks t) (s : Text) : w ++ s ≠ t :=
  fun h => not_breaks_of_isWord hw s (h ▸ ht)

theorem lexemes_blanks_append {r : Text} (hr : Blanks r) (t : Text) :
    lexemes (r ++ t) = lexemes t := by
  induction r with
  | nil => rfl
  | cons c r ih =>
      obtain ⟨hc, hr⟩ := blanks_cons_iff.mp hr
      rw [List.cons_append, lexemes_cons_blank hc, ih hr]

theorem lexemes_of_blanks {t : Text} (ht : Blanks t) : lexemes t = [] := by
  rw [← List.append_nil t, lexemes_blanks_append ht, lexemes_nil]

theorem lexemes_word_append {w t : Text} (hw : IsWord w) (ht : Breaks t) :
    lexemes (w ++ t) = (.word, w) :: lexemes t := by
  rw [lexemes_append (apart_of_head? ht), lexemes_of_isWord hw]
  rfl

/-- A word at the front of a text can be read from it. -/
theorem word_append_inj {v w s t : Text} (hv : IsWord v) (hw : IsWord w) (hs : Breaks s)
    (ht : Breaks t) (h : v ++ s = w ++ t) : v = w ∧ s = t := by
  have hlexemes := congrArg lexemes h
  rw [lexemes_word_append hv hs, lexemes_word_append hw ht] at hlexemes
  obtain rfl : v = w := congrArg Prod.snd (List.cons.inj hlexemes).1
  exact ⟨rfl, List.append_cancel_left h⟩

/-- A text is made of blanks, or starts with blanks and a word or an operator. -/
@[elab_as_elim]
theorem lexemes_induction {motive : Text → Prop}
    (blanks : ∀ t, Blanks t → motive t)
    (word : ∀ r w t, Blanks r → IsWord w → Breaks t → motive t → motive (r ++ (w ++ t)))
    (operator : ∀ r c t, Blanks r → Line.isBlank c = false → isWordChar c = false → motive t →
      motive (r ++ c :: t))
    (t : Text) : motive t := by
  -- Blanks are collected in `r`, in front of the text that is still to be read.
  suffices h : ∀ n (t : Text), t.length ≤ n → ∀ r, Blanks r → motive (r ++ t) from
    h t.length t le_rfl [] Line.blanks_nil
  intro n
  induction n with
  | zero =>
      intro t ht r hr
      obtain rfl : t = [] := List.length_eq_zero_iff.mp (Nat.le_zero.mp ht)
      rw [List.append_nil]
      exact blanks r hr
  | succ n ih =>
      intro t ht r hr
      cases t with
      | nil =>
          rw [List.append_nil]
          exact blanks r hr
      | cons c t =>
          have hlength : t.length ≤ n := Nat.le_of_succ_le_succ ht
          rcases char_cases c with hc | hc | ⟨hb, hw⟩
          · have hrc : Blanks (r ++ [c]) := by
              intro x hx
              rcases List.mem_append.mp hx with hx | hx
              · exact hr x hx
              · rwa [List.mem_singleton.mp hx]
            simpa using ih t hlength (r ++ [c]) hrc
          · have hcut : c :: t = (c :: t.takeWhile isWordChar) ++ t.dropWhile isWordChar := by
              rw [List.cons_append, List.takeWhile_append_dropWhile]
            have hword : IsWord (c :: t.takeWhile isWordChar) := by
              refine ⟨List.cons_ne_nil _ _, fun x hx => ?_⟩
              rcases List.mem_cons.mp hx with rfl | hx
              · exact hc
              · exact List.mem_takeWhile_imp hx
            have hbreaks : Breaks (t.dropWhile isWordChar) := by
              intro x hx
              have hhead := List.head?_dropWhile_not isWordChar t
              rw [hx] at hhead
              simpa using hhead
            rw [hcut]
            refine word r _ _ hr hword hbreaks ?_
            exact ih _ ((List.dropWhile_suffix _).length_le.trans hlength) [] Line.blanks_nil
          · exact operator r c t hr hb hw (ih t hlength [] Line.blanks_nil)

theorem lexemes_eq_nil_iff {t : Text} : lexemes t = [] ↔ Blanks t := by
  refine ⟨fun h => ?_, lexemes_of_blanks⟩
  induction t using lexemes_induction with
  | blanks t ht => exact ht
  | word r w t hr hw ht _ =>
      rw [lexemes_blanks_append hr, lexemes_word_append hw ht] at h
      exact absurd h (List.cons_ne_nil _ _)
  | operator r c t hr hb hc _ =>
      rw [lexemes_append_operator hb hc] at h
      exact absurd h (by simp)

/-- A text whose first token is a word. -/
theorem lexemes_eq_word_cons_iff {t w : Text} {ls : List (TokenKind × Text)} :
    lexemes t = (.word, w) :: ls ↔
      ∃ r rest, t = r ++ (w ++ rest) ∧ Blanks r ∧ IsWord w ∧ Breaks rest ∧ lexemes rest = ls := by
  constructor
  · intro h
    induction t using lexemes_induction with
    | blanks t ht =>
        rw [lexemes_of_blanks ht] at h
        exact absurd h.symm (List.cons_ne_nil _ _)
    | word r v t hr hv ht _ =>
        rw [lexemes_blanks_append hr, lexemes_word_append hv ht] at h
        obtain ⟨hvw, hls⟩ := List.cons.inj h
        obtain rfl : v = w := congrArg Prod.snd hvw
        exact ⟨r, t, rfl, hr, hv, ht, hls⟩
    | operator r c t hr hb hc _ =>
        rw [lexemes_append_operator hb hc, lexemes_of_blanks hr] at h
        exact absurd (congrArg Prod.fst (List.cons.inj h).1) (by simp)
  · rintro ⟨r, rest, rfl, hr, hw, hrest, rfl⟩
    rw [lexemes_blanks_append hr, lexemes_word_append hw hrest]

/-- Behind another word, a gap comes first. -/
theorem lexemes_eq_word_cons_iff_of_breaks {t w : Text} {ls : List (TokenKind × Text)}
    (ht : Breaks t) : lexemes t = (.word, w) :: ls ↔
      ∃ r rest, t = r ++ (w ++ rest) ∧ Gap r ∧ IsWord w ∧ Breaks rest ∧ lexemes rest = ls := by
  rw [lexemes_eq_word_cons_iff]
  refine exists_congr fun r => exists_congr fun rest => and_congr_right fun hcut => ?_
  refine and_congr_left fun hrest => ?_
  refine ⟨fun hr => ⟨fun hnil => ?_, hr⟩, fun hr => hr.2⟩
  rw [hcut, hnil] at ht
  exact not_breaks_of_isWord hrest.1 rest ht

/-- Blanks are all that stands behind the last word. -/
theorem lexemes_eq_word_iff_of_breaks {t w : Text} (ht : Breaks t) :
    lexemes t = [(.word, w)] ↔ ∃ r s, t = r ++ (w ++ s) ∧ Gap r ∧ IsWord w ∧ Blanks s := by
  rw [lexemes_eq_word_cons_iff_of_breaks ht]
  constructor
  · rintro ⟨r, s, ht, hr, hw, -, hs⟩
    exact ⟨r, s, ht, hr, hw, lexemes_eq_nil_iff.mp hs⟩
  · rintro ⟨r, s, ht, hr, hw, hs⟩
    exact ⟨r, s, ht, hr, hw, .of_blanks hs, lexemes_eq_nil_iff.mpr hs⟩

/-! ## Whole words on characters -/

/-- Whether the word stands somewhere in the text with no word character on either side. -/
def Occurs (w t : Text) : Prop :=
  ∃ a b, t = a ++ w ++ b ∧ (∀ c ∈ a.getLast?, isWordChar c = false) ∧ Breaks b

theorem Occurs.append_left {w t : Text} (hw : IsWord w) (h : Occurs w t) {s : Text}
    (hs : (∀ c ∈ s.getLast?, isWordChar c = false) ∨ Breaks t) : Occurs w (s ++ t) := by
  obtain ⟨a, b, rfl, ha, hb⟩ := h
  refine ⟨s ++ a, b, by simp, fun c hc => ?_, hb⟩
  cases a with
  | nil =>
      rcases hs with hs | ht
      · exact hs c (by simpa using hc)
      · exact absurd ht (by simpa using not_breaks_of_isWord hw b)
  | cons x a =>
      rw [List.getLast?_append_cons] at hc
      exact ha c hc

/-- The words of a text are the runs of word characters that cannot be made longer. -/
theorem hasWord_iff_occurs {w t : Text} (hw : IsWord w) : HasWord w t ↔ Occurs w t := by
  constructor
  · intro h
    induction t using lexemes_induction with
    | blanks t ht =>
        rw [HasWord, lexemes_of_blanks ht] at h
        simp at h
    | word r v t hr hv ht ih =>
        have hr' : ∀ c ∈ r.getLast?, isWordChar c = false := fun c hc =>
          isWordChar_of_isBlank (hr c (List.mem_of_getLast? hc))
        rw [HasWord, lexemes_blanks_append hr, lexemes_word_append hv ht, List.mem_cons] at h
        rcases h with h | h
        · obtain rfl : w = v := congrArg Prod.snd h
          exact ⟨r, t, by simp, hr', ht⟩
        · rw [← List.append_assoc]
          exact (ih h).append_left hw (Or.inr ht)
    | operator r c t hr hb hc ih =>
        rw [HasWord, lexemes_append_operator hb hc, lexemes_of_blanks hr, List.nil_append,
          List.mem_cons] at h
        rcases h with h | h
        · exact absurd (congrArg Prod.fst h) (by simp)
        · rw [← List.singleton_append, ← List.append_assoc]
          refine (ih h).append_left hw (Or.inl fun x hx => ?_)
          obtain rfl : c = x := by simpa using hx
          exact hc
  · rintro ⟨a, b, rfl, ha, hb⟩
    rw [List.append_assoc, HasWord, lexemes_append (apart_of_getLast? ha),
      lexemes_word_append hw hb]
    exact List.mem_append_right _ List.mem_cons_self

end JassDecl.Token
