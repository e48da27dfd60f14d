import JassDecl.Proofs.WholeWords

/-! # The tokens of a normal form

To take away blanks and to make them single spaces leaves the words and operators of a line as they
are: its words are still the longest runs of word characters, and no other character is lost.
-/

namespace JassDecl

/-! ## Comments cut off -/

namespace Line

/-- Whether the second text is what stands in front of the first `//` of the first one, or all of it
if it has none. -/
inductive CutAtComment : Text → Text → Prop where
  | whole {t : Text} (h : ¬ ['/', '/'] <:+: t) : CutAtComment t t
  | front {t : Text} (h : ¬ ['/', '/'] <:+: t ++ ['/']) (rest : Text) :
      CutAtComment (t ++ '/' :: '/' :: rest) t

theorem beforeComment_append_comment {t : Text} (h : Text.NoPair '/' (t ++ ['/'])) (rest : Text) :
    beforeComment (t ++ '/' :: '/' :: rest) = t := by
  induction t with
  | nil => rfl
  | cons c t ih =>
      obtain ⟨hc, ht⟩ := Text.noPair_cons_iff.mp h
      rw [List.cons_append, beforeComment_cons, ih ht]
      cases t <;> exact hc

theorem cutAtComment_beforeComment (s : Text) : CutAtComment s (beforeComment s) := by
  fun_induction beforeComment s with
  | case1 => exact .whole (by simp)
  | case2 rest => exact .front (t := []) (by simp [List.infix_cons_iff]) rest
  | case3 c rest hslash ih =>
      have hhead := head?_ne_of_not_comment hslash
      generalize beforeComment rest = front at ih
      cases ih with
      | whole h => exact .whole (Text.noPair_cons_iff.mpr ⟨hhead, h⟩)
      | front h more =>
          refine .front (t := c :: front) (Text.noPair_cons_iff.mpr ⟨?_, h⟩) more
          cases front <;> exact hhead

theorem cutAtComment_iff {s t : Text} : CutAtComment s t ↔ t = beforeComment s := by
  constructor
  · intro h
    cases h with
    | whole h => exact (beforeComment_of_noPair h).symm
    | front h rest => exact (beforeComment_append_comment h rest).symm
  · rintro rfl
    exact cutAtComment_beforeComment s

end Line

namespace Token

open Line (Blanks)

/-! ## Runs of word characters -/

/-- The longest runs of word characters of a text, from left to right. -/
def runs (t : Text) : List Text :=
  (Text.splitWhere (!isWordChar ·) t).filter (!·.isEmpty)

theorem runs_eq (t : Text) : runs t = (t.splitOnP (!isWordChar ·)).filter (!·.isEmpty) := by
  rw [runs, Text.splitWhere_eq_splitOnP]

theorem runs_append_cons {c : Char} (hc : isWordChar c = false) (a b : Text) :
    runs (a ++ c :: b) = runs a ++ runs b := by
  rw [runs_eq, List.splitOnP_append_cons a b (by simpa using hc), List.filter_append, ← runs_eq,
    ← runs_eq]

theorem runs_cons {c : Char} (hc : isWordChar c = false) (t : Text) : runs (c :: t) = runs t :=
  runs_append_cons hc [] t

theorem runs_of_isWord {w : Text} (hw : IsWord w) : runs w = [w] := by
  rw [runs_eq, List.splitOnP_eq_singleton fun c hc => by simp [hw.2 c hc]]
  simp [hw.1]

theorem runs_blanks_append {r : Text} (hr : Blanks r) (t : Text) : runs (r ++ t) = runs t := by
  induction r with
  | nil => rfl
  | cons c r ih =>
      obtain ⟨hc, hr⟩ := Line.blanks_cons_iff.mp hr
      rw [List.cons_append, runs_cons (isWordChar_of_isBlank hc), ih hr]

theorem runs_word_append {w t : Text} (hw : IsWord w) (ht : Breaks t) :
    runs (w ++ t) = w :: runs t := by
  cases t with
  | nil => rw [List.append_nil, runs_of_isWord hw]; rfl
  | cons c t =>
      have hc : isWordChar c = false := ht c rfl
      rw [runs_append_cons hc, runs_of_isWord hw, runs_cons hc, List.singleton_append]

/-! ## Words and operators of a text -/

/-- Whether a character is an operator. -/
def isOperatorChar (c : Char) : Bool :=
  !Line.isBlank c && !isWordChar c

/-- The words of a text are its longest runs of word characters. -/
theorem words_lexemes (t : Text) :
    ((lexemes t).filter (·.1 = .word)).map Prod.snd = runs t := by
  induction t using lexemes_induction with
  | blanks t ht =>
      rw [lexemes_of_blanks ht, ← List.append_nil t, runs_blanks_append ht]
      rfl
  | word r w t hr hw ht ih =>
      rw [lexemes_blanks_append hr, lexemes_word_append hw ht, runs_blanks_append hr,
        runs_word_append hw ht, ← ih]
      rfl
  | operator r c t hr hb hc ih =>
      rw [lexemes_append_operator hb hc, lexemes_of_blanks hr, runs_blanks_append hr,
        runs_cons hc, ← ih]
      rfl

theorem filter_isOperatorChar_blanks {r : Text} (hr : Blanks r) : r.filter isOperatorChar = [] :=
  List.filter_eq_nil_iff.mpr fun c hc => by simp [isOperatorChar, hr c hc]

theorem filter_isOperatorChar_word {w : Text} (hw : IsWord w) : w.filter isOperatorChar = [] :=
  List.filter_eq_nil_iff.mpr fun c hc => by simp [isOperatorChar, hw.2 c hc]

/-- Every other character that is no blank is an operator of its own. -/
theorem operators_lexemes (t : Text) :
    ((lexemes t).filter (·.1 = .operator)).map Prod.snd =
      (t.filter isOperatorChar).map List.singleton := by
  induction t using lexemes_induction with
  | blanks t ht =>
      rw [lexemes_of_blanks ht, filter_isOperatorChar_blanks ht]
      rfl
  | word r w t hr hw ht ih =>
      rw [lexemes_blanks_append hr, lexemes_word_append hw ht, List.filter_append,
        List.filter_append, filter_isOperatorChar_blanks hr, filter_isOperatorChar_word hw]
      exact ih
  | operator r c t hr hb hc ih =>
      have hop : isOperatorChar c = true := by simp [isOperatorChar, hb, hc]
      rw [lexemes_append_operator hb hc, lexemes_of_blanks hr, List.nil_append,
        List.filter_append, filter_isOperatorChar_blanks hr, List.nil_append,
        List.filter_cons_of_pos hop, List.map_cons, ← ih]
      rfl

theorem map_text_filter_scan (kind : TokenKind) (t : Text) :
    ((scan t).filter (·.kind = kind)).map Token.text =
      ((lexemes t).filter (·.1 = kind)).map Prod.snd := by
  rw [lexemes, List.filter_map, List.map_map]
  rfl

/-! ## Normal forms -/

/-- What a line has of the tokens of a text: all of them, in the same order. So its words are the
longest runs of word characters of the text, and its operators are the other characters of the text
that are no blanks. -/
structure TokensKept (t line : Text) : Prop where
  lexemes : (scan line).map lexeme = (scan t).map lexeme
  words : ((scan line).filter (·.kind = .word)).map Token.text = runs t
  operators : ((scan line).filter (·.kind = .operator)).map Token.text =
    (t.filter isOperatorChar).map List.singleton

/-- The normal form of a raw line keeps the tokens of what stands in front of its comment. -/
theorem tokensKept_normal {raw t : Text} (h : Line.CutAtComment (raw.filter (· != '\r')) t) :
    TokensKept t (Line.normal raw) := by
  have hcode : t = Line.code raw := Line.cutAtComment_iff.mp h
  have hlexemes : Token.lexemes (Line.normal raw) = Token.lexemes t := by
    rw [hcode, Line.normal_eq_spaced, lexemes_spaced]
  refine ⟨hlexemes, ?_, ?_⟩
  · rw [map_text_filter_scan, hlexemes, words_lexemes]
  · rw [map_text_filter_scan, hlexemes, operators_lexemes]

/-- A no-break space, a slash in front of the comment, and a carriage return inside its marks. -/
theorem tokensKept_normal_slashes :
    let raw := "\t a\u00A0b\t  c /=/\r/ d".toList
    let t := "\t a\u00A0b\t  c /=".toList
    Line.CutAtComment (raw.filter (· != '\r')) t ∧ TokensKept t (Line.normal raw) ∧
      Line.normal raw = "a\u00A0b c /=".toList ∧
      runs t = ["a".toList, "b".toList, "c".toList] ∧
      t.filter isOperatorChar = ['\u00A0', '/', '='] := by
  intro raw t
  have hfirst : ¬ ['/', '/'] <:+: t ++ ['/'] := by
    rw [← Text.hasPart_iff]
    decide
  have hcut : Line.CutAtComment (raw.filter (· != '\r')) t := .front hfirst " d".toList
  exact ⟨hcut, tokensKept_normal hcut, by decide, by decide, by decide⟩

end Token

end JassDecl
