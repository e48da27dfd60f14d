import JassDecl.Proofs.Lexemes

/-! # Texts that fit in a line

A line ends at a line feed, and what is read of it at a comment. Outside a block of globals a line
with the word `globals` declares nothing, and inside one neither does a line with `endglobals`.
-/

namespace JassDecl.Token

/-! ## Fitting texts -/

/-- A text that does not end the line or the part that is read, and is without the word `keyword`. -/
structure Fits (keyword t : Text) : Prop where
  plain : Line.Plain t
  noNewline : '\n' ∉ t
  noKeyword : ¬ HasWord keyword t

theorem Fits.of_isInfix {keyword s t : Text} (h : Fits keyword t) (hs : s <:+: t)
    (hk : ¬ HasWord keyword s) : Fits keyword s :=
  ⟨h.plain.of_isInfix hs, fun hm => h.noNewline (hs.subset hm), hk⟩

/-- What stands in front of a token and behind it fits as well. -/
theorem Fits.of_scanFrom {keyword a b : Text} {tok : Token} {n : Nat}
    (h : Fits keyword (a ++ tok.text ++ b)) (hscan : scanFrom n (a ++ tok.text ++ b) =
      scanFrom n a ++ tok :: scanFrom tok.stop b) : Fits keyword a ∧ Fits keyword b := by
  have hk := h.noKeyword
  rw [hasWord_iff_of_scanFrom hscan, not_or, not_or] at hk
  exact ⟨h.of_isInfix ⟨[], tok.text ++ b, by simp⟩ hk.1,
    h.of_isInfix ⟨a ++ tok.text, [], by simp⟩ hk.2.2⟩

theorem fits_nil (keyword : Text) : Fits keyword [] :=
  ⟨Line.plain_nil, by simp, not_hasWord_nil keyword⟩

/-! ## Names -/

/-- A word other than `keyword`. -/
def IsName (keyword w : Text) : Prop :=
  IsWord w ∧ w ≠ keyword

instance (keyword w : Text) : Decidable (IsName keyword w) :=
  inferInstanceAs (Decidable (_ ∧ _))

theorem IsName.fits {keyword w : Text} (h : IsName keyword w) : Fits keyword w := by
  have hne : ∀ c, isWordChar c = false → c ∉ w := fun c hc hm =>
    absurd (h.1.2 c hm) (by simp [hc])
  refine ⟨⟨hne '\r' (by decide), fun hp => ?_⟩, hne '\n' (by decide), fun hw => ?_⟩
  · exact hne '/' (by decide) (hp.subset (by simp))
  · exact h.2 ((hasWord_of_isWord h.1).mp hw).symm

/-- Every word of such a text is another word than `keyword`. -/
theorem Fits.isName_of_mem_scan {keyword t : Text} (h : Fits keyword t) {tok : Token}
    (htok : tok ∈ scan t) (hw : tok.isWord = true) : IsName keyword tok.text := by
  have hk : isKeyword keyword tok = false := isKeyword_eq_false_of_scanFrom h.noKeyword tok htok
  rw [isKeyword, hw, Bool.true_and, beq_eq_false_iff_ne] at hk
  rcases text_of_mem_scanFrom tok htok with ⟨-, hword⟩ | ⟨hop, -⟩
  · exact ⟨hword, hk⟩
  · simp [isWord, hop] at hw

/-! ## Joined texts -/

/-- Characters that part the texts on their two sides in the same line. -/
def IsSeparator (mark : Text) : Prop :=
  mark ≠ [] ∧ ∀ c ∈ mark, isWordChar c = false ∧ c ≠ '\n' ∧ c ≠ '\r' ∧ c ≠ '/'

-- The check runs over the characters of the text, and not over all characters.
instance (mark : Text) : Decidable (IsSeparator mark) :=
  @instDecidableAnd _ _ _ (List.decidableBAll _ mark)

theorem fits_intercalate {keyword mark : Text} (hmark : IsSeparator mark) {ts : List Text}
    (h : ∀ t ∈ ts, Fits keyword t) : Fits keyword (List.intercalate mark ts) := by
  obtain ⟨hne, hchars⟩ := hmark
  refine ⟨?_, fun hm => ?_, ?_⟩
  · exact Line.plain_intercalate hne (fun c hc => (hchars c hc).2.2) fun t ht => (h t ht).plain
  · rcases Text.mem_of_mem_intercalate hm with hm | ⟨t, ht, hm⟩
    · exact (hchars _ hm).2.1 rfl
    · exact (h t ht).noNewline hm
  · rw [hasWord_intercalate hne fun c hc => (hchars c hc).1]
    rintro ⟨t, ht, hw⟩
    exact (h t ht).noKeyword hw

/-! ## Rests of lines -/

/-- A text that fits and is in normal form. -/
structure RestOfLine (keyword t : Text) : Prop where
  fits : Fits keyword t
  spaced_eq : Line.spaced t = t

theorem restOfLine_nil (keyword : Text) : RestOfLine keyword [] :=
  ⟨fits_nil keyword, rfl⟩

theorem Fits.restOfLine_normal {keyword t : Text} (h : Fits keyword t) :
    RestOfLine keyword (Line.normal t) := by
  rw [Line.normal_of_plain h.plain]
  refine ⟨⟨Line.plain_spaced h.plain, fun hm => ?_, ?_⟩, Line.spaced_congr (Line.pieces_spaced t)⟩
  · rcases Line.mem_of_mem_spaced hm with hm | hm
    · simp at hm
    · exact h.noNewline hm
  · rw [hasWord_spaced]
    exact h.noKeyword

end JassDecl.Token
