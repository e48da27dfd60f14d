import JassDecl.Proofs.NormalForm
import JassDecl.Token

/-! # Tokens of texts side by side -/

namespace JassDecl.Token

/-! ## One character -/

theorem isBlank_of_isWordChar {c : Char} (h : isWordChar c = true) : Line.isBlank c = false := by
  by_contra hb
  rw [Bool.not_eq_false, Line.isBlank, Bool.or_eq_true, beq_iff_eq, beq_iff_eq] at hb
  rcases hb with rfl | rfl <;> exact absurd h (by decide)

theorem isWordChar_of_isBlank {c : Char} (h : Line.isBlank c = true) : isWordChar c = false := by
  by_contra hw
  rw [isBlank_of_isWordChar (by simpa using hw)] at h
  exact absurd h (by decide)

/-- A character is a blank, belongs to a word, or is an operator. -/
theorem char_cases (c : Char) : Line.isBlank c = true ∨ isWordChar c = true ∨
    (Line.isBlank c = false ∧ isWordChar c = false) := by
  cases Line.isBlank c <;> cases isWordChar c <;> simp

theorem scanFrom_blank {c : Char} (hc : Line.isBlank c = true) (n : Nat) (t : Text) :
    scanFrom n (c :: t) = scanFrom (n + 1) t := by
  simp only [scanFrom, hc, if_true]

theorem scanFrom_wordChar {c : Char} (hc : isWordChar c = true) (n : Nat) (t : Text) :
    scanFrom n (c :: t) = consWordChar c n (scanFrom (n + 1) t) := by
  simp only [scanFrom, isBlank_of_isWordChar hc, hc, Bool.false_eq_true, if_false, if_true]

theorem scanFrom_operator {c : Char} (hb : Line.isBlank c = false) (hw : isWordChar c = false)
    (n : Nat) (t : Text) : scanFrom n (c :: t) = ⟨.operator, [c], n⟩ :: scanFrom (n + 1) t := by
  simp only [scanFrom, hb, hw, Bool.false_eq_true, if_false]

/-- A word character lengthens a word in the next column, and is a word of its own otherwise. -/
theorem consWordChar_cases (c : Char) (n : Nat) (later : List Token) :
    (∃ text rest, later = ⟨.word, text, n + 1⟩ :: rest ∧
      consWordChar c n later = ⟨.word, c :: text, n⟩ :: rest) ∨
    ((∀ text rest, later ≠ ⟨.word, text, n + 1⟩ :: rest) ∧
      consWordChar c n later = ⟨.word, [c], n⟩ :: later) := by
  cases later with
  | nil => exact Or.inr ⟨by simp, rfl⟩
  | cons tok rest =>
      obtain ⟨kind, text, start⟩ := tok
      cases kind with
      | operator => exact Or.inr ⟨by simp, rfl⟩
      | word =>
          by_cases hs : start = n + 1
          · exact Or.inl ⟨text, rest, by rw [hs], by rw [consWordChar, if_pos hs]⟩
          · exact Or.inr ⟨by simp [hs], by rw [consWordChar, if_neg hs]⟩

theorem consWordChar_append (c : Char) (n : Nat) (ts : List Token) {us : List Token}
    (h : ∀ text rest, us ≠ ⟨.word, text, n + 1⟩ :: rest) :
    consWordChar c n (ts ++ us) = consWordChar c n ts ++ us := by
  cases ts with
  | nil =>
      rcases consWordChar_cases c n us with ⟨text, rest, hus, -⟩ | ⟨-, he⟩
      · exact absurd hus (h text rest)
      · exact he
  | cons tok ts =>
      rcases consWordChar_cases c n (tok :: ts) with ⟨text, rest, hl, he⟩ | ⟨hno, he⟩
      · rw [he, hl, List.cons_append, consWordChar, if_pos rfl, List.cons_append]
      · rcases consWordChar_cases c n (tok :: ts ++ us) with ⟨text, rest, hl, -⟩ | ⟨-, he'⟩
        · rw [List.cons_append] at hl
          exact absurd (by rw [(List.cons.inj hl).1]) (hno text ts)
        · rw [he, he']
          rfl

/-! ## Columns -/

/-- A token of a text is a token of its rest, or it starts with the first character. -/
theorem mem_scanFrom_cons {c : Char} {n : Nat} {t : Text} {tok : Token}
    (h : tok ∈ scanFrom n (c :: t)) :
    tok ∈ scanFrom (n + 1) t ∨
    (isWordChar c = true ∧ ∃ text, tok = ⟨.word, c :: text, n⟩ ∧
      (text = [] ∨ ⟨.word, text, n + 1⟩ ∈ scanFrom (n + 1) t)) ∨
    (Line.isBlank c = false ∧ isWordChar c = false ∧ tok = ⟨.operator, [c], n⟩) := by
  rcases char_cases c with hc | hc | ⟨hb, hw⟩
  · rw [scanFrom_blank hc] at h
    exact Or.inl h
  · rw [scanFrom_wordChar hc] at h
    rcases consWordChar_cases c n (scanFrom (n + 1) t) with ⟨text, rest, hl, he⟩ | ⟨-, he⟩
    · rw [he] at h
      rw [hl]
      rcases List.mem_cons.mp h with rfl | h
      · exact Or.inr (Or.inl ⟨hc, text, rfl, Or.inr List.mem_cons_self⟩)
      · exact Or.inl (List.mem_cons_of_mem _ h)
    · rw [he] at h
      rcases List.mem_cons.mp h with rfl | h
      · exact Or.inr (Or.inl ⟨hc, [], rfl, Or.inl rfl⟩)
      · exact Or.inl h
  · rw [scanFrom_operator hb hw] at h
    rcases List.mem_cons.mp h with rfl | h
    · exact Or.inr (Or.inr ⟨hb, hw, rfl⟩)
    · exact Or.inl h

theorem le_start_of_mem_scanFrom {n : Nat} {t : Text} :
    ∀ tok ∈ scanFrom n t, n ≤ tok.start := by
  induction t generalizing n with
  | nil => simp [scanFrom]
  | cons c t ih =>
      intro tok htok
      rcases mem_scanFrom_cons htok with hlater | ⟨-, text, rfl, -⟩ | ⟨-, -, rfl⟩
      · have hle := ih tok hlater
        omega
      · exact le_rfl
      · exact le_rfl

/-- No word starts in a column before the text. -/
theorem scanFrom_ne_cons_of_lt {n m : Nat} (h : m < n) (t : Text) (kind : TokenKind) (text : Text)
    (rest : List Token) : scanFrom n t ≠ ⟨kind, text, m⟩ :: rest := by
  intro he
  have hle := le_start_of_mem_scanFrom ⟨kind, text, m⟩ (he ▸ List.mem_cons_self)
  simp only at hle
  omega

/-- No word starts where the text does not start with a word character. -/
theorem scanFrom_ne_word_cons {n : Nat} {t : Text} (h : ∀ y ∈ t.head?, isWordChar y = false)
    (text : Text) (rest : List Token) : scanFrom n t ≠ ⟨.word, text, n⟩ :: rest := by
  cases t with
  | nil => simp [scanFrom]
  | cons c t =>
      rcases char_cases c with hc | hc | ⟨hb, hw⟩
      · rw [scanFrom_blank hc]
        exact scanFrom_ne_cons_of_lt (by omega) t _ _ _
      · exact absurd hc (by simp [h c (by simp)])
      · rw [scanFrom_operator hb hw]
        simp

/-! ## Two texts -/

/-- No word runs from the first text into the second. -/
def Apart (a b : Text) : Prop :=
  ∀ x ∈ a.getLast?, ∀ y ∈ b.head?, isWordChar x = true → isWordChar y = false

theorem apart_of_head? {a b : Text} (h : ∀ y ∈ b.head?, isWordChar y = false) : Apart a b :=
  fun _ _ y hy _ => h y hy

theorem apart_of_getLast? {a b : Text} (h : ∀ x ∈ a.getLast?, isWordChar x = false) :
    Apart a b :=
  fun x hx _ _ hw => absurd hw (by simp [h x hx])

theorem Apart.tail {x : Char} {a b : Text} (h : Apart (x :: a) b) : Apart a b := by
  cases a with
  | nil => exact fun _ hx => by simp at hx
  | cons y a => simpa only [Apart, List.getLast?_cons_cons] using h

/-- The tokens of two texts are scanned one text after the other. -/
theorem scanFrom_append (n : Nat) {a b : Text} (h : Apart a b) :
    scanFrom n (a ++ b) = scanFrom n a ++ scanFrom (n + a.length) b := by
  induction a generalizing n with
  | nil => rfl
  | cons x a ih =>
      have hn : n + (x :: a).length = n + 1 + a.length := by
        simp only [List.length_cons]
        omega
      rw [List.cons_append, hn]
      rcases char_cases x with hc | hc | ⟨hb, hw⟩
      · rw [scanFrom_blank hc, scanFrom_blank hc, ih _ h.tail]
      · -- Nothing in the second text goes on where the first character ends.
        have hno : ∀ text rest,
            scanFrom (n + 1 + a.length) b ≠ ⟨.word, text, n + 1⟩ :: rest := by
          cases a with
          | nil => exact scanFrom_ne_word_cons fun y hy => h x (by simp) y hy hc
          | cons y a => exact scanFrom_ne_cons_of_lt (by simp) b .word
        rw [scanFrom_wordChar hc, scanFrom_wordChar hc, ih _ h.tail, consWordChar_append _ _ _ hno]
      · rw [scanFrom_operator hb hw, scanFrom_operator hb hw, ih _ h.tail, List.cons_append]

/-- One more character in front of a text that is cut at a token. -/
theorem exists_eq_append_cons {c : Char} {n : Nat} {t : Text} {ts ts' us : List Token} {tok : Token}
    (h : ∃ a b, t = a ++ tok.text ++ b ∧ tok.start = n + 1 + a.length ∧ scanFrom (n + 1) a = ts ∧
      scanFrom tok.stop b = us)
    (hcons : ∀ a, scanFrom (n + 1) a = ts → scanFrom n (c :: a) = ts') :
    ∃ a b, c :: t = a ++ tok.text ++ b ∧ tok.start = n + a.length ∧ scanFrom n a = ts' ∧
      scanFrom tok.stop b = us := by
  obtain ⟨a, b, rfl, hstart, hbefore, hafter⟩ := h
  refine ⟨c :: a, b, by simp, ?_, hcons a hbefore, hafter⟩
  rw [hstart, List.length_cons]
  omega

/-- A token stands between the texts of the tokens before it and after it. -/
theorem exists_eq_append_of_scanFrom {n : Nat} {t : Text} {ts us : List Token} {tok : Token}
    (h : scanFrom n t = ts ++ tok :: us) :
    ∃ a b, t = a ++ tok.text ++ b ∧ tok.start = n + a.length ∧ scanFrom n a = ts ∧
      scanFrom tok.stop b = us := by
  induction t generalizing n ts tok us with
  | nil => simp [scanFrom] at h
  | cons c t ih =>
      rcases char_cases c with hc | hc | ⟨hb, hw⟩
      · rw [scanFrom_blank hc] at h
        exact exists_eq_append_cons (ih h) fun a ha => by rw [scanFrom_blank hc, ha]
      · rw [scanFrom_wordChar hc] at h
        rcases consWordChar_cases c n (scanFrom (n + 1) t) with ⟨text, rest, hl, he⟩ | ⟨hno, he⟩
        · rw [he] at h
          cases ts with
          | nil =>
              obtain ⟨rfl, rfl⟩ := List.cons.inj h
              have hfirst : scanFrom (n + 1) t = [] ++ ⟨.word, text, n + 1⟩ :: rest := hl
              obtain ⟨a, b, rfl, hstart, -, hafter⟩ := ih hfirst
              have ha : a = [] := List.length_eq_zero_iff.mp (by simpa using hstart)
              refine ⟨[], b, by simp [ha], by simp, rfl, ?_⟩
              rw [← hafter]
              simp only [stop, List.length_cons]
              congr 1
              omega
          | cons first ts =>
              obtain ⟨rfl, hrest⟩ := List.cons.inj h
              have hlater : scanFrom (n + 1) t = (⟨.word, text, n + 1⟩ :: ts) ++ tok :: us := by
                rw [hl, hrest]
                rfl
              refine exists_eq_append_cons (ih hlater) fun a ha => ?_
              rw [scanFrom_wordChar hc, ha, consWordChar, if_pos rfl]
        · rw [he] at h
          cases ts with
          | nil =>
              obtain ⟨rfl, rfl⟩ := List.cons.inj h
              exact ⟨[], t, by simp, by simp, rfl, rfl⟩
          | cons first ts =>
              obtain ⟨rfl, hrest⟩ := List.cons.inj h
              refine exists_eq_append_cons (ih hrest) fun a ha => ?_
              rw [scanFrom_wordChar hc, ha]
              rcases consWordChar_cases c n ts with ⟨text, rest, hts, -⟩ | ⟨-, he'⟩
              · exact absurd (by rw [hrest, hts]; rfl) (hno text (rest ++ tok :: us))
              · exact he'
      · rw [scanFrom_operator hb hw] at h
        cases ts with
        | nil =>
            obtain ⟨rfl, rfl⟩ := List.cons.inj h
            exact ⟨[], t, by simp, by simp, rfl, rfl⟩
        | cons first ts =>
            obtain ⟨rfl, hrest⟩ := List.cons.inj h
            exact exists_eq_append_cons (ih hrest) fun a ha => by rw [scanFrom_operator hb hw, ha]

theorem exists_eq_append_of_scan {line : Text} {ts us : List Token} {tok : Token}
    (h : scan line = ts ++ tok :: us) :
    ∃ a b, line = a ++ tok.text ++ b ∧ tok.start = a.length ∧ scan a = ts ∧
      scanFrom tok.stop b = us := by
  obtain ⟨a, b, hline, hstart, hbefore, hafter⟩ := exists_eq_append_of_scanFrom h
  rw [Nat.zero_add] at hstart
  exact ⟨a, b, hline, hstart, hbefore, hafter⟩

/-- The characters of a token stand in the text. -/
theorem subset_of_mem_scanFrom {n : Nat} {t : Text} {tok : Token} (h : tok ∈ scanFrom n t) :
    tok.text ⊆ t := by
  obtain ⟨ts, us, hscan⟩ := List.append_of_mem h
  obtain ⟨a, b, rfl, -⟩ := exists_eq_append_of_scanFrom hscan
  simp

theorem isOperator_eq_false_of_scanFrom {c : Char} {t : Text} (h : c ∉ t) {n : Nat} :
    ∀ tok ∈ scanFrom n t, isOperator c tok = false := by
  intro tok htok
  by_contra hop
  rw [Bool.not_eq_false, isOperator, Bool.and_eq_true, beq_iff_eq, beq_iff_eq] at hop
  exact h (subset_of_mem_scanFrom htok (by simp [hop.2]))

/-- An operator is a token wherever it stands. -/
theorem countP_isOperator_scanFrom {c : Char} (hb : Line.isBlank c = false)
    (hw : isWordChar c = false) (n : Nat) (t : Text) :
    (scanFrom n t).countP (isOperator c) = t.count c := by
  induction t using Text.marks_induction (· == c) generalizing n with
  | free t ht =>
      have hc : c ∉ t := fun hm => by simpa using ht c hm
      rw [List.count_eq_zero.mpr hc, List.countP_eq_zero]
      intro tok htok
      rw [isOperator_eq_false_of_scanFrom hc tok htok]
      decide
  | mark a x b ha hx ih =>
      obtain rfl : x = c := by simpa using hx
      have hxa : x ∉ a := fun hm => by simpa using ha x hm
      have hop : isOperator x ⟨.operator, [x], n + a.length⟩ = true := by simp [isOperator]
      rw [scanFrom_append n (apart_of_head? (by simpa using hw)), scanFrom_operator hb hw,
        List.countP_append, List.countP_cons_of_pos hop, ih, List.count_append, List.count_cons_self,
        List.count_eq_zero.mpr hxa, List.countP_eq_zero.mpr]
      intro tok htok
      rw [isOperator_eq_false_of_scanFrom hxa tok htok]
      decide

/-! ## Words -/

/-- A nonempty run of word characters. -/
def IsWord (w : Text) : Prop :=
  w ≠ [] ∧ ∀ c ∈ w, isWordChar c = true

-- The check runs over the characters of the text, and not over all characters.
instance (w : Text) : Decidable (IsWord w) :=
  @instDecidableAnd _ _ _ (List.decidableBAll _ w)

theorem scanFrom_word {w : Text} (h : IsWord w) (n : Nat) :
    scanFrom n w = [⟨.word, w, n⟩] := by
  obtain ⟨hne, hw⟩ := h
  induction w generalizing n with
  | nil => exact absurd rfl hne
  | cons c w ih =>
      rw [scanFrom_wordChar (hw c (by simp))]
      cases w with
      | nil => rfl
      | cons d w =>
          rw [ih (n + 1) (by simp) (fun x hx => hw x (by simp [hx])), consWordChar, if_pos rfl]

theorem free_of_isWord {w : Text} (h : IsWord w) : ∀ x ∈ w, Line.isBlank x = false :=
  fun x hx => isBlank_of_isWordChar (h.2 x hx)

theorem pieces_of_isWord {w : Text} (h : IsWord w) : Line.pieces w = [w] :=
  Line.pieces_of_free (free_of_isWord h) h.1

/-- The characters of a token decide its kind. -/
theorem text_of_mem_scanFrom {n : Nat} {t : Text} : ∀ tok ∈ scanFrom n t,
    (tok.kind = .word ∧ IsWord tok.text) ∨
    (tok.kind = .operator ∧
      ∃ c, tok.text = [c] ∧ Line.isBlank c = false ∧ isWordChar c = false) := by
  induction t generalizing n with
  | nil => simp [scanFrom]
  | cons c t ih =>
      intro tok htok
      rcases mem_scanFrom_cons htok with hlater | ⟨hc, text, rfl, htext⟩ | ⟨hb, hw, rfl⟩
      · exact ih tok hlater
      · refine Or.inl ⟨rfl, List.cons_ne_nil c text, List.forall_mem_cons.mpr ⟨hc, ?_⟩⟩
        rcases htext with rfl | htext
        · simp
        · rcases ih _ htext with ⟨-, -, hword⟩ | ⟨hkind, -⟩
          · exact hword
          · cases hkind
      · exact Or.inr ⟨rfl, c, rfl, hb, hw⟩

end JassDecl.Token
