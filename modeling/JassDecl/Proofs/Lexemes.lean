import JassDecl.Proofs.Scanning

/-! # Tokens without their columns -/

namespace JassDecl.Token

/-- The kind and the characters of a token. -/
def lexeme (t : Token) : TokenKind × Text :=
  (t.kind, t.text)

/-- The tokens of a text, their columns left out. -/
def lexemes (t : Text) : List (TokenKind × Text) :=
  (scan t).map lexeme

theorem isWord_of_lexeme {t : Token} {w : Text} (h : t.lexeme = (.word, w)) : t.isWord = true := by
  rw [isWord, show t.kind = .word from congrArg Prod.fst h]
  rfl

theorem lexeme_of_isWord {t : Token} (h : t.isWord = true) : t.lexeme = (.word, t.text) := by
  rw [isWord, beq_iff_eq] at h
  rw [lexeme, h]

theorem text_of_lexeme {t : Token} {kind : TokenKind} {w : Text} (h : t.lexeme = (kind, w)) :
    t.text = w :=
  congrArg Prod.snd h

theorem isOperator_of_isWord {t : Token} (h : t.isWord = true) (c : Char) :
    t.isOperator c = false := by
  rw [isWord, beq_iff_eq] at h
  rw [isOperator, h]
  rfl

theorem words_of_map_lexeme {ts : List Token} {ws : List Text}
    (h : ts.map lexeme = ws.map fun w => (.word, w)) :
    ts.map text = ws ∧ ∀ t ∈ ts, t.isWord = true := by
  constructor
  · have htexts := congrArg (List.map Prod.snd) h
    rw [List.map_map, List.map_map] at htexts
    exact htexts.trans (List.map_id' ws)
  · intro t ht
    have hmem : t.lexeme ∈ ws.map fun w => (TokenKind.word, w) := h ▸ List.mem_map_of_mem ht
    obtain ⟨w, -, hw⟩ := List.mem_map.mp hmem
    exact isWord_of_lexeme hw.symm

/-! ## Other columns -/

/-- The same token `k` columns further on. -/
def shift (k : Nat) (t : Token) : Token :=
  { t with start := t.start + k }

theorem consWordChar_shift (c : Char) (n k : Nat) (later : List Token) :
    consWordChar c (n + k) (later.map (shift k)) = (consWordChar c n later).map (shift k) := by
  cases later with
  | nil => rfl
  | cons tok rest =>
      obtain ⟨kind, text, start⟩ := tok
      cases kind with
      | operator => rfl
      | word =>
          change consWordChar c (n + k) (⟨.word, text, start + k⟩ :: rest.map (shift k)) = _
          rw [consWordChar, consWordChar]
          by_cases hs : start = n + 1
          · rw [if_pos hs, if_pos (by omega)]
            rfl
          · rw [if_neg hs, if_neg (by omega)]
            rfl

theorem scanFrom_add (n k : Nat) (t : Text) :
    scanFrom (n + k) t = (scanFrom n t).map (shift k) := by
  induction t generalizing n with
  | nil => rfl
  | cons c t ih =>
      have hn : n + k + 1 = n + 1 + k := by omega
      rcases char_cases c with hc | hc | ⟨hb, hw⟩
      · rw [scanFrom_blank hc, scanFrom_blank hc, hn, ih]
      · rw [scanFrom_wordChar hc, scanFrom_wordChar hc, hn, ih, consWordChar_shift]
      · rw [scanFrom_operator hb hw, scanFrom_operator hb hw, hn, ih]
        rfl

theorem map_lexeme_scanFrom (n : Nat) (t : Text) : (scanFrom n t).map lexeme = lexemes t := by
  have hs := scanFrom_add 0 n t
  rw [Nat.zero_add] at hs
  rw [hs, List.map_map]
  rfl

/-! ## Two texts -/

@[simp] theorem lexemes_nil : lexemes [] = [] :=
  rfl

theorem lexemes_append {a b : Text} (h : Apart a b) : lexemes (a ++ b) = lexemes a ++ lexemes b := by
  rw [lexemes, scan, scanFrom_append 0 h, List.map_append, map_lexeme_scanFrom, map_lexeme_scanFrom]

theorem lexemes_cons_blank {c : Char} (hc : Line.isBlank c = true) (t : Text) :
    lexemes (c :: t) = lexemes t := by
  rw [lexemes, scan, scanFrom_blank hc, map_lexeme_scanFrom]

theorem lexemes_append_blank {c : Char} (hc : Line.isBlank c = true) (a b : Text) :
    lexemes (a ++ c :: b) = lexemes a ++ lexemes b := by
  have hapart : Apart a (c :: b) :=
    apart_of_head? fun y hy => by simpa [← Option.some.inj hy] using isWordChar_of_isBlank hc
  rw [lexemes_append hapart, lexemes_cons_blank hc]

theorem lexemes_append_operator {c : Char} (hb : Line.isBlank c = false)
    (hw : isWordChar c = false) (a b : Text) :
    lexemes (a ++ c :: b) = lexemes a ++ (.operator, [c]) :: lexemes b := by
  have hapart : Apart a (c :: b) :=
    apart_of_head? fun y hy => by simpa [← Option.some.inj hy] using hw
  have hcons : lexemes (c :: b) = (.operator, [c]) :: lexemes b := by
    rw [lexemes, scan, scanFrom_operator hb hw, List.map_cons, map_lexeme_scanFrom]
    rfl
  rw [lexemes_append hapart, hcons]

theorem lexemes_of_isWord {w : Text} (h : IsWord w) : lexemes w = [(.word, w)] := by
  rw [lexemes, scan, scanFrom_word h]
  rfl

/-- Blanks only part the pieces between them. -/
theorem lexemes_eq_flatMap_pieces (t : Text) : lexemes t = (Line.pieces t).flatMap lexemes := by
  induction t using Text.marks_induction Line.isBlank with
  | free t ht =>
      by_cases hne : t = []
      · rw [hne]
        rfl
      · rw [Line.pieces_of_free ht hne, List.flatMap_singleton]
  | mark a c b ha hc ih =>
      rw [lexemes_append_blank hc, ih]
      by_cases hne : a = []
      · rw [hne, List.nil_append, Line.pieces_cons_blank hc, lexemes_nil, List.nil_append]
      · rw [Line.pieces_append_blank hc, Line.pieces_of_free ha hne, List.singleton_append,
          List.flatMap_cons]

theorem lexemes_congr {s t : Text} (h : Line.pieces s = Line.pieces t) : lexemes s = lexemes t := by
  rw [lexemes_eq_flatMap_pieces s, h, ← lexemes_eq_flatMap_pieces]

theorem lexemes_spaced (t : Text) : lexemes (Line.spaced t) = lexemes t :=
  lexemes_congr (Line.pieces_spaced t)

theorem lexemes_intercalate (ts : List Text) :
    lexemes (List.intercalate [' '] ts) = ts.flatMap lexemes := by
  induction ts with
  | nil => rfl
  | cons t ts ih =>
      cases ts with
      | nil => rw [List.intercalate_singleton, List.flatMap_singleton]
      | cons t' ts =>
          rw [List.intercalate_cons_cons, List.append_assoc, List.singleton_append,
            lexemes_append_blank (by rfl), ih]
          rfl

/-! ## A token among others -/

theorem apart_leading (ws : List Text) (b : Text) : Apart (Line.leading ws) b := by
  refine apart_of_getLast? fun x hx => ?_
  induction ws with
  | nil => simp [Line.leading] at hx
  | cons w ws ih =>
      have hcons : Line.leading (w :: ws) = w ++ ' ' :: Line.leading ws := by simp [Line.leading]
      rw [hcons, List.getLast?_append_cons] at hx
      cases hws : Line.leading ws with
      | nil =>
          rw [hws] at hx
          obtain rfl : ' ' = x := by simpa using hx
          rfl
      | cons y t =>
          rw [hws] at hx
          rw [List.getLast?_cons_cons, ← hws] at hx
          exact ih hx

theorem apart_trailing (a : Text) (ws : List Text) : Apart a (Line.trailing ws) := by
  refine apart_of_head? fun y hy => ?_
  cases ws with
  | nil => simp [Line.trailing] at hy
  | cons w ws =>
      obtain rfl : ' ' = y := by simpa [Line.trailing] using hy
      rfl

/-- A text that is one token is that token between two texts, too. -/
theorem scanFrom_between {kind : TokenKind} {w : Text} (hw : ∀ n, scanFrom n w = [⟨kind, w, n⟩])
    {a b : Text} (ha : Apart a (w ++ b)) (hb : Apart w b) (n : Nat) :
    scanFrom n (a ++ (w ++ b)) =
      scanFrom n a ++ ⟨kind, w, n + a.length⟩ :: scanFrom (n + a.length + w.length) b := by
  rw [scanFrom_append n ha, scanFrom_append _ hb, hw]
  rfl

/-- A word behind others starts after a space. -/
theorem scanFrom_trailing_append {w : Text} (hw : IsWord w) (n : Nat) (xs ys : List Text) :
    scanFrom n (Line.trailing (xs ++ w :: ys)) =
      scanFrom n (Line.trailing xs ++ [' ']) ++
        ⟨.word, w, n + (Line.trailing xs ++ [' ']).length⟩ ::
          scanFrom (n + (Line.trailing xs ++ [' ']).length + w.length) (Line.trailing ys) := by
  have hcut : Line.trailing (xs ++ w :: ys) = Line.trailing xs ++ [' '] ++ (w ++ Line.trailing ys) := by
    simp [Line.trailing]
  have hspace : Apart (Line.trailing xs ++ [' ']) (w ++ Line.trailing ys) := by
    refine apart_of_getLast? fun x hx => ?_
    obtain rfl : ' ' = x := by simpa using hx
    rfl
  rw [hcut, scanFrom_between (scanFrom_word hw) hspace (apart_trailing _ _)]

theorem flatMap_lexemes_of_isWord {ws : List Text} (h : ∀ w ∈ ws, IsWord w) :
    ws.flatMap lexemes = ws.map fun w => (.word, w) := by
  have hsingle : ws.flatMap lexemes = ws.flatMap fun w => [(.word, w)] :=
    List.flatMap_congr fun w hw => lexemes_of_isWord (h w hw)
  rw [hsingle, ← List.map_eq_flatMap]

theorem lexemes_leading (ws : List Text) : lexemes (Line.leading ws) = ws.flatMap lexemes := by
  induction ws with
  | nil => rfl
  | cons w ws ih =>
      have hcons : Line.leading (w :: ws) = w ++ ' ' :: Line.leading ws := by simp [Line.leading]
      rw [hcons, lexemes_append_blank (by rfl), ih, List.flatMap_cons]

theorem scan_spaced {kind : TokenKind} {w : Text} (hw : ∀ n, scanFrom n w = [⟨kind, w, n⟩])
    {t : Text} {xs ys : List Text} (h : Line.pieces t = xs ++ w :: ys) :
    scan (Line.spaced t) = scan (Line.leading xs) ++ ⟨kind, w, (Line.leading xs).length⟩ ::
      scanFrom ((Line.leading xs).length + w.length) (Line.trailing ys) := by
  rw [Line.spaced_of_pieces h, scan, scanFrom_between hw (apart_leading _ _) (apart_trailing _ _),
    Nat.zero_add]
  rfl

/-! ## Whole words -/

/-- Whether `keyword` is a word of the text. -/
def HasWord (keyword t : Text) : Prop :=
  (TokenKind.word, keyword) ∈ lexemes t

instance (keyword t : Text) : Decidable (HasWord keyword t) :=
  inferInstanceAs (Decidable (_ ∈ _))

theorem isKeyword_iff {keyword : Text} {tok : Token} :
    isKeyword keyword tok = true ↔ tok.lexeme = (.word, keyword) := by
  simp [isKeyword, isWord, lexeme]

theorem hasKeyword_scanFrom {keyword : Text} {n : Nat} {t : Text} :
    hasKeyword keyword (scanFrom n t) = true ↔ HasWord keyword t := by
  rw [HasWord, ← map_lexeme_scanFrom n, hasKeyword, List.any_eq_true, List.mem_map]
  simp only [isKeyword_iff]

theorem hasKeyword_scan {keyword t : Text} :
    hasKeyword keyword (scan t) = true ↔ HasWord keyword t :=
  hasKeyword_scanFrom

theorem not_hasWord_nil (keyword : Text) : ¬ HasWord keyword [] := by
  simp [HasWord]

theorem hasWord_append_cons {keyword : Text} {c : Char} (hc : isWordChar c = false)
    (a b : Text) : HasWord keyword (a ++ c :: b) ↔ HasWord keyword a ∨ HasWord keyword b := by
  rcases char_cases c with hb | hw | ⟨hb, -⟩
  · rw [HasWord, lexemes_append_blank hb, List.mem_append, HasWord, HasWord]
  · exact absurd hc (by simp [hw])
  · rw [HasWord, lexemes_append_operator hb hc, List.mem_append, List.mem_cons]
    simp [HasWord]

theorem hasWord_congr {keyword s t : Text} (h : Line.pieces s = Line.pieces t) :
    HasWord keyword s ↔ HasWord keyword t := by
  rw [HasWord, lexemes_congr h, HasWord]

theorem hasWord_trailing_pieces {keyword t : Text} :
    HasWord keyword (Line.trailing (Line.pieces t)) ↔ HasWord keyword t := by
  refine hasWord_congr ?_
  rw [Line.pieces_trailing, Line.flatMap_pieces_pieces]

theorem hasWord_spaced {keyword t : Text} : HasWord keyword (Line.spaced t) ↔ HasWord keyword t := by
  rw [HasWord, lexemes_spaced, HasWord]

theorem hasWord_append {keyword mark : Text} (hne : mark ≠ [])
    (hmark : ∀ c ∈ mark, isWordChar c = false) (a b : Text) :
    HasWord keyword (a ++ mark ++ b) ↔ HasWord keyword a ∨ HasWord keyword b := by
  induction mark generalizing a with
  | nil => exact absurd rfl hne
  | cons c mark ih =>
      have hcons : a ++ c :: mark ++ b = a ++ c :: (mark ++ b) := by simp
      rw [hcons, hasWord_append_cons (hmark c (by simp))]
      by_cases hm : mark = []
      · rw [hm, List.nil_append]
      · have hrest := ih hm (fun x hx => hmark x (by simp [hx])) []
        rw [List.nil_append] at hrest
        rw [hrest]
        simp [not_hasWord_nil]

theorem hasWord_intercalate {keyword mark : Text} (hne : mark ≠ [])
    (hmark : ∀ c ∈ mark, isWordChar c = false) {ts : List Text} :
    HasWord keyword (List.intercalate mark ts) ↔ ∃ t ∈ ts, HasWord keyword t := by
  induction ts with
  | nil => simp [not_hasWord_nil]
  | cons t ts ih =>
      cases ts with
      | nil => simp
      | cons t' ts => rw [List.intercalate_cons_cons, hasWord_append hne hmark, ih,
          List.exists_mem_cons_iff _ t]

theorem hasWord_of_isWord {keyword w : Text} (h : IsWord w) : HasWord keyword w ↔ keyword = w := by
  simp [HasWord, lexemes_of_isWord h]

/-- The tokens of a text without the word `keyword` are all other tokens. -/
theorem isKeyword_eq_false_of_scanFrom {keyword t : Text} (h : ¬ HasWord keyword t) {n : Nat} :
    ∀ tok ∈ scanFrom n t, isKeyword keyword tok = false := by
  rw [← hasKeyword_scanFrom (n := n), hasKeyword, List.any_eq_true] at h
  intro tok htok
  by_contra hk
  exact h ⟨tok, htok, by simpa using hk⟩

theorem hasWord_iff_of_scanFrom {keyword t a b : Text} {n : Nat} {tok : Token}
    (h : scanFrom n t = scanFrom n a ++ tok :: scanFrom tok.stop b) :
    HasWord keyword t ↔ HasWord keyword a ∨ tok.isKeyword keyword = true ∨ HasWord keyword b := by
  rw [← hasKeyword_scanFrom (n := n) (t := t), h, hasKeyword, List.any_append, List.any_cons,
    Bool.or_eq_true, Bool.or_eq_true]
  exact or_congr hasKeyword_scanFrom (or_congr_right hasKeyword_scanFrom)

/-- The first of the tokens that are the word `keyword`, and what stands on its two sides. -/
theorem exists_first_of_hasWord {keyword t : Text} (h : HasWord keyword t) (n : Nat) :
    ∃ a tok b, t = a ++ tok.text ++ b ∧ tok.start = n + a.length ∧ ¬ HasWord keyword a ∧
      tok.isKeyword keyword = true ∧ scanFrom n t = scanFrom n a ++ tok :: scanFrom tok.stop b := by
  rw [← hasKeyword_scanFrom (n := n), hasKeyword, List.any_eq_true, ← List.find?_isSome,
    Option.isSome_iff_exists] at h
  obtain ⟨tok, hfind⟩ := h
  obtain ⟨hk, ts, us, hscan, hts⟩ := List.find?_eq_some_iff_append.mp hfind
  obtain ⟨a, b, rfl, hstart, rfl, rfl⟩ := exists_eq_append_of_scanFrom hscan
  refine ⟨a, tok, b, rfl, hstart, fun ha => ?_, hk, hscan⟩
  rw [← hasKeyword_scanFrom (n := n), hasKeyword, List.any_eq_true] at ha
  obtain ⟨t, ht, hkt⟩ := ha
  simpa [hkt] using hts t ht

/-- A piece has no word that the text does not have. -/
theorem HasWord.of_mem_pieces {keyword t w : Text} (hw : w ∈ Line.pieces t)
    (h : HasWord keyword w) : HasWord keyword t := by
  rw [HasWord, lexemes_eq_flatMap_pieces, List.mem_flatMap]
  exact ⟨w, hw, h⟩

end JassDecl.Token
