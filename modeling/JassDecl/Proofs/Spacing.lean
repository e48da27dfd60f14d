import JassDecl.Proofs.Clauses
import JassDecl.Proofs.StatementGrammar

/-! # Spacing in prototypes

Where commas are the only operators of a line, blanks do no more than part its words. What such a
line declares can be read off its tokens, so it does not matter how many blanks stand around the
commas.
-/

namespace JassDecl

/-! ## Words and commas -/

namespace Token

/-- The comma as a token. -/
def comma : TokenKind × Text :=
  (.operator, [','])

/-- Every operator of a row of tokens is a comma. -/
def OnlyCommas (ls : List (TokenKind × Text)) : Prop :=
  ∀ l ∈ ls, l.1 = .operator → l = comma

instance (ls : List (TokenKind × Text)) : Decidable (OnlyCommas ls) :=
  List.decidableBAll _ ls

theorem OnlyCommas.of_subset {ls ms : List (TokenKind × Text)} (h : OnlyCommas ls) (hms : ms ⊆ ls) :
    OnlyCommas ms :=
  fun l hl => h l (hms hl)

theorem OnlyCommas.kind_eq_word {ls : List (TokenKind × Text)} (h : OnlyCommas ls)
    (hcomma : comma ∉ ls) : ∀ l ∈ ls, l.1 = .word := by
  intro l hl
  cases hkind : l.1 with
  | word => rfl
  | operator => exact absurd (h l hl hkind ▸ hl) hcomma

/-- An operator is a token wherever it stands. -/
theorem mem_lexemes_of_mem {c : Char} {t : Text} (hb : Line.isBlank c = false)
    (hw : isWordChar c = false) (h : c ∈ t) : (TokenKind.operator, [c]) ∈ lexemes t := by
  obtain ⟨a, b, rfl⟩ := List.append_of_mem h
  rw [lexemes_append_operator hb hw]
  exact List.mem_append_right _ List.mem_cons_self

theorem mem_of_mem_lexemes {l : TokenKind × Text} {t : Text} (h : l ∈ lexemes t) : l.2 ⊆ t := by
  obtain ⟨tok, htok, rfl⟩ := List.mem_map.mp h
  exact subset_of_mem_scanFrom htok

theorem comma_mem_lexemes_iff {t : Text} : comma ∈ lexemes t ↔ ',' ∈ t :=
  ⟨fun h => mem_of_mem_lexemes h List.mem_cons_self, mem_lexemes_of_mem (by decide) (by decide)⟩

theorem comma_notMem_lexemes {t : Text} (h : ∀ c ∈ t, (c == ',') = false) : comma ∉ lexemes t := by
  rw [comma_mem_lexemes_iff]
  exact fun hcomma => absurd (h ',' hcomma) (by simp)

theorem beq_comma_eq_false {ls : List (TokenKind × Text)} (h : comma ∉ ls) :
    ∀ l ∈ ls, (l == comma) = false := by
  intro l hl
  simpa using ne_of_mem_of_not_mem hl h

/-- A text without blanks, all of whose tokens are words, is one word. -/
theorem isWord_of_lexemes {t : Text} (hne : t ≠ []) (hfree : ∀ x ∈ t, Line.isBlank x = false)
    (h : ∀ l ∈ lexemes t, l.1 = .word) : IsWord t := by
  refine ⟨hne, fun x hx => ?_⟩
  by_contra hw
  have hop := mem_lexemes_of_mem (hfree x hx) (by simpa using hw) hx
  exact absurd (h _ hop) (by simp)

/-- A text of words only is cut by its blanks into these words. -/
theorem pieces_eq_of_lexemes {t : Text} (h : ∀ l ∈ lexemes t, l.1 = .word) :
    Line.pieces t = (lexemes t).map Prod.snd := by
  have hwords : ∀ w ∈ Line.pieces t, IsWord w := by
    intro w hw
    obtain ⟨hne, hfree, -⟩ := Line.mem_pieces hw
    refine isWord_of_lexemes hne hfree fun l hl => h l ?_
    rw [lexemes_eq_flatMap_pieces]
    exact List.mem_flatMap.mpr ⟨w, hw, hl⟩
  rw [lexemes_eq_flatMap_pieces, flatMap_lexemes_of_isWord hwords, List.map_map]
  exact (List.map_id' _).symm

end Token

open Token (OnlyCommas)

/-! ## Clauses read off their tokens -/

namespace Argument

/-- The parameters that the tokens of a clause list: the first two words of each part between
commas. -/
def ofLexemes (ls : List (TokenKind × Text)) : List Argument :=
  if ls = [(.word, Keyword.nothing)] then []
  else (ls.splitOnP (· == Token.comma)).map fun part => ofWords (part.map Prod.snd)

theorem cells_eq_of_lexemes {t : Text} (h : OnlyCommas (Token.lexemes t)) :
    cells t = ((Token.lexemes t).splitOnP (· == Token.comma)).map (·.map Prod.snd) := by
  rw [cells, List.splitOn_eq_splitOnP]
  induction t using Text.marks_induction (· == ',') with
  | free t ht =>
      have hcomma := Token.comma_notMem_lexemes ht
      rw [List.splitOnP_eq_singleton ht,
        List.splitOnP_eq_singleton (Token.beq_comma_eq_false hcomma), List.map_singleton,
        List.map_singleton, Token.pieces_eq_of_lexemes (h.kind_eq_word hcomma)]
  | mark a c b ha hc ih =>
      obtain rfl : c = ',' := by simpa using hc
      have hlexemes : Token.lexemes (a ++ ',' :: b) =
          Token.lexemes a ++ Token.comma :: Token.lexemes b :=
        Token.lexemes_append_operator (by decide) (by decide) a b
      rw [hlexemes] at h ⊢
      have hcomma := Token.comma_notMem_lexemes ha
      have hfront : OnlyCommas (Token.lexemes a) := h.of_subset (List.subset_append_left _ _)
      have hback : OnlyCommas (Token.lexemes b) := h.of_subset fun l hl => by simp [hl]
      rw [List.splitOnP_append_cons_of_forall_mem ha _ hc,
        List.splitOnP_append_cons_of_forall_mem (Token.beq_comma_eq_false hcomma) _ (by simp),
        List.map_cons, List.map_cons, ih hback,
        Token.pieces_eq_of_lexemes (hfront.kind_eq_word hcomma)]

/-- The parameters of a clause depend on its tokens only. -/
theorem ofClause_normal_eq_ofLexemes {t : Text} (hplain : Line.Plain t)
    (h : OnlyCommas (Token.lexemes t)) :
    ofClause (Line.normal t) = ofLexemes (Token.lexemes t) := by
  by_cases hnil : ofClause (Line.normal t) = []
  · rw [hnil, ofLexemes, if_pos ((ofClause_normal_eq_nil_iff hplain).mp hnil)]
  · have hne : Token.lexemes t ≠ [(.word, Keyword.nothing)] := fun he =>
      hnil ((ofClause_normal_eq_nil_iff hplain).mpr he)
    have hcells : (Text.splitOn ',' t).map (fun part => ofWords (Line.pieces part)) =
        (cells t).map ofWords := by
      rw [cells, List.map_map, Text.splitOn_eq]
      rfl
    rw [ofClause_normal_of_ne_nil hplain hnil, hcells, cells_eq_of_lexemes h, ofLexemes, if_neg hne,
      List.map_map]
    rfl

end Argument

namespace Prototype

/-- Whether a token is another one than the word `returns`. -/
def notReturns (l : TokenKind × Text) : Bool :=
  l != (.word, Keyword.returns)

/-- The prototype `name` with the tokens `later` behind its word `takes`. -/
def ofLexemes (name : Text) (later : List (TokenKind × Text)) : Prototype where
  name := name
  arguments := Argument.ofLexemes (later.takeWhile notReturns)
  returnType := List.intercalate [' '] ((later.dropWhile notReturns).tail.map Prod.snd)

theorem notReturns_of_not_hasWord {t : Text} (h : ¬ Token.HasWord Keyword.returns t) :
    ∀ l ∈ Token.lexemes t, notReturns l = true := by
  intro l hl
  simpa [notReturns] using ne_of_mem_of_not_mem hl h

theorem ofClauses_eq_ofLexemes {line name a b : Text} {takes : Token}
    (hline : line = a ++ takes.text ++ b) (hstart : takes.start = a.length)
    (hplain : Line.Plain line) (hcommas : OnlyCommas (Token.lexemes b))
    (hreturns : Token.comma ∉ (Token.lexemes b).dropWhile notReturns) :
    ofClauses line name takes (Token.scanFrom takes.stop b) = ofLexemes name (Token.lexemes b) := by
  have hplain_b : Line.Plain b := (hline ▸ hplain).sides.2
  by_cases hb : Token.HasWord Keyword.returns b
  · obtain ⟨mid, returns, post, rfl, hstart', hmid, hkeyword, hscan⟩ :=
      Token.exists_first_of_hasWord hb takes.stop
    obtain ⟨hplain_mid, hplain_post⟩ := hplain_b.sides
    have hlexemes : Token.lexemes (mid ++ returns.text ++ post) =
        Token.lexemes mid ++ (.word, Keyword.returns) :: Token.lexemes post := by
      rw [← Token.map_lexeme_scanFrom takes.stop, hscan, List.map_append, List.map_cons,
        Token.isKeyword_iff.mp hkeyword, Token.map_lexeme_scanFrom, Token.map_lexeme_scanFrom]
    have hfront := notReturns_of_not_hasWord hmid
    rw [hlexemes] at hcommas hreturns ⊢
    rw [List.dropWhile_append_of_pos hfront,
      List.dropWhile_cons_of_neg (by simp [notReturns])] at hreturns
    have hwords : ∀ l ∈ Token.lexemes post, l.1 = .word := by
      refine OnlyCommas.kind_eq_word (hcommas.of_subset fun l hl => by simp [hl]) fun hm => ?_
      exact hreturns (List.mem_cons_of_mem _ hm)
    have harguments := Argument.ofClause_normal_eq_ofLexemes hplain_mid
      (hcommas.of_subset (List.subset_append_left _ _))
    rw [hscan, ofClauses_of_returns hline hstart hkeyword hstart' hmid, harguments,
      Line.normal_of_plain hplain_post, Line.spaced, Token.pieces_eq_of_lexemes hwords, ofLexemes,
      List.takeWhile_append_of_pos hfront, List.dropWhile_append_of_pos hfront,
      List.takeWhile_cons_of_neg (by simp [notReturns]),
      List.dropWhile_cons_of_neg (by simp [notReturns]), List.append_nil, List.tail_cons]
  · have hall := notReturns_of_not_hasWord hb
    rw [ofClauses_of_not_hasWord hline hstart hb,
      Argument.ofClause_normal_eq_ofLexemes hplain_b hcommas, ofLexemes,
      List.takeWhile_eq_self_iff.mpr hall, List.dropWhile_eq_nil_iff.mpr hall]
    rfl

end Prototype

/-! ## Statements read off their tokens -/

namespace Declaration

/-- Whether a token is a word that is no modifier. -/
def isHead (l : TokenKind × Text) : Bool :=
  l.1 == .word && !Keyword.modifiers.contains l.2

/-- What starts with the word `returns` that ends the parameters: the first one from the fourth
token on, counted from the first word that is no modifier. -/
def returnClause (ls : List (TokenKind × Text)) : List (TokenKind × Text) :=
  ((ls.dropWhile (!isHead ·)).drop 3).dropWhile Prototype.notReturns

theorem returnClause_of_startsWith {r : Routine} {name : Text}
    {later ls : List (TokenKind × Text)}
    (h : StartsWith r.keyword name Keyword.takes later ls) :
    returnClause ls = later.dropWhile Prototype.notReturns := by
  obtain ⟨mods, hmods, rfl⟩ := h
  have hfront : ∀ l ∈ mods.map (Prod.mk TokenKind.word), (!isHead l) = true := by
    intro l hl
    obtain ⟨m, hm, rfl⟩ := List.mem_map.mp hl
    simp [isHead, hmods m hm]
  have hhead : isHead (.word, r.keyword) = true := by
    rw [isHead, r.contains_keyword]
    rfl
  rw [returnClause, List.dropWhile_append_of_pos hfront,
    List.dropWhile_cons_of_neg (by simp [hhead])]
  rfl

section Tokens

variable {line : Text} (hplain : Line.Plain line) (hcommas : OnlyCommas (Token.lexemes line))
  (hreturns : Token.comma ∉ returnClause (Token.lexemes line))
include hplain hcommas hreturns

theorem ofClauses_eq_ofLexemes_of_scan {r : Routine} {ms ts : List Token} {s n l x : Token}
    (hscan : Token.scan line = ms ++ s :: n :: l :: x :: ts) (hms : ∀ t ∈ ms, isModifier t = true)
    (hs : s.isKeyword r.keyword = true) (hn : n.isWord = true)
    (hl : l.isKeyword Keyword.takes = true) :
    Prototype.ofClauses line n.text l (x :: ts) =
      Prototype.ofLexemes n.text (x.lexeme :: ts.map Token.lexeme) := by
  have hstarts : StartsWith r.keyword n.text Keyword.takes (x.lexeme :: ts.map Token.lexeme)
      (Token.lexemes line) :=
    startsWith_lexemes_cons_iff.mpr ⟨ms, s, n, l, x, ts, hscan, hms, Token.isKeyword_iff.mp hs,
      Token.lexeme_of_isWord hn, Token.isKeyword_iff.mp hl, rfl, rfl⟩
  have hsplit : Token.scan line = (ms ++ [s, n]) ++ l :: x :: ts := by
    rw [List.append_assoc]
    exact hscan
  obtain ⟨a, b, hcut, hstart, -, hb⟩ := Token.exists_eq_append_of_scan hsplit
  have hlexemes : Token.lexemes b = x.lexeme :: ts.map Token.lexeme := by
    rw [← Token.map_lexeme_scanFrom l.stop, hb, List.map_cons]
  rw [returnClause_of_startsWith hstarts, ← hlexemes] at hreturns
  have hback : OnlyCommas (Token.lexemes b) := by
    refine hcommas.of_subset fun t ht => ?_
    rw [hlexemes] at ht
    simp only [Token.lexemes, hscan, List.map_append, List.map_cons, List.mem_append]
    exact Or.inr (List.mem_cons_of_mem _ (List.mem_cons_of_mem _ (List.mem_cons_of_mem _ ht)))
  rw [← hb, Prototype.ofClauses_eq_ofLexemes hcut hstart hplain hback hreturns, hlexemes]

/-- The native or function that a line declares is the one that its tokens list. -/
theorem ofStatement?_eq_routine_iff {r : Routine} {d : Prototype} :
    ofStatement? line = some (r.declaration d) ↔ ∃ next later,
      StartsWith r.keyword d.name Keyword.takes (next :: later) (Token.lexemes line) ∧
        d = Prototype.ofLexemes d.name (next :: later) := by
  simp only [startsWith_lexemes_cons_iff, ofStatement?_eq_declaration_iff]
  constructor
  · rintro ⟨ms, s, n, l, x, ts, hscan, hms, hs, hn, hl, rfl⟩
    rw [ofClauses_eq_ofLexemes_of_scan hplain hcommas hreturns hscan hms hs hn hl]
    exact ⟨_, _, ⟨ms, s, n, l, x, ts, hscan, hms, Token.isKeyword_iff.mp hs,
      Token.lexeme_of_isWord hn, Token.isKeyword_iff.mp hl, rfl, rfl⟩, rfl⟩
  · rintro ⟨next, later, ⟨ms, s, n, l, x, ts, hscan, hms, hs, hn, hl, rfl, rfl⟩, hd⟩
    have hsort := Token.isKeyword_iff.mpr hs
    have htakes := Token.isKeyword_iff.mpr hl
    have hword := Token.isWord_of_lexeme hn
    refine ⟨ms, s, n, l, x, ts, hscan, hms, hsort, hword, htakes, ?_⟩
    rw [ofClauses_eq_ofLexemes_of_scan hplain hcommas hreturns hscan hms hsort hword htakes,
      Token.text_of_lexeme hn, ← hd]

end Tokens

/-- Lines with the same tokens declare the same. -/
theorem ofStatement?_congr {a b : Text} (ha : Line.Plain a) (hb : Line.Plain b)
    (hsame : Token.lexemes a = Token.lexemes b) (hcommas : OnlyCommas (Token.lexemes a))
    (hreturns : Token.comma ∉ returnClause (Token.lexemes a)) :
    ofStatement? a = ofStatement? b := by
  have hsort {d : Declaration}
      (hd : (∃ t, d = .type t) ∨ ∃ (r : Routine) (p : Prototype), d = r.declaration p) :
      ofStatement? a = some d ↔ ofStatement? b = some d := by
    obtain ⟨⟨name, parent⟩, rfl⟩ | ⟨r, p, rfl⟩ := hd
    · rw [ofStatement?_eq_type_iff, ofStatement?_eq_type_iff, hsame]
    · rw [ofStatement?_eq_routine_iff ha hcommas hreturns,
        ofStatement?_eq_routine_iff hb (hsame ▸ hcommas) (hsame ▸ hreturns), hsame]
  exact Option.ext fun d => ⟨fun h => (hsort (type_or_routine_of_ofStatement? h)).mp h,
    fun h => (hsort (type_or_routine_of_ofStatement? h)).mpr h⟩

end Declaration

/-! ## Lines -/

namespace Block

/-- Two lines outside a block of globals that have the same tokens, with commas as their only
operators and none behind the word `returns` that ends the parameters, have the same effect: they
open a block, or declare the same, or declare nothing. -/
theorem read_eq_of_lexemes {a b : Text}
    (hsame : Token.lexemes (Line.normal a) = Token.lexemes (Line.normal b))
    (hcommas : OnlyCommas (Token.lexemes (Line.normal a)))
    (hreturns : Token.comma ∉ Declaration.returnClause (Token.lexemes (Line.normal a)))
    (number : Nat) : Block.outside.read number a = Block.outside.read number b := by
  have hopens : Token.hasKeyword Keyword.globals (Token.scan (Line.normal a)) =
      Token.hasKeyword Keyword.globals (Token.scan (Line.normal b)) := by
    rw [Bool.eq_iff_iff, Token.hasKeyword_scan, Token.hasKeyword_scan, Token.HasWord, hsame,
      Token.HasWord]
  have hdeclares := Declaration.ofStatement?_congr (Line.plain_normal a) (Line.plain_normal b) hsame
    hcommas hreturns
  rw [read_eq_readNormal, read_eq_readNormal, readNormal, readNormal, hopens, hdeclares]

/-- Blanks and none around commas, parts without a word, and a second word `returns`. -/
theorem read_eq_of_lexemes_commas :
    let a := " constant native\tf takes nothing,a  b,,\tc d e returns returns x // , y".toList
    let b := "constant native f takes nothing ,\ta b , ,c d e returns returns\tx\r".toList
    let d : Prototype := ⟨"f".toList, [⟨"nothing".toList, []⟩, ⟨"a".toList, "b".toList⟩, ⟨[], []⟩,
      ⟨"c".toList, "d".toList⟩], "returns x".toList⟩
    Token.lexemes (Line.normal a) = Token.lexemes (Line.normal b) ∧
    OnlyCommas (Token.lexemes (Line.normal a)) ∧
    Token.comma ∉ Declaration.returnClause (Token.lexemes (Line.normal a)) ∧
    Block.outside.read 1 a = (.outside, some (.native d)) ∧
    Block.outside.read 1 b = (.outside, some (.native d)) := by
  intro a b d
  have hsame : Token.lexemes (Line.normal a) = Token.lexemes (Line.normal b) := by decide
  have hcommas : OnlyCommas (Token.lexemes (Line.normal a)) := by decide
  have hreturns : Token.comma ∉ Declaration.returnClause (Token.lexemes (Line.normal a)) := by
    decide
  have hread : Block.outside.read 1 a = (.outside, some (.native d)) := by decide
  refine ⟨hsame, hcommas, hreturns, hread, ?_⟩
  rw [← hread]
  exact (read_eq_of_lexemes hsame hcommas hreturns 1).symm

end Block

end JassDecl
