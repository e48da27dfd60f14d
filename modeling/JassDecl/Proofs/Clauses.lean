import JassDecl.Proofs.StatementLine
import JassDecl.Proofs.WholeWords
import Mathlib.Order.Bounds.Basic

/-! # The clauses of a prototype

The parameters and the return type that a line declares, described by its tokens. No parameter is
lost or cut in two, and the first word `returns` behind the word `takes` ends them.
-/

namespace JassDecl

/-! ## Parameters and tokens -/

namespace Argument

/-- A clause lists nothing if its one token is the word `nothing`. -/
theorem ofClause_normal_eq_nil_iff {t : Text} (h : Line.Plain t) :
    ofClause (Line.normal t) = [] ↔ Token.lexemes t = [(.word, Keyword.nothing)] := by
  rw [Line.normal_of_plain h, ofClause_spaced]
  constructor
  · intro hnil
    split at hnil
    · rename_i hnothing
      rw [← Token.lexemes_spaced, hnothing, Token.lexemes_of_isWord (by decide)]
    · exact absurd (List.map_eq_nil_iff.mp hnil) (cells_ne_nil t)
  · intro hlexemes
    obtain ⟨r, s, rfl, hr, -, -, hs⟩ := Token.lexemes_eq_word_cons_iff.mp hlexemes
    rw [Token.lexemes_eq_nil_iff] at hs
    have hpieces : Line.pieces (r ++ (Keyword.nothing ++ s)) = [Keyword.nothing] := by
      rw [← Line.code_of_plain h, Line.pieces_code_blanks_append hr,
        Line.pieces_code_append_blanks hs]
      rfl
    rw [if_pos]
    rw [Line.spaced, hpieces, List.intercalate_singleton]

/-- The other clauses list one parameter for each part between commas. -/
theorem ofClause_normal_of_ne_nil {t : Text} (h : Line.Plain t)
    (hne : ofClause (Line.normal t) ≠ []) :
    ofClause (Line.normal t) =
      (Text.splitOn ',' t).map fun part => ofWords (Line.pieces part) := by
  rw [Line.normal_of_plain h, ofClause_spaced] at hne ⊢
  split at hne
  · exact absurd rfl hne
  · rename_i hnothing
    rw [if_neg hnothing, cells, Text.splitOn_eq, List.map_map]
    rfl

end Argument

/-! ## The end of the parameters -/

namespace Prototype

/-- The first position behind three tokens where the word `returns` stands, or no token at all. -/
def EndsAt (body : List Token) (r : Nat) : Prop :=
  IsLeast {i | 3 ≤ i ∧ ∀ t ∈ body[i]?, t.isKeyword Keyword.returns = true} r

/-- The text of a line behind a token, up to another token or to the end of the line. -/
def textBetween (line : Text) (first : Token) (last : Option Token) : Text :=
  Text.slice first.stop (last.elim line.length Token.start) line

/-- What the tokens `body` of a line, from the keyword of its sort on, say about the prototype: the
parameters stand behind the token `takes` and in front of position `r`. -/
structure ClausesSpec (line : Text) (body : List Token) (takes : Token) (r : Nat)
    (d : Prototype) : Prop where
  arguments_eq_nil_iff : d.arguments = [] ↔
    ((body.take r).drop 3).map Token.lexeme = [(.word, Keyword.nothing)]
  length_arguments : d.arguments ≠ [] →
    d.arguments.length = 1 + ((body.take r).drop 3).countP (Token.isOperator ',')
  arguments_eq : d.arguments ≠ [] →
    d.arguments = (Text.splitOn ',' (textBetween line takes body[r]?)).map fun part =>
      Argument.ofWords (Line.pieces part)
  returnType_eq_nil : body.length ≤ r → d.returnType = []
  lexemes_returnType : r < body.length →
    Token.lexemes d.returnType = (body.drop (r + 1)).map Token.lexeme

section Positions

variable {sort name takes : Token} {clause rest : List Token}

theorem getElem?_behind_clause :
    (sort :: name :: takes :: (clause ++ rest))[3 + clause.length]? = rest.head? := by
  rw [Nat.add_comm, List.getElem?_cons_succ, List.getElem?_cons_succ, List.getElem?_cons_succ,
    List.getElem?_append_right le_rfl, Nat.sub_self, List.head?_eq_getElem?]

theorem endsAt_of_clause (hclause : ∀ t ∈ clause, t.isKeyword Keyword.returns = false)
    (hrest : ∀ t ∈ rest.head?, t.isKeyword Keyword.returns = true) :
    EndsAt (sort :: name :: takes :: (clause ++ rest)) (3 + clause.length) := by
  constructor
  · refine ⟨by omega, ?_⟩
    rw [getElem?_behind_clause]
    exact hrest
  · rintro i ⟨hi, hreturns⟩
    by_contra hlt
    obtain ⟨k, rfl⟩ := Nat.exists_eq_add_of_le' hi
    have hk : k < clause.length := by omega
    rw [List.getElem?_cons_succ, List.getElem?_cons_succ, List.getElem?_cons_succ,
      List.getElem?_append_left hk, List.getElem?_eq_getElem hk] at hreturns
    have hother := hclause _ (List.getElem_mem hk)
    rw [hreturns _ rfl] at hother
    exact absurd hother (by decide)

theorem drop_take_clause :
    ((sort :: name :: takes :: (clause ++ rest)).take (3 + clause.length)).drop 3 = clause := by
  rw [Nat.add_comm]
  exact List.take_left

theorem drop_behind_clause :
    (sort :: name :: takes :: (clause ++ rest)).drop (3 + clause.length + 1) = rest.tail := by
  rw [Nat.add_comm 3, ← List.drop_drop, Nat.add_comm, ← List.drop_drop, ← List.drop_one]
  exact congrArg (List.drop 1) List.drop_left

/-- A line whose tokens behind `takes` are those of the text `mid`, and then those of `rest`. -/
theorem clausesSpec_of_cut {line mid : Text} {d : Prototype} (hmid : Line.Plain mid)
    (htext : textBetween line takes rest.head? = mid)
    (harguments : d.arguments = Argument.ofClause (Line.normal mid))
    (hnil : rest = [] → d.returnType = [])
    (hcons : rest ≠ [] → Token.lexemes d.returnType = rest.tail.map Token.lexeme) :
    ClausesSpec line (sort :: name :: takes :: (Token.scanFrom takes.stop mid ++ rest)) takes
      (3 + (Token.scanFrom takes.stop mid).length) d := by
  constructor
  · rw [drop_take_clause, Token.map_lexeme_scanFrom, harguments,
      Argument.ofClause_normal_eq_nil_iff hmid]
  · intro hne
    rw [harguments] at hne
    rw [drop_take_clause, Token.countP_isOperator_scanFrom (by decide) (by decide), harguments,
      Argument.ofClause_normal_of_ne_nil hmid hne, List.length_map, Text.length_splitOn,
      Nat.add_comm]
  · intro hne
    rw [harguments] at hne
    rw [getElem?_behind_clause, htext, harguments, Argument.ofClause_normal_of_ne_nil hmid hne]
  · intro hlength
    apply hnil
    apply List.eq_nil_of_length_eq_zero
    simp only [List.length_cons, List.length_append] at hlength
    omega
  · intro hlength
    rw [drop_behind_clause]
    apply hcons
    rintro rfl
    simp only [List.length_cons, List.length_append, List.length_nil] at hlength
    omega

end Positions

/-- The tokens behind `takes` say what its clauses are, whether a word `returns` stands there or
not. -/
theorem clausesSpec_ofClauses {line a b : Text} {sort name takes : Token} (text : Text)
    (hplain : Line.Plain line) (hline : line = a ++ takes.text ++ b)
    (hstart : takes.start = a.length) :
    ∃ r, EndsAt (sort :: name :: takes :: Token.scanFrom takes.stop b) r ∧
      ClausesSpec line (sort :: name :: takes :: Token.scanFrom takes.stop b) takes r
        (ofClauses line text takes (Token.scanFrom takes.stop b)) := by
  have hplain_b : Line.Plain b := (hline ▸ hplain).sides.2
  have hstop : takes.stop = (a ++ takes.text).length := by
    rw [Token.stop, hstart, List.length_append]
  by_cases hb : Token.HasWord Keyword.returns b
  · obtain ⟨mid, returns, post, rfl, hstart', hmid, hreturns, hscan⟩ :=
      Token.exists_first_of_hasWord hb takes.stop
    obtain ⟨hplain_mid, hplain_post⟩ := hplain_b.sides
    rw [hscan, ofClauses_of_returns hline hstart hreturns hstart' hmid]
    refine ⟨_,
      endsAt_of_clause (Token.isKeyword_eq_false_of_scanFrom hmid) (by simpa using hreturns),
      clausesSpec_of_cut hplain_mid ?_ rfl (by simp) fun _ => ?_⟩
    · rw [textBetween, List.head?_cons, Option.elim_some, hstart', hstop, hline,
        List.append_assoc mid, ← List.append_assoc (a ++ takes.text)]
      exact Text.slice_append _ _ _
    · rw [Line.normal_of_plain hplain_post, Token.lexemes_spaced, List.tail_cons,
        Token.map_lexeme_scanFrom]
  · rw [ofClauses_of_not_hasWord hline hstart hb, ← List.append_nil (Token.scanFrom takes.stop b)]
    refine ⟨_, endsAt_of_clause (Token.isKeyword_eq_false_of_scanFrom hb) (by simp),
      clausesSpec_of_cut hplain_b ?_ rfl (fun _ => rfl) (by simp)⟩
    rw [textBetween, List.head?_nil, Option.elim_none, Text.slice, List.take_length, hstop, hline,
      List.drop_left]

end Prototype

namespace Declaration

/-- The tokens of a line from the first one on that is no modifier. -/
def body (line : Text) : List Token :=
  (Token.scan line).dropWhile isModifier

/-- A line in normal form that declares a native or a function is divided by its word `takes` and by
the first word `returns` behind it. Its parameters are what stands between the two, part by part. -/
theorem clausesSpec_body {line : Text} (hline : Line.normal line = line) {r : Routine}
    {d : Prototype} (h : ofStatement? line = some (r.declaration d)) :
    ∃ sort name takes later, body line = sort :: name :: takes :: later ∧
      sort.isKeyword r.keyword = true ∧ name.lexeme = (.word, d.name) ∧
      takes.isKeyword Keyword.takes = true ∧
      ∃ position, Prototype.EndsAt (body line) position ∧
        Prototype.ClausesSpec line (body line) takes position d := by
  obtain ⟨ms, sort, name, takes, next, later, hscan, hms, hmodifier, htokens⟩ :=
    ofStatement?_eq_some_iff.mp h
  have hbody : body line = sort :: name :: takes :: next :: later := by
    rw [body, hscan, List.dropWhile_append_of_pos hms,
      List.dropWhile_cons_of_neg (by simp [hmodifier])]
  obtain ⟨hname, ⟨-, -, -, hd⟩ | ⟨r', hsort, htakes, hd⟩⟩ := ofTokens?_eq_some_iff.mp htokens
  · cases r <;> exact absurd hd (by simp [Routine.declaration])
  · obtain ⟨rfl, rfl⟩ := Routine.declaration_inj.mp hd
    refine ⟨sort, name, takes, next :: later, hbody, hsort, ?_, htakes, ?_⟩
    · rw [Prototype.name_ofClauses]
      exact Token.lexeme_of_isWord hname
    · have hplain : Line.Plain line := hline ▸ Line.plain_normal line
      have hsplit : Token.scanFrom 0 line = (ms ++ [sort, name]) ++ takes :: next :: later := by
        rw [List.append_assoc]
        exact hscan
      obtain ⟨a, b, hcut, hstart, -, hb⟩ := Token.exists_eq_append_of_scanFrom hsplit
      rw [Nat.zero_add] at hstart
      rw [hbody, ← hb]
      exact Prototype.clausesSpec_ofClauses name.text hplain hcut hstart

/-- Parts with a blank in front of a comma, without a word and with three words, and a second word
`returns`. -/
theorem clausesSpec_body_degenerate :
    let line := "constant native f takes a b , ,c d e returns returns x,y".toList
    let d : Prototype := ⟨"f".toList,
      [⟨"a".toList, "b".toList⟩, ⟨[], []⟩, ⟨"c".toList, "d".toList⟩], "returns x,y".toList⟩
    Line.normal line = line ∧ ofStatement? line = some (.native d) ∧
    ∃ takes, Prototype.EndsAt (body line) 10 ∧
      Prototype.ClausesSpec line (body line) takes 10 d := by
  intro line d
  have hline : Line.normal line = line := by decide
  have hd : ofStatement? line = some (.native d) := by decide
  have hten : ∀ t ∈ (body line)[10]?, t.isKeyword Keyword.returns = true := by decide
  have hfirst : ∀ i ≤ 10, 3 ≤ i →
      (∀ t ∈ (body line)[i]?, t.isKeyword Keyword.returns = true) → i = 10 := by decide
  obtain ⟨-, -, takes, -, -, -, -, -, position, hends, hspec⟩ :=
    clausesSpec_body hline (r := .native) hd
  obtain rfl : position = 10 :=
    hfirst position (hends.2 ⟨by decide, hten⟩) hends.1.1 hends.1.2
  exact ⟨hline, hd, takes, hends, hspec⟩

end Declaration

end JassDecl
