import JassDecl.Proofs.Parameters
import JassDecl.Library.Source
import JassDecl.Statement

/-! # Lines that declare types, natives and functions -/

namespace JassDecl

open Token (Fits HasWord IsName IsWord RestOfLine)

/-- The two sorts of prototypes. -/
inductive Routine where
  | native
  | function
  deriving DecidableEq, Repr

namespace Routine

def keyword : Routine → Text
  | .native => Keyword.native
  | .function => Keyword.function

def declaration : Routine → Prototype → Declaration
  | .native => .native
  | .function => .function

theorem isName_keyword (r : Routine) : IsName Keyword.globals r.keyword := by
  cases r <;> decide

theorem declaration_inj {r r' : Routine} {d d' : Prototype} :
    r.declaration d = r'.declaration d' ↔ r = r' ∧ d = d' := by
  cases r <;> cases r' <;> simp [declaration]

theorem contains_keyword (r : Routine) : Keyword.modifiers.contains r.keyword = false := by
  cases r <;> decide

end Routine

theorem isName_of_mem_modifiers : ∀ m ∈ Keyword.modifiers, IsName Keyword.globals m := by
  decide

/-! ## Well-formed declarations -/

/-- A type that one line can declare. -/
structure TypeDecl.WellFormed (d : TypeDecl) : Prop where
  name : IsName Keyword.globals d.name
  parent : IsName Keyword.globals d.parent

/-- A prototype that one line can declare. -/
structure Prototype.WellFormed (d : Prototype) : Prop where
  name : IsName Keyword.globals d.name
  arguments : ∀ a ∈ d.arguments, a.WellFormed
  arguments_ne : d.arguments ≠ [⟨Keyword.nothing, []⟩]
  returnType : RestOfLine Keyword.globals d.returnType

/-! ## The tokens of a statement -/

namespace Declaration

theorem isModifier_of_isKeyword {keyword : Text} {t : Token} (h : t.isKeyword keyword = true) :
    isModifier t = Keyword.modifiers.contains keyword := by
  rw [Token.isKeyword, Bool.and_eq_true, beq_iff_eq] at h
  rw [isModifier, h.1, h.2, Bool.true_and]

theorem isModifier_of_map_lexeme {mods : List Text} (hmods : ∀ m ∈ mods, m ∈ Keyword.modifiers)
    {ms : List Token} (h : ms.map Token.lexeme = mods.map (Prod.mk .word)) :
    ∀ t ∈ ms, isModifier t = true := by
  intro t ht
  have hmem : t.lexeme ∈ mods.map (Prod.mk TokenKind.word) := h ▸ List.mem_map_of_mem ht
  obtain ⟨m, hm, he⟩ := List.mem_map.mp hmem
  rw [isModifier_of_isKeyword (Token.isKeyword_iff.mpr he.symm)]
  exact List.contains_iff_mem.mpr (hmods m hm)

/-- What the tokens after the modifiers of a line declare. -/
def ofTokens? (line : Text) (sort name link next : Token) (later : List Token) :
    Option Declaration :=
  if sort.isWord && name.isWord && link.isWord then
    if sort.text = Keyword.type then
      if link.text = Keyword.extending && next.isWord then some (.type ⟨name.text, next.text⟩)
      else none
    else if link.text = Keyword.takes then
      let prototype := Prototype.ofClauses line name.text link (next :: later)
      if sort.text = Keyword.native then some (.native prototype)
      else if sort.text = Keyword.function then some (.function prototype)
      else none
    else none
  else none

theorem ofStatement?_eq_ofTokens? (line : Text) :
    ofStatement? line =
      match (Token.scan line).dropWhile isModifier with
      | sort :: name :: link :: next :: later => ofTokens? line sort name link next later
      | _ => none :=
  rfl

theorem ofTokens?_eq_some_iff {line : Text} {sort name link next : Token} {later : List Token}
    {d : Declaration} : ofTokens? line sort name link next later = some d ↔
      name.isWord = true ∧
      ((sort.isKeyword Keyword.type = true ∧ link.isKeyword Keyword.extending = true ∧
          next.isWord = true ∧ d = .type ⟨name.text, next.text⟩) ∨
        ∃ r : Routine, sort.isKeyword r.keyword = true ∧ link.isKeyword Keyword.takes = true ∧
          d = r.declaration (Prototype.ofClauses line name.text link (next :: later))) := by
  simp only [Token.isKeyword, Bool.and_eq_true, beq_iff_eq]
  constructor
  · intro h
    rw [ofTokens?] at h
    split_ifs at h with hwords htype hextends htakes hnative hfunction
    all_goals
      simp only [Bool.and_eq_true, decide_eq_true_eq] at *
      obtain ⟨⟨hsort, hname⟩, hlink⟩ := hwords
      have hd := (Option.some.inj h).symm
    · exact ⟨hname, Or.inl ⟨⟨hsort, htype⟩, ⟨hlink, hextends.1⟩, hextends.2, hd⟩⟩
    · exact ⟨hname, Or.inr ⟨.native, ⟨hsort, hnative⟩, ⟨hlink, htakes⟩, hd⟩⟩
    · exact ⟨hname, Or.inr ⟨.function, ⟨hsort, hfunction⟩, ⟨hlink, htakes⟩, hd⟩⟩
  · rintro ⟨hname, ⟨hsort, hlink, hnext, rfl⟩ | ⟨r, hsort, hlink, rfl⟩⟩
    · simp [ofTokens?, hsort.1, hsort.2, hlink.1, hlink.2, hname, hnext]
    · cases r with
      | native =>
          have hnative : sort.text = Keyword.native := hsort.2
          have htype : sort.text ≠ Keyword.type := by
            rw [hnative]
            decide
          simp only [ofTokens?, hsort.1, hlink.1, hlink.2, hname, Bool.and_self, if_true,
            if_neg htype, if_pos hnative, Routine.declaration]
      | function =>
          have hfunction : sort.text = Keyword.function := hsort.2
          have htype : sort.text ≠ Keyword.type := by
            rw [hfunction]
            decide
          have hnative : sort.text ≠ Keyword.native := by
            rw [hfunction]
            decide
          simp only [ofTokens?, hsort.1, hlink.1, hlink.2, hname, Bool.and_self, if_true,
            if_neg htype, if_neg hnative, if_pos hfunction, Routine.declaration]

/-- The tokens of a line that declares something outside a block of globals. -/
theorem ofStatement?_eq_some_iff {line : Text} {d : Declaration} :
    ofStatement? line = some d ↔ ∃ ms sort name link next later,
      Token.scan line = ms ++ sort :: name :: link :: next :: later ∧
      (∀ t ∈ ms, isModifier t = true) ∧ isModifier sort = false ∧
      ofTokens? line sort name link next later = some d := by
  rw [ofStatement?_eq_ofTokens?]
  constructor
  · intro h
    split at h
    · rename_i sort name link next later hdrop
      refine ⟨(Token.scan line).takeWhile isModifier, sort, name, link, next, later, ?_,
        fun t ht => List.mem_takeWhile_imp ht, ?_, h⟩
      · rw [← hdrop, List.takeWhile_append_dropWhile]
      · have hhead := List.head?_dropWhile_not isModifier (Token.scan line)
        rw [hdrop] at hhead
        exact hhead
    · simp at h
  · rintro ⟨ms, sort, name, link, next, later, hscan, hms, hsort, h⟩
    rw [hscan, List.dropWhile_append_of_pos hms, List.dropWhile_cons_of_neg (by simp [hsort])]
    exact h

/-- The tokens of a line that declares a native or a function. -/
theorem ofStatement?_eq_declaration_iff {line : Text} {r : Routine} {d : Prototype} :
    ofStatement? line = some (r.declaration d) ↔ ∃ ms sort name takes next later,
      Token.scan line = ms ++ sort :: name :: takes :: next :: later ∧
      (∀ t ∈ ms, isModifier t = true) ∧ sort.isKeyword r.keyword = true ∧ name.isWord = true ∧
      takes.isKeyword Keyword.takes = true ∧
      d = Prototype.ofClauses line name.text takes (next :: later) := by
  rw [ofStatement?_eq_some_iff]
  constructor
  · rintro ⟨ms, sort, name, takes, next, later, hscan, hms, -, h⟩
    obtain ⟨hname, ⟨-, -, -, hd⟩ | ⟨r', hsort, htakes, hd⟩⟩ := ofTokens?_eq_some_iff.mp h
    · cases r <;> exact absurd hd (by simp [Routine.declaration])
    · obtain ⟨rfl, rfl⟩ := Routine.declaration_inj.mp hd
      exact ⟨ms, sort, name, takes, next, later, hscan, hms, hsort, hname, htakes, rfl⟩
  · rintro ⟨ms, sort, name, takes, next, later, hscan, hms, hsort, hname, htakes, rfl⟩
    have hmodifier : isModifier sort = false :=
      (isModifier_of_isKeyword hsort).trans r.contains_keyword
    exact ⟨ms, sort, name, takes, next, later, hscan, hms, hmodifier,
      ofTokens?_eq_some_iff.mpr ⟨hname, Or.inr ⟨r, hsort, htakes, rfl⟩⟩⟩

end Declaration

/-! ## Clauses -/

namespace Prototype

theorem name_ofClauses (line name : Text) (takes : Token) (later : List Token) :
    (ofClauses line name takes later).name = name := by
  rw [ofClauses]
  split <;> rfl

theorem ofClauses_of_not_hasWord {line name a b : Text} {takes : Token}
    (hline : line = a ++ takes.text ++ b) (hstart : takes.start = a.length)
    (h : ¬ HasWord Keyword.returns b) :
    ofClauses line name takes (Token.scanFrom takes.stop b) =
      ⟨name, Argument.ofClause (Line.normal b), []⟩ := by
  have hfind : (Token.scanFrom takes.stop b).find? (Token.isKeyword Keyword.returns) = none :=
    List.find?_eq_none.mpr fun t ht => by
      rw [Token.isKeyword_eq_false_of_scanFrom h t ht]
      simp
  have hdrop : line.drop takes.stop = b := by
    rw [hline, Token.stop, hstart, ← List.length_append, List.drop_left]
  rw [ofClauses, hfind, hdrop]

theorem ofClauses_of_returns {line name a mid post : Text} {takes returns : Token}
    {later : List Token} (hline : line = a ++ takes.text ++ (mid ++ returns.text ++ post))
    (hstart : takes.start = a.length) (hreturns : returns.isKeyword Keyword.returns = true)
    (hstart' : returns.start = takes.stop + mid.length) (h : ¬ HasWord Keyword.returns mid) :
    ofClauses line name takes (Token.scanFrom takes.stop mid ++ returns :: later) =
      ⟨name, Argument.ofClause (Line.normal mid), Line.normal post⟩ := by
  have hfind : (Token.scanFrom takes.stop mid ++ returns :: later).find?
      (Token.isKeyword Keyword.returns) = some returns := by
    refine List.find?_eq_some_iff_append.mpr ⟨hreturns, _, _, rfl, fun t ht => ?_⟩
    rw [Token.isKeyword_eq_false_of_scanFrom h t ht]
    rfl
  have hstop : takes.stop = (a ++ takes.text).length := by
    rw [Token.stop, hstart, List.length_append]
  have hslice : Text.slice takes.stop returns.start line = mid := by
    rw [hline, hstart', hstop, List.append_assoc mid, ← List.append_assoc (a ++ takes.text)]
    exact Text.slice_append _ _ _
  have hdrop : line.drop returns.stop = post := by
    rw [hline, Token.stop, hstart', hstop, ← List.append_assoc, ← List.append_assoc,
      ← List.length_append, ← List.length_append, List.drop_left]
  rw [ofClauses, hfind]
  simp only [hslice, hdrop]

theorem ofClauses_trailing {line name a : Text} {takes : Token} {ws : List Text}
    (hline : line = a ++ takes.text ++ Line.trailing ws) (hstart : takes.start = a.length)
    (hplain : Line.Plain line) (h : ¬ HasWord Keyword.returns (Line.trailing ws)) :
    ofClauses line name takes (Token.scanFrom takes.stop (Line.trailing ws)) =
      ⟨name, Argument.ofClause (Line.spaced (Line.trailing ws)), []⟩ := by
  have hws : Line.Plain (Line.trailing ws) := (hline ▸ hplain).sides.2
  rw [ofClauses_of_not_hasWord hline hstart h, Line.normal_of_plain hws]

theorem ofClauses_trailing_returns {line name a : Text} {takes : Token} {ws us : List Text}
    (hline : line = a ++ takes.text ++ Line.trailing (ws ++ Keyword.returns :: us))
    (hstart : takes.start = a.length) (hplain : Line.Plain line)
    (h : ¬ HasWord Keyword.returns (Line.trailing ws)) :
    ofClauses line name takes
        (Token.scanFrom takes.stop (Line.trailing (ws ++ Keyword.returns :: us))) =
      ⟨name, Argument.ofClause (Line.spaced (Line.trailing ws)),
        Line.spaced (Line.trailing us)⟩ := by
  have hcut : line = a ++ takes.text ++
      (Line.trailing ws ++ [' '] ++ Keyword.returns ++ Line.trailing us) := by
    rw [hline]
    simp [Line.trailing]
  have hpieces : Line.pieces (Line.trailing ws ++ [' ']) = Line.pieces (Line.trailing ws) := by
    rw [Line.pieces_append_space, Line.pieces_nil, List.append_nil]
  obtain ⟨hmid, hpost⟩ := (hcut ▸ hplain).sides.2.sides
  rw [← Token.hasWord_congr hpieces] at h
  rw [Token.scanFrom_trailing_append (by decide), ofClauses_of_returns hcut hstart rfl rfl h,
    Line.normal_of_plain hmid, Line.normal_of_plain hpost, Line.spaced_congr hpieces]

/-- The clauses of a line hold well-formed parameters and a well-formed return type. -/
theorem wellFormed_ofClauses {line name a b : Text} {takes : Token}
    (hline : line = a ++ takes.text ++ b) (hstart : takes.start = a.length)
    (hname : IsName Keyword.globals name) (hb : Fits Keyword.globals b) :
    (ofClauses line name takes (Token.scanFrom takes.stop b)).WellFormed := by
  by_cases h : HasWord Keyword.returns b
  · obtain ⟨mid, returns, post, rfl, hstart', hreturns, hk, hscan⟩ :=
      Token.exists_first_of_hasWord h takes.stop
    obtain ⟨hmid, hpost⟩ := hb.of_scanFrom hscan
    rw [hscan, ofClauses_of_returns hline hstart hk hstart' hreturns,
      Line.normal_of_plain hmid.plain]
    exact {
      name := hname
      arguments := Argument.wellFormed_of_mem_ofClause hmid hreturns
      arguments_ne := Argument.ofClause_ne_nothing mid
      returnType := hpost.restOfLine_normal }
  · rw [ofClauses_of_not_hasWord hline hstart h, Line.normal_of_plain hb.plain]
    exact {
      name := hname
      arguments := Argument.wellFormed_of_mem_ofClause hb h
      arguments_ne := Argument.ofClause_ne_nothing b
      returnType := Token.restOfLine_nil _ }

end Prototype

namespace Declaration

/-- What a line declares outside a block of globals is well-formed. -/
theorem wellFormed_of_ofStatement? {line : Text} (hline : Fits Keyword.globals line)
    {d : Declaration} (h : ofStatement? line = some d) :
    (∃ t : TypeDecl, d = .type t ∧ t.WellFormed) ∨
      ∃ (r : Routine) (p : Prototype), d = r.declaration p ∧ p.WellFormed := by
  obtain ⟨ms, sort, name, link, next, later, hscan, -, -, htokens⟩ :=
    ofStatement?_eq_some_iff.mp h
  obtain ⟨hname, hshape⟩ := ofTokens?_eq_some_iff.mp htokens
  have hname' : IsName Keyword.globals name.text :=
    hline.isName_of_mem_scan (by simp [hscan]) hname
  rcases hshape with ⟨-, -, hnext, rfl⟩ | ⟨r, -, -, rfl⟩
  · exact Or.inl ⟨_, rfl, hname', hline.isName_of_mem_scan (by simp [hscan]) hnext⟩
  · have hsplit : Token.scan line = (ms ++ [sort, name]) ++ link :: next :: later := by
      rw [List.append_assoc]
      exact hscan
    obtain ⟨a, b, rfl, hstart, ha, hb⟩ := Token.exists_eq_append_of_scan hsplit
    rw [← ha, ← hb] at hsplit
    rw [← hb]
    exact Or.inr ⟨r, _, rfl, Prototype.wellFormed_ofClauses rfl hstart hname'
      (hline.of_scanFrom hsplit).2⟩

/-! ## Lines that are written -/

theorem fits_type {d : TypeDecl} (h : d.WellFormed) : Fits Keyword.globals d.sourceLine := by
  rw [TypeDecl.sourceLine]
  refine Token.fits_intercalate (by decide) ?_
  simp only [List.forall_mem_cons, List.not_mem_nil, false_implies, implies_true, and_true]
  exact ⟨IsName.fits (by decide), h.name.fits, IsName.fits (by decide), h.parent.fits⟩

/-- A well-formed type is read back from its line. -/
theorem ofStatement?_type {d : TypeDecl} (h : d.WellFormed) :
    ofStatement? (Line.spaced d.sourceLine) = some (.type d) := by
  have hlexemes : (Token.scan (Line.spaced d.sourceLine)).map Token.lexeme =
      [(.word, Keyword.type), (.word, d.name), (.word, Keyword.extending), (.word, d.parent)] := by
    change Token.lexemes _ = _
    have hwords : ∀ w ∈ [Keyword.type, d.name, Keyword.extending, d.parent], IsWord w := by
      simp only [List.forall_mem_cons, List.not_mem_nil, false_implies, implies_true, and_true]
      exact ⟨by decide, h.name.1, by decide, h.parent.1⟩
    rw [Token.lexemes_spaced, TypeDecl.sourceLine, Token.lexemes_intercalate,
      Token.flatMap_lexemes_of_isWord hwords]
    rfl
  simp only [List.map_eq_cons_iff, List.map_eq_nil_iff] at hlexemes
  obtain ⟨sort, _, hscan, hsort, name, _, rfl, hname, link, _, rfl, hlink, next, _, rfl, hnext,
    rfl⟩ := hlexemes
  have hkeyword := Token.isKeyword_iff.mpr hsort
  refine ofStatement?_eq_some_iff.mpr ⟨[], sort, name, link, next, [], hscan, by simp,
    isModifier_of_isKeyword hkeyword, ?_⟩
  refine ofTokens?_eq_some_iff.mpr ⟨Token.isWord_of_lexeme hname, Or.inl ⟨hkeyword,
    Token.isKeyword_iff.mpr hlink, Token.isWord_of_lexeme hnext, ?_⟩⟩
  rw [Token.text_of_lexeme hname, Token.text_of_lexeme hnext]

/-- A line that starts like a prototype declares one, whatever follows the word `takes`. -/
theorem ofStatement?_takes {mods : List Text} (hmods : ∀ m ∈ mods, m ∈ Keyword.modifiers)
    (r : Routine) {name : Text} (hname : IsWord name) {t : Text} {rest : List Text}
    (ht : Line.pieces t = (mods ++ [r.keyword, name]) ++ Keyword.takes :: rest) {w : Text}
    (hrest : HasWord w (Line.trailing rest)) :
    ∃ (a : Text) (takes : Token), Line.spaced t = a ++ takes.text ++ Line.trailing rest ∧
      takes.start = a.length ∧
      ofStatement? (Line.spaced t) = some (r.declaration (Prototype.ofClauses (Line.spaced t) name
        takes (Token.scanFrom takes.stop (Line.trailing rest)))) := by
  have hallWords : ∀ x ∈ mods ++ [r.keyword, name], IsWord x := by
    intro x hx
    rcases List.mem_append.mp hx with hx | hx
    · exact (isName_of_mem_modifiers x (hmods x hx)).1
    · rcases List.mem_pair.mp hx with rfl | rfl
      · exact r.isName_keyword.1
      · exact hname
  refine ⟨Line.leading (mods ++ [r.keyword, name]),
    ⟨.word, Keyword.takes, (Line.leading (mods ++ [r.keyword, name])).length⟩, ?_, rfl, ?_⟩
  · rw [Line.spaced_of_pieces ht, List.append_assoc]
  · have hscan := Token.scan_spaced (Token.scanFrom_word (by decide)) ht
    have hlead := Token.lexemes_leading (mods ++ [r.keyword, name])
    rw [Token.flatMap_lexemes_of_isWord hallWords, Token.lexemes, List.map_append,
      List.map_eq_append_iff] at hlead
    obtain ⟨ms, two, hlead, hms, htwo⟩ := hlead
    simp only [List.map_cons, List.map_nil, List.map_eq_cons_iff, List.map_eq_nil_iff] at htwo
    obtain ⟨sort, _, rfl, hsort, first, _, rfl, hfirst, rfl⟩ := htwo
    obtain ⟨next, later, hnext⟩ : ∃ next later, Token.scanFrom
        ((Line.leading (mods ++ [r.keyword, name])).length + Keyword.takes.length)
        (Line.trailing rest) = next :: later := by
      refine List.exists_cons_of_ne_nil fun he => ?_
      rw [HasWord, ← Token.map_lexeme_scanFrom, he] at hrest
      simp at hrest
    rw [hlead, List.append_assoc, hnext] at hscan
    have hkeyword := Token.isKeyword_iff.mpr hsort
    refine ofStatement?_eq_some_iff.mpr ⟨ms, sort, first, _, next, later, hscan,
      isModifier_of_map_lexeme hmods hms, (isModifier_of_isKeyword hkeyword).trans
        r.contains_keyword, ofTokens?_eq_some_iff.mpr ⟨Token.isWord_of_lexeme hfirst,
          Or.inr ⟨r, hkeyword, rfl, ?_⟩⟩⟩
    rw [Token.text_of_lexeme hfirst, ← hnext]
    rfl

/-- What stands in front of the return type of a prototype. -/
def headOf (mods : List Text) (r : Routine) (d : Prototype) : List Text :=
  mods ++ [r.keyword, d.name, Keyword.takes, Argument.clause d.arguments]

theorem pieces_headOf {mods : List Text} (hmods : ∀ m ∈ mods, m ∈ Keyword.modifiers) (r : Routine)
    {d : Prototype} (h : d.WellFormed) (rest : List Text) :
    Line.pieces (List.intercalate [' '] (headOf mods r d ++ rest)) =
      (mods ++ [r.keyword, d.name]) ++ Keyword.takes ::
        (Line.pieces (Argument.clause d.arguments) ++ rest.flatMap Line.pieces) := by
  have hpieces : mods.flatMap Line.pieces = mods.flatMap fun w => [w] :=
    List.flatMap_congr fun w hw =>
      Token.pieces_of_isWord (isName_of_mem_modifiers w (hmods w hw)).1
  have htakes : Line.pieces Keyword.takes = [Keyword.takes] := Token.pieces_of_isWord (by decide)
  rw [Line.pieces_intercalate, headOf, List.flatMap_append, List.flatMap_append, hpieces,
    List.flatMap_singleton']
  simp [Token.pieces_of_isWord r.isName_keyword.1, Token.pieces_of_isWord h.name.1, htakes]

theorem fits_headOf {mods : List Text} (hmods : ∀ m ∈ mods, m ∈ Keyword.modifiers) (r : Routine)
    {d : Prototype} (h : d.WellFormed) {rest : List Text}
    (hrest : ∀ t ∈ rest, Fits Keyword.globals t) :
    Fits Keyword.globals (List.intercalate [' '] (headOf mods r d ++ rest)) := by
  have hhead : ∀ t ∈ [r.keyword, d.name, Keyword.takes, Argument.clause d.arguments],
      Fits Keyword.globals t := by
    simp only [List.forall_mem_cons, List.not_mem_nil, false_implies, implies_true, and_true]
    exact ⟨r.isName_keyword.fits, h.name.fits, IsName.fits (by decide),
      Argument.fits_clause h.arguments⟩
  refine Token.fits_intercalate (by decide) fun t ht => ?_
  rw [headOf, List.mem_append, List.mem_append] at ht
  rcases ht with (ht | ht) | ht
  · exact (isName_of_mem_modifiers t (hmods t ht)).fits
  · exact hhead t ht
  · exact hrest t ht

theorem fits_prototype {mods : List Text} (hmods : ∀ m ∈ mods, m ∈ Keyword.modifiers)
    (r : Routine) {d : Prototype} (h : d.WellFormed) : Fits Keyword.globals
      (List.intercalate [' '] (headOf mods r d ++ [Keyword.returns, d.returnType])) := by
  refine fits_headOf hmods r h fun t ht => ?_
  rcases List.mem_pair.mp ht with rfl | rfl
  · exact IsName.fits (by decide)
  · exact h.returnType.fits

/-- A well-formed prototype is read back from its line. -/
theorem ofStatement?_prototype {mods : List Text} (hmods : ∀ m ∈ mods, m ∈ Keyword.modifiers)
    (r : Routine) {d : Prototype} (h : d.WellFormed) :
    ofStatement? (Line.spaced
      (List.intercalate [' '] (headOf mods r d ++ [Keyword.returns, d.returnType]))) =
        some (r.declaration d) := by
  have hpieces := pieces_headOf hmods r h [Keyword.returns, d.returnType]
  have hkeyword : Line.pieces Keyword.returns = [Keyword.returns] :=
    Token.pieces_of_isWord (by decide)
  rw [List.flatMap_cons, List.flatMap_singleton, hkeyword, List.singleton_append] at hpieces
  have hrest : HasWord Keyword.returns (Line.trailing (Line.pieces (Argument.clause d.arguments) ++
      Keyword.returns :: Line.pieces d.returnType)) := by
    rw [← Token.hasKeyword_scan, Token.scan, Token.scanFrom_trailing_append (by decide),
      Token.hasKeyword, List.any_append, List.any_cons, Bool.or_eq_true, Bool.or_eq_true]
    exact Or.inr (Or.inl rfl)
  obtain ⟨a, takes, hline, hstart, hd⟩ := ofStatement?_takes hmods r h.name.1 hpieces hrest
  have hreturns := Token.hasWord_trailing_pieces.not.mpr (Argument.noReturns_clause h.arguments)
  rw [hd, Prototype.ofClauses_trailing_returns hline hstart
      (Line.plain_spaced (fits_prototype hmods r h).plain) hreturns,
    Line.spaced_trailing_pieces, Line.spaced_trailing_pieces, h.returnType.spaced_eq,
    Argument.ofClause_clause h.arguments h.arguments_ne]

/-- An empty return type may be left out with its keyword, if the clause has a word. -/
theorem ofStatement?_prototype_of_returnType {mods : List Text}
    (hmods : ∀ m ∈ mods, m ∈ Keyword.modifiers) (r : Routine) {d : Prototype} (h : d.WellFormed)
    (hreturnType : d.returnType = []) {w : Text} (hw : HasWord w (Argument.clause d.arguments)) :
    ofStatement? (Line.spaced (List.intercalate [' '] (headOf mods r d))) =
      some (r.declaration d) := by
  have hpieces := pieces_headOf hmods r h []
  have hfits := fits_headOf hmods r h (List.forall_mem_nil (Fits Keyword.globals))
  rw [List.flatMap_nil, List.append_nil, List.append_nil] at hpieces
  rw [List.append_nil] at hfits
  obtain ⟨a, takes, hline, hstart, hd⟩ :=
    ofStatement?_takes hmods r h.name.1 hpieces (Token.hasWord_trailing_pieces.mpr hw)
  have hreturns := Token.hasWord_trailing_pieces.not.mpr (Argument.noReturns_clause h.arguments)
  rw [hd, Prototype.ofClauses_trailing hline hstart (Line.plain_spaced hfits.plain) hreturns,
    Line.spaced_trailing_pieces, Argument.ofClause_clause h.arguments h.arguments_ne, ← hreturnType]

end Declaration

end JassDecl
