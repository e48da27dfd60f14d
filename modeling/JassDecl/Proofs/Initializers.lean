import JassDecl.Proofs.GlobalLine
import JassDecl.Proofs.Layout
import JassDecl.TypeScript.Declarations

/-! # Initializers

The text behind the first `=` of a line in a block of globals is kept as a value, and decides
nothing else. No declaration file shows it.
-/

namespace JassDecl

/-! ## Lines with an initializer -/

namespace Line

theorem code_append_equals (h v : Text) :
    code (h ++ '=' :: v) = code h ++ if Uncommented h then '=' :: code v else [] :=
  code_append_cons (by decide) (by decide) h v

/-- Another line with the same start has the same words, but for those of its initializer. -/
theorem hasWord_normal_append_equals {keyword v : Text}
    (hv : ¬ Token.HasWord keyword (normal v)) (h : Text) :
    Token.HasWord keyword (normal (h ++ '=' :: v)) ↔ Token.HasWord keyword (normal h) := by
  rw [normal_eq_spaced, Token.hasWord_spaced] at hv
  rw [normal_eq_spaced, normal_eq_spaced, Token.hasWord_spaced, Token.hasWord_spaced,
    code_append_equals]
  split
  · rw [Token.hasWord_append_cons (by decide), or_iff_left hv]
  · rw [List.append_nil]

end Line

namespace GlobalDecl

/-- The same global with another value. -/
def withValue (value : Option Text) (d : GlobalDecl) : GlobalDecl :=
  { d with value := value }

theorem ofDeclarator?_eq_map (constant : Bool) (value : Option Text) (ws : List Text) :
    ofDeclarator? constant value ws = (ofDeclarator? constant none ws).map (withValue value) := by
  rw [ofDeclarator?.eq_def, ofDeclarator?.eq_def]
  split
  · split <;> rfl
  · rfl
  · rfl

theorem ofWords?_eq_map (ws : List Text) (value : Option Text) :
    ofWords? ws value = (ofWords? ws none).map (withValue value) := by
  rw [ofWords?, ofWords?]
  split
  · exact ofDeclarator?_eq_map true value _
  · exact ofDeclarator?_eq_map false value _

/-- The tokens in front of the first `=`, their columns left out. -/
def headLexemes (t : Text) : List (TokenKind × Text) :=
  (Token.lexemes t).takeWhile (· != (.operator, ['=']))

theorem map_lexeme_takeWhile (ts : List Token) :
    (ts.takeWhile (!·.isOperator '=')).map Token.lexeme =
      (ts.map Token.lexeme).takeWhile (· != (.operator, ['='])) := by
  rw [List.takeWhile_map]
  rfl

/-- All but the value is read from the tokens in front of the first `=`. -/
theorem ofLine?_eq_headLexemes (line : Text) :
    ofLine? line =
      if (headLexemes line).all (·.1 == .word) then
        ofWords? ((headLexemes line).map Prod.snd) (initializer? line (Token.scan line))
      else none := by
  rw [ofLine?_eq, headLexemes, Token.lexemes, ← map_lexeme_takeWhile, List.all_map, List.map_map]
  rfl

theorem headLexemes_append_equals (a b : Text) : headLexemes (a ++ '=' :: b) = headLexemes a := by
  rw [headLexemes, Token.lexemes_append_operator (by decide) (by decide), headLexemes]
  induction Token.lexemes a with
  | nil => rfl
  | cons l ls ih => rw [List.cons_append, List.takeWhile_cons, List.takeWhile_cons, ih]

theorem headLexemes_normal_append_equals (h v : Text) :
    headLexemes (Line.normal (h ++ '=' :: v)) = headLexemes (Line.normal h) := by
  have hspaced : ∀ t, headLexemes (Line.spaced t) = headLexemes t := fun t => by
    rw [headLexemes, Token.lexemes_spaced, headLexemes]
  rw [Line.normal_eq_spaced, Line.normal_eq_spaced, hspaced, hspaced, Line.code_append_equals]
  split
  · exact headLexemes_append_equals _ _
  · rw [List.append_nil]

/-- The global without a value that the start of a line declares. -/
def ofStart? (h : Text) : Option GlobalDecl :=
  if (headLexemes (Line.normal h)).all (·.1 == .word) then
    ofWords? ((headLexemes (Line.normal h)).map Prod.snd) none
  else none

/-- The start of a line decides whether it declares a global, and which one but for its value. -/
theorem ofLine?_normal_append_equals (h v : Text) :
    ∃ value, ofLine? (Line.normal (h ++ '=' :: v)) = (ofStart? h).map (withValue value) := by
  refine ⟨initializer? (Line.normal (h ++ '=' :: v)) (Token.scan (Line.normal (h ++ '=' :: v))), ?_⟩
  rw [ofLine?_eq_headLexemes, headLexemes_normal_append_equals, ofWords?_eq_map, ofStart?]
  split <;> rfl

end GlobalDecl

namespace Block

/-- The block and the declaration that a line with an initializer leaves, whatever the initializer
is. -/
theorem readNormal_inside_append_equals (openedAt number : Nat) (h : Text) :
    ∃ (after : Block) (head : Option GlobalDecl),
      ∀ v, ¬ Token.HasWord Keyword.endglobals (Line.normal v) →
        ∃ value, (inside openedAt).readNormal number (Line.normal (h ++ '=' :: v)) =
          (after, (head.map (GlobalDecl.withValue value)).map .global) := by
  by_cases hend : Token.HasWord Keyword.endglobals (Line.normal h)
  · refine ⟨.outside, none, fun v hv => ⟨none, ?_⟩⟩
    have hkeyword : Token.hasKeyword Keyword.endglobals
        (Token.scan (Line.normal (h ++ '=' :: v))) = true :=
      Token.hasKeyword_scan.mpr ((Line.hasWord_normal_append_equals hv h).mpr hend)
    rw [readNormal, if_pos hkeyword]
    rfl
  · refine ⟨.inside openedAt, GlobalDecl.ofStart? h, fun v hv => ?_⟩
    have hkeyword : ¬ Token.hasKeyword Keyword.endglobals
        (Token.scan (Line.normal (h ++ '=' :: v))) = true := fun hk =>
      hend ((Line.hasWord_normal_append_equals hv h).mp (Token.hasKeyword_scan.mp hk))
    obtain ⟨value, hvalue⟩ := GlobalDecl.ofLine?_normal_append_equals h v
    refine ⟨value, ?_⟩
    rw [readNormal, if_neg hkeyword, hvalue]

end Block

/-! ## Texts with an initializer -/

/-- The text that has the line `head=value` between the texts `before` and `behind`. -/
def Text.withInitializer (before head behind value : Text) : Text :=
  before ++ '\n' :: (head ++ '=' :: value ++ '\n' :: behind)

namespace Recognition

/-- What is read of such a text when the text before the line leaves a block open. -/
theorem exists_readLines_initializer {a h : Text} (hopen : (finalBlock a).isOpen = true)
    (hh : '\n' ∉ h) (b : Text) :
    ∃ (final : Block) (front behind : List Declaration) (head : Option GlobalDecl),
      ∀ v, '\n' ∉ v → ¬ Token.HasWord Keyword.endglobals (Line.normal v) → ∃ value,
        finalBlock (a.withInitializer h b v) = final ∧
        declarations (a.withInitializer h b v) =
          front ++ (((head.map (GlobalDecl.withValue value)).map .global).toList ++ behind) := by
  cases hblock : finalBlock a with
  | outside =>
      rw [hblock] at hopen
      exact absurd hopen (by decide)
  | inside openedAt =>
      obtain ⟨after, head, hread⟩ :=
        Block.readNormal_inside_append_equals openedAt (1 + (Text.lines a).length) h
      refine ⟨(after.readLines (1 + (Text.lines a).length + 1) (Text.lines b)).1, declarations a,
        (after.readLines (1 + (Text.lines a).length + 1) (Text.lines b)).2, head, ?_⟩
      intro v hv hend
      obtain ⟨value, hvalue⟩ := hread v hend
      have hline : '\n' ∉ h ++ '=' :: v := by simp [hh, hv]
      have hlines : Text.lines (h ++ '=' :: v ++ '\n' :: b) = (h ++ '=' :: v) :: Text.lines b := by
        rw [Text.lines_append, Text.lines_of_newline_notMem hline, List.singleton_append]
      refine ⟨value, ?_, ?_⟩
      · rw [Text.withInitializer, finalBlock_append, hblock, hlines, Block.readLines_cons, hvalue]
      · rw [Text.withInitializer, declarations_append, hblock, hlines, Block.readLines_cons, hvalue]

end Recognition

/-- Two libraries that differ at most in the value of one global. -/
structure Library.SameButValue (l m : Library) : Prop where
  types : l.types = m.types
  natives : l.natives = m.natives
  globals : l.globals = m.globals ∨ ∃ front d behind value,
    l.globals = front ++ d :: behind ∧
      m.globals = front ++ GlobalDecl.withValue value d :: behind
  functions : l.functions = m.functions

theorem Library.sameButValue_ofDeclarations (front behind : List Declaration)
    (head : Option GlobalDecl) (value value' : Option Text) :
    SameButValue
      (ofDeclarations (front ++ (((head.map (GlobalDecl.withValue value)).map .global).toList ++
        behind)))
      (ofDeclarations (front ++ (((head.map (GlobalDecl.withValue value')).map .global).toList ++
        behind))) := by
  cases head with
  | none => exact ⟨rfl, rfl, Or.inl rfl, rfl⟩
  | some d =>
      constructor
      all_goals
        simp only [ofDeclarations, Option.map_some, Option.toList_some, List.singleton_append,
          List.filterMap_append, List.filterMap_cons, Declaration.type?, Declaration.native?,
          Declaration.global?, Declaration.function?]
      exact Or.inr ⟨_, _, _, value', rfl, rfl⟩

/-- Values are not shown. -/
theorem TypeScript.globalLine_withValue (value : Option Text) (d : GlobalDecl) :
    globalLine (d.withValue value) = globalLine d :=
  rfl

theorem Library.SameButValue.declarationFile_eq {l m : Library} (h : l.SameButValue m)
    (table : Override.Table) :
    TypeScript.declarationFile table l = TypeScript.declarationFile table m := by
  have hglobals : l.globals.map TypeScript.globalLine = m.globals.map TypeScript.globalLine := by
    rcases h.globals with heq | ⟨front, d, behind, value, hl, hm⟩
    · rw [heq]
    · rw [hl, hm, List.map_append, List.map_append, List.map_cons, List.map_cons,
        TypeScript.globalLine_withValue]
  rw [TypeScript.declarationFile, TypeScript.declarationFile, TypeScript.declarationLines,
    TypeScript.declarationLines, h.types, h.natives, hglobals, h.functions]

namespace Recognition

/-- Inside a block of globals, the text behind the first `=` of a line changes nothing but the value
of the global in that line, if it does not hold the word that closes the block. -/
theorem ofSource_initializer (path : Text) {a h v w : Text} (b : Text)
    (hopen : (ofSource ⟨path, a⟩).ok = false) (hh : '\n' ∉ h) (hv : '\n' ∉ v) (hw : '\n' ∉ w)
    (hvend : Token.hasKeyword Keyword.endglobals (Token.scan (Line.normal v)) = false)
    (hwend : Token.hasKeyword Keyword.endglobals (Token.scan (Line.normal w)) = false) :
    (∀ table, TypeScript.ofSource table (a.withInitializer h b v) =
      TypeScript.ofSource table (a.withInitializer h b w)) ∧
    (ofSource ⟨path, a.withInitializer h b v⟩).diagnostics =
      (ofSource ⟨path, a.withInitializer h b w⟩).diagnostics ∧
    (ofSource ⟨path, a.withInitializer h b v⟩).library.SameButValue
      (ofSource ⟨path, a.withInitializer h b w⟩).library := by
  have hnot : ∀ {u}, Token.hasKeyword Keyword.endglobals (Token.scan (Line.normal u)) = false →
      ¬ Token.HasWord Keyword.endglobals (Line.normal u) := by
    intro u hu hword
    rw [Token.hasKeyword_scan.mpr hword] at hu
    exact absurd hu (by decide)
  rw [ok_ofSource, Bool.not_eq_false'] at hopen
  obtain ⟨final, front, behind, head, hread⟩ := exists_readLines_initializer hopen hh b
  obtain ⟨value, hfinal, hdeclarations⟩ := hread v hv (hnot hvend)
  obtain ⟨value', hfinal', hdeclarations'⟩ := hread w hw (hnot hwend)
  have hlibrary : (ofSource ⟨path, a.withInitializer h b v⟩).library.SameButValue
      (ofSource ⟨path, a.withInitializer h b w⟩).library := by
    rw [ofSource_eq, ofSource_eq, hdeclarations, hdeclarations']
    exact Library.sameButValue_ofDeclarations front behind head value value'
  refine ⟨fun table => hlibrary.declarationFile_eq table, ?_, hlibrary⟩
  rw [ofSource_eq, ofSource_eq, hfinal, hfinal']

/-- The closing word in a comment, and the opening word behind a second `=`. -/
theorem ofSource_initializer_keywords :
    let v := "\"// endglobals".toList
    let w := "a[1,2] = globals\r".toList
    let text := Text.withInitializer "globals".toList "real array x".toList "endglobals".toList
    (ofSource ⟨[], "globals".toList⟩).ok = false ∧
    Token.hasKeyword Keyword.endglobals (Token.scan (Line.normal v)) = false ∧
    Token.hasKeyword Keyword.endglobals (Token.scan (Line.normal w)) = false ∧
    (∀ table, TypeScript.ofSource table (text v) = TypeScript.ofSource table (text w)) ∧
    (ofSource ⟨[], text v⟩).diagnostics = (ofSource ⟨[], text w⟩).diagnostics ∧
    (ofSource ⟨[], text v⟩).library.SameButValue (ofSource ⟨[], text w⟩).library ∧
    (ofSource ⟨[], text v⟩).library.globals =
      [⟨false, "real".toList, true, "x".toList, some "\"".toList⟩] ∧
    (ofSource ⟨[], text w⟩).library.globals =
      [⟨false, "real".toList, true, "x".toList, some "a[1,2] = globals".toList⟩] := by
  intro v w text
  have hopen : (ofSource ⟨[], "globals".toList⟩).ok = false := by decide
  have hvend : Token.hasKeyword Keyword.endglobals (Token.scan (Line.normal v)) = false := by decide
  have hwend : Token.hasKeyword Keyword.endglobals (Token.scan (Line.normal w)) = false := by decide
  obtain ⟨hfile, hdiagnostics, hlibrary⟩ := ofSource_initializer [] (h := "real array x".toList)
    "endglobals".toList hopen (by decide) (v := v) (by decide) (w := w) (by decide) hvend hwend
  exact ⟨hopen, hvend, hwend, hfile, hdiagnostics, hlibrary, by decide, by decide⟩

end Recognition

end JassDecl
