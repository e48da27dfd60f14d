import JassDecl.Proofs.Initializers
import JassDecl.Proofs.WholeWords

/-! # The grammar of lines in a block of globals

The lines inside a block of globals that declare something, described by their characters.
-/

namespace JassDecl

open Line (Blanks Gap)
open Token (Breaks IsWord Occurs)

/-! ## The grammar -/

/-- What is left of a line behind the word `constant`, if that is its first token, and the whole
line if it is not. -/
inductive Unmarked : Bool → Text → Text → Prop where
  | constant {r u : Text} (hr : Blanks r) (hu : Breaks u) :
      Unmarked true (r ++ (Keyword.constant ++ u)) u
  | other {t : Text} (ht : ∀ r u, Blanks r → Breaks u → t ≠ r ++ (Keyword.constant ++ u)) :
      Unmarked false t t

/-- The part of a text up to its first `=`, and the value that is written behind it. -/
inductive Initialized : Text → Text → Option Text → Prop where
  | value {h : Text} (hh : '=' ∉ h) (v : Text) :
      Initialized (h ++ '=' :: v) h (Text.nonempty? (Line.normal v))
  | none {h : Text} (hh : '=' ∉ h) : Initialized h h none

/-- A type and a name, and for an array the word `array` between the two. Blanks part the words and
may stand at both ends. -/
inductive Declarator (type name : Text) : Bool → Text → Prop where
  | scalar {r r₁ s : Text} (hr : Blanks r) (htype : IsWord type) (hr₁ : Gap r₁)
      (hname : IsWord name) (hs : Blanks s) :
      Declarator type name false (r ++ (type ++ (r₁ ++ (name ++ s))))
  | array {r r₁ r₂ s : Text} (hr : Blanks r) (htype : IsWord type) (hr₁ : Gap r₁) (hr₂ : Gap r₂)
      (hname : IsWord name) (hs : Blanks s) :
      Declarator type name true (r ++ (type ++ (r₁ ++ (Keyword.array ++ (r₂ ++ (name ++ s))))))

/-- A line that declares a global. -/
def GlobalLine (t : Text) (d : GlobalDecl) : Prop :=
  ∃ u h, Unmarked d.constant t u ∧ Initialized u h d.value ∧ Declarator d.type d.name d.array h

theorem exists_unmarked (t : Text) : ∃ constant u, Unmarked constant t u := by
  by_cases h : ∃ r u, Blanks r ∧ Breaks u ∧ t = r ++ (Keyword.constant ++ u)
  · obtain ⟨r, u, hr, hu, rfl⟩ := h
    exact ⟨true, u, .constant hr hu⟩
  · exact ⟨false, t, .other fun r u hr hu ht => h ⟨r, u, hr, hu, ht⟩⟩

theorem exists_initialized (u : Text) : ∃ h value, Initialized u h value := by
  by_cases hu : '=' ∈ u
  · obtain ⟨h, v, rfl, hh⟩ := List.eq_append_cons_of_mem hu
    exact ⟨h, _, .value hh v⟩
  · exact ⟨u, _, .none hu⟩

/-! ## Declarators and tokens -/

theorem declarator_iff {type name h : Text} {array : Bool} : Declarator type name array h ↔
    Token.lexemes h =
      ([type] ++ (if array then [Keyword.array] else []) ++ [name]).map (Prod.mk .word) := by
  constructor
  · rintro (⟨hr, htype, hr₁, hname, hs⟩ | ⟨hr, htype, hr₁, hr₂, hname, hs⟩)
    · rw [Token.lexemes_blanks_append hr, Token.lexemes_word_append htype (.of_gap hr₁ _),
        (Token.lexemes_eq_word_iff_of_breaks (.of_gap hr₁ _)).mpr ⟨_, _, rfl, hr₁, hname, hs⟩]
      rfl
    · rw [Token.lexemes_blanks_append hr, Token.lexemes_word_append htype (.of_gap hr₁ _),
        Token.lexemes_blanks_append hr₁.2, Token.lexemes_word_append (by decide) (.of_gap hr₂ _),
        (Token.lexemes_eq_word_iff_of_breaks (.of_gap hr₂ _)).mpr ⟨_, _, rfl, hr₂, hname, hs⟩]
      rfl
  · intro hlexemes
    obtain ⟨r, t, rfl, hr, htype, ht, hlexemes⟩ := Token.lexemes_eq_word_cons_iff.mp hlexemes
    cases array with
    | false =>
        obtain ⟨r₁, s, rfl, hr₁, hname, hs⟩ := (Token.lexemes_eq_word_iff_of_breaks ht).mp hlexemes
        exact .scalar hr htype hr₁ hname hs
    | true =>
        obtain ⟨r₁, t', rfl, hr₁, -, ht', hlexemes⟩ :=
          (Token.lexemes_eq_word_cons_iff_of_breaks ht).mp hlexemes
        obtain ⟨r₂, s, rfl, hr₂, hname, hs⟩ :=
          (Token.lexemes_eq_word_iff_of_breaks ht').mp hlexemes
        exact .array hr htype hr₁ hr₂ hname hs

/-- The two forms of declarators have no text in common. -/
theorem Declarator.inj {type name type' name' h : Text} {array array' : Bool}
    (hd : Declarator type name array h) (hd' : Declarator type' name' array' h) :
    type = type' ∧ name = name' ∧ array = array' := by
  rw [declarator_iff] at hd hd'
  have hwords := hd.symm.trans hd'
  cases array <;> cases array' <;> simp_all

/-! ## The text behind a character -/

/-- The text behind the first `c`. -/
def Text.behind (c : Char) (t : Text) : Text :=
  (t.dropWhile (· != c)).tail

namespace Text

variable {c : Char} {a : Text}

theorem behind_append_of_notMem (ha : c ∉ a) (b : Text) : behind c (a ++ b) = behind c b := by
  rw [behind, List.dropWhile_append_of_pos, behind]
  intro x hx
  simpa using fun he : x = c => ha (he ▸ hx)

theorem behind_cons_self (c : Char) (t : Text) : behind c (c :: t) = t := by
  rw [behind, List.dropWhile_cons_of_neg (by simp), List.tail_cons]

theorem behind_of_notMem (ha : c ∉ a) : behind c a = [] := by
  have h := behind_append_of_notMem ha []
  rwa [List.append_nil] at h

theorem behind_append_of_mem (ha : c ∈ a) (b : Text) : behind c (a ++ b) = behind c a ++ b := by
  obtain ⟨x, y, rfl, hx⟩ := List.eq_append_cons_of_mem ha
  rw [List.append_assoc, behind_append_of_notMem hx, behind_append_of_notMem hx, List.cons_append,
    behind_cons_self, behind_cons_self]

end Text

/-- Behind the same character, the normal form of a text has the same pieces. -/
theorem Line.pieces_behind_spaced {c : Char} (hc : isBlank c = false) (t : Text) :
    pieces (Text.behind c (spaced t)) = pieces (Text.behind c t) := by
  induction t using Text.marks_induction isBlank with
  | free t ht => rw [spaced_of_free ht]
  | mark a x b ha hx ih =>
      have hne : ∀ y, isBlank y = true → c ∉ [y] := by
        intro y hy hm
        rw [List.mem_singleton.mp hm, hy] at hc
        exact absurd hc (by decide)
      by_cases hca : c ∈ a
      · rw [Text.behind_append_of_mem hca, pieces_append_blank hx]
        rcases spaced_append_blank ha hx b with ⟨rfl, -⟩ | ⟨-, hb, hs⟩ | ⟨-, -, hs⟩
        · simp at hca
        · rw [hs, hb, List.append_nil]
        · rw [hs, Text.behind_append_of_mem hca, pieces_append_space, pieces_spaced]
      · rw [Text.behind_append_of_notMem hca, ← List.singleton_append,
          Text.behind_append_of_notMem (hne x hx), ← ih]
        rcases spaced_append_blank ha hx b with ⟨-, hs⟩ | ⟨-, hb, hs⟩ | ⟨-, -, hs⟩
        · rw [← hs, List.singleton_append]
        · rw [← List.singleton_append] at hs
          rw [hs, spaced_eq_nil hb, Text.behind_of_notMem hca]
          rfl
        · rw [← List.singleton_append] at hs
          rw [hs, Text.behind_append_of_notMem hca, ← List.singleton_append,
            Text.behind_append_of_notMem (hne ' ' rfl)]

/-! ## Initialized texts -/

theorem Initialized.append_left {p u h : Text} {value : Option Text} (hp : '=' ∉ p)
    (hu : Initialized u h value) : Initialized (p ++ u) (p ++ h) value := by
  cases hu with
  | value hh v =>
      rw [← List.append_assoc]
      exact .value (by simp [hp, hh]) v
  | none hh => exact .none (by simp [hp, hh])

/-- No word runs over the end of the part up to the first `=`. -/
theorem Initialized.exists_eq_append {u h : Text} {value : Option Text}
    (hu : Initialized u h value) : ∃ t, u = h ++ t ∧ Breaks t := by
  cases hu with
  | value hh v => exact ⟨'=' :: v, rfl, by simp [Breaks, Token.isWordChar]⟩
  | none hh => exact ⟨[], by simp, by simp [Breaks]⟩

namespace GlobalDecl

theorem headLexemes_of_initialized {t h : Text} {value : Option Text}
    (ht : Initialized t h value) : headLexemes t = Token.lexemes h := by
  have hall : ∀ {h : Text}, '=' ∉ h → headLexemes h = Token.lexemes h := by
    intro h hh
    rw [headLexemes, Token.lexemes, ← map_lexeme_takeWhile, List.takeWhile_eq_self_iff.mpr]
    intro tok htok
    rw [Token.isOperator_eq_false_of_scanFrom hh tok htok]
    rfl
  cases ht with
  | value hh v => rw [headLexemes_append_equals, hall hh]
  | none hh => exact hall hh

theorem find?_equals_of_notMem {t : Text} (h : '=' ∉ t) (n : Nat) :
    (Token.scanFrom n t).find? (Token.isOperator '=') = none :=
  List.find?_eq_none.mpr fun tok htok => by
    simp [Token.isOperator_eq_false_of_scanFrom h tok htok]

theorem mem_equals_spaced (h v : Text) : '=' ∈ Line.spaced (h ++ '=' :: v) := by
  have hmem : (TokenKind.operator, ['=']) ∈ Token.lexemes (Line.spaced (h ++ '=' :: v)) := by
    rw [Token.lexemes_spaced, Token.lexemes_append_operator (by decide) (by decide)]
    simp
  obtain ⟨tok, htok, hlexeme⟩ := List.mem_map.mp hmem
  have htext : tok.text = ['='] := Token.text_of_lexeme hlexeme
  exact Token.subset_of_mem_scanFrom htok (by simp [htext])

/-- The value of a line is read from its normal form. -/
theorem initializer?_spaced {t h : Text} {value : Option Text} (hplain : Line.Plain t)
    (ht : Initialized t h value) :
    initializer? (Line.spaced t) (Token.scan (Line.spaced t)) = value := by
  cases ht with
  | none hh =>
      have hspaced : '=' ∉ Line.spaced t := fun hm =>
        (Line.mem_of_mem_spaced hm).elim (by decide) hh
      rw [initializer?, Token.scan, find?_equals_of_notMem hspaced]
  | value hh v =>
      obtain ⟨a, b, hab, ha⟩ := List.eq_append_cons_of_mem (mem_equals_spaced h v)
      have hscan : Token.scan (a ++ '=' :: b) =
          Token.scanFrom 0 a ++ ⟨.operator, ['='], 0 + a.length⟩ ::
            Token.scanFrom (0 + a.length + 1) b := by
        rw [Token.scan, Token.scanFrom_append 0 (Token.apart_of_head? (by simp [Token.isWordChar])),
          Token.scanFrom_operator (by decide) (by decide)]
      have hdrop : (a ++ '=' :: b).drop (Token.stop ⟨.operator, ['='], 0 + a.length⟩) = b := by
        simp [Token.stop]
      have hpieces : Line.pieces b = Line.pieces v := by
        have hbehind := Line.pieces_behind_spaced (c := '=') (by decide) (h ++ '=' :: v)
        rwa [hab, Text.behind_append_of_notMem ha, Text.behind_append_of_notMem hh,
          Text.behind_cons_self, Text.behind_cons_self] at hbehind
      have hv : Line.Plain v := hplain.of_isInfix ⟨h ++ ['='], [], by simp⟩
      have hb : Line.Plain b :=
        (Line.plain_spaced hplain).of_isInfix ⟨a ++ ['='], [], by simp [hab]⟩
      rw [hab, hscan, initializer?, List.find?_append, find?_equals_of_notMem ha, Option.none_or,
        List.find?_cons_of_pos rfl]
      simp only [hdrop]
      rw [Line.normal_of_plain hb, Line.normal_of_plain hv, Line.spaced_congr hpieces]

/-! ## Lines and characters -/

theorem ofLine?_normal_of_initialized {raw t h : Text} {value : Option Text}
    (hraw : Line.code raw = t) (ht : Initialized t h value) :
    ofLine? (Line.normal raw) =
      if (Token.lexemes h).all (·.1 == .word) then
        ofWords? ((Token.lexemes h).map Prod.snd) value
      else none := by
  have hplain : Line.Plain t := hraw ▸ Line.plain_code raw
  rw [ofLine?_eq_headLexemes, Line.normal_eq_spaced, hraw, headLexemes, Token.lexemes_spaced,
    ← headLexemes, headLexemes_of_initialized ht, initializer?_spaced hplain ht]

/-- The word `constant` is a marker if it is the first token, and only then. -/
theorem ofLine?_normal_of_unmarked {raw u h : Text} {constant : Bool} {value : Option Text}
    (ht : Unmarked constant (Line.code raw) u) (hu : Initialized u h value) :
    ofLine? (Line.normal raw) =
      if (Token.lexemes h).all (·.1 == .word) then
        ofDeclarator? constant value ((Token.lexemes h).map Prod.snd)
      else none := by
  obtain ⟨t, htail, hbreaks⟩ := hu.exists_eq_append
  generalize hraw : Line.code raw = line at ht
  cases ht with
  | @constant r _ hr hb =>
      have hr' : '=' ∉ r := fun hm => absurd (hr _ hm) (by decide)
      rw [htail] at hb
      rw [ofLine?_normal_of_initialized hraw ((hu.append_left (by decide)).append_left hr'),
        Token.lexemes_blanks_append hr, Token.lexemes_word_append (by decide) hb.of_append]
      rfl
  | other hother =>
      rw [ofLine?_normal_of_initialized hraw hu]
      refine if_ctx_congr Iff.rfl (fun hall => ?_) fun _ => rfl
      rw [ofWords?, if_neg]
      intro hhead
      -- A first word `constant` in front of the value would be the first token of the line.
      obtain ⟨⟨kind, w⟩, ls, hls⟩ : ∃ l ls, Token.lexemes h = l :: ls :=
        List.exists_cons_of_ne_nil fun hnil => by simp [hnil] at hhead
      rw [hls] at hhead hall
      obtain rfl : w = Keyword.constant := by simpa using hhead
      obtain rfl : kind = .word := by simpa using (List.all_eq_true.mp hall) _ List.mem_cons_self
      obtain ⟨r, rest, rfl, hr, -, hrest, -⟩ := Token.lexemes_eq_word_cons_iff.mp hls
      refine hother r (rest ++ t) hr (hrest.append_breaks hbreaks) ?_
      rw [htail]
      simp

theorem eq_map_word_iff {ls : List (TokenKind × Text)} {ws : List Text} :
    ls = ws.map (Prod.mk .word) ↔ ls.all (·.1 == .word) = true ∧ ls.map Prod.snd = ws := by
  constructor
  · rintro rfl
    simp [Function.comp_def]
  · rintro ⟨hall, rfl⟩
    have hid : ls.map (Prod.mk TokenKind.word ∘ Prod.snd) = ls.map id := by
      refine List.map_congr_left fun l hl => Prod.ext ?_ rfl
      exact (beq_iff_eq.mp (List.all_eq_true.mp hall l hl)).symm
    rw [List.map_map, hid, List.map_id]

theorem ofLine?_normal_eq_some_iff {raw : Text} {d : GlobalDecl} :
    ofLine? (Line.normal raw) = some d ↔ GlobalLine (Line.code raw) d := by
  have hread : ∀ {constant u h value}, Unmarked constant (Line.code raw) u →
      Initialized u h value → (ofLine? (Line.normal raw) = some d ↔
        Declarator d.type d.name d.array h ∧ constant = d.constant ∧ value = d.value) := by
    intro constant u h value ht hu
    rw [ofLine?_normal_of_unmarked ht hu, declarator_iff, eq_map_word_iff,
      Option.ite_none_right_eq_some, ofDeclarator?_eq_some_iff, and_assoc]
  constructor
  · intro hd
    obtain ⟨constant, u, ht⟩ := exists_unmarked (Line.code raw)
    obtain ⟨h, value, hu⟩ := exists_initialized u
    obtain ⟨hdeclarator, rfl, rfl⟩ := (hread ht hu).mp hd
    exact ⟨u, h, ht, hu, hdeclarator⟩
  · rintro ⟨u, h, ht, hu, hdeclarator⟩
    exact (hread ht hu).mpr ⟨hdeclarator, rfl, rfl⟩

end GlobalDecl

namespace Block

/-- A line inside a block of globals, without the word that closes the block, adds at most one
global and leaves the block open. It adds a global exactly if its characters have that shape, and
then the one that they say; no text is a declarator of both forms. -/
theorem readLines_append_globalLine {before : List Text} {openedAt : Nat}
    (hbefore : (Block.outside.readLines 1 before).1 = .inside openedAt) {raw : Text}
    (hraw : ¬ Occurs Keyword.endglobals (Line.code raw)) :
    ∃ decl : Option GlobalDecl,
      Block.outside.readLines 1 (before ++ [raw]) =
        (.inside openedAt, (Block.outside.readLines 1 before).2 ++ (decl.map .global).toList) ∧
      Library.ofDeclarations (Block.outside.readLines 1 (before ++ [raw])).2 =
        Library.ofDeclarations (Block.outside.readLines 1 before).2 ++ { globals := decl.toList } ∧
      (∀ d, decl = some d ↔ GlobalLine (Line.code raw) d) ∧
      ∀ {h type name type' name' array array'}, Declarator type name array h →
        Declarator type' name' array' h → type = type' ∧ name = name' ∧ array = array' := by
  have hkeyword : ¬ Token.hasKeyword Keyword.endglobals (Token.scan (Line.normal raw)) = true := by
    rw [Token.hasKeyword_scan, Line.normal_eq_spaced, Token.hasWord_spaced,
      Token.hasWord_iff_occurs (by decide)]
    exact hraw
  have hread : Block.outside.readLines 1 (before ++ [raw]) =
      (.inside openedAt, (Block.outside.readLines 1 before).2 ++
        ((GlobalDecl.ofLine? (Line.normal raw)).map .global).toList) := by
    rw [readLines_append, hbefore, readLines_cons, readNormal, if_neg hkeyword]
    simp only [readLines, List.append_nil]
  refine ⟨GlobalDecl.ofLine? (Line.normal raw), hread, ?_, fun d => ?_, Declarator.inj⟩
  · rw [hread, Library.ofDeclarations_append]
    congr 1
    cases GlobalDecl.ofLine? (Line.normal raw) <;> rfl
  · exact GlobalDecl.ofLine?_normal_eq_some_iff

/-- The word `array` as a type, as the marker and as a name, behind the marker `constant`. -/
theorem readLines_append_globalLine_array :
    let raw := "\tconstant array\tarray array=[1]  == 2 // endglobals".toList
    let d : GlobalDecl := ⟨true, Keyword.array, true, Keyword.array, some "[1] == 2".toList⟩
    (Block.outside.readLines 1 [Keyword.globals]).1 = .inside 1 ∧
    ¬ Occurs Keyword.endglobals (Line.code raw) ∧
    ∀ d', GlobalLine (Line.code raw) d' ↔ d' = d := by
  intro raw d
  have hbefore : (Block.outside.readLines 1 [Keyword.globals]).1 = .inside 1 := by decide
  have hraw : ¬ Occurs Keyword.endglobals (Line.code raw) := by
    rw [← Token.hasWord_iff_occurs (by decide)]
    decide
  obtain ⟨decl, hread, -, hline, -⟩ := readLines_append_globalLine hbefore hraw
  have hdecls : (decl.map Declaration.global).toList = [.global d] :=
    (congrArg Prod.snd hread).symm.trans (by decide)
  have hdecl : decl = some d := by
    cases decl with
    | none => simp at hdecls
    | some d' => simpa using hdecls
  refine ⟨hbefore, hraw, fun d' => ?_⟩
  rw [← hline, hdecl, Option.some.injEq, eq_comm]

end Block

end JassDecl
