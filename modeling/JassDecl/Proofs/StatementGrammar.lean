import JassDecl.Proofs.BlockRun
import JassDecl.Proofs.StatementLine
import JassDecl.Proofs.WholeWords

/-! # The grammar of statements

The lines outside a block of globals that declare something, described by their characters.
-/

namespace JassDecl

open Line (Blanks Gap)
open Token (Breaks IsWord Occurs)

/-! ## The grammar -/

/-- Modifiers, with a gap behind each. -/
inductive Modifiers : Text → Prop where
  | nil : Modifiers []
  | cons {m r t : Text} (hm : m ∈ Keyword.modifiers) (hr : Gap r) (ht : Modifiers t) :
      Modifiers (m ++ (r ++ t))

/-- A line up to and with the word `link`: blanks and modifiers, and then the words `sort`, `name`
and `link` with gaps between them. The rest of the line does not go on with the last word. -/
def Heading (sort name link t rest : Text) : Prop :=
  ∃ r ms r₁ r₂, t = r ++ ms ++ sort ++ r₁ ++ name ++ r₂ ++ link ++ rest ∧
    Blanks r ∧ Modifiers ms ∧ Gap r₁ ∧ IsWord name ∧ Gap r₂ ∧ Breaks rest

/-- A line that declares a type. -/
def TypeLine (t name parent : Text) : Prop :=
  ∃ r rest, Heading Keyword.type name Keyword.extending t (r ++ parent ++ rest) ∧
    Gap r ∧ IsWord parent ∧ Breaks rest

/-- A line that declares a native or a function. Something stands behind the word `takes`. -/
def RoutineLine (r : Routine) (t name : Text) : Prop :=
  ∃ rest, Heading r.keyword name Keyword.takes t rest ∧ ∃ c ∈ rest, Line.isBlank c = false

/-! ## Modifiers and tokens -/

theorem isWord_of_mem_modifiers {m : Text} (hm : m ∈ Keyword.modifiers) : IsWord m :=
  (isName_of_mem_modifiers m hm).1

theorem Modifiers.lexemes_append {ms : Text} (h : Modifiers ms) : ∃ mods : List Text,
    (∀ m ∈ mods, m ∈ Keyword.modifiers) ∧
      ∀ t, Token.lexemes (ms ++ t) = mods.map (Prod.mk .word) ++ Token.lexemes t := by
  induction h with
  | nil => exact ⟨[], by simp, fun t => rfl⟩
  | @cons m r ms hm hr _ ih =>
      obtain ⟨mods, hmods, happend⟩ := ih
      refine ⟨m :: mods, List.forall_mem_cons.mpr ⟨hm, hmods⟩, fun t => ?_⟩
      have hbreaks : Breaks (r ++ (ms ++ t)) := .of_gap hr _
      rw [List.append_assoc, List.append_assoc,
        Token.lexemes_word_append (isWord_of_mem_modifiers hm) hbreaks,
        Token.lexemes_blanks_append hr.2, happend]
      rfl

/-- A text that starts with modifiers or with another word goes on with the word in front of it. -/
theorem Modifiers.not_breaks {ms w : Text} (h : Modifiers ms) (hw : IsWord w) (t : Text) :
    ¬ Breaks (ms ++ (w ++ t)) := by
  cases h with
  | nil => exact Token.not_breaks_of_isWord hw t
  | cons hm hr _ =>
      rw [List.append_assoc]
      exact Token.not_breaks_of_isWord (isWord_of_mem_modifiers hm) _

theorem exists_modifiers_of_lexemes {mods : List Text} (hmods : ∀ m ∈ mods, m ∈ Keyword.modifiers)
    {t w : Text} {ls : List (TokenKind × Text)}
    (h : Token.lexemes t = mods.map (Prod.mk .word) ++ (.word, w) :: ls) :
    ∃ r ms rest, t = r ++ (ms ++ (w ++ rest)) ∧ Blanks r ∧ Modifiers ms ∧ IsWord w ∧ Breaks rest ∧
      Token.lexemes rest = ls := by
  induction mods generalizing t with
  | nil =>
      obtain ⟨r, rest, ht, hr, hw, hrest, hls⟩ := Token.lexemes_eq_word_cons_iff.mp h
      exact ⟨r, [], rest, ht, hr, .nil, hw, hrest, hls⟩
  | cons m mods ih =>
      obtain ⟨hm, hmods⟩ := List.forall_mem_cons.mp hmods
      obtain ⟨r, t', rfl, hr, -, ht', hlexemes⟩ := Token.lexemes_eq_word_cons_iff.mp h
      obtain ⟨r', ms, rest, rfl, hr', hms, hw, hrest, hls⟩ := ih hmods hlexemes
      -- The word behind a modifier is a token of its own, so blanks stand between the two.
      have hne : r' ≠ [] := fun hnil => by
        rw [hnil] at ht'
        exact hms.not_breaks hw rest ht'
      exact ⟨r, m ++ (r' ++ ms), rest, by simp, hr, .cons hm ⟨hne, hr'⟩ hms, hw, hrest, hls⟩

/-- The tokens of a line that starts, after modifiers, with three words and something else. -/
def StartsWith (sort name link : Text) (later ls : List (TokenKind × Text)) : Prop :=
  ∃ mods : List Text, (∀ m ∈ mods, m ∈ Keyword.modifiers) ∧
    ls = mods.map (Prod.mk .word) ++ (.word, sort) :: (.word, name) :: (.word, link) :: later

theorem startsWith_lexemes_iff {sort link : Text} (hsort : IsWord sort) (hlink : IsWord link)
    {name t : Text} {later : List (TokenKind × Text)} :
    StartsWith sort name link later (Token.lexemes t) ↔
      ∃ rest, Heading sort name link t rest ∧ Token.lexemes rest = later := by
  constructor
  · rintro ⟨mods, hmods, h⟩
    obtain ⟨r, ms, t₁, rfl, hr, hms, -, ht₁, h⟩ := exists_modifiers_of_lexemes hmods h
    obtain ⟨r₁, t₂, rfl, hr₁, hname, ht₂, h⟩ := (Token.lexemes_eq_word_cons_iff_of_breaks ht₁).mp h
    obtain ⟨r₂, rest, rfl, hr₂, -, hrest, h⟩ := (Token.lexemes_eq_word_cons_iff_of_breaks ht₂).mp h
    exact ⟨rest, ⟨r, ms, r₁, r₂, by simp, hr, hms, hr₁, hname, hr₂, hrest⟩, h⟩
  · rintro ⟨rest, ⟨r, ms, r₁, r₂, rfl, hr, hms, hr₁, hname, hr₂, hrest⟩, rfl⟩
    obtain ⟨mods, hmods, happend⟩ := hms.lexemes_append
    refine ⟨mods, hmods, ?_⟩
    simp only [List.append_assoc]
    rw [Token.lexemes_blanks_append hr, happend, Token.lexemes_word_append hsort (.of_gap hr₁ _),
      Token.lexemes_blanks_append hr₁.2, Token.lexemes_word_append hname (.of_gap hr₂ _),
      Token.lexemes_blanks_append hr₂.2, Token.lexemes_word_append hlink hrest]

theorem typeLine_iff {t name parent : Text} :
    TypeLine t name parent ↔ ∃ later, StartsWith Keyword.type name Keyword.extending
      ((.word, parent) :: later) (Token.lexemes t) := by
  simp only [startsWith_lexemes_iff (by decide : IsWord Keyword.type)
    (by decide : IsWord Keyword.extending)]
  constructor
  · rintro ⟨r, rest, hheading, hr, hparent, hrest⟩
    refine ⟨Token.lexemes rest, _, hheading, ?_⟩
    rw [List.append_assoc, Token.lexemes_blanks_append hr.2,
      Token.lexemes_word_append hparent hrest]
  · rintro ⟨later, t', hheading, h⟩
    have ht' : Breaks t' := by
      obtain ⟨-, -, -, -, -, -, -, -, -, -, hbreaks⟩ := hheading
      exact hbreaks
    obtain ⟨r, rest, rfl, hr, hparent, hrest, -⟩ :=
      (Token.lexemes_eq_word_cons_iff_of_breaks ht').mp h
    rw [← List.append_assoc] at hheading
    exact ⟨r, rest, hheading, hr, hparent, hrest⟩

theorem routineLine_iff {r : Routine} {t name : Text} :
    RoutineLine r t name ↔ ∃ next later, StartsWith r.keyword name Keyword.takes (next :: later)
      (Token.lexemes t) := by
  simp only [startsWith_lexemes_iff r.isName_keyword.1 (by decide : IsWord Keyword.takes)]
  have hblanks : ∀ rest : Text, (∃ c ∈ rest, Line.isBlank c = false) ↔
      ∃ next later, Token.lexemes rest = next :: later := by
    intro rest
    rw [← List.ne_nil_iff_exists_cons, Ne, Token.lexemes_eq_nil_iff, Blanks]
    simp
  constructor
  · rintro ⟨rest, hheading, hrest⟩
    obtain ⟨next, later, h⟩ := (hblanks rest).mp hrest
    exact ⟨next, later, rest, hheading, h⟩
  · rintro ⟨next, later, rest, hheading, h⟩
    exact ⟨rest, hheading, (hblanks rest).mpr ⟨next, later, h⟩⟩

/-! ## Statements and tokens -/

namespace Declaration

theorem map_lexeme_of_isModifier {ms : List Token} (h : ∀ t ∈ ms, isModifier t = true) :
    ms.map Token.lexeme = (ms.map Token.text).map (Prod.mk .word) ∧
      ∀ m ∈ ms.map Token.text, m ∈ Keyword.modifiers := by
  have hms : ∀ t ∈ ms, t.kind = .word ∧ t.text ∈ Keyword.modifiers := by
    intro t ht
    have hmodifier := h t ht
    rw [isModifier, Bool.and_eq_true, Token.isWord, beq_iff_eq, List.contains_iff_mem] at hmodifier
    exact hmodifier
  constructor
  · rw [List.map_map]
    refine List.map_congr_left fun t ht => ?_
    rw [Token.lexeme, (hms t ht).1]
    rfl
  · intro m hm
    obtain ⟨t, ht, rfl⟩ := List.mem_map.mp hm
    exact (hms t ht).2

/-- The tokens of a line that starts, after modifiers, with three words and another token. -/
theorem startsWith_lexemes_cons_iff {line sort name link : Text} {next : TokenKind × Text}
    {later : List (TokenKind × Text)} :
    StartsWith sort name link (next :: later) (Token.lexemes line) ↔
      ∃ ms s n l x ts, Token.scan line = ms ++ s :: n :: l :: x :: ts ∧
        (∀ t ∈ ms, isModifier t = true) ∧ s.lexeme = (.word, sort) ∧ n.lexeme = (.word, name) ∧
        l.lexeme = (.word, link) ∧ x.lexeme = next ∧ ts.map Token.lexeme = later := by
  constructor
  · rintro ⟨mods, hmods, h⟩
    rw [Token.lexemes, List.map_eq_append_iff] at h
    obtain ⟨ms, _, hscan, hms, h⟩ := h
    simp only [List.map_eq_cons_iff] at h
    obtain ⟨s, _, rfl, hs, n, _, rfl, hn, l, _, rfl, hl, x, ts, rfl, hx, hts⟩ := h
    exact ⟨ms, s, n, l, x, ts, hscan, isModifier_of_map_lexeme hmods hms, hs, hn, hl, hx, hts⟩
  · rintro ⟨ms, s, n, l, x, ts, hscan, hms, hs, hn, hl, rfl, rfl⟩
    obtain ⟨hlexemes, hmods⟩ := map_lexeme_of_isModifier hms
    refine ⟨ms.map Token.text, hmods, ?_⟩
    rw [Token.lexemes, hscan, List.map_append, hlexemes, List.map_cons, List.map_cons,
      List.map_cons, List.map_cons, hs, hn, hl]

theorem ofStatement?_eq_type_iff {line name parent : Text} :
    ofStatement? line = some (.type ⟨name, parent⟩) ↔ ∃ later,
      StartsWith Keyword.type name Keyword.extending ((.word, parent) :: later)
        (Token.lexemes line) := by
  simp only [startsWith_lexemes_cons_iff]
  constructor
  · intro h
    obtain ⟨ms, s, n, l, x, ts, hscan, hms, -, htokens⟩ := ofStatement?_eq_some_iff.mp h
    obtain ⟨hn, ⟨hs, hl, hx, hd⟩ | ⟨r, -, -, hd⟩⟩ := ofTokens?_eq_some_iff.mp htokens
    · obtain ⟨rfl, rfl⟩ := TypeDecl.mk.inj (Declaration.type.inj hd)
      exact ⟨_, ms, s, n, l, x, ts, hscan, hms, Token.isKeyword_iff.mp hs,
        Token.lexeme_of_isWord hn, Token.isKeyword_iff.mp hl, Token.lexeme_of_isWord hx, rfl⟩
    · cases r <;> exact absurd hd (by simp [Routine.declaration])
  · rintro ⟨later, ms, s, n, l, x, ts, hscan, hms, hs, hn, hl, hx, -⟩
    have hsort := Token.isKeyword_iff.mpr hs
    refine ofStatement?_eq_some_iff.mpr ⟨ms, s, n, l, x, ts, hscan, hms,
      isModifier_of_isKeyword hsort, ofTokens?_eq_some_iff.mpr ⟨Token.isWord_of_lexeme hn,
        Or.inl ⟨hsort, Token.isKeyword_iff.mpr hl, Token.isWord_of_lexeme hx, ?_⟩⟩⟩
    rw [Token.text_of_lexeme hn, Token.text_of_lexeme hx]

theorem exists_ofStatement?_eq_iff {r : Routine} {line name : Text} :
    (∃ d, ofStatement? line = some (r.declaration d) ∧ d.name = name) ↔ ∃ next later,
      StartsWith r.keyword name Keyword.takes (next :: later) (Token.lexemes line) := by
  simp only [startsWith_lexemes_cons_iff, ofStatement?_eq_declaration_iff]
  constructor
  · rintro ⟨_, ⟨ms, s, n, l, x, ts, hscan, hms, hs, hn, hl, rfl⟩, rfl⟩
    refine ⟨_, _, ms, s, n, l, x, ts, hscan, hms, Token.isKeyword_iff.mp hs, ?_,
      Token.isKeyword_iff.mp hl, rfl, rfl⟩
    rw [Prototype.name_ofClauses]
    exact Token.lexeme_of_isWord hn
  · rintro ⟨next, later, ms, s, n, l, x, ts, hscan, hms, hs, hn, hl, -, -⟩
    refine ⟨_, ⟨ms, s, n, l, x, ts, hscan, hms, Token.isKeyword_iff.mpr hs,
      Token.isWord_of_lexeme hn, Token.isKeyword_iff.mpr hl, rfl⟩, ?_⟩
    rw [Prototype.name_ofClauses, Token.text_of_lexeme hn]

theorem type_or_routine_of_ofStatement? {line : Text} {d : Declaration}
    (h : ofStatement? line = some d) :
    (∃ t, d = .type t) ∨ ∃ (r : Routine) (p : Prototype), d = r.declaration p := by
  obtain ⟨ms, s, n, l, x, ts, -, -, -, htokens⟩ := ofStatement?_eq_some_iff.mp h
  obtain ⟨-, ⟨-, -, -, hd⟩ | ⟨r, -, -, hd⟩⟩ := ofTokens?_eq_some_iff.mp htokens
  · exact Or.inl ⟨_, hd⟩
  · exact Or.inr ⟨r, _, hd⟩

/-! ## Statements and characters -/

theorem lexemes_normal (raw : Text) :
    Token.lexemes (Line.normal raw) = Token.lexemes (Line.code raw) :=
  Token.lexemes_spaced _

theorem ofStatement?_normal_eq_type_iff {raw name parent : Text} :
    ofStatement? (Line.normal raw) = some (.type ⟨name, parent⟩) ↔
      TypeLine (Line.code raw) name parent := by
  rw [ofStatement?_eq_type_iff, lexemes_normal, typeLine_iff]

theorem exists_ofStatement?_normal_eq_iff {r : Routine} {raw name : Text} :
    (∃ d, ofStatement? (Line.normal raw) = some (r.declaration d) ∧ d.name = name) ↔
      RoutineLine r (Line.code raw) name := by
  rw [exists_ofStatement?_eq_iff, lexemes_normal, routineLine_iff]

theorem ofStatement?_normal_eq_none_iff {raw : Text} :
    ofStatement? (Line.normal raw) = none ↔
      (∀ name parent, ¬ TypeLine (Line.code raw) name parent) ∧
        ∀ r name, ¬ RoutineLine r (Line.code raw) name := by
  constructor
  · intro h
    refine ⟨fun name parent ht => ?_, fun r name hr => ?_⟩
    · rw [← ofStatement?_normal_eq_type_iff, h] at ht
      exact absurd ht (by simp)
    · obtain ⟨d, hd, -⟩ := exists_ofStatement?_normal_eq_iff.mpr hr
      rw [h] at hd
      exact absurd hd (by simp)
  · rintro ⟨htype, hroutine⟩
    refine Option.eq_none_iff_forall_ne_some.mpr fun d hd => ?_
    rcases type_or_routine_of_ofStatement? hd with ⟨t, rfl⟩ | ⟨r, p, rfl⟩
    · exact htype t.name t.parent (ofStatement?_normal_eq_type_iff.mp hd)
    · exact hroutine r p.name (exists_ofStatement?_normal_eq_iff.mp ⟨p, hd, rfl⟩)

end Declaration

namespace Block

theorem readLines_append_singleton {before : List Text}
    (hbefore : (Block.outside.readLines 1 before).1 = .outside) {raw : Text}
    (hraw : ¬ Occurs Keyword.globals (Line.code raw)) :
    Block.outside.readLines 1 (before ++ [raw]) =
      (.outside, (Block.outside.readLines 1 before).2 ++
        (Declaration.ofStatement? (Line.normal raw)).toList) := by
  have hkeyword : ¬ Token.hasKeyword Keyword.globals (Token.scan (Line.normal raw)) = true := by
    rw [Token.hasKeyword_scan, Line.normal_eq_spaced, Token.hasWord_spaced,
      Token.hasWord_iff_occurs (by decide)]
    exact hraw
  rw [readLines_append, hbefore, readLines_cons, readNormal, if_neg hkeyword]
  simp only [readLines, List.append_nil]

/-- A line outside a block of globals, without the word that opens one, adds at most one declaration
and leaves the block as it is. It adds a type, a native or a function exactly if its characters have
that shape. -/
theorem readLines_append_statement {before : List Text}
    (hbefore : (Block.outside.readLines 1 before).1 = .outside) {raw : Text}
    (hraw : ¬ Occurs Keyword.globals (Line.code raw)) :
    ∃ decl : Option Declaration,
      Block.outside.readLines 1 (before ++ [raw]) =
        (.outside, (Block.outside.readLines 1 before).2 ++ decl.toList) ∧
      Library.ofDeclarations (Block.outside.readLines 1 (before ++ [raw])).2 =
        Library.ofDeclarations (Block.outside.readLines 1 before).2 ++
          Library.ofDeclarations decl.toList ∧
      (∀ name parent, decl = some (.type ⟨name, parent⟩) ↔
        TypeLine (Line.code raw) name parent) ∧
      (∀ (r : Routine) name, (∃ d, decl = some (r.declaration d) ∧ d.name = name) ↔
        RoutineLine r (Line.code raw) name) ∧
      (decl = none ↔ (∀ name parent, ¬ TypeLine (Line.code raw) name parent) ∧
        ∀ r name, ¬ RoutineLine r (Line.code raw) name) := by
  have hread := readLines_append_singleton hbefore hraw
  refine ⟨Declaration.ofStatement? (Line.normal raw), hread, ?_, fun name parent => ?_,
    fun r name => ?_, ?_⟩
  · rw [hread, Library.ofDeclarations_append]
  · exact Declaration.ofStatement?_normal_eq_type_iff
  · exact Declaration.exists_ofStatement?_normal_eq_iff
  · exact Declaration.ofStatement?_normal_eq_none_iff

/-- A comma right behind `takes`, and the word `globals` only in the comment. -/
theorem readLines_append_statement_comma :
    (Block.outside.readLines 1 ["globals".toList, "endglobals".toList]).1 = .outside ∧
    ¬ Occurs Keyword.globals (Line.code "\tconstant  native\tf takes, // globals".toList) ∧
    RoutineLine .native (Line.code "\tconstant  native\tf takes, // globals".toList) "f".toList ∧
    ∀ name parent, ¬ TypeLine (Line.code "\tconstant  native\tf takes, // globals".toList) name
      parent := by
  have hbefore :
      (Block.outside.readLines 1 ["globals".toList, "endglobals".toList]).1 = .outside := by
    decide
  have hraw : ¬ Occurs Keyword.globals
      (Line.code "\tconstant  native\tf takes, // globals".toList) := by
    rw [← Token.hasWord_iff_occurs (by decide)]
    decide
  obtain ⟨decl, hread, -, htype, hroutine, -⟩ := readLines_append_statement hbefore hraw
  have hdecls : decl.toList = [.native ⟨"f".toList, [⟨[], []⟩, ⟨[], []⟩], []⟩] :=
    (congrArg Prod.snd hread).symm.trans (by decide)
  have hdecl := Option.toList_eq_singleton_iff.mp hdecls
  refine ⟨hbefore, hraw, (hroutine .native _).mp ⟨_, hdecl, rfl⟩, fun name parent h => ?_⟩
  rw [← htype, hdecl] at h
  exact absurd h (by simp)

end Block

end JassDecl
