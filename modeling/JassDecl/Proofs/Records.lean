import JassDecl.Proofs.Rereading
import JassDecl.Proofs.WholeWords

/-! # What recognized records hold

The laws of the four sorts of records, on the characters of their texts. They hold of all records
that are recognized, and of no others.
-/

namespace JassDecl

open Token (Fits HasWord IsName IsWord Occurs RestOfLine)

/-! ## Laws -/

/-- A text in normal form that stands in one line. -/
structure Text.Settled (t : Text) : Prop where
  normal_eq : Line.normal t = t
  noNewline : '\n' ∉ t

/-- A text from a clause: one piece of the part between two commas, in front of `returns`. -/
structure Argument.Cut (t : Text) : Prop where
  noMark : ∀ c ∈ [' ', '\t', '\r', '\n', ','], c ∉ t
  noComment : ¬ ['/', '/'] <:+: t
  noReturns : ¬ Occurs Keyword.returns t

structure Argument.Lawful (a : Argument) : Prop where
  type : Cut a.type
  name : Cut a.name
  type_ne_nil : a.name ≠ [] → a.type ≠ []

/-- All texts of a type. -/
def TypeDecl.texts (d : TypeDecl) : List Text :=
  [d.name, d.parent]

structure TypeDecl.Lawful (d : TypeDecl) : Prop where
  name : IsWord d.name
  parent : IsWord d.parent
  noKeyword : ∀ t ∈ d.texts, ¬ Occurs Keyword.globals t

/-- All texts of a native or function. -/
def Prototype.texts (d : Prototype) : List Text :=
  d.name :: d.returnType :: d.arguments.flatMap fun a => [a.type, a.name]

structure Prototype.Lawful (d : Prototype) : Prop where
  name : IsWord d.name
  arguments : ∀ a ∈ d.arguments, a.Lawful
  arguments_ne : d.arguments ≠ [⟨Keyword.nothing, []⟩]
  returnType : d.returnType.Settled
  noKeyword : ∀ t ∈ d.texts, ¬ Occurs Keyword.globals t

/-- All texts of a global. -/
def GlobalDecl.texts (d : GlobalDecl) : List Text :=
  d.type :: d.name :: d.value.toList

structure GlobalDecl.Lawful (d : GlobalDecl) : Prop where
  type : IsWord d.type
  name : IsWord d.name
  type_ne : d.constant = false → d.type ≠ Keyword.constant
  value : ∀ v ∈ d.value, v ≠ [] ∧ v.Settled
  noKeyword : ∀ t ∈ d.texts, ¬ Occurs Keyword.endglobals t

/-- A library whose records all keep the laws of their sort. -/
structure Library.Lawful (l : Library) : Prop where
  types : ∀ d ∈ l.types, d.Lawful
  natives : ∀ d ∈ l.natives, d.Lawful
  globals : ∀ d ∈ l.globals, d.Lawful
  functions : ∀ d ∈ l.functions, d.Lawful

/-! ## Texts -/

theorem Line.free_iff {t : Text} :
    (∀ x ∈ t, isBlank x = false) ↔ ' ' ∉ t ∧ '\t' ∉ t := by
  constructor
  · intro h
    exact ⟨fun hm => absurd (h _ hm) (by decide), fun hm => absurd (h _ hm) (by decide)⟩
  · rintro ⟨hspace, htab⟩ x hx
    have hx' : x ≠ ' ' ∧ x ≠ '\t' := ⟨fun he => hspace (he ▸ hx), fun he => htab (he ▸ hx)⟩
    simp [isBlank, hx']

section Texts

variable {keyword t : Text}

theorem Token.isName_iff (hk : IsWord keyword) :
    IsName keyword t ↔ IsWord t ∧ ¬ Occurs keyword t := by
  rw [IsName]
  refine and_congr_right fun ht => ?_
  rw [← Token.hasWord_iff_occurs hk, Token.hasWord_of_isWord ht, eq_comm]

theorem Token.restOfLine_iff (hk : IsWord keyword) :
    RestOfLine keyword t ↔ t.Settled ∧ ¬ Occurs keyword t := by
  rw [← Token.hasWord_iff_occurs hk]
  constructor
  · rintro ⟨⟨hplain, hnewline, hkeyword⟩, hspaced⟩
    exact ⟨⟨by rw [Line.normal_of_plain hplain, hspaced], hnewline⟩, hkeyword⟩
  · rintro ⟨⟨hnormal, hnewline⟩, hkeyword⟩
    have hplain : Line.Plain t := hnormal ▸ Line.plain_normal t
    refine ⟨⟨hplain, hnewline, hkeyword⟩, ?_⟩
    rw [← Line.normal_of_plain hplain, hnormal]

theorem Argument.part_iff : Part t ↔ Cut t ∧ ¬ Occurs Keyword.globals t := by
  have hmark : (∀ c ∈ [' ', '\t', '\r', '\n', ','], c ∉ t) ↔
      (∀ x ∈ t, Line.isBlank x = false) ∧ '\r' ∉ t ∧ '\n' ∉ t ∧ ',' ∉ t := by
    rw [Line.free_iff]
    simp [and_assoc]
  rw [← Token.hasWord_iff_occurs (by decide)]
  constructor
  · intro h
    refine ⟨⟨?_, h.fits.plain.noComment, ?_⟩, h.fits.noKeyword⟩
    · exact hmark.mpr ⟨h.free, h.fits.plain.noReturn, h.fits.noNewline, h.noComma⟩
    · rw [← Token.hasWord_iff_occurs (by decide)]
      exact h.noReturns
  · rintro ⟨h, hglobals⟩
    obtain ⟨hfree, hreturn, hnewline, hcomma⟩ := hmark.mp h.noMark
    refine ⟨⟨⟨hreturn, h.noComment⟩, hnewline, hglobals⟩, hfree, hcomma, ?_⟩
    rw [Token.hasWord_iff_occurs (by decide)]
    exact h.noReturns

end Texts

/-! ## Records -/

theorem TypeDecl.lawful_iff {d : TypeDecl} : d.Lawful ↔ d.WellFormed := by
  have htexts : (∀ t ∈ d.texts, ¬ Occurs Keyword.globals t) ↔
      ¬ Occurs Keyword.globals d.name ∧ ¬ Occurs Keyword.globals d.parent := by
    simp [texts]
  constructor
  · intro h
    obtain ⟨hname, hparent⟩ := htexts.mp h.noKeyword
    exact {
      name := (Token.isName_iff (by decide)).mpr ⟨h.name, hname⟩
      parent := (Token.isName_iff (by decide)).mpr ⟨h.parent, hparent⟩ }
  · intro h
    obtain ⟨hname, hname'⟩ := (Token.isName_iff (by decide)).mp h.name
    obtain ⟨hparent, hparent'⟩ := (Token.isName_iff (by decide)).mp h.parent
    exact ⟨hname, hparent, htexts.mpr ⟨hname', hparent'⟩⟩

theorem Argument.wellFormed_iff {a : Argument} : a.WellFormed ↔
    a.Lawful ∧ ∀ t ∈ [a.type, a.name], ¬ Occurs Keyword.globals t := by
  have hnil : (a.type = [] → a.name = []) ↔ (a.name ≠ [] → a.type ≠ []) := not_imp_not.symm
  constructor
  · intro h
    obtain ⟨htype, htype'⟩ := part_iff.mp h.type
    obtain ⟨hname, hname'⟩ := part_iff.mp h.name
    exact ⟨⟨htype, hname, hnil.mp h.name_eq_nil⟩, by simp [htype', hname']⟩
  · rintro ⟨h, hkeyword⟩
    exact {
      type := part_iff.mpr ⟨h.type, hkeyword _ (by simp)⟩
      name := part_iff.mpr ⟨h.name, hkeyword _ (by simp)⟩
      name_eq_nil := hnil.mpr h.type_ne_nil }

theorem Prototype.lawful_iff {d : Prototype} : d.Lawful ↔ d.WellFormed := by
  have htexts : (∀ t ∈ d.texts, ¬ Occurs Keyword.globals t) ↔
      ¬ Occurs Keyword.globals d.name ∧ ¬ Occurs Keyword.globals d.returnType ∧
        ∀ a ∈ d.arguments, ∀ t ∈ [a.type, a.name], ¬ Occurs Keyword.globals t := by
    rw [texts, List.forall_mem_cons, List.forall_mem_cons, List.forall_mem_flatMap]
  constructor
  · intro h
    obtain ⟨hname, hreturnType, harguments⟩ := htexts.mp h.noKeyword
    exact {
      name := (Token.isName_iff (by decide)).mpr ⟨h.name, hname⟩
      arguments := fun a ha =>
        Argument.wellFormed_iff.mpr ⟨h.arguments a ha, harguments a ha⟩
      arguments_ne := h.arguments_ne
      returnType := (Token.restOfLine_iff (by decide)).mpr ⟨h.returnType, hreturnType⟩ }
  · intro h
    obtain ⟨hname, hname'⟩ := (Token.isName_iff (by decide)).mp h.name
    obtain ⟨hreturnType, hreturnType'⟩ := (Token.restOfLine_iff (by decide)).mp h.returnType
    have harguments := fun a ha => Argument.wellFormed_iff.mp (h.arguments a ha)
    exact {
      name := hname
      arguments := fun a ha => (harguments a ha).1
      arguments_ne := h.arguments_ne
      returnType := hreturnType
      noKeyword := htexts.mpr ⟨hname', hreturnType', fun a ha => (harguments a ha).2⟩ }

theorem GlobalDecl.lawful_iff {d : GlobalDecl} : d.Lawful ↔ d.WellFormed := by
  have htexts : (∀ t ∈ d.texts, ¬ Occurs Keyword.endglobals t) ↔
      ¬ Occurs Keyword.endglobals d.type ∧ ¬ Occurs Keyword.endglobals d.name ∧
        ∀ v ∈ d.value, ¬ Occurs Keyword.endglobals v := by
    rw [texts, List.forall_mem_cons, List.forall_mem_cons]
    simp only [Option.mem_toList, Option.mem_def]
  constructor
  · intro h
    obtain ⟨htype, hname, hvalue⟩ := htexts.mp h.noKeyword
    refine ⟨(Token.isName_iff (by decide)).mpr ⟨h.type, htype⟩,
      (Token.isName_iff (by decide)).mpr ⟨h.name, hname⟩, h.type_ne, fun v hv => ?_⟩
    obtain ⟨hne, hsettled⟩ := h.value v hv
    exact ⟨hne, (Token.restOfLine_iff (by decide)).mpr ⟨hsettled, hvalue v hv⟩⟩
  · intro h
    obtain ⟨htype, htype'⟩ := (Token.isName_iff (by decide)).mp h.type
    obtain ⟨hname, hname'⟩ := (Token.isName_iff (by decide)).mp h.name
    have hvalue := fun v hv => (Token.restOfLine_iff (by decide)).mp (h.value v hv).2
    exact {
      type := htype
      name := hname
      type_ne := h.type_ne
      value := fun v hv => ⟨(h.value v hv).1, (hvalue v hv).1⟩
      noKeyword := htexts.mpr ⟨htype', hname', fun v hv => (hvalue v hv).2⟩ }

/-! ## Libraries -/

theorem Library.lawful_iff {l : Library} : l.Lawful ↔ l.WellFormed := by
  constructor
  · intro h
    exact {
      types := fun d hd => TypeDecl.lawful_iff.mp (h.types d hd)
      natives := fun d hd => Prototype.lawful_iff.mp (h.natives d hd)
      globals := fun d hd => GlobalDecl.lawful_iff.mp (h.globals d hd)
      functions := fun d hd => Prototype.lawful_iff.mp (h.functions d hd) }
  · intro h
    exact {
      types := fun d hd => TypeDecl.lawful_iff.mpr (h.types d hd)
      natives := fun d hd => Prototype.lawful_iff.mpr (h.natives d hd)
      globals := fun d hd => GlobalDecl.lawful_iff.mpr (h.globals d hd)
      functions := fun d hd => Prototype.lawful_iff.mpr (h.functions d hd) }

/-- The records of every source are lawful, and every library of lawful records is that of some
source. -/
theorem Recognition.lawful_library (path : Text) :
    (∀ source, (ofSource source).library.Lawful) ∧
    ∀ l : Library, l.Lawful → ∃ text, ofSource ⟨path, text⟩ = ⟨l, []⟩ := by
  refine ⟨fun source => Library.lawful_iff.mpr (wellFormed_library source), fun l hl => ?_⟩
  have h := Library.lawful_iff.mp hl
  refine ⟨l.sourceText, ?_⟩
  rw [Library.sourceText, ofSource_intercalate path (Library.joinable_of_mem_sourceLines h),
    Library.readLines_sourceLines h, Library.ofDeclarations_declarations]
  rfl

/-- Parameters without a name or a type, a return type with a comma, and a value of operators. -/
theorem Recognition.lawful_library_degenerate :
    let source : Source :=
      ⟨[], "native f takes ,a b c returns x,y\nglobals\nconstant constant array ===".toList⟩
    let l : Library :=
      { natives := [⟨"f".toList, [⟨[], []⟩, ⟨"a".toList, "b".toList⟩], "x,y".toList⟩]
        globals := [⟨true, Keyword.constant, false, Keyword.array, some "==".toList⟩] }
    (ofSource source).library = l ∧ l.Lawful ∧ ∃ text, ofSource ⟨[], text⟩ = ⟨l, []⟩ := by
  intro source l
  have hl : (ofSource source).library = l := by decide
  have hlawful : l.Lawful := hl ▸ (lawful_library []).1 source
  exact ⟨hl, hlawful, (lawful_library []).2 l hlawful⟩

end JassDecl
