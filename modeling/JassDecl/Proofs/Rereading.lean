import JassDecl.Proofs.WrittenLines

/-! # Recognition of recognized libraries -/

namespace JassDecl

open Token (Fits)

/-! ## Well-formed libraries -/

/-- A declaration that one line can make. -/
def Declaration.WellFormed : Declaration → Prop
  | .type d => d.WellFormed
  | .native d => d.WellFormed
  | .global d => d.WellFormed
  | .function d => d.WellFormed

/-- A library of declarations that one line each can make. -/
structure Library.WellFormed (l : Library) : Prop where
  types : ∀ d ∈ l.types, d.WellFormed
  natives : ∀ d ∈ l.natives, d.WellFormed
  globals : ∀ d ∈ l.globals, d.WellFormed
  functions : ∀ d ∈ l.functions, d.WellFormed

theorem Library.wellFormed_ofDeclarations {ds : List Declaration} (h : ∀ d ∈ ds, d.WellFormed) :
    (ofDeclarations ds).WellFormed := by
  constructor
  all_goals
    intro d hd
    obtain ⟨decl, hdecl, he⟩ := List.mem_filterMap.mp hd
    -- Only a declaration of the one sort is left.
    cases decl <;> simp only [Declaration.type?, Declaration.native?, Declaration.global?,
      Declaration.function?, Option.some.injEq, reduceCtorEq] at he
    subst he
    exact h _ hdecl

namespace Block

theorem fits_normal {keyword raw : Text} (hnewline : '\n' ∉ raw)
    (h : ¬ Token.hasKeyword keyword (Token.scan (Line.normal raw)) = true) :
    Fits keyword (Line.normal raw) :=
  ⟨Line.plain_normal raw, Line.newline_notMem_normal hnewline, fun hw =>
    h (Token.hasKeyword_scan.mpr hw)⟩

/-- Whatever a line declares is well-formed. -/
theorem wellFormed_of_readNormal {block : Block} {number : Nat} {raw : Text} (hnewline : '\n' ∉ raw)
    {d : Declaration} (h : (block.readNormal number (Line.normal raw)).2 = some d) :
    d.WellFormed := by
  cases block with
  | outside =>
      rw [readNormal] at h
      split at h
      · simp at h
      · rename_i hk
        rcases Declaration.wellFormed_of_ofStatement? (fits_normal hnewline hk) h with
          ⟨t, rfl, ht⟩ | ⟨r, p, rfl, hp⟩
        · exact ht
        · cases r with
          | native => exact hp
          | function => exact hp
  | inside openedAt =>
      rw [readNormal] at h
      split at h
      · simp at h
      · rename_i hk
        obtain ⟨g, hg, rfl⟩ := Option.map_eq_some_iff.mp h
        exact GlobalDecl.wellFormed_of_ofLine? (fits_normal hnewline hk) hg

theorem wellFormed_of_mem_readLines {block : Block} {number : Nat} {ls : List Text}
    (h : ∀ l ∈ ls, '\n' ∉ l) : ∀ d ∈ (block.readLines number ls).2, d.WellFormed := by
  induction ls generalizing block number with
  | nil => simp [readLines]
  | cons l ls ih =>
      intro d hd
      rw [readLines_cons, List.mem_append, Option.mem_toList] at hd
      rcases hd with hd | hd
      · exact wellFormed_of_readNormal (h l (by simp)) hd
      · exact ih (fun x hx => h x (by simp [hx])) d hd

end Block

theorem Recognition.wellFormed_library (source : Source) :
    (ofSource source).library.WellFormed :=
  Library.wellFormed_ofDeclarations (Block.wellFormed_of_mem_readLines fun _ hl =>
    Text.newline_notMem_of_mem_lines hl)

/-! ## The lines of a library -/

namespace Library

/-- The declarations of a library, sort by sort. -/
def declarations (l : Library) : List Declaration :=
  l.types.map .type ++ l.natives.map .native ++ l.globals.map .global ++ l.functions.map .function

theorem ofDeclarations_declarations (l : Library) : ofDeclarations l.declarations = l := by
  simp [ofDeclarations, declarations, Function.comp_def, Declaration.type?, Declaration.native?,
    Declaration.global?, Declaration.function?]

/-- The lines of a library without modifiers, its globals in one block. -/
theorem sourceLines_eq (l : Library) : l.sourceLines = l.types.map TypeDecl.sourceLine ++
    l.natives.map (Prototype.sourceLine Keyword.native) ++ Block.linesOf l.globals ++
      l.functions.map (Prototype.sourceLine Keyword.function) := by
  simp [sourceLines, Block.linesOf]

theorem sourceLine_eq_headOf (r : Routine) (d : Prototype) :
    d.sourceLine r.keyword = List.intercalate [' ']
      (Declaration.headOf [] r d ++ [Keyword.returns, d.returnType]) :=
  rfl

theorem readLines_prototypes (r : Routine) {ds : List Prototype} (h : ∀ d ∈ ds, d.WellFormed)
    (number : Nat) : Block.outside.readLines number (ds.map (Prototype.sourceLine r.keyword)) =
      (.outside, ds.map r.declaration) := by
  refine Block.readLines_map (fun d hd n => ?_) number
  rw [sourceLine_eq_headOf]
  exact Block.readNormal_prototype (by simp) r (h d hd) n

theorem readLines_sourceLines {l : Library} (h : l.WellFormed) (number : Nat) :
    Block.outside.readLines number l.sourceLines = (.outside, l.declarations) := by
  have htypes : ∀ n, Block.outside.readLines n (l.types.map TypeDecl.sourceLine) =
      (.outside, l.types.map .type) := fun n =>
    Block.readLines_map (fun d hd m => Block.readNormal_type (h.types d hd) m) n
  have hnatives := readLines_prototypes .native h.natives
  have hfunctions := readLines_prototypes .function h.functions
  rw [sourceLines_eq, Block.readLines_append, Block.readLines_append, Block.readLines_append,
    htypes]
  simp only [Routine.keyword, Routine.declaration] at hnatives hfunctions
  rw [hnatives, Block.readLines_linesOf h.globals, hfunctions]
  rfl

theorem joinable_of_mem_sourceLines {l : Library} (h : l.WellFormed) :
    ∀ line ∈ l.sourceLines, Line.Joinable line := by
  have hprototype : ∀ (r : Routine) (d : Prototype), d.WellFormed →
      Line.Joinable (d.sourceLine r.keyword) := by
    intro r d hd
    rw [sourceLine_eq_headOf]
    exact Declaration.joinable_headOf (by simp) (Declaration.fits_prototype (by simp) r hd)
  intro line hline
  rw [sourceLines_eq, List.mem_append, List.mem_append, List.mem_append] at hline
  rcases hline with ((hline | hline) | hline) | hline
  · obtain ⟨d, hd, rfl⟩ := List.mem_map.mp hline
    exact TypeDecl.joinable_sourceLine (h.types d hd)
  · obtain ⟨d, hd, rfl⟩ := List.mem_map.mp hline
    exact hprototype .native d (h.natives d hd)
  · exact Block.joinable_of_mem_linesOf h.globals line hline
  · obtain ⟨d, hd, rfl⟩ := List.mem_map.mp hline
    exact hprototype .function d (h.functions d hd)

end Library

/-- Every library that is recognized is recognized again, and nothing else, from the source that is
written for it. -/
theorem Recognition.ofSource_sourceText (source : Source) (path : Text) :
    ofSource ⟨path, (ofSource source).library.sourceText⟩ = ⟨(ofSource source).library, []⟩ := by
  have h := wellFormed_library source
  rw [Library.sourceText, ofSource_intercalate path (Library.joinable_of_mem_sourceLines h),
    Library.readLines_sourceLines h, Library.ofDeclarations_declarations]
  rfl

/-- A clause with a lone comma and a return type of three tokens. -/
example : (Recognition.ofSource ⟨[], "native f takes , a b c returns x, y".toList⟩).library.sourceText =
    "native f takes , a b returns x, y\nglobals\nendglobals".toList := by
  decide

end JassDecl
