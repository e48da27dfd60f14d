import JassDecl.Proofs.WrittenLines

/-! # Sources that are written item by item

An item is a type, a prototype with modifiers, or a whole block of globals. Keywords may be used as
names wherever no line is misread by it.
-/

namespace JassDecl

open Token (IsName IsWord RestOfLine)

/-- A part of a source that declares something. -/
inductive Item where
  | type (decl : TypeDecl)
  | prototype (modifiers : List Text) (sort : Routine) (decl : Prototype)
  | block (globals : List GlobalDecl)

namespace Item

/-! ## Lines and declarations -/

/-- The lines of an item. An empty return type is left out with its keyword. -/
def lines : Item → List Text
  | .type d => [d.sourceLine]
  | .prototype mods r d =>
      [List.intercalate [' '] (Declaration.headOf mods r d ++
        if d.returnType = [] then [] else [Keyword.returns, d.returnType])]
  | .block gs => Block.linesOf gs

def declarations : Item → List Declaration
  | .type d => [.type d]
  | .prototype _ r d => [r.declaration d]
  | .block gs => gs.map .global

/-- Whether all names and types of an item are words that its lines can hold, and all values are
texts in normal form that do not end the block. -/
def Legible : Item → Prop
  | .type d => IsName Keyword.globals d.name ∧ IsName Keyword.globals d.parent
  | .prototype mods _ d =>
      (∀ m ∈ mods, m ∈ Keyword.modifiers) ∧ IsName Keyword.globals d.name ∧
        (∀ a ∈ d.arguments, (IsName Keyword.globals a.type ∧ a.type ≠ Keyword.returns) ∧
          IsName Keyword.globals a.name ∧ a.name ≠ Keyword.returns) ∧
        (d.returnType = [] ∨ IsName Keyword.globals d.returnType)
  | .block gs =>
      ∀ g ∈ gs, IsName Keyword.endglobals g.type ∧ IsName Keyword.endglobals g.name ∧
        (g.constant = false → g.type ≠ Keyword.constant) ∧
        ∀ v ∈ g.value, v ≠ [] ∧ '\n' ∉ v ∧ Line.normal v = v ∧
          Token.hasKeyword Keyword.endglobals (Token.scan v) = false

instance : DecidablePred Legible
  | .type _ => inferInstanceAs (Decidable (_ ∧ _))
  | .prototype _ _ _ => inferInstanceAs (Decidable (_ ∧ _))
  | .block gs => inferInstanceAs (Decidable (∀ g ∈ gs, _))

/-! ## Legible items are well-formed -/

theorem wellFormed_prototype {mods : List Text} {r : Routine} {d : Prototype}
    (h : (Item.prototype mods r d).Legible) : d.WellFormed := by
  obtain ⟨-, hname, harguments, hreturnType⟩ := h
  refine ⟨hname, fun a ha => ?_, fun he => ?_, ?_⟩
  · obtain ⟨⟨htype, htype'⟩, hname, hname'⟩ := harguments a ha
    exact {
      type := Argument.part_of_isName htype htype'
      name := Argument.part_of_isName hname hname'
      name_eq_nil := fun hnil => absurd hnil htype.1.1 }
  · -- The name of a legible parameter is not empty.
    obtain ⟨-, hword, -⟩ := harguments ⟨Keyword.nothing, []⟩ (by simp [he])
    exact hword.1.1 rfl
  · rcases hreturnType with he | hword
    · rw [he]
      exact Token.restOfLine_nil _
    · exact ⟨hword.fits, Line.spaced_of_free (Token.free_of_isWord hword.1)⟩

theorem wellFormed_global {gs : List GlobalDecl} (h : (Item.block gs).Legible) :
    ∀ g ∈ gs, g.WellFormed := by
  intro g hg
  obtain ⟨htype, hname, hconstant, hvalue⟩ := h g hg
  refine ⟨htype, hname, hconstant, fun v hv => ?_⟩
  obtain ⟨hne, hnewline, hnormal, hkeyword⟩ := hvalue v hv
  have hplain : Line.Plain v := hnormal ▸ Line.plain_normal v
  refine ⟨hne, ⟨hplain, hnewline, fun hw => ?_⟩, ?_⟩
  · rw [Token.hasKeyword_scan.mpr hw] at hkeyword
    exact absurd hkeyword (by decide)
  · rw [← Line.normal_of_plain hplain, hnormal]

/-- A clause of legible parameters has a word, even if it lists none. -/
theorem exists_hasWord_clause {mods : List Text} {r : Routine} {d : Prototype}
    (h : (Item.prototype mods r d).Legible) :
    ∃ w, Token.HasWord w (Argument.clause d.arguments) := by
  obtain ⟨-, -, harguments, -⟩ := h
  cases hd : d.arguments with
  | nil => exact ⟨Keyword.nothing, Argument.hasWord_clause.mpr (Or.inl ⟨rfl, rfl⟩)⟩
  | cons a args =>
      have htype : IsWord a.type := (harguments a (by simp [hd])).1.1.1
      refine ⟨a.type, Argument.hasWord_clause.mpr (Or.inr ⟨a, by simp, Or.inl ?_⟩)⟩
      exact (Token.hasWord_of_isWord htype).mpr rfl

/-! ## Reading items -/

/-- The line of a prototype, with or without its return type. -/
theorem readNormal_line {mods : List Text} {r : Routine} {d : Prototype}
    (h : (Item.prototype mods r d).Legible) (number : Nat) :
    Block.outside.readNormal number (Line.normal (List.intercalate [' ']
        (Declaration.headOf mods r d ++
          if d.returnType = [] then [] else [Keyword.returns, d.returnType]))) =
      (.outside, some (r.declaration d)) := by
  have hd := wellFormed_prototype h
  split
  · rename_i hreturnType
    obtain ⟨w, hw⟩ := exists_hasWord_clause h
    rw [Block.readNormal_outside (Declaration.fits_headOf h.1 r hd (by simp)), List.append_nil,
      Declaration.ofStatement?_prototype_of_returnType h.1 r hd hreturnType hw]
  · exact Block.readNormal_prototype h.1 r hd number

/-- An item is read as its declarations, and leaves no block open. -/
theorem readLines_lines {i : Item} (h : i.Legible) (number : Nat) :
    Block.outside.readLines number i.lines = (.outside, i.declarations) := by
  cases i with
  | type d =>
      rw [lines, Block.readLines_cons, Block.readNormal_type ⟨h.1, h.2⟩]
      rfl
  | prototype mods r d =>
      rw [lines, Block.readLines_cons, readNormal_line h]
      rfl
  | block gs => exact Block.readLines_linesOf (wellFormed_global h) number

theorem joinable_of_mem_lines {i : Item} (h : i.Legible) : ∀ l ∈ i.lines, Line.Joinable l := by
  intro l hl
  cases i with
  | type d =>
      obtain rfl := List.mem_singleton.mp hl
      exact TypeDecl.joinable_sourceLine ⟨h.1, h.2⟩
  | prototype mods r d =>
      obtain rfl := List.mem_singleton.mp hl
      have hd := wellFormed_prototype h
      refine Declaration.joinable_headOf h.1 (Declaration.fits_headOf h.1 r hd fun t ht => ?_)
      split at ht
      · simp at ht
      · rcases List.mem_pair.mp ht with rfl | rfl
        · exact IsName.fits (by decide)
        · exact hd.returnType.fits
  | block gs => exact Block.joinable_of_mem_linesOf (wellFormed_global h) l hl

/-- Items are read one by one. -/
theorem readLines_flatMap_lines {items : List Item} (h : ∀ i ∈ items, i.Legible) (number : Nat) :
    Block.outside.readLines number (items.flatMap lines) =
      (.outside, items.flatMap declarations) := by
  induction items generalizing number with
  | nil => rfl
  | cons i items ih =>
      rw [List.flatMap_cons, List.flatMap_cons, Block.readLines_append,
        readLines_lines (h i (by simp)), ih fun j hj => h j (by simp [hj])]

end Item

namespace Recognition

/-- The source of legible items declares what they declare, in order, and leaves nothing to
report. -/
theorem ofSource_items (path : Text) {items : List Item} (h : ∀ i ∈ items, i.Legible) :
    ofSource ⟨path, List.intercalate ['\n'] (items.flatMap Item.lines)⟩ =
      ⟨.ofDeclarations (items.flatMap Item.declarations), []⟩ := by
  have hjoinable : ∀ l ∈ items.flatMap Item.lines, Line.Joinable l := by
    intro l hl
    obtain ⟨i, hi, hl⟩ := List.mem_flatMap.mp hl
    exact Item.joinable_of_mem_lines (h i hi) l hl
  rw [ofSource_intercalate path hjoinable, Item.readLines_flatMap_lines h]
  rfl

/-- Keywords as names, a value with operators, and a prototype without its return type. -/
def keywordItems : List Item :=
  [.type ⟨Keyword.type, Keyword.extending⟩,
    .prototype [Keyword.constant] .native ⟨Keyword.takes, [⟨Keyword.takes, Keyword.nothing⟩], []⟩,
    .block [⟨true, Keyword.constant, true, Keyword.array, some "= a[0] + 1".toList⟩,
      ⟨false, Keyword.globals, false, Keyword.array, none⟩],
    .prototype [] .function ⟨Keyword.returns, [], Keyword.returns⟩]

theorem ofSource_items_keywordItems :
    (∀ i ∈ keywordItems, i.Legible) ∧
    keywordItems.flatMap Item.lines =
      ["type type extends extends".toList,
        "constant native takes takes takes nothing".toList,
        "globals".toList,
        "constant constant array array = = a[0] + 1".toList,
        "globals array".toList,
        "endglobals".toList,
        "function returns takes nothing returns returns".toList] ∧
    ofSource ⟨[], List.intercalate ['\n'] (keywordItems.flatMap Item.lines)⟩ =
      ⟨{ types := [⟨Keyword.type, Keyword.extending⟩]
         natives := [⟨Keyword.takes, [⟨Keyword.takes, Keyword.nothing⟩], []⟩]
         globals := [⟨true, Keyword.constant, true, Keyword.array, some "= a[0] + 1".toList⟩,
           ⟨false, Keyword.globals, false, Keyword.array, none⟩]
         functions := [⟨Keyword.returns, [], Keyword.returns⟩] }, []⟩ := by
  have h : ∀ i ∈ keywordItems, i.Legible := by decide
  exact ⟨h, by decide, ofSource_items [] h⟩

end Recognition

end JassDecl
