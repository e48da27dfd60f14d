import JassDecl.Proofs.Concatenation
import JassDecl.Proofs.GlobalLine
import JassDecl.Proofs.StatementLine

/-! # Runs through lines that are written -/

namespace JassDecl

open Token (Fits IsWord)

/-! ## Lines joined into a text -/

/-- A line that can stand anywhere in a text, as its first line too. -/
structure Line.Joinable (line : Text) : Prop where
  noNewline : '\n' ∉ line
  noMark : line.head? ≠ some '\uFEFF'

theorem Line.joinable_of_isWord {keyword w : Text} {ws : List Text} (hw : IsWord w)
    (h : Fits keyword (List.intercalate [' '] (w :: ws))) :
    Joinable (List.intercalate [' '] (w :: ws)) := by
  refine ⟨h.noNewline, fun hh => ?_⟩
  obtain ⟨c, w, rfl⟩ := List.exists_cons_of_ne_nil hw.1
  rw [List.intercalate_cons_cons_left, List.head?_cons, Option.some.injEq] at hh
  exact absurd (hw.2 c (by simp)) (by rw [hh]; decide)

theorem Recognition.ofSource_intercalate (path : Text) {ls : List Text}
    (h : ∀ l ∈ ls, Line.Joinable l) :
    ofSource ⟨path, List.intercalate ['\n'] ls⟩ =
      ⟨.ofDeclarations (Block.outside.readLines 1 ls).2,
        leftover path (Block.outside.readLines 1 ls).1⟩ := by
  cases ls with
  | nil => rfl
  | cons l ls =>
      have hmark : (List.intercalate ['\n'] (l :: ls)).head? ≠ some '\uFEFF' := by
        cases l with
        | nil =>
            cases ls with
            | nil => simp
            | cons l' ls => simp [List.intercalate_cons_cons]
        | cons c l =>
            rw [List.intercalate_cons_cons_left, List.head?_cons]
            exact (h _ List.mem_cons_self).noMark
      rw [ofSource_eq, declarations, finalBlock, Text.dropMark_of_head?_ne hmark,
        Text.lines_intercalate (fun x hx => (h x hx).noNewline) (by simp)]

theorem TypeDecl.joinable_sourceLine {d : TypeDecl} (h : d.WellFormed) :
    Line.Joinable d.sourceLine :=
  Line.joinable_of_isWord (by decide) (Declaration.fits_type h)

theorem Declaration.joinable_headOf {mods : List Text} (hmods : ∀ m ∈ mods, m ∈ Keyword.modifiers)
    {r : Routine} {d : Prototype} {rest : List Text}
    (h : Fits Keyword.globals (List.intercalate [' '] (headOf mods r d ++ rest))) :
    Line.Joinable (List.intercalate [' '] (headOf mods r d ++ rest)) := by
  cases mods with
  | nil => exact Line.joinable_of_isWord r.isName_keyword.1 h
  | cons m mods =>
      exact Line.joinable_of_isWord (isName_of_mem_modifiers m (hmods m (by simp))).1 h

theorem GlobalDecl.joinable_sourceLine {d : GlobalDecl} (h : d.WellFormed) :
    Line.Joinable d.sourceLine := by
  obtain ⟨w, ws, hws⟩ : ∃ w ws, d.words = w :: ws := List.exists_cons_of_ne_nil (by simp [words])
  have hw : IsWord w := (isName_of_mem_words h w (by simp [hws])).1
  have hfits := fits_sourceLine h
  rw [sourceLine_eq, hws] at hfits ⊢
  exact Line.joinable_of_isWord hw hfits

/-! ## Lines in blocks -/

namespace Block

theorem readNormal_outside {line : Text} (h : Fits Keyword.globals line) (number : Nat) :
    Block.outside.readNormal number (Line.normal line) =
      (.outside, Declaration.ofStatement? (Line.spaced line)) := by
  have hk : ¬ Token.hasKeyword Keyword.globals (Token.scan (Line.spaced line)) = true := by
    rw [Token.hasKeyword_scan, Token.hasWord_spaced]
    exact h.noKeyword
  rw [Line.normal_of_plain h.plain, readNormal, if_neg hk]

theorem readNormal_inside {line : Text} (h : Fits Keyword.endglobals line) (openedAt number : Nat) :
    (Block.inside openedAt).readNormal number (Line.normal line) =
      (.inside openedAt, (GlobalDecl.ofLine? (Line.spaced line)).map .global) := by
  have hk : ¬ Token.hasKeyword Keyword.endglobals (Token.scan (Line.spaced line)) = true := by
    rw [Token.hasKeyword_scan, Token.hasWord_spaced]
    exact h.noKeyword
  rw [Line.normal_of_plain h.plain, readNormal, if_neg hk]

theorem readNormal_type {d : TypeDecl} (h : d.WellFormed) (number : Nat) :
    Block.outside.readNormal number (Line.normal d.sourceLine) = (.outside, some (.type d)) := by
  rw [readNormal_outside (Declaration.fits_type h), Declaration.ofStatement?_type h]

theorem readNormal_prototype {mods : List Text} (hmods : ∀ m ∈ mods, m ∈ Keyword.modifiers)
    (r : Routine) {d : Prototype} (h : d.WellFormed) (number : Nat) :
    Block.outside.readNormal number (Line.normal (List.intercalate [' ']
        (Declaration.headOf mods r d ++ [Keyword.returns, d.returnType]))) =
      (.outside, some (r.declaration d)) := by
  rw [readNormal_outside (Declaration.fits_prototype hmods r h),
    Declaration.ofStatement?_prototype hmods r h]

theorem readNormal_global {d : GlobalDecl} (h : d.WellFormed) (openedAt number : Nat) :
    (Block.inside openedAt).readNormal number (Line.normal d.sourceLine) =
      (.inside openedAt, some (.global d)) := by
  rw [readNormal_inside (GlobalDecl.fits_sourceLine h), GlobalDecl.ofLine?_sourceLine h]
  rfl

/-- Lines that leave the block as it is declare something one by one. -/
theorem readLines_map {α : Type} {block : Block} {line : α → Text} {decl : α → Declaration}
    {xs : List α} (h : ∀ x ∈ xs, ∀ n,
      block.readNormal n (Line.normal (line x)) = (block, some (decl x))) (number : Nat) :
    block.readLines number (xs.map line) = (block, xs.map decl) := by
  induction xs generalizing number with
  | nil => rfl
  | cons x xs ih =>
      rw [List.map_cons, readLines_cons, h x (by simp), ih fun y hy => h y (by simp [hy])]
      rfl

/-- The lines of a block of globals. -/
def linesOf (gs : List GlobalDecl) : List Text :=
  [Keyword.globals] ++ gs.map GlobalDecl.sourceLine ++ [Keyword.endglobals]

theorem readLines_linesOf {gs : List GlobalDecl} (h : ∀ g ∈ gs, g.WellFormed) (number : Nat) :
    Block.outside.readLines number (linesOf gs) = (.outside, gs.map .global) := by
  have hopen : ∀ n, Block.outside.readLines n [Keyword.globals] = (.inside n, []) := fun _ => rfl
  have hclose : ∀ k n, (Block.inside k).readLines n [Keyword.endglobals] = (.outside, []) :=
    fun _ _ => rfl
  have hglobals : ∀ k n, (Block.inside k).readLines n (gs.map GlobalDecl.sourceLine) =
      (.inside k, gs.map .global) := fun k n =>
    readLines_map (fun g hg m => readNormal_global (h g hg) k m) n
  rw [linesOf, readLines_append, readLines_append, hopen, hglobals, hclose, List.nil_append,
    List.append_nil]

theorem joinable_of_mem_linesOf {gs : List GlobalDecl} (h : ∀ g ∈ gs, g.WellFormed) :
    ∀ l ∈ linesOf gs, Line.Joinable l := by
  intro l hl
  rw [linesOf, List.mem_append, List.mem_append, List.mem_singleton, List.mem_singleton] at hl
  rcases hl with (rfl | hl) | rfl
  · exact ⟨by decide, by decide⟩
  · obtain ⟨g, hg, rfl⟩ := List.mem_map.mp hl
    exact GlobalDecl.joinable_sourceLine (h g hg)
  · exact ⟨by decide, by decide⟩

end Block

end JassDecl
