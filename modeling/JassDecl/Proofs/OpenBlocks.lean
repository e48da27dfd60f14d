import JassDecl.Proofs.Concatenation
import JassDecl.Proofs.WholeWords
import Mathlib.Data.List.Induction

/-! # Blocks that are left open

At most one block is open at the end of a source. It was opened outside of all blocks, and no line
behind the one that opened it closes it.
-/

namespace JassDecl

open Token (HasWord Occurs)

namespace Block

/-! ## The block after one line -/

theorem isOpen_eq_false_iff {block : Block} : block.isOpen = false ↔ block = .outside := by
  refine ⟨eq_outside, ?_⟩
  rintro rfl
  rfl

/-- A block is open after a line if it was open and the line does not close it, or if the line
opens it. -/
theorem fst_readNormal_eq_inside_iff {block : Block} {number openedAt : Nat} {line : Text} :
    (block.readNormal number line).1 = .inside openedAt ↔
      (block = .inside openedAt ∧ ¬ HasWord Keyword.endglobals line) ∨
        (block = .outside ∧ HasWord Keyword.globals line ∧ number = openedAt) := by
  rw [← Token.hasKeyword_scan, ← Token.hasKeyword_scan]
  cases block with
  | outside =>
      rw [readNormal]
      split
      · rename_i hopens
        simp [hopens]
      · rename_i hopens
        simp [hopens]
  | inside before =>
      rw [readNormal]
      split
      · rename_i hcloses
        simp [hcloses]
      · rename_i hcloses
        simp [hcloses]

/-! ## The block after many lines -/

theorem fst_readLines_concat (block : Block) (number : Nat) (ls : List Text) (l : Text) :
    (block.readLines number (ls ++ [l])).1 =
      ((block.readLines number ls).1.readNormal (number + ls.length) (Line.normal l)).1 := by
  rw [readLines_append, readLines_cons]
  rfl

/-- The block that is open after some lines was opened by one of them. None was open in front of
that line, and no line behind it closes the block. -/
theorem fst_readLines_eq_inside_iff {number openedAt : Nat} {ls : List Text} :
    (Block.outside.readLines number ls).1 = .inside openedAt ↔
      ∃ before line after, ls = before ++ line :: after ∧ number + before.length = openedAt ∧
        (Block.outside.readLines number before).1 = .outside ∧
        HasWord Keyword.globals (Line.normal line) ∧
        ∀ l ∈ after, ¬ HasWord Keyword.endglobals (Line.normal l) := by
  -- Lines are taken away at the end: the last one closes the block, opens it, or leaves it as the
  -- lines in front of it do.
  induction ls using List.reverseRecOn with
  | nil => simp [readLines]
  | append_singleton ls l ih =>
      rw [fst_readLines_concat, fst_readNormal_eq_inside_iff, ih]
      constructor
      · rintro (⟨⟨before, line, after, rfl, hnumber, hbefore, hopens, hstays⟩, hl⟩ |
          ⟨hbefore, hopens, hnumber⟩)
        · refine ⟨before, line, after ++ [l], by simp, hnumber, hbefore, hopens, ?_⟩
          intro x hx
          rcases List.mem_append.mp hx with hx | hx
          · exact hstays x hx
          · rwa [List.mem_singleton.mp hx]
        · exact ⟨ls, l, [], rfl, hnumber, hbefore, hopens, by simp⟩
      · rintro ⟨before, line, after, hcut, hnumber, hbefore, hopens, hstays⟩
        rcases List.eq_nil_or_concat after with rfl | ⟨after, x, rfl⟩
        · obtain ⟨rfl, hlast⟩ := List.append_inj' hcut rfl
          obtain rfl := List.head_eq_of_cons_eq hlast
          exact Or.inr ⟨hbefore, hopens, hnumber⟩
        · rw [List.concat_eq_append, ← List.cons_append, ← List.append_assoc] at hcut
          obtain ⟨rfl, hlast⟩ := List.append_inj' hcut rfl
          obtain rfl := List.head_eq_of_cons_eq hlast
          refine Or.inl ⟨⟨before, line, after, rfl, hnumber, hbefore, hopens, fun y hy => ?_⟩, ?_⟩
          · exact hstays y (by simp [hy])
          · exact hstays l (by simp)

end Block

/-! ## The first line of a source -/

namespace Text

/-- A byte-order mark belongs to the first line. -/
theorem lines_dropMark (t : Text) : lines (dropMark t) = (lines t).modifyHead dropMark := by
  have hfree : ∀ a : Text, '\n' ∉ a → '\n' ∉ dropMark a := fun a ha => by
    rwa [← List.count_eq_zero, count_dropMark, List.count_eq_zero]
  induction t using marks_induction (· == '\n') with
  | free t ht =>
      have hnewline : '\n' ∉ t := fun hm => by simpa using ht _ hm
      rw [lines_of_newline_notMem hnewline, lines_of_newline_notMem (hfree t hnewline)]
      rfl
  | mark a c b ha hc _ =>
      have hnewline : '\n' ∉ a := fun hm => by simpa using ha _ hm
      obtain rfl : c = '\n' := by simpa using hc
      rw [dropMark_append, lines_append, lines_append, lines_of_newline_notMem hnewline,
        lines_of_newline_notMem (hfree a hnewline)]
      rfl

theorem modifyHead_eq_append_cons_iff {α : Type*} {f : α → α} {ls xs zs : List α} {y : α} :
    ls.modifyHead f = xs ++ y :: zs ↔
      ∃ xs' y', ls = xs' ++ y' :: zs ∧ xs = xs'.modifyHead f ∧
        y = if xs' = [] then f y' else y' := by
  constructor
  · intro h
    cases ls with
    | nil => simp at h
    | cons l ls =>
        cases xs with
        | nil =>
            obtain ⟨rfl, rfl⟩ := List.cons.inj h
            exact ⟨[], l, rfl, rfl, rfl⟩
        | cons x xs =>
            obtain ⟨rfl, rfl⟩ := List.cons.inj h
            exact ⟨l :: xs, y, rfl, rfl, rfl⟩
  · rintro ⟨xs', y', rfl, rfl, rfl⟩
    cases xs' <;> rfl

end Text

namespace Recognition

/-- The lines in front of a line leave the same block as a text of their own. -/
theorem finalBlock_intercalate {ls : List Text} (h : ∀ l ∈ ls, '\n' ∉ l) :
    finalBlock (List.intercalate ['\n'] ls) =
      (Block.outside.readLines 1 (ls.modifyHead Text.dropMark)).1 := by
  by_cases hls : ls = []
  · rw [hls]
    rfl
  · rw [finalBlock, Text.lines_dropMark, Text.lines_intercalate h hls]

/-! ## The line that is reported -/

/-- Whether the line with the given number, counted from 1, opens a block that stays open: the text
in front of it leaves no block open, and no line behind it has the word that closes one. A leading
byte-order mark is no part of the first line. -/
def OpensForGood (path text : Text) (number : Nat) : Prop :=
  ∃ before line after, Text.lines text = before ++ line :: after ∧ 1 + before.length = number ∧
    (ofSource ⟨path, List.intercalate ['\n'] before⟩).ok = true ∧
    Occurs Keyword.globals (Line.normal (if before = [] then Text.dropMark line else line)) ∧
    ∀ l ∈ after, ¬ Occurs Keyword.endglobals (Line.normal l)

theorem finalBlock_eq_inside_iff (path : Text) {text : Text} {number : Nat} :
    finalBlock text = .inside number ↔ OpensForGood path text number := by
  have hglobals : ∀ t, HasWord Keyword.globals t ↔ Occurs Keyword.globals t := fun t =>
    Token.hasWord_iff_occurs (by decide)
  have hend : ∀ t, HasWord Keyword.endglobals t ↔ Occurs Keyword.endglobals t := fun t =>
    Token.hasWord_iff_occurs (by decide)
  -- The lines in front are lines of the text, so they can be joined and parted again.
  have hok : ∀ {before line after}, Text.lines text = before ++ line :: after →
      ((Block.outside.readLines 1 (before.modifyHead Text.dropMark)).1 = .outside ↔
        (ofSource ⟨path, List.intercalate ['\n'] before⟩).ok = true) := by
    intro before line after hcut
    have hnewline : ∀ l ∈ before, '\n' ∉ l := fun l hl =>
      Text.newline_notMem_of_mem_lines (hcut ▸ List.mem_append_left _ hl)
    rw [ok_ofSource, finalBlock_intercalate hnewline, Bool.not_eq_true', Block.isOpen_eq_false_iff]
  rw [finalBlock, Text.lines_dropMark, Block.fst_readLines_eq_inside_iff, OpensForGood]
  simp only [Text.modifyHead_eq_append_cons_iff, hglobals, hend]
  constructor
  · rintro ⟨_, _, after, ⟨before, line, hcut, rfl, rfl⟩, hnumber, hbefore, hopens, hstays⟩
    rw [List.length_modifyHead] at hnumber
    exact ⟨before, line, after, hcut, hnumber, (hok hcut).mp hbefore, hopens, hstays⟩
  · rintro ⟨before, line, after, hcut, hnumber, hbefore, hopens, hstays⟩
    rw [← List.length_modifyHead (f := Text.dropMark)] at hnumber
    exact ⟨_, _, after, ⟨before, line, hcut, rfl, rfl⟩, hnumber, (hok hcut).mpr hbefore, hopens,
      hstays⟩

theorem mem_leftover_iff {path : Text} {block : Block} {d : Diagnostic} :
    d ∈ leftover path block ↔ ∃ number, block = .inside number ∧ d = .unclosed path number := by
  cases block <;> simp [leftover]

/-- A source has at most one diagnostic. It is about the line that opens a block for good, and there
is at most one such line. -/
theorem diagnostics_ofSource_iff (path text : Text) :
    (ofSource ⟨path, text⟩).diagnostics.length ≤ 1 ∧
    (∀ d ∈ (ofSource ⟨path, text⟩).diagnostics, ∃ number : Nat, d = .unclosed path number) ∧
    (∀ number : Nat, (∃ d ∈ (ofSource ⟨path, text⟩).diagnostics, d.line = number) ↔
      OpensForGood path text number) ∧
    ∀ m n, OpensForGood path text m → OpensForGood path text n → m = n := by
  rw [ofSource_eq]
  refine ⟨?_, fun d hd => ?_, fun number => ?_, fun m n hm hn => ?_⟩
  · cases finalBlock text <;> simp [leftover]
  · obtain ⟨number, -, hd⟩ := mem_leftover_iff.mp hd
    exact ⟨number, hd⟩
  · rw [← finalBlock_eq_inside_iff]
    constructor
    · rintro ⟨d, hd, hline⟩
      obtain ⟨opened, hblock, rfl⟩ := mem_leftover_iff.mp hd
      obtain rfl : opened = number := Int.ofNat.inj hline
      exact hblock
    · intro hblock
      exact ⟨.unclosed path number, mem_leftover_iff.mpr ⟨number, hblock, rfl⟩, rfl⟩
  · rw [← finalBlock_eq_inside_iff] at hm hn
    exact Block.inside.inj (hm.symm.trans hn)

/-- Line 2 closes the block of line 1, and line 4 opens another, although it has both words, too. -/
example :
    let lines := ["globals".toList, "globals endglobals".toList, "// globals".toList,
      "endglobals globals".toList, "endglobals_ globals".toList]
    (ofSource ⟨[], List.intercalate ['\n'] lines⟩).diagnostics = [.unclosed [] 4] := by
  decide

end Recognition

end JassDecl
