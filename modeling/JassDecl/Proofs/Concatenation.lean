import JassDecl.Proofs.BlockRun

/-! # Recognition of two texts in a row -/

namespace JassDecl

/-- The same diagnostic about a line `n` lines further down. -/
def Diagnostic.later (n : Nat) (d : Diagnostic) : Diagnostic :=
  { d with line := d.line + n }

namespace Recognition

/-! ## The final block of a source -/

/-- The block that a text leaves at its end. -/
def finalBlock (text : Text) : Block :=
  (Block.outside.readLines 1 (Text.lines (Text.dropMark text))).1

/-- The declarations of a text, in order. -/
def declarations (text : Text) : List Declaration :=
  (Block.outside.readLines 1 (Text.lines (Text.dropMark text))).2

theorem ofSource_eq (path text : Text) :
    ofSource ⟨path, text⟩ =
      ⟨Library.ofDeclarations (declarations text), leftover path (finalBlock text)⟩ :=
  rfl

theorem ok_ofSource (path text : Text) :
    (ofSource ⟨path, text⟩).ok = !(finalBlock text).isOpen := by
  rw [ofSource_eq, ok]
  cases finalBlock text <;> rfl

theorem leftover_renumber_add (path : Text) (n : Nat) (block : Block) :
    leftover path (block.renumber (· + n)) = (leftover path block).map (Diagnostic.later n) := by
  cases block <;> rfl

/-! ## The second text goes on where the first ends -/

theorem readLines_lines_append (a b : Text) :
    Block.outside.readLines 1 (Text.lines (Text.dropMark (a ++ '\n' :: b))) =
      (((finalBlock a).readLines (1 + (Text.lines a).length) (Text.lines b)).1,
        declarations a ++ ((finalBlock a).readLines (1 + (Text.lines a).length) (Text.lines b)).2) := by
  have hn : (Text.lines (Text.dropMark a)).length = (Text.lines a).length := by
    rw [Text.length_lines, Text.length_lines, Text.count_dropMark]
  rw [Text.dropMark_append, Text.lines_append, Block.readLines_append, hn]
  rfl

theorem finalBlock_append (a b : Text) :
    finalBlock (a ++ '\n' :: b) =
      ((finalBlock a).readLines (1 + (Text.lines a).length) (Text.lines b)).1 := by
  rw [finalBlock, readLines_lines_append]

theorem declarations_append (a b : Text) :
    declarations (a ++ '\n' :: b) =
      declarations a ++ ((finalBlock a).readLines (1 + (Text.lines a).length) (Text.lines b)).2 := by
  rw [declarations, readLines_lines_append]

/-- Outside a block the second text is read as on its own, some lines further down. -/
theorem readLines_outside_add (n : Nat) {text : Text} (h : text.head? ≠ some '\uFEFF') :
    Block.outside.readLines (1 + n) (Text.lines text) =
      ((finalBlock text).renumber (· + n), declarations text) := by
  rw [finalBlock, declarations, Text.dropMark_of_head?_ne h]
  exact Block.readLines_renumber (· + n) .outside 1 (Text.lines text) fun m _ => by omega

/-- The line that the block opened in line 1 counts as, when that block was opened in line
`openedAt` of a text of `n` lines. -/
def reopenedAt (openedAt n m : Nat) : Nat :=
  if m = 1 then openedAt else m + (n - 1)

/-- Inside a block the second text is read as after a line that opens one. -/
theorem readLines_inside_add (openedAt : Nat) {n : Nat} (hn : 0 < n) (text : Text) :
    (Block.inside openedAt).readLines (1 + n) (Text.lines text) =
      ((finalBlock (Keyword.globals ++ '\n' :: text)).renumber (reopenedAt openedAt n),
        declarations (Keyword.globals ++ '\n' :: text)) := by
  have hf : ∀ m, 2 ≤ m → reopenedAt openedAt n (m + 1) = reopenedAt openedAt n m + 1 := by
    intro m hm
    rw [reopenedAt, reopenedAt, if_neg (by omega), if_neg (by omega)]
    omega
  have hstart : reopenedAt openedAt n 2 = 1 + n := by
    rw [reopenedAt, if_neg (by omega)]
    omega
  have hfinal : finalBlock Keyword.globals = .inside 1 := rfl
  have hdecl : declarations Keyword.globals = [] := rfl
  have hrun := Block.readLines_renumber (reopenedAt openedAt n) (.inside 1) 2 (Text.lines text) hf
  rw [finalBlock_append, declarations_append, hfinal, hdecl, List.nil_append]
  rw [hstart] at hrun
  exact hrun

theorem leftover_reopened (path : Text) (openedAt n : Nat) (block : Block) :
    leftover path (block.renumber (reopenedAt openedAt n)) =
      (leftover path block).flatMap fun d =>
        if d.line = 1 then [.unclosed path openedAt] else [d.later (n - 1)] := by
  cases block with
  | outside => rfl
  | inside m =>
      by_cases hm : m = 1
      · simp [leftover, Block.renumber, reopenedAt, Diagnostic.unclosed, hm]
      · have hline : (m : Int) ≠ 1 := by omega
        simp [leftover, Block.renumber, reopenedAt, Diagnostic.unclosed, Diagnostic.later, hm, hline]

/-- A text after a line feed adds its own declarations and diagnostics to a text that leaves no
block open. It goes on inside a block that is left open, as it would after a first line that opens
one; what is then reported about line 1 is about the line that opened the block. -/
theorem ofSource_append_newline (path a b : Text) :
    ((ofSource ⟨path, a⟩).ok = true → b.head? ≠ some '\uFEFF' →
      (ofSource ⟨path, a ++ '\n' :: b⟩).library =
          (ofSource ⟨path, a⟩).library ++ (ofSource ⟨path, b⟩).library ∧
        (ofSource ⟨path, a ++ '\n' :: b⟩).diagnostics =
          (ofSource ⟨path, b⟩).diagnostics.map (.later (Text.lines a).length)) ∧
    ((ofSource ⟨path, a⟩).ok = false →
      (ofSource ⟨path, a ++ '\n' :: b⟩).library =
          (ofSource ⟨path, a⟩).library ++
            (ofSource ⟨path, Keyword.globals ++ '\n' :: b⟩).library ∧
        (ofSource ⟨path, a ++ '\n' :: b⟩).diagnostics =
          (ofSource ⟨path, Keyword.globals ++ '\n' :: b⟩).diagnostics.flatMap fun d =>
            if d.line = 1 then (ofSource ⟨path, a⟩).diagnostics
            else [d.later ((Text.lines a).length - 1)]) := by
  rw [ok_ofSource]
  simp only [ofSource_eq, finalBlock_append, declarations_append a b,
    Library.ofDeclarations_append]
  cases ha : finalBlock a with
  | outside =>
      refine ⟨fun _ hb => ?_, fun hopen => absurd hopen (by decide)⟩
      rw [readLines_outside_add _ hb]
      exact ⟨rfl, leftover_renumber_add path _ _⟩
  | inside openedAt =>
      have hn : 0 < (Text.lines a).length := by
        rw [Text.length_lines]
        omega
      refine ⟨fun hclosed => absurd hclosed (by simp [Block.isOpen]), fun _ => ?_⟩
      rw [readLines_inside_add openedAt hn]
      exact ⟨rfl, leftover_reopened path openedAt _ _⟩

/-- One block that is closed before the second text, and one that is closed in it. -/
theorem ofSource_append_newline_blocks :
    (ofSource ⟨[], "globals\nreal x\nendglobals".toList⟩).ok = true ∧
    (ofSource ⟨[], "globals\nreal x\nendglobals".toList ++ '\n' :: "globals".toList⟩).diagnostics =
      [.unclosed [] 4] ∧
    (ofSource ⟨[], "globals\nreal x".toList⟩).ok = false ∧
    (ofSource ⟨[], "globals\nreal x".toList ++ '\n' :: "endglobals\nglobals".toList⟩).diagnostics =
      [.unclosed [] 4] := by
  have hclosed : (ofSource ⟨[], "globals\nreal x\nendglobals".toList⟩).ok = true := by decide
  have hopen : (ofSource ⟨[], "globals\nreal x".toList⟩).ok = false := by decide
  have hfirst := ((ofSource_append_newline [] _ "globals".toList).1 hclosed (by decide)).2
  have hsecond := ((ofSource_append_newline [] _ "endglobals\nglobals".toList).2 hopen).2
  exact ⟨hclosed, hfirst.trans (by decide), hopen, hsecond.trans (by decide)⟩

end Recognition

end JassDecl
