import JassDecl.Proofs.NormalForm
import JassDecl.Recognition

/-! # Runs through blocks of globals -/

namespace JassDecl

/-! ## Libraries of declarations -/

theorem Library.ofDeclarations_append (xs ys : List Declaration) :
    ofDeclarations (xs ++ ys) = ofDeclarations xs ++ ofDeclarations ys := by
  simp only [ofDeclarations, List.filterMap_append]
  rfl

namespace Block

/-! ## One line -/

/-- Reads one line in normal form. -/
def readNormal (block : Block) (number : Nat) (line : Text) : Block × Option Declaration :=
  match block with
  | .inside openedAt =>
      if Token.hasKeyword Keyword.endglobals (Token.scan line) then (.outside, none)
      else (.inside openedAt, (GlobalDecl.ofLine? line).map .global)
  | .outside =>
      if Token.hasKeyword Keyword.globals (Token.scan line) then (.inside number, none)
      else (.outside, Declaration.ofStatement? line)

theorem readNormal_nil (block : Block) (number : Nat) :
    block.readNormal number [] = (block, none) := by
  cases block <;> rfl

/-- All that is read of a raw line is its normal form, also in a comment line. -/
theorem read_eq_readNormal (block : Block) (number : Nat) (raw : Text) :
    block.read number raw = block.readNormal number (Line.normal raw) := by
  by_cases h : Line.isComment raw = true
  · rw [Line.normal_of_isComment h, readNormal_nil, read, if_pos h]
  · rw [read, if_neg h]
    cases block <;> rfl

/-- The block after its opening line got another number. -/
def renumber (f : Nat → Nat) : Block → Block
  | .outside => .outside
  | .inside openedAt => .inside (f openedAt)

/-- Whether a block of globals is open. -/
def isOpen : Block → Bool
  | .outside => false
  | .inside _ => true

theorem eq_outside {block : Block} (h : block.isOpen = false) : block = .outside := by
  cases block with
  | outside => rfl
  | inside openedAt => exact absurd h (by simp [isOpen])

theorem readNormal_renumber (f : Nat → Nat) (block : Block) (number : Nat) (line : Text) :
    (block.renumber f).readNormal (f number) line =
      ((block.readNormal number line).1.renumber f, (block.readNormal number line).2) := by
  cases block <;> simp only [renumber, readNormal] <;> split <;> rfl

/-- What a line declares depends on whether a block is open, and not on line numbers. -/
theorem readNormal_congr {a b : Block} (h : a.isOpen = b.isOpen) (m n : Nat) (line : Text) :
    (a.readNormal m line).1.isOpen = (b.readNormal n line).1.isOpen ∧
      (a.readNormal m line).2 = (b.readNormal n line).2 := by
  cases a <;> cases b <;> simp only [isOpen, Bool.false_eq_true, Bool.true_eq_false] at h <;>
    simp only [readNormal] <;> split <;> exact ⟨rfl, rfl⟩

/-! ## Many lines -/

theorem readLines_cons (block : Block) (number : Nat) (raw : Text) (rest : List Text) :
    block.readLines number (raw :: rest) =
      (((block.readNormal number (Line.normal raw)).1.readLines (number + 1) rest).1,
        (block.readNormal number (Line.normal raw)).2.toList ++
          ((block.readNormal number (Line.normal raw)).1.readLines (number + 1) rest).2) := by
  rw [readLines, read_eq_readNormal]

theorem readLines_append (block : Block) (number : Nat) (xs ys : List Text) :
    block.readLines number (xs ++ ys) =
      (((block.readLines number xs).1.readLines (number + xs.length) ys).1,
        (block.readLines number xs).2 ++
          ((block.readLines number xs).1.readLines (number + xs.length) ys).2) := by
  induction xs generalizing block number with
  | nil => rfl
  | cons x xs ih =>
      have hn : number + (x :: xs).length = number + 1 + xs.length := by
        simp only [List.length_cons]
        omega
      rw [List.cons_append, readLines_cons, readLines_cons, ih, hn, List.append_assoc]

/-- Reading at other line numbers opens the same blocks, under the other numbers. -/
theorem readLines_renumber (f : Nat → Nat) (block : Block) (number : Nat) (ls : List Text)
    (hf : ∀ m, number ≤ m → f (m + 1) = f m + 1) :
    (block.renumber f).readLines (f number) ls =
      ((block.readLines number ls).1.renumber f, (block.readLines number ls).2) := by
  induction ls generalizing block number with
  | nil => rfl
  | cons l ls ih =>
      have hrest : ∀ m, number + 1 ≤ m → f (m + 1) = f m + 1 := fun m hm => hf m (by omega)
      rw [readLines_cons, readLines_cons, readNormal_renumber, ← hf number le_rfl,
        ih _ (number + 1) hrest]

/-- The lines of a run that are in normal form already, comments and empty lines left out, give the
same run. -/
theorem readLines_normal {a b : Block} (h : a.isOpen = b.isOpen) (m n : Nat) (ls : List Text) :
    (a.readLines m ls).1.isOpen = (b.readLines n ((ls.map Line.normal).filter (!·.isEmpty))).1.isOpen ∧
      (a.readLines m ls).2 = (b.readLines n ((ls.map Line.normal).filter (!·.isEmpty))).2 := by
  induction ls generalizing a b m n with
  | nil => exact ⟨h, rfl⟩
  | cons l ls ih =>
      rw [readLines_cons, List.map_cons]
      by_cases hl : Line.normal l = []
      · rw [hl, readNormal_nil, List.filter_cons_of_neg (by simp)]
        exact ih h (m + 1) n
      · rw [List.filter_cons_of_pos (by simpa using hl), readLines_cons, Line.normal_normal]
        obtain ⟨hopen, hdecl⟩ := readNormal_congr h m n (Line.normal l)
        obtain ⟨hopen', hdecl'⟩ := ih hopen (m + 1) (n + 1)
        exact ⟨hopen', by rw [hdecl, hdecl']⟩

end Block

end JassDecl
