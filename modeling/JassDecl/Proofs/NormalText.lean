import JassDecl.Product
import JassDecl.Proofs.Concatenation

/-! # Recognition of normal forms

The normal forms of the lines of many sources, written into one text, declare what the sources
declare. Two sources stay apart in that text only if the first of them leaves no block open.
-/

namespace JassDecl

/-! ## One more source -/

namespace Recognition

theorem ofSources_cons (source : Source) (sources : List Source) :
    ofSources (source :: sources) = ofSource source ++ ofSources sources :=
  rfl

theorem ok_append (a b : Recognition) : (a ++ b).ok = (a.ok && b.ok) := by
  cases a with
  | mk library diagnostics => cases diagnostics <;> rfl

end Recognition

namespace Product

/-! ## The text of normal forms -/

/-- Comment lines need not be left out on their own: their normal form is empty. -/
theorem normalLines_eq (text : Text) :
    normalLines text = ((Text.lines text).map Line.normal).filter (!·.isEmpty) := by
  rw [normalLines]
  induction Text.lines text with
  | nil => rfl
  | cons raw ls ih =>
      by_cases hc : Line.isComment raw = true
      · rw [List.filter_cons_of_neg (by simpa using hc), ih, List.map_cons,
          Line.normal_of_isComment hc, List.filter_cons_of_neg (by simp)]
      · rw [List.filter_cons_of_pos (by simpa using hc), List.map_cons, List.map_cons,
          List.filter_cons, List.filter_cons, ih]

theorem mem_normalLines {text line : Text} (h : line ∈ normalLines text) :
    ∃ raw ∈ Text.lines text, line = Line.normal raw := by
  rw [normalLines_eq] at h
  obtain ⟨raw, hraw, rfl⟩ := List.mem_map.mp (List.mem_filter.mp h).1
  exact ⟨raw, hraw, rfl⟩

theorem newline_notMem_of_mem_normalLines {text line : Text} (h : line ∈ normalLines text) :
    '\n' ∉ line := by
  obtain ⟨raw, hraw, rfl⟩ := mem_normalLines h
  exact Line.newline_notMem_normal (Text.newline_notMem_of_mem_lines hraw)

theorem lines_normalText (sources : List Source) :
    Text.lines (normalText sources) =
      (sources.flatMap fun source => normalLines source.text) ++ [[]] := by
  refine Text.lines_unlines fun line hline => ?_
  obtain ⟨source, -, hline⟩ := List.mem_flatMap.mp hline
  exact newline_notMem_of_mem_normalLines hline

/-- Normal forms bring in no byte-order mark. -/
theorem mark_notMem_normalText {sources : List Source}
    (h : ∀ source ∈ sources, '\uFEFF' ∉ source.text) : '\uFEFF' ∉ normalText sources := by
  intro hm
  obtain ⟨line, hline, hm⟩ := List.mem_flatMap.mp hm
  obtain ⟨source, hsource, hline⟩ := List.mem_flatMap.mp hline
  obtain ⟨raw, hraw, rfl⟩ := mem_normalLines hline
  have hnormal : '\uFEFF' ∈ Line.normal raw := by simpa using hm
  have hraw' : '\uFEFF' ∈ raw := by
    rcases Line.mem_of_mem_spaced hnormal with hs | hs
    · exact absurd hs (by decide)
    · exact Line.code_subset raw hs
  exact h source hsource (Text.subset_of_mem_lines hraw hraw')

/-! ## One source after the other -/

theorem declarations_eq_readLines {text : Text} (h : '\uFEFF' ∉ text) (number : Nat) :
    (Recognition.finalBlock text).isOpen =
        (Block.outside.readLines number (normalLines text)).1.isOpen ∧
      Recognition.declarations text = (Block.outside.readLines number (normalLines text)).2 := by
  have hmark : text.head? ≠ some '\uFEFF' := fun hh => h (List.mem_of_head? hh)
  rw [Recognition.finalBlock, Recognition.declarations, Text.dropMark_of_head?_ne hmark,
    normalLines_eq]
  exact Block.readLines_normal rfl 1 number (Text.lines text)

/-- Reading all normal forms declares what the sources declare, and leaves a block open exactly if
the last source does. -/
theorem readLines_flatMap_normalLines {sources : List Source}
    (hmark : ∀ source ∈ sources, '\uFEFF' ∉ source.text)
    (hok : ∀ source ∈ sources.dropLast, (Recognition.ofSource source).ok = true) (number : Nat) :
    Library.ofDeclarations (Block.outside.readLines number
        (sources.flatMap fun source => normalLines source.text)).2 =
      (Recognition.ofSources sources).library ∧
    (!(Block.outside.readLines number
        (sources.flatMap fun source => normalLines source.text)).1.isOpen) =
      (Recognition.ofSources sources).ok := by
  induction sources generalizing number with
  | nil => exact ⟨rfl, rfl⟩
  | cons source sources ih =>
      obtain ⟨hopen, hdecl⟩ := declarations_eq_readLines (hmark source (by simp)) number
      have hfirst : (Recognition.ofSource source).ok = !(Recognition.finalBlock source.text).isOpen :=
        Recognition.ok_ofSource source.path source.text
      rw [List.flatMap_cons, Block.readLines_append, Library.ofDeclarations_append, ← hdecl,
        Recognition.ofSources_cons, Recognition.ok_append]
      cases sources with
      | nil =>
          refine ⟨rfl, ?_⟩
          rw [hfirst, hopen]
          exact (Bool.and_true _).symm
      | cons next sources =>
          have hsource : (Recognition.ofSource source).ok = true := hok source (by simp)
          have hclosed : (Block.outside.readLines number (normalLines source.text)).1 = .outside := by
            rw [hfirst, hopen, Bool.not_eq_true'] at hsource
            exact Block.eq_outside hsource
          obtain ⟨hlibrary, hrest⟩ := ih (fun s hs => hmark s (by simp [hs]))
            (fun s hs => hok s (by simp [List.dropLast_cons_of_ne_nil, hs]))
            (number + (normalLines source.text).length)
          rw [hclosed, hlibrary, hrest, hsource]
          exact ⟨rfl, (Bool.true_and _).symm⟩

/-- The normal forms of all lines, in one text, declare what the sources declare one by one, if no
source but the last leaves a block open. -/
theorem ofSource_normalText (path : Text) (sources : List Source)
    (hmark : ∀ source ∈ sources, '\uFEFF' ∉ source.text)
    (hok : ∀ source ∈ sources.dropLast, (Recognition.ofSource source).ok = true) :
    (Recognition.ofSource ⟨path, normalText sources⟩).library =
        (Recognition.ofSources sources).library ∧
      (Recognition.ofSource ⟨path, normalText sources⟩).ok = (Recognition.ofSources sources).ok := by
  have hhead : (normalText sources).head? ≠ some '\uFEFF' := fun hh =>
    mark_notMem_normalText hmark (List.mem_of_head? hh)
  have hlast : ∀ (block : Block) (number : Nat), block.readLines number [[]] = (block, []) := by
    intro block number
    rw [Block.readLines_cons, show Line.normal [] = [] from rfl, Block.readNormal_nil]
    rfl
  rw [Recognition.ok_ofSource, Recognition.ofSource_eq, Recognition.finalBlock,
    Recognition.declarations, Text.dropMark_of_head?_ne hhead, lines_normalText,
    Block.readLines_append, hlast, List.append_nil]
  exact readLines_flatMap_normalLines hmark hok 1

theorem ofSource_normalText_open_block :
    '\uFEFF' ∉ "globals // a\n\treal  x\r\nendglobals".toList ∧
    (Recognition.ofSource ⟨[], "globals // a\n\treal  x\r\nendglobals".toList⟩).ok = true ∧
    (Recognition.ofSource ⟨[], normalText
        [⟨[], "globals // a\n\treal  x\r\nendglobals".toList⟩, ⟨[], "globals".toList⟩]⟩).library =
      { globals := [⟨false, "real".toList, false, "x".toList, none⟩] } ∧
    (Recognition.ofSource ⟨[], normalText
        [⟨[], "globals // a\n\treal  x\r\nendglobals".toList⟩, ⟨[], "globals".toList⟩]⟩).ok =
      false := by
  have h := ofSource_normalText []
    [⟨[], "globals // a\n\treal  x\r\nendglobals".toList⟩, ⟨[], "globals".toList⟩]
    (by decide) (by decide)
  exact ⟨by decide, by decide, h.1.trans (by decide), h.2.trans (by decide)⟩

end Product

end JassDecl
