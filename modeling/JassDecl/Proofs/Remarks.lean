import JassDecl.Proofs.OpenBlocks
import JassDecl.Proofs.Runs

/-! # What is said of sources

A source that ends inside a block of globals is told of in one line, by its path and the line that
opens the block. Only a run that takes its sources says whether they declare anything. -/

namespace JassDecl

/-! ## Blocks without an end -/

/-- What is said of a block of globals that opens in a line of a file and has no end. -/
def Report.unclosedText (path : Text) (openedAt : Nat) : Text :=
  path ++ ":".toList ++ Nat.toDigits 10 openedAt ++
    ": [recognize] globals block opened here is not closed by endglobals".toList

theorem Diagnostic.render_unclosed (path : Text) (openedAt : Nat) :
    (unclosed path openedAt).render = Report.unclosedText path openedAt := by
  simp [render, unclosed, Report.unclosedText, Text.ofInt, Text.ofNat]

namespace Recognition

/-- The sources that end inside a block of globals, in order, each with the line that opens it. -/
inductive LeftOpen : List Source → List (Source × Nat) → Prop where
  | nil : LeftOpen [] []
  | closed {source rest opened} (hsource : ∀ n, ¬ OpensForGood source.path source.text n)
      (hrest : LeftOpen rest opened) : LeftOpen (source :: rest) opened
  | opened {source n rest opened} (hsource : OpensForGood source.path source.text n)
      (hrest : LeftOpen rest opened) : LeftOpen (source :: rest) ((source, n) :: opened)

theorem exists_leftOpen (sources : List Source) : ∃ opened, LeftOpen sources opened := by
  induction sources with
  | nil => exact ⟨[], .nil⟩
  | cons source sources ih =>
      obtain ⟨opened, hopened⟩ := ih
      by_cases hsource : ∃ n, OpensForGood source.path source.text n
      · obtain ⟨n, hn⟩ := hsource
        exact ⟨(source, n) :: opened, .opened hn hopened⟩
      · exact ⟨opened, .closed (not_exists.mp hsource) hopened⟩

theorem diagnostics_of_opensForGood {source : Source} {n : Nat}
    (h : OpensForGood source.path source.text n) :
    (ofSource source).diagnostics = [.unclosed source.path n] := by
  rw [ofSource_eq, (finalBlock_eq_inside_iff source.path).mpr h]
  rfl

theorem diagnostics_of_not_opensForGood {source : Source}
    (h : ∀ n, ¬ OpensForGood source.path source.text n) : (ofSource source).diagnostics = [] := by
  rw [ofSource_eq]
  cases hfinal : finalBlock source.text with
  | outside => rfl
  | inside n => exact absurd ((finalBlock_eq_inside_iff source.path).mp hfinal) (h n)

namespace LeftOpen

variable {sources : List Source} {opened : List (Source × Nat)}

/-- Each source that is left open has its diagnostic, and there are no others. -/
theorem diagnostics_eq (h : LeftOpen sources opened) :
    (ofSources sources).diagnostics =
      opened.map fun entry => .unclosed entry.1.path entry.2 := by
  induction h with
  | nil => rfl
  | closed hsource _ ih =>
      rw [ofSources_cons, diagnostics_append, diagnostics_of_not_opensForGood hsource, ih]
      rfl
  | opened hsource _ ih =>
      rw [ofSources_cons, diagnostics_append, diagnostics_of_opensForGood hsource, ih]
      rfl

theorem ok_iff (h : LeftOpen sources opened) : (ofSources sources).ok = true ↔ opened = [] := by
  rw [ok, List.isEmpty_iff, h.diagnostics_eq]
  exact List.map_eq_nil_iff

theorem eq_nil_iff (h : LeftOpen sources opened) :
    opened = [] ↔ ∀ source ∈ sources, ∀ n, ¬ OpensForGood source.path source.text n := by
  induction h with
  | nil => simp
  | closed hsource _ ih => simp [ih, hsource]
  | @opened source n rest opened hsource _ ih =>
      refine iff_of_false (List.cons_ne_nil _ _) fun hclosed => ?_
      exact hclosed source List.mem_cons_self n hsource

/-- The notices on the sources that are left open, in words. -/
theorem map_render_diagnostics (h : LeftOpen sources opened) (severity : Severity) :
    (Product.diagnostics severity (ofSources sources)).map Notice.render =
      opened.map fun entry => severity.label ++ Report.unclosedText entry.1.path entry.2 := by
  rw [Product.diagnostics, h.diagnostics_eq, List.map_map, List.map_map]
  refine List.map_congr_left fun entry _ => ?_
  rw [← Diagnostic.render_unclosed]
  rfl

end LeftOpen

end Recognition

/-! ## Libraries without declarations -/

namespace Library

theorem isEmpty_iff {l : Library} : l.isEmpty = true ↔ l = empty := by
  obtain ⟨types, natives, globals, functions⟩ := l
  simp [isEmpty, empty, and_assoc]

theorem isEmpty_append (a b : Library) : (a ++ b).isEmpty = (a.isEmpty && b.isEmpty) := by
  rw [Bool.eq_iff_iff, Bool.and_eq_true]
  simp only [isEmpty, types_append, natives_append, globals_append, functions_append,
    Bool.and_eq_true, List.isEmpty_iff, List.append_eq_nil_iff]
  tauto

end Library

theorem Recognition.isEmpty_library_ofSources_iff {sources : List Source} :
    (ofSources sources).library.isEmpty = true ↔
      ∀ source ∈ sources, (ofSource source).library = .empty := by
  induction sources with
  | nil => exact iff_of_true rfl (List.forall_mem_nil _)
  | cons source sources ih =>
      rw [ofSources_cons, library_append, Library.isEmpty_append, Bool.and_eq_true, ih,
        Library.isEmpty_iff, List.forall_mem_cons]

/-! ## Sources that are taken, and sources that are refused -/

namespace Product

open Recognition (LeftOpen)

/-- The lines on sources that are taken, some of which may be left open. -/
def remarks (stopAt : Option Phase) (sources : List Source) (opened : List (Source × Nat)) :
    List Text :=
  if stopAt = some .normalize then []
  else
    (opened.map fun entry => "warning: ".toList ++ Report.unclosedText entry.1.path entry.2) ++
      if ∀ source ∈ sources, (Recognition.ofSource source).library = .empty then
        ["warning: no declarations recognized".toList] else []

/-- The lines on sources that are refused because some are left open. -/
def complaints (opened : List (Source × Nat)) : List Text :=
  opened.map fun entry => "error: ".toList ++ Report.unclosedText entry.1.path entry.2

variable {stopAt : Option Phase} {strict : Bool} {sources : List Source}
  {opened : List (Source × Nat)}

theorem accepts_iff (h : LeftOpen sources opened) :
    Accepts stopAt strict sources ↔ strict = false ∨ stopAt = some .normalize ∨ opened = [] := by
  rw [Accepts, h.ok_iff, or_left_comm]

/-- What a strict run takes comes to the same as in a lenient run. -/
theorem ofSources_of_accepts (h : Accepts stopAt strict sources) (table : Override.Table) :
    ofSources stopAt strict table sources = ofSources stopAt false table sources := by
  by_cases hphase : stopAt = some .normalize
  · simp only [ofSources, if_pos hphase]
  have haccepts : (strict && !(Recognition.ofSources sources).ok) = false := by
    obtain h | h | h := h
    · exact absurd h hphase
    · rw [h, Bool.false_and]
    · rw [h, Bool.not_true, Bool.and_false]
  simp only [ofSources, haccepts, Bool.false_and]

/-- The notices on sources that are taken, in words. -/
theorem map_render_of_accepts (hopened : LeftOpen sources opened)
    (h : Accepts stopAt strict sources) (table : Override.Table) :
    (ofSources stopAt strict table sources).notices.map Notice.render =
      remarks stopAt sources opened := by
  rw [ofSources_of_accepts h, ofSources, remarks]
  split
  · rfl
  · simp only [Bool.false_and, Bool.false_eq_true, if_false, List.map_append,
      hopened.map_render_diagnostics, Recognition.isEmpty_library_ofSources_iff]
    split <;> rfl

/-- The notices on sources that are refused, in words. -/
theorem map_render_of_not_accepts (hopened : LeftOpen sources opened)
    (h : ¬ Accepts stopAt strict sources) (table : Override.Table) :
    (ofSources stopAt strict table sources).notices.map Notice.render = complaints opened := by
  obtain ⟨hphase, hstrict, hok⟩ : stopAt ≠ some .normalize ∧ strict = true ∧
      (Recognition.ofSources sources).ok = false := by
    simpa [Accepts] using h
  simp only [ofSources, if_neg hphase, hstrict, hok, Bool.not_false, Bool.and_self, if_true]
  exact hopened.map_render_diagnostics .error

end Product

end JassDecl
