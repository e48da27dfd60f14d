import JassDecl.Proofs.Remarks
import JassDecl.Proofs.Settings

/-! # What a run reports

A run meets its obstacles in a fixed order and reports the first one. Each way that a run can go has
its exit code and the lines that it prints. -/

namespace JassDecl

open Recognition (LeftOpen OpensForGood)
open Step (unlessQuiet Tells)

/-! ## Lines on failures and on progress -/

namespace Report

/-- Whether a line only tells how far a run has come. -/
def tellsProgress (line : Text) : Bool :=
  "parsing: ".toList.isPrefixOf line || "writing: ".toList.isPrefixOf line

/-- The lines for paths that a run attempts to read, unless it is quiet. -/
def parsing (quiet : Bool) (paths : List Text) : List Text :=
  unlessQuiet quiet (paths.map fun path => "parsing: ".toList ++ path)

/-- The line for the path that a run is about to write, unless it is quiet. -/
def writing (quiet : Bool) (path : Text) : List Text :=
  unlessQuiet quiet ["writing: ".toList ++ path]

theorem tellsProgress_of_error {line : Text} (h : "error: ".toList <+: line) :
    tellsProgress line = false := by
  obtain ⟨rest, rfl⟩ := h
  rfl

theorem tellsProgress_of_warning {line : Text} (h : "warning: ".toList <+: line) :
    tellsProgress line = false := by
  obtain ⟨rest, rfl⟩ := h
  rfl

theorem error_cannotWrite (path : Text) :
    "error: ".toList <+: "error: cannot write '".toList ++ path ++ "'".toList :=
  ⟨_, rfl⟩

theorem mem_unlessQuiet_iff {α : Type} {quiet : Bool} {reported : List α} {a : α} :
    a ∈ unlessQuiet quiet reported ↔ quiet = false ∧ a ∈ reported := by
  cases quiet <;> simp [unlessQuiet]

theorem tellsProgress_of_mem_parsing {quiet : Bool} {paths : List Text} :
    ∀ line ∈ parsing quiet paths, tellsProgress line = true := by
  intro line hline
  obtain ⟨path, -, rfl⟩ := List.mem_map.mp (mem_unlessQuiet_iff.mp hline).2
  rfl

theorem tellsProgress_of_mem_writing {quiet : Bool} {path : Text} :
    ∀ line ∈ writing quiet path, tellsProgress line = true := by
  intro line hline
  obtain rfl := List.mem_singleton.mp (mem_unlessQuiet_iff.mp hline).2
  rfl

theorem filter_of_tellsProgress {lines : List Text}
    (h : ∀ line ∈ lines, tellsProgress line = true) : lines.filter (!tellsProgress ·) = [] := by
  refine List.filter_eq_nil_iff.mpr fun line hline => ?_
  rw [h line hline]
  nofun

theorem filter_of_not_tellsProgress {lines : List Text}
    (h : ∀ line ∈ lines, tellsProgress line = false) :
    lines.filter (!tellsProgress ·) = lines := by
  refine List.filter_eq_self.mpr fun line hline => ?_
  rw [h line hline]
  rfl

end Report

namespace Product

variable {stopAt : Option Phase} {sources : List Source} {opened : List (Source × Nat)}

theorem warning_of_mem_remarks :
    ∀ line ∈ remarks stopAt sources opened, "warning: ".toList <+: line := by
  intro line hline
  rw [remarks] at hline
  split at hline
  · cases hline
  obtain hopened | hempty := List.mem_append.mp hline
  · obtain ⟨entry, -, rfl⟩ := List.mem_map.mp hopened
    exact List.prefix_append _ _
  · split at hempty
    · obtain rfl := List.mem_singleton.mp hempty
      exact ⟨_, rfl⟩
    · cases hempty

theorem tellsProgress_of_mem_remarks :
    ∀ line ∈ remarks stopAt sources opened, Report.tellsProgress line = false :=
  fun line hline => Report.tellsProgress_of_warning (warning_of_mem_remarks line hline)

theorem error_of_mem_complaints : ∀ line ∈ complaints opened, "error: ".toList <+: line := by
  intro line hline
  obtain ⟨entry, -, rfl⟩ := List.mem_map.mp hline
  exact List.prefix_append _ _

theorem tellsProgress_of_mem_complaints :
    ∀ line ∈ complaints opened, Report.tellsProgress line = false :=
  fun line hline => Report.tellsProgress_of_error (error_of_mem_complaints line hline)

end Product

/-! ## Files that lack something -/

namespace Plan

variable {read : Text → Option Bytes}

/-- There is no table in the named file, and the line says why. -/
def LacksTable (read : Text → Option Bytes) (file : Option Text) (line : Text) : Prop :=
  ∃ path, file = some path ∧
    ((read path = none ∧ line = "error: cannot open '".toList ++ path ++ "'".toList) ∨
      ∃ bytes fault, read path = some bytes ∧ Override.Table.ofBytes bytes = .error fault ∧
        line = "error: ".toList ++ path ++ ": ".toList ++ fault.message)

/-- There is no source at a path, and the line says why. -/
def LacksSource (read : Text → Option Bytes) (path line : Text) : Prop :=
  (read path = none ∧ line = "error: cannot open '".toList ++ path ++ "'".toList) ∨
    ∃ bytes fault, read path = some bytes ∧ Utf8.decode bytes = .error fault ∧
      line = "error: invalid utf-8 in '".toList ++ path ++ "'".toList

theorem LacksTable.error {file : Option Text} {line : Text} (h : LacksTable read file line) :
    "error: ".toList <+: line := by
  obtain ⟨path, -, ⟨-, rfl⟩ | ⟨bytes, fault, -, -, rfl⟩⟩ := h <;> exact ⟨_, rfl⟩

theorem LacksSource.error {path line : Text} (h : LacksSource read path line) :
    "error: ".toList <+: line := by
  obtain ⟨-, rfl⟩ | ⟨bytes, fault, -, -, rfl⟩ := h <;> exact ⟨_, rfl⟩

end Plan

/-! ## The course of a run -/

/-- The lines of a run that has come to open its output. -/
def Report.account (options : Options) (sources : List Source) (opened : List (Source × Nat)) :
    List Text :=
  parsing options.quiet options.inputs ++
    (Product.remarks options.stopAt sources opened ++ writing options.quiet options.output)

namespace FileTree

/-- How a run with the given options goes: its exit code, and the lines that it prints. -/
inductive Course (tree : FileTree) (options : Options) : Nat → List Text → Prop where
  | noTable {line} (htable : Plan.LacksTable tree.read? options.overridesFile line) :
      Course tree options 1 [line]
  /-- The inputs after the first that cannot be read are not looked at. -/
  | noSource {upper good bad later sources line}
      (htable : Plan.HoldsTable tree.read? options.overridesFile upper)
      (hinputs : options.inputs = good ++ bad :: later)
      (hgood : List.Forall₂ (Plan.HoldsSource tree.read?) good sources)
      (hbad : Plan.LacksSource tree.read? bad line) :
      Course tree options 1 (Report.parsing options.quiet (good ++ [bad]) ++ [line])
  | refused {upper sources opened} (hreads : Plan.Reads tree.read? options upper sources)
      (hopened : LeftOpen sources opened) (hstrict : options.strict = true)
      (hphase : options.stopAt ≠ some .normalize) (hne : opened ≠ []) :
      Course tree options 1
        (Report.parsing options.quiet options.inputs ++ Product.complaints opened)
  | notWritten {upper sources opened} (hreads : Plan.Reads tree.read? options upper sources)
      (hopened : LeftOpen sources opened)
      (htaken : options.strict = false ∨ options.stopAt = some .normalize ∨ opened = [])
      (hwritable : ¬ tree.Writable options.output) :
      Course tree options 1 (Report.account options sources opened ++
        ["error: cannot write '".toList ++ options.output ++ "'".toList])
  | written {upper sources opened} (hreads : Plan.Reads tree.read? options upper sources)
      (hopened : LeftOpen sources opened)
      (htaken : options.strict = false ∨ options.stopAt = some .normalize ∨ opened = [])
      (hwritable : tree.Writable options.output) :
      Course tree options 0 (Report.account options sources opened)

variable {tree : FileTree} {arguments : List Text} {options : Options}

/-! ## Every run takes its course -/

theorem filter_account (options : Options) (sources : List Source)
    (opened : List (Source × Nat)) :
    (Report.account options sources opened).filter (!Report.tellsProgress ·) =
      Report.account { options with quiet := true } sources opened := by
  rw [Report.account, List.filter_append, List.filter_append,
    Report.filter_of_tellsProgress Report.tellsProgress_of_mem_parsing,
    Report.filter_of_not_tellsProgress Product.tellsProgress_of_mem_remarks,
    Report.filter_of_tellsProgress Report.tellsProgress_of_mem_writing]
  rfl

/-- A quiet run goes the same way, and tells nothing of how far it has come. -/
theorem Course.quiet {exit : Nat} {lines : List Text}
    (hcourse : tree.Course options exit lines) :
    tree.Course { options with quiet := true } exit
      (lines.filter (!Report.tellsProgress ·)) := by
  have herror {line : Text} (h : "error: ".toList <+: line) :
      [line].filter (!Report.tellsProgress ·) = [line] :=
    Report.filter_of_not_tellsProgress
      (List.forall_mem_singleton.mpr (Report.tellsProgress_of_error h))
  cases hcourse with
  | noTable htable =>
      rw [herror htable.error]
      exact .noTable htable
  | noSource htable hinputs hgood hbad =>
      rw [List.filter_append, Report.filter_of_tellsProgress Report.tellsProgress_of_mem_parsing,
        herror hbad.error]
      exact .noSource htable hinputs hgood hbad
  | @refused upper sources opened hreads hopened hstrict hphase hne =>
      rw [List.filter_append, Report.filter_of_tellsProgress Report.tellsProgress_of_mem_parsing,
        Report.filter_of_not_tellsProgress Product.tellsProgress_of_mem_complaints]
      exact .refused ⟨hreads.table, hreads.sources⟩ hopened hstrict hphase hne
  | notWritten hreads hopened htaken hwritable =>
      rw [List.filter_append, filter_account, herror (Report.error_cannotWrite options.output)]
      exact .notWritten ⟨hreads.table, hreads.sources⟩ hopened htaken hwritable
  | written hreads hopened htaken hwritable =>
      rw [filter_account]
      exact .written ⟨hreads.table, hreads.sources⟩ hopened htaken hwritable

end FileTree

end JassDecl
