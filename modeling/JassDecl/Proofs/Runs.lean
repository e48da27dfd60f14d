import JassDecl.Proofs.Encoding
import JassDecl.Proofs.SourceBySource
import JassDecl.Proofs.Steps

/-! # What a run does to the files

A run writes only when it has read all that it needs and refuses none of it, and then one file. What
it writes depends on what the files held before, whichever of them the output replaces. -/

namespace JassDecl

/-! ## Texts to write -/

namespace Product

/-- The text for sources that are not refused. -/
def text (stopAt : Option Phase) (table : Override.Table) (sources : List Source) : Text :=
  match stopAt with
  | some .normalize => normalText sources
  | some .recognize => libraryText (Recognition.ofSources sources).library
  | none => TypeScript.declarationFile table (Recognition.ofSources sources).library

/-- Whether sources are taken. Only a strict run refuses any, and only once it recognizes them. -/
def Accepts (stopAt : Option Phase) (strict : Bool) (sources : List Source) : Prop :=
  stopAt = some .normalize ∨ strict = false ∨ (Recognition.ofSources sources).ok = true

theorem output_ofSources_eq_some_iff {stopAt : Option Phase} {strict : Bool}
    {table : Override.Table} {sources : List Source} {output : Text} :
    (ofSources stopAt strict table sources).output = some output ↔
      Accepts stopAt strict sources ∧ output = text stopAt table sources := by
  by_cases hnormalize : stopAt = some .normalize
  · subst hnormalize
    simp [ofSources, Accepts, text, eq_comm (a := output)]
  have htext : text stopAt table sources =
      libraryOutput stopAt table (Recognition.ofSources sources).library := by
    cases stopAt with
    | none => rfl
    | some phase =>
        cases phase with
        | normalize => exact absurd rfl hnormalize
        | recognize => rfl
  rw [ofSources, if_neg hnormalize, Accepts, or_iff_right hnormalize, htext]
  cases strict <;> cases hok : (Recognition.ofSources sources).ok <;>
    simp [hok, eq_comm (a := output)]

theorem output_of_accepts {stopAt : Option Phase} {strict : Bool} {sources : List Source}
    (h : Accepts stopAt strict sources) (table : Override.Table) :
    (ofSources stopAt strict table sources).output = some (text stopAt table sources) :=
  output_ofSources_eq_some_iff.mpr ⟨h, rfl⟩

theorem output_of_not_accepts {stopAt : Option Phase} {strict : Bool} {sources : List Source}
    (h : ¬ Accepts stopAt strict sources) (table : Override.Table) :
    (ofSources stopAt strict table sources).output = none := by
  rw [Option.eq_none_iff_forall_ne_some]
  intro output houtput
  exact h (output_ofSources_eq_some_iff.mp houtput).1

end Product

/-! ## What a run reads -/

namespace Plan

variable {read : Text → Option Bytes}

/-- All that a run needs can be read: the table to lay over the default one, and a source for each
input, in order. -/
structure Reads (read : Text → Option Bytes) (options : Options) (upper : Override.Table)
    (sources : List Source) : Prop where
  table : HoldsTable read options.overridesFile upper
  sources : List.Forall₂ (HoldsSource read) options.inputs sources

/-- A file holds the source whose encoding it is. In front of it there may be one mark, and must be
one if the text itself starts with a mark. -/
theorem holdsSource_iff {path text : Text} :
    HoldsSource read path ⟨path, text⟩ ↔
      read path = some ([0xef, 0xbb, 0xbf] ++ Utf8.encode text) ∨
        (read path = some (Utf8.encode text) ∧ text.head? ≠ some '\uFEFF') := by
  simp only [HoldsSource, Utf8.decode_eq_ok_iff, Source.mk.injEq, true_and,
    eq_comm (a := text) (b := Text.dropMark _), Text.dropMark_eq_iff]
  constructor
  · rintro ⟨_, _, hread, rfl, rfl | ⟨rfl, hhead⟩⟩
    · exact .inl (hread.trans (congrArg some (Utf8.encode_mark_cons text)))
    · exact .inr ⟨hread, hhead⟩
  · rintro (hread | ⟨hread, hhead⟩)
    · exact ⟨_, '\uFEFF' :: text, hread, (Utf8.encode_mark_cons text).symm, .inl rfl⟩
    · exact ⟨_, text, hread, rfl, .inr ⟨rfl, hhead⟩⟩

end Plan

/-! ## Up to the output -/

namespace Step

variable {tree : FileTree} {options : Options} {upper : Override.Table} {sources : List Source}

theorem exists_tells_prepare_of_reads (hreads : Plan.Reads tree.read? options upper sources)
    (haccepts : Product.Accepts options.stopAt options.strict sources) :
    ∃ notices, Tells (prepare options) tree
      (.ok (Product.text options.stopAt (.layer .default upper) sources)) notices :=
  ⟨_, tells_prepare hreads.table hreads.sources (Product.output_of_accepts haccepts _)⟩

/-- What is lacking ends the run before its output is opened. -/
theorem fails_prepare (h : ¬ ∃ upper sources, Plan.Reads tree.read? options upper sources ∧
    Product.Accepts options.stopAt options.strict sources) : Fails (prepare options) tree := by
  cases htable : Plan.readTable tree.read? options.overridesFile with
  | error notice => exact (fails_readTable htable).bind
  | ok table =>
      obtain ⟨upper, hupper, rfl⟩ := Plan.readTable_eq_ok_iff.mp htable
      refine (tells_readTable hupper).bind_fails ?_
      obtain ⟨sources, hsources⟩ | ⟨good, bad, later, _, _, hinputs, hgood, hbad⟩ :=
        Plan.exists_holds_or_error tree.read? options.inputs
      · refine (tells_readSources hsources options.quiet).bind_fails (Fails.bind ?_)
        have hrefused : ¬ Product.Accepts options.stopAt options.strict sources :=
          fun haccepts => h ⟨upper, sources, ⟨hupper, hsources⟩, haccepts⟩
        exact ⟨_, _, rfl, tells_makeOutput_of_none (Product.output_of_not_accepts hrefused _)⟩
      · rw [hinputs]
        exact (fails_readSources hgood hbad options.quiet later).bind

/-- All steps before the last one only read: they leave the tree as it is, whatever they come to. -/
theorem exists_tells_prepare (options : Options) (tree : FileTree) :
    ∃ result notices, Tells (prepare options) tree result notices := by
  by_cases h : ∃ upper sources, Plan.Reads tree.read? options upper sources ∧
      Product.Accepts options.stopAt options.strict sources
  · obtain ⟨_, _, hreads, haccepts⟩ := h
    exact ⟨_, exists_tells_prepare_of_reads hreads haccepts⟩
  · obtain ⟨stop, notices, -, htells⟩ := fails_prepare h
    exact ⟨.error stop, notices, htells⟩

end Step

/-! ## Runs -/

namespace FileTree

/-- Nothing stands in the way of a run: all can be read, the sources are taken, and the output can
be written. -/
structure Succeeds (tree : FileTree) (options : Options) (upper : Override.Table)
    (sources : List Source) : Prop where
  reads : Plan.Reads tree.read? options upper sources
  accepts : Product.Accepts options.stopAt options.strict sources
  writable : tree.Writable options.output

variable {tree : FileTree} {arguments : List Text} {options : Options} {upper : Override.Table}
  {sources : List Source}

/-- A run that has all it needs writes its output, and that is all it does to the tree. -/
theorem Succeeds.exists_on_perform (h : tree.Succeeds options upper sources) :
    ∃ notices after, (Step.perform options).on [] tree = ((.ok (), notices), after) ∧
      tree.write? options.output
        (Utf8.encode (Product.text options.stopAt (.layer .default upper) sources)) =
          some after := by
  obtain ⟨notices, htells⟩ := Step.exists_tells_prepare_of_reads h.reads h.accepts
  obtain ⟨after, hwrite⟩ := exists_write?_eq_some_iff.mpr h.writable
  refine ⟨notices, after, ?_, hwrite⟩
  rw [Step.perform, htells.on_bind, Step.on_writeOutput hwrite, List.nil_append]

theorem Succeeds.run (hsucceeds : tree.Succeeds options upper sources)
    (h : Options.ofArguments arguments = .ok options) :
    (tree.run arguments).1.exit = 0 ∧
      tree.write? options.output
        (Utf8.encode (Product.text options.stopAt (.layer .default upper) sources)) =
          some (tree.run arguments).2 := by
  obtain ⟨notices, after, hperform, hwrite⟩ := hsucceeds.exists_on_perform
  have hrun : tree.run arguments = (.ofNotices 0 notices, after) := by
    rw [FileTree.run, outcome_of_on h hperform]
    rfl
  rw [hrun]
  exact ⟨rfl, hwrite⟩

theorem run_of_refusal {refusal : Options.Refusal}
    (h : Options.ofArguments arguments = .error refusal) :
    tree.run arguments = (.ofRefusal refusal, tree) := by
  rw [run, outcome_of_refusal h]

/-- The output may replace an input, also under another spelling of its path. -/
example :
    let source := "type t extends u".toList
    let tree := ofContents [] [("a".toList, Utf8.encode source)]
    let (report, after) := tree.run ["-q".toList, "a".toList, "./a".toList]
    report = ⟨0, [], []⟩ ∧
      after.read? "a".toList = some (Utf8.encode (TypeScript.ofSource .default source)) := by
  decide +kernel

end FileTree

end JassDecl
