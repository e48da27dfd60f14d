import JassDecl.Run
import JassDecl.Proofs.Writing
import Mathlib.Data.List.Forall2

/-! # The steps of a run on a tree

Each step is followed on a tree: what it comes to, what it reports, and what it leaves of the tree.
All steps but the last one only read. -/

namespace JassDecl

namespace FileTree

variable {tree : FileTree} {path : Text}

/-- Nothing is read at a path that cannot be handed to a system. -/
theorem isNamed_of_read? {content : Bytes} (h : tree.read? path = some content) :
    System.isNamed path = true := by
  cases hpath : System.isNamed path with
  | true => rfl
  | false => simp [read?, place?, hpath] at h

theorem Writable.isNamed (h : tree.Writable path) : System.isNamed path = true := by
  obtain ⟨place, hplace, -⟩ := h
  cases hpath : System.isNamed path with
  | true => rfl
  | false => simp [place?, hpath] at hplace

end FileTree

namespace Plan

variable {read : Text → Option Bytes}

/-- The table that the named file holds, or an empty one when none is named. -/
def HoldsTable (read : Text → Option Bytes) : Option Text → Override.Table → Prop
  | none, upper => upper = .empty
  | some path, upper => ∃ bytes, read path = some bytes ∧ Override.Table.ofBytes bytes = .ok upper

/-- The source at a path is the text of its bytes without one leading byte-order mark. -/
def HoldsSource (read : Text → Option Bytes) (path : Text) (source : Source) : Prop :=
  ∃ bytes text, read path = some bytes ∧ Utf8.decode bytes = .ok text ∧
    source = ⟨path, Text.dropMark text⟩

theorem readTable_eq_ok_iff {file : Option Text} {table : Override.Table} :
    readTable read file = .ok table ↔
      ∃ upper, HoldsTable read file upper ∧ table = Override.Table.default.layer upper := by
  cases file with
  | none =>
      simp only [readTable, HoldsTable, exists_eq_left, Except.ok.injEq]
      exact eq_comm
  | some path =>
      simp only [readTable, HoldsTable]
      cases read path with
      | none => simp [tableAt]
      | some bytes =>
          cases hbytes : Override.Table.ofBytes bytes with
          | ok upper => simp [tableAt, hbytes, eq_comm]
          | error fault => simp [tableAt, hbytes]

theorem sourceAt_eq_ok_iff {path : Text} {source : Source} :
    sourceAt path (read path) = .ok source ↔ HoldsSource read path source := by
  rw [HoldsSource]
  cases read path with
  | none => simp [sourceAt]
  | some bytes =>
      cases hbytes : Utf8.decode bytes with
      | ok text => simp [sourceAt, hbytes, eq_comm]
      | error fault => simp [sourceAt, hbytes]

/-- All paths hold sources, or there is a first one that does not. -/
theorem exists_holds_or_error (read : Text → Option Bytes) (paths : List Text) :
    (∃ sources, List.Forall₂ (HoldsSource read) paths sources) ∨
      ∃ good bad later sources notice, paths = good ++ bad :: later ∧
        List.Forall₂ (HoldsSource read) good sources ∧
        sourceAt bad (read bad) = .error notice := by
  induction paths with
  | nil => exact .inl ⟨[], .nil⟩
  | cons path rest ih =>
      cases hpath : sourceAt path (read path) with
      | error notice => exact .inr ⟨[], path, rest, [], notice, rfl, .nil, hpath⟩
      | ok source =>
          have hsource := sourceAt_eq_ok_iff.mp hpath
          obtain ⟨sources, hrest⟩ | ⟨good, bad, later, sources, notice, rfl, hgood, hbad⟩ := ih
          · exact .inl ⟨source :: sources, .cons hsource hrest⟩
          · exact .inr ⟨path :: good, bad, later, source :: sources, notice, rfl,
              .cons hsource hgood, hbad⟩

end Plan

/-! ## What comes of a step -/

namespace Step

variable {α β : Type}

/-- What comes of a step after some notices: its result and the notices so far, and the tree. -/
def on (step : Step (StateM FileTree) α) (said : List Notice) (tree : FileTree) :
    (Except Stop α × List Notice) × FileTree :=
  ((ExceptT.run step).run said).run tree

/-- The step comes to a result, reports notices, and leaves the tree as it is. -/
def Tells (step : Step (StateM FileTree) α) (tree : FileTree) (result : Except Stop α)
    (notices : List Notice) : Prop :=
  ∀ said, step.on said tree = ((result, said ++ notices), tree)

/-- The step ends the run with 1 and leaves the tree as it is. -/
def Fails (step : Step (StateM FileTree) α) (tree : FileTree) : Prop :=
  ∃ stop notices, stop.code = 1 ∧ Tells step tree (.error stop) notices

/-- What is reported only by a run that is not quiet. -/
def unlessQuiet (quiet : Bool) (reported : List α) : List α :=
  if quiet then [] else reported

/-! ## One step after the other -/

section Sequence

variable {step : Step (StateM FileTree) α} {next : α → Step (StateM FileTree) β}
  {tree : FileTree} {a : α} {notices : List Notice}

/-- The next step takes up what the first one has left. -/
theorem on_bind (step : Step (StateM FileTree) α) (next : α → Step (StateM FileTree) β)
    (said : List Notice) (tree : FileTree) :
    (step >>= next).on said tree =
      ((ExceptT.mk (pure (step.on said tree).1.1) >>= next : Step (StateM FileTree) β).on
        (step.on said tree).1.2 (step.on said tree).2) :=
  rfl

theorem Tells.on_bind (h : Tells step tree (.ok a) notices) (said : List Notice) :
    (step >>= next).on said tree = (next a).on (said ++ notices) tree := by
  rw [Step.on_bind, h said]
  rfl

theorem Tells.bind {result : Except Stop β} {later : List Notice}
    (h : Tells step tree (.ok a) notices) (hnext : Tells (next a) tree result later) :
    Tells (step >>= next) tree result (notices ++ later) := by
  intro said
  rw [h.on_bind, hnext, List.append_assoc]

theorem Tells.bind_error {stop : Stop} (h : Tells step tree (.error stop) notices) :
    Tells (step >>= next) tree (.error stop) notices := by
  intro said
  rw [Step.on_bind, h said]
  rfl

theorem Tells.bind_fails (h : Tells step tree (.ok a) notices) (hnext : Fails (next a) tree) :
    Fails (step >>= next) tree := by
  obtain ⟨stop, later, hstop, hnext⟩ := hnext
  exact ⟨stop, notices ++ later, hstop, h.bind hnext⟩

theorem Fails.bind (h : Fails step tree) : Fails (step >>= next) tree := by
  obtain ⟨stop, notices, hstop, h⟩ := h
  exact ⟨stop, notices, hstop, h.bind_error⟩

end Sequence

/-! ## Steps that do nothing to the files -/

variable {tree : FileTree}

theorem tells_pure (a : α) : Tells (pure a) tree (.ok a) [] := by
  intro said
  rw [List.append_nil]
  rfl

theorem tells_throw (stop : Stop) : Tells (throw stop : Step _ α) tree (.error stop) [] := by
  intro said
  rw [List.append_nil]
  rfl

theorem tells_say (notices : List Notice) : Tells (say notices) tree (.ok ()) notices :=
  fun _ => rfl

theorem tells_announce (quiet : Bool) (notice : Notice) :
    Tells (announce quiet notice) tree (.ok ()) (unlessQuiet quiet [notice]) := by
  cases quiet with
  | true => exact tells_pure ()
  | false => exact tells_say [notice]

theorem tells_fail (notice : Notice) :
    Tells (fail notice : Step _ α) tree (.error (.exit 1)) [notice] :=
  (tells_say [notice]).bind (tells_throw (.exit 1))

theorem tells_read? (path : Text) :
    Tells (System.read? path) tree (.ok (tree.read? path)) [] := by
  intro said
  rw [List.append_nil]
  rfl

theorem tells_checkPath {path : Text} (h : System.isNamed path = true) :
    Tells (checkPath path) tree (.ok ()) [] := by
  rw [checkPath, if_pos h]
  exact tells_pure ()

theorem fails_checkPath {path : Text} (h : ¬ System.isNamed path = true) :
    Fails (checkPath path) tree := by
  rw [checkPath, if_neg h]
  exact ⟨.raise .nullCharacter, [], rfl, tells_throw _⟩

/-! ## Reading files -/

section Content

variable {path : Text} (make : Option Bytes → Except Notice α) {notice : Notice}

theorem tells_content {a : α} (hpath : System.isNamed path = true)
    (h : make (tree.read? path) = .ok a) :
    Tells (do checkPath path; orFail (make (← System.read? path))) tree (.ok a) [] := by
  refine (tells_checkPath hpath).bind ((tells_read? path).bind ?_)
  rw [h]
  exact tells_pure a

theorem tells_content_of_error (hpath : System.isNamed path = true)
    (h : make (tree.read? path) = .error notice) :
    Tells (do checkPath path; orFail (make (← System.read? path))) tree (.error (.exit 1))
      [notice] := by
  refine (tells_checkPath hpath).bind ((tells_read? path).bind ?_)
  rw [h]
  exact tells_fail notice

/-- Content that is refused ends the run, and so does a path that cannot be handed to a system. -/
theorem fails_content (h : make (tree.read? path) = .error notice) :
    Fails (do checkPath path; orFail (make (← System.read? path))) tree := by
  by_cases hpath : System.isNamed path = true
  · exact ⟨.exit 1, [notice], rfl, tells_content_of_error make hpath h⟩
  · exact (fails_checkPath hpath).bind

end Content

section Reading

variable {file : Option Text} {path : Text} {notice : Notice} {source : Source}

theorem tells_readTable {upper : Override.Table} (h : Plan.HoldsTable tree.read? file upper) :
    Tells (readTable file) tree (.ok (Override.Table.default.layer upper)) [] := by
  have htable := Plan.readTable_eq_ok_iff.mpr ⟨upper, h, rfl⟩
  cases file with
  | none =>
      rw [← Except.ok.inj htable]
      exact tells_pure Override.Table.default
  | some path =>
      obtain ⟨bytes, hbytes, -⟩ := h
      exact tells_content _ (FileTree.isNamed_of_read? hbytes) htable

theorem fails_readTable (h : Plan.readTable tree.read? file = .error notice) :
    Fails (readTable file) tree := by
  cases file with
  | none => cases h
  | some path => exact fails_content _ h

theorem tells_readSource (h : Plan.HoldsSource tree.read? path source) :
    Tells (readSource path) tree (.ok source) [] := by
  have hsource := Plan.sourceAt_eq_ok_iff.mpr h
  obtain ⟨bytes, _, hbytes, -⟩ := h
  exact tells_content _ (FileTree.isNamed_of_read? hbytes) hsource

theorem unlessQuiet_cons (quiet : Bool) (first : α) (rest : List α) :
    unlessQuiet quiet (first :: rest) = unlessQuiet quiet [first] ++ unlessQuiet quiet rest := by
  cases quiet <;> rfl

/-- A path that holds a source is announced and read, and then it goes on. -/
theorem tells_readSources_cons (h : Plan.HoldsSource tree.read? path source) {quiet : Bool}
    {rest : List Text} {result : Except Stop (List Source)} {notices : List Notice}
    (hrest : Tells (readSources quiet rest) tree result notices) :
    Tells (readSources quiet (path :: rest)) tree (result.map (source :: ·))
      (unlessQuiet quiet [.parsing path] ++ notices) := by
  refine (tells_announce quiet _).bind ?_
  rw [← List.nil_append notices]
  refine (tells_readSource h).bind ?_
  cases result with
  | error stop => exact hrest.bind_error
  | ok later =>
      rw [← List.append_nil notices]
      exact hrest.bind (tells_pure (source :: later))

theorem tells_readSources {paths : List Text} {sources : List Source}
    (h : List.Forall₂ (Plan.HoldsSource tree.read?) paths sources) (quiet : Bool) :
    Tells (readSources quiet paths) tree (.ok sources)
      (unlessQuiet quiet (paths.map .parsing)) := by
  induction h with
  | nil =>
      cases quiet <;> exact tells_pure []
  | cons hsource _ ih =>
      rw [List.map_cons, unlessQuiet_cons]
      exact tells_readSources_cons hsource ih

/-- A run does not come to the paths behind the first one that stops it. -/
theorem tells_readSources_of_error {good : List Text} {sources : List Source}
    (h : List.Forall₂ (Plan.HoldsSource tree.read?) good sources) {bad : Text} {stop : Stop}
    {notices : List Notice} (hbad : Tells (readSource bad) tree (.error stop) notices)
    (quiet : Bool) (later : List Text) :
    Tells (readSources quiet (good ++ bad :: later)) tree (.error stop)
      (unlessQuiet quiet ((good ++ [bad]).map .parsing) ++ notices) := by
  induction h with
  | nil => exact (tells_announce quiet _).bind hbad.bind_error
  | cons hsource _ ih =>
      rw [List.cons_append, List.cons_append, List.map_cons, unlessQuiet_cons, List.append_assoc]
      exact tells_readSources_cons hsource ih

theorem fails_readSources {good : List Text} {sources : List Source}
    (h : List.Forall₂ (Plan.HoldsSource tree.read?) good sources) {bad : Text}
    (hbad : Plan.sourceAt bad (tree.read? bad) = .error notice) (quiet : Bool)
    (later : List Text) : Fails (readSources quiet (good ++ bad :: later)) tree := by
  obtain ⟨stop, notices, hstop, htells⟩ : Fails (readSource bad) tree := fails_content _ hbad
  exact ⟨stop, _, hstop, tells_readSources_of_error h htells quiet later⟩

end Reading

/-! ## Making the output and writing it -/

section Writing

variable {options : Options} {upper : Override.Table} {table : Override.Table}
  {sources : List Source} {path output : Text}

theorem tells_makeOutput
    (h : (Product.ofSources options.stopAt options.strict table sources).output = some output) :
    Tells (makeOutput options table sources) tree (.ok output)
      (Product.ofSources options.stopAt options.strict table sources).notices := by
  rw [← List.append_nil (Product.notices _)]
  refine (tells_say _).bind ?_
  rw [h]
  exact tells_pure output

theorem tells_makeOutput_of_none
    (h : (Product.ofSources options.stopAt options.strict table sources).output = none) :
    Tells (makeOutput options table sources) tree (.error (.exit 1))
      (Product.ofSources options.stopAt options.strict table sources).notices := by
  rw [← List.append_nil (Product.notices _)]
  refine (tells_say _).bind ?_
  rw [h, Product.exit, h]
  exact tells_throw (.exit 1)

/-- A run that has all it needs has announced its inputs, made its remarks, and announced its
output. -/
theorem tells_prepare (htable : Plan.HoldsTable tree.read? options.overridesFile upper)
    (hsources : List.Forall₂ (Plan.HoldsSource tree.read?) options.inputs sources)
    (houtput : (Product.ofSources options.stopAt options.strict (.layer .default upper)
      sources).output = some output) :
    Tells (prepare options) tree (.ok output)
      (unlessQuiet options.quiet (options.inputs.map .parsing) ++
        ((Product.ofSources options.stopAt options.strict (.layer .default upper) sources).notices ++
          unlessQuiet options.quiet [.writing options.output])) := by
  refine (tells_readTable htable).bind ((tells_readSources hsources options.quiet).bind
    ((tells_makeOutput houtput).bind ?_))
  rw [← List.append_nil (unlessQuiet _ _)]
  exact (tells_announce options.quiet _).bind (tells_pure output)

/-- A file is put into the tree, or the tree stays as it is. -/
theorem on_write? (path : Text) (content : Bytes) (said : List Notice) (tree : FileTree) :
    (System.write? path content : Step (StateM FileTree) Bool).on said tree =
      ((.ok (tree.write? path content).isSome, said), (tree.write? path content).getD tree) := by
  have hrun : (System.write? path content : StateM FileTree Bool).run tree =
      ((tree.write? path content).isSome, (tree.write? path content).getD tree) := by
    simp only [System.write?, StateT.run_bind, StateT.run_get, pure_bind]
    cases tree.write? path content <;> rfl
  change ((Except.ok ((System.write? path content : StateM FileTree Bool).run tree).1, said),
    ((System.write? path content : StateM FileTree Bool).run tree).2) = _
  rw [hrun]

/-- An output that can be opened is written, and nothing more is reported. -/
theorem on_writeOutput {after : FileTree}
    (h : tree.write? path (Utf8.encode output) = some after) (said : List Notice) :
    (writeOutput path output).on said tree = ((.ok (), said), after) := by
  have hpath := (FileTree.exists_write?_eq_some_iff.mp ⟨after, h⟩).isNamed
  rw [writeOutput, (tells_checkPath hpath).on_bind, Step.on_bind, on_write?, h, List.append_nil]
  rfl

end Writing

end Step

/-! ## Runs -/

namespace FileTree

/-- A run comes to what its steps come to. -/
theorem outcome_of_on {tree after : FileTree} {arguments : List Text} {options : Options}
    (h : Options.ofArguments arguments = .ok options) {result : Except Stop Unit}
    {notices : List Notice}
    (hsteps : (Step.perform options).on [] tree = ((result, notices), after)) :
    tree.outcome arguments = (.ofResult result notices, after) := by
  have houtcome : tree.outcome arguments =
      (.ofResult ((Step.perform options).on [] tree).1.1 ((Step.perform options).on [] tree).1.2,
        ((Step.perform options).on [] tree).2) := by
    rw [outcome, program, h]
    rfl
  rw [houtcome, hsteps]

theorem outcome_of_refusal {tree : FileTree} {arguments : List Text} {refusal : Options.Refusal}
    (h : Options.ofArguments arguments = .error refusal) :
    tree.outcome arguments = (⟨.ofRefusal refusal, none⟩, tree) := by
  rw [outcome, program, h]
  rfl

end FileTree

end JassDecl
