import JassDecl.Proofs.Store
import JassDecl.Session

/-! # Sessions keep tables and writers apart

Whatever has been made in a session, a table changes only through a name that stands for it, and a
writer writes with the table that it was given, as that table is at the time. -/

namespace JassDecl

/-! ## Writers -/

namespace Writer

theorem foldl_line (w : Writer) (texts : List Text) :
    texts.foldl line w = { w with lines := w.lines ++ texts } := by
  induction texts generalizing w with
  | nil => simp
  | cons text rest ih => simp [ih, line]

/-- Nothing of what was written before is left. -/
theorem write_eq (w : Writer) (table : Override.Table) (l : Library) :
    w.write table l = { w with lines := TypeScript.declarationLines table l } := by
  rw [write, foldl_line]
  rfl

@[simp]
theorem table_write (w : Writer) (table : Override.Table) (l : Library) :
    (w.write table l).table = w.table := by
  rw [write_eq]

end Writer

namespace Session

/-! ## What is kept -/

/-- The position is one of a table that was made in the session. -/
def Made (s : Session) (index : Nat) : Prop :=
  original < index ∧ index < s.tables.length

/-- What holds of a session however it was reached: tables are kept apart, the original one is as it
was, and names and writers have made tables, each name one of its own. -/
structure Sound (s : Session) : Prop where
  separate : s.store.Separate
  original : s.tables[original]? = some .default
  named : ∀ {name index}, s.tableNames.get? name = some index → s.Made index
  distinct : ∀ {name other index}, s.tableNames.get? name = some index →
    s.tableNames.get? other = some index → other = name
  owned : ∀ {name writer}, s.writers.get? name = some writer → s.Made writer.table

theorem sound_empty : empty.Sound := by
  obtain ⟨hseparate, htables⟩ := Override.Store.separate_empty.add .default
  refine ⟨hseparate, ?_, fun h => ?_, fun h => ?_, fun h => ?_⟩
  · rw [tables, empty, htables]
    rfl
  all_goals simp [empty] at h

/-! ## What a step does -/

/-- Whether a step is about recognitions alone, or reads the original table. -/
def Step.LeavesTables : Step → Prop
  | .table .. | .layer .. | .setType .. | .writer .. | .write .. => False
  | _ => True

/-- What a step leads to, told by what the tables hold and not by where they hold it. -/
inductive Leads (s : Session) : Step → Session → Answer → Prop where
  | leave {step recognitions answer} (hstep : step.LeavesTables) :
      Leads s step { s with recognitions } answer
  | table {name given store} (hseparate : store.Separate)
      (htables : store.tables = s.tables ++ [given.getD .default]) :
      Leads s (.table name given)
        { s with store, tableNames := s.tableNames.set name s.tables.length }
        (.table (given.getD .default))
  | layer {name lower upper table store} (hlower : s.tableOf? lower = some table)
      (hseparate : store.Separate) (htables : store.tables = s.tables ++ [table.layer upper]) :
      Leads s (.layer name lower upper)
        { s with store, tableNames := s.tableNames.set name s.tables.length }
        (.table (table.layer upper))
  | setType {name native position type index table store}
      (hname : s.tableNames.get? name = some index) (htable : s.tables[index]? = some table)
      (hseparate : store.Separate)
      (htables : store.tables = s.tables.set index (table.setType native position type)) :
      Leads s (.setType name native position type) { s with store }
        (.table (table.setType native position type))
  | writer {name table index} (htable : s.tableNames.get? table = some index) :
      Leads s (.writer name (some table))
        { s with writers := s.writers.set name ⟨index, []⟩ } .made
  | defaultWriter {name store} (hseparate : store.Separate)
      (htables : store.tables = s.tables ++ [.default]) :
      Leads s (.writer name none)
        { s with store, writers := s.writers.set name ⟨s.tables.length, []⟩ } .made
  | write {name slot writer table recognition} (hwriter : s.writers.get? name = some writer)
      (htable : s.tables[writer.table]? = some table)
      (hslot : s.recognitions.get? slot = some recognition) :
      Leads s (.write name slot)
        { s with writers := s.writers.set name (writer.write table recognition.library) }
        (.text (TypeScript.declarationFile table recognition.library))

variable {s next : Session} {step : Step} {answer : Answer}

theorem enter_eq {store : Override.Store} {table : Override.Table}
    (htables : store.tables = s.tables ++ [table]) (name : Text) :
    s.enter name store =
      some ({ s with store, tableNames := s.tableNames.set name s.tables.length },
        .table table) := by
  simp [enter, tableOf?, Keyed.get?_set, tables, htables]

theorem Sound.exists_table (hs : s.Sound) {name : Text} {index : Nat}
    (h : s.tableNames.get? name = some index) :
    ∃ table, s.tables[index]? = some table ∧ s.tableOf? name = some table := by
  have htable := List.getElem?_eq_getElem (hs.named h).2
  exact ⟨_, htable, by rw [tableOf?, h, Option.bind_some, htable]⟩

/-- A default table is a copy of the original one. -/
theorem Sound.layer_original (hs : s.Sound) :
    ∃ store, s.store.layer Session.original .empty = some store ∧ store.Separate ∧
      store.tables = s.tables ++ [.default] :=
  hs.separate.layer hs.original .empty

theorem Sound.step_table (hs : s.Sound) (name : Text) (given : Option Override.Table) :
    ∃ store, store.Separate ∧ store.tables = s.tables ++ [given.getD .default] ∧
      s.step (.table name given) =
        some ({ s with store, tableNames := s.tableNames.set name s.tables.length },
          .table (given.getD .default)) := by
  cases given with
  | some table =>
      obtain ⟨hseparate, htables⟩ := hs.separate.add table
      exact ⟨_, hseparate, htables, enter_eq htables name⟩
  | none =>
      obtain ⟨store, hstore, hseparate, htables⟩ := hs.layer_original
      refine ⟨store, hseparate, htables, ?_⟩
      rw [Session.step, hstore]
      exact enter_eq htables name

theorem Sound.step_layer (hs : s.Sound) {lower : Text} {table : Override.Table}
    (hlower : s.tableOf? lower = some table) (name : Text) (upper : Override.Table) :
    ∃ store, store.Separate ∧ store.tables = s.tables ++ [table.layer upper] ∧
      s.step (.layer name lower upper) =
        some ({ s with store, tableNames := s.tableNames.set name s.tables.length },
          .table (table.layer upper)) := by
  obtain ⟨index, hindex, htable⟩ := Option.bind_eq_some_iff.mp hlower
  obtain ⟨store, hstore, hseparate, htables⟩ := hs.separate.layer htable upper
  refine ⟨store, hseparate, htables, ?_⟩
  simp only [Session.step, hindex, hstore, Option.bind_eq_bind, Option.bind_some]
  exact enter_eq htables name

theorem Sound.step_setType (hs : s.Sound) {name : Text} {index : Nat} {table : Override.Table}
    (hname : s.tableNames.get? name = some index) (htable : s.tables[index]? = some table)
    (native : Text) (position : Nat) (type : Text) :
    ∃ store, store.Separate ∧
      store.tables = s.tables.set index (table.setType native position type) ∧
      s.step (.setType name native position type) =
        some ({ s with store }, .table (table.setType native position type)) := by
  have hindex := (hs.named hname).2
  obtain ⟨hseparate, htables⟩ :=
    Override.Store.acts_change index native (·.set position type) hs.separate hindex
  have hset : (s.store.change index native (·.set position type)).tables =
      s.tables.set index (table.setType native position type) := by
    rw [htables, List.modify_eq_set_getElem?, ← tables, htable]
    rfl
  refine ⟨_, hseparate, hset, ?_⟩
  have hread : tableOf? { s with store := s.store.change index native (·.set position type) } name =
      some (table.setType native position type) := by
    rw [tableOf?, hname, Option.bind_some, tables, hset, List.getElem?_set_self hindex]
  simp only [Session.step, hname, hread, Option.bind_eq_bind, Option.bind_some, Option.pure_def]

theorem Sound.step_defaultWriter (hs : s.Sound) (name : Text) :
    ∃ store, store.Separate ∧ store.tables = s.tables ++ [.default] ∧
      s.step (.writer name none) =
        some ({ s with store, writers := s.writers.set name ⟨s.tables.length, []⟩ }, .made) := by
  obtain ⟨store, hstore, hseparate, htables⟩ := hs.layer_original
  refine ⟨store, hseparate, htables, ?_⟩
  rw [Session.step, hstore]
  rfl

theorem step_write {name slot : Text} {writer : Writer} {table : Override.Table}
    {r : Recognition} (hwriter : s.writers.get? name = some writer)
    (htable : s.tables[writer.table]? = some table) (hslot : s.recognitions.get? slot = some r) :
    s.step (.write name slot) =
      some ({ s with writers := s.writers.set name (writer.write table r.library) },
        .text (TypeScript.declarationFile table r.library)) := by
  simp only [Session.step, hwriter, htable, hslot, Option.bind_eq_bind, Option.bind_some,
    Option.pure_def, Writer.write_eq]
  rfl

/-- The steps of a sound session are what they are said to be. -/
theorem Sound.leads (hs : s.Sound) (h : s.step step = some (next, answer)) :
    s.Leads step next answer := by
  cases step with
  | clear slot | recognize slot source =>
      obtain ⟨rfl, rfl⟩ := h
      exact .leave trivial
  | report slot _ | «recall» slot | defaultTable =>
      obtain ⟨r, -, h⟩ := Option.bind_eq_some_iff.mp h
      obtain ⟨rfl, rfl⟩ := h
      exact .leave trivial
  | appendLibrary slot other | append slot other =>
      obtain ⟨r, -, h⟩ := Option.bind_eq_some_iff.mp h
      obtain ⟨o, -, h⟩ := Option.bind_eq_some_iff.mp h
      obtain ⟨rfl, rfl⟩ := h
      exact .leave trivial
  | table name given =>
      obtain ⟨store, hseparate, htables, hstep⟩ := hs.step_table name given
      obtain ⟨rfl, rfl⟩ := hstep.symm.trans h
      exact .table hseparate htables
  | layer name lower upper =>
      obtain ⟨index, hindex, -⟩ := Option.bind_eq_some_iff.mp h
      obtain ⟨table, -, hlower⟩ := hs.exists_table hindex
      obtain ⟨store, hseparate, htables, hstep⟩ := hs.step_layer hlower name upper
      obtain ⟨rfl, rfl⟩ := hstep.symm.trans h
      exact .layer hlower hseparate htables
  | setType name native position type =>
      obtain ⟨index, hname, -⟩ := Option.bind_eq_some_iff.mp h
      obtain ⟨table, htable, -⟩ := hs.exists_table hname
      obtain ⟨store, hseparate, htables, hstep⟩ :=
        hs.step_setType hname htable native position type
      obtain ⟨rfl, rfl⟩ := hstep.symm.trans h
      exact .setType hname htable hseparate htables
  | writer name target =>
      cases target with
      | some table =>
          obtain ⟨index, htable, h⟩ := Option.bind_eq_some_iff.mp h
          obtain ⟨rfl, rfl⟩ := h
          exact .writer htable
      | none =>
          obtain ⟨store, hseparate, htables, hstep⟩ := hs.step_defaultWriter name
          obtain ⟨rfl, rfl⟩ := hstep.symm.trans h
          exact .defaultWriter hseparate htables
  | write name slot =>
      obtain ⟨writer, hwriter, hrest⟩ := Option.bind_eq_some_iff.mp h
      obtain ⟨table, htable, hrest⟩ := Option.bind_eq_some_iff.mp hrest
      obtain ⟨r, hslot, -⟩ := Option.bind_eq_some_iff.mp hrest
      obtain ⟨rfl, rfl⟩ := (step_write hwriter htable hslot).symm.trans h
      exact .write hwriter htable hslot

/-! ## What every step keeps -/

theorem Sound.pos (hs : s.Sound) : Session.original < s.tables.length :=
  (List.getElem?_eq_some_iff.mp hs.original).1

theorem Sound.grow (hs : s.Sound) {store : Override.Store} {table : Override.Table}
    (hseparate : store.Separate) (htables : store.tables = s.tables ++ [table]) :
    Sound { s with store } := by
  have hmade {index : Nat} (h : s.Made index) : Made { s with store } index :=
    ⟨h.1, by simpa [tables, htables] using Nat.lt_succ_of_lt h.2⟩
  refine ⟨hseparate, ?_, fun h => hmade (hs.named h), hs.distinct, fun h => hmade (hs.owned h)⟩
  rw [tables, htables, List.getElem?_append_left hs.pos]
  exact hs.original

/-- No name stands for a table before it is made. -/
theorem Sound.enter (hs : s.Sound) {store : Override.Store} {table : Override.Table}
    (hseparate : store.Separate) (htables : store.tables = s.tables ++ [table]) (name : Text) :
    Sound { s with store, tableNames := s.tableNames.set name s.tables.length } := by
  have hgrown := hs.grow hseparate htables
  refine ⟨hseparate, hgrown.original, fun hget => ?_, fun hget hother => ?_, hgrown.owned⟩
  · rw [Keyed.get?_set] at hget
    split at hget
    · obtain rfl := Option.some.inj hget
      exact ⟨hs.pos, by simp [tables, htables]⟩
    · exact hgrown.named hget
  · -- The new position lies past all those that have names.
    have hfresh {other : Text} : s.tableNames.get? other ≠ some s.tables.length := fun h =>
      Nat.lt_irrefl _ (hs.named h).2
    have := @hs.distinct
    grind [Keyed.get?_set]

theorem Sound.assign (hs : s.Sound) {writer : Writer} (hmade : s.Made writer.table)
    (name : Text) : Sound { s with writers := s.writers.set name writer } := by
  refine ⟨hs.separate, hs.original, hs.named, hs.distinct, fun hget => ?_⟩
  rw [Keyed.get?_set] at hget
  split at hget
  · obtain rfl := Option.some.inj hget
    exact hmade
  · exact hs.owned hget

theorem Leads.sound (hs : s.Sound) (h : s.Leads step next answer) : next.Sound := by
  cases h with
  | leave => exact ⟨hs.separate, hs.original, hs.named, hs.distinct, hs.owned⟩
  | table hseparate htables => exact hs.enter hseparate htables _
  | layer hlower hseparate htables => exact hs.enter hseparate htables _
  | @setType name native position type index table store hname htable hseparate htables =>
      have hmade {position : Nat} (h : s.Made position) : Made { s with store } position :=
        ⟨h.1, by simpa [tables, htables] using h.2⟩
      refine ⟨hseparate, ?_, fun h => hmade (hs.named h), hs.distinct, fun h => hmade (hs.owned h)⟩
      -- No name stands for the original table, so the one that changes is another one.
      rw [tables, htables, List.getElem?_set_ne (Nat.ne_of_gt (hs.named hname).1)]
      exact hs.original
  | writer htable => exact hs.assign (hs.named htable) _
  | defaultWriter hseparate htables =>
      exact (hs.grow hseparate htables).assign ⟨hs.pos, by simp [tables, htables]⟩ _
  | @write name slot writer table recognition hwriter =>
      have hmade : s.Made (writer.write table recognition.library).table := by
        rw [Writer.table_write]
        exact hs.owned hwriter
      exact hs.assign hmade name

/-- The first step of a run, and the run of the others. -/
theorem run_cons {first : Step} {rest : List Step} {answers : List Answer}
    (h : s.run (first :: rest) = some (next, answers)) :
    ∃ middle answer later, s.step first = some (middle, answer) ∧
      middle.run rest = some (next, later) := by
  obtain ⟨⟨middle, answer⟩, hfirst, h⟩ := Option.bind_eq_some_iff.mp h
  obtain ⟨⟨last, later⟩, hrest, h⟩ := Option.bind_eq_some_iff.mp h
  obtain ⟨rfl, -⟩ := h
  exact ⟨middle, answer, later, hfirst, hrest⟩

theorem Sound.run (hs : s.Sound) {steps : List Step} {answers : List Answer}
    (h : s.run steps = some (next, answers)) : next.Sound := by
  induction steps generalizing s answers with
  | nil =>
      obtain ⟨rfl, -⟩ := h
      exact hs
  | cons first rest ih =>
      obtain ⟨middle, answer, later, hfirst, hrest⟩ := run_cons h
      exact ih ((hs.leads hfirst).sound hs) hrest

/-! ## Writers and their tables -/

/-- The position of the table that a writer belongs to. -/
def ownerOf? (s : Session) (name : Text) : Option Nat :=
  (s.writers.get? name).map Writer.table

theorem Leads.kept (h : s.Leads step next answer)
    (hstep : ∀ name native position type, step ≠ .setType name native position type) :
    s.tables <+: next.tables := by
  cases h with
  | leave | writer | write => exact List.prefix_rfl
  | table hseparate htables => exact ⟨_, htables.symm⟩
  | layer hlower hseparate htables => exact ⟨_, htables.symm⟩
  | defaultWriter hseparate htables => exact ⟨_, htables.symm⟩
  | setType => exact absurd rfl (hstep _ _ _ _)

/-- A writer stays with its table until the name is given to another writer. -/
theorem Leads.ownerOf? (h : s.Leads step next answer) {name : Text}
    (hstep : ∀ target, step ≠ .writer name target) : next.ownerOf? name = s.ownerOf? name := by
  cases h with
  | leave | table | layer | setType => rfl
  | @writer other table index =>
      have hne : other ≠ name := by
        rintro rfl
        exact hstep _ rfl
      simp [Session.ownerOf?, Keyed.get?_set, hne]
  | @defaultWriter other =>
      have hne : other ≠ name := by
        rintro rfl
        exact hstep _ rfl
      simp [Session.ownerOf?, Keyed.get?_set, hne]
  | @write other slot writer table recognition hwriter =>
      by_cases hne : other = name
      · subst hne
        simp [Session.ownerOf?, Keyed.get?_set, hwriter]
      · simp [Session.ownerOf?, Keyed.get?_set, hne]

theorem Sound.ownerOf?_run (hs : s.Sound) {steps : List Step} {answers : List Answer}
    (h : s.run steps = some (next, answers)) {name : Text}
    (hsteps : ∀ step ∈ steps, ∀ target, step ≠ .writer name target) :
    next.ownerOf? name = s.ownerOf? name := by
  induction steps generalizing s answers with
  | nil =>
      obtain ⟨rfl, -⟩ := h
      rfl
  | cons first rest ih =>
      obtain ⟨middle, answer, later, hfirst, hrest⟩ := run_cons h
      have hleads := hs.leads hfirst
      rw [ih (hleads.sound hs) hrest fun step hmem => hsteps step (List.mem_cons_of_mem _ hmem)]
      exact hleads.ownerOf? (hsteps first List.mem_cons_self)

/-! ## Isolation -/

/-- The position of the table of a new writer: the one that the given name stands for, or else the
one of a new default table. -/
def Assigned (s created : Session) (index : Nat) : Option Text → Prop
  | some table => s.tableNames.get? table = some index
  | none => index = s.tables.length ∧ created.tables = s.tables ++ [.default]

/-- How the tables, the libraries and the writers of a session stay apart, whatever is done next. -/
structure Isolated (s : Session) : Prop where
  /-- The original table is the one of the beginning. -/
  original : s.step .defaultTable = some (s, .table .default)
  /-- A name stands for a table of its own, which is not the original one. -/
  names : ∀ name other index, s.tableNames.get? name = some index →
    index ≠ Session.original ∧ (s.tableNames.get? other = some index → other = name)
  /-- A default table starts from the original one. -/
  table : ∀ name given, ∃ next,
    s.step (.table name given) = some (next, .table (given.getD .default)) ∧
      next.tables = s.tables ++ [given.getD .default] ∧
      next.tableNames = s.tableNames.set name s.tables.length
  layer : ∀ name lower upper table, s.tableOf? lower = some table → ∃ next,
    s.step (.layer name lower upper) = some (next, .table (table.layer upper)) ∧
      next.tables = s.tables ++ [table.layer upper] ∧
      next.tableNames = s.tableNames.set name s.tables.length
  /-- An entry is set in one table. No other one changes, whichever was made of whichever. -/
  setType : ∀ name index native position type, s.tableNames.get? name = some index →
    ∃ table next, s.tables[index]? = some table ∧
      s.step (.setType name native position type) =
        some (next, .table (table.setType native position type)) ∧
      next.tables[index]? = some (table.setType native position type) ∧
      ∀ other, other ≠ index → next.tables[other]? = s.tables[other]?
  /-- Only setting an entry changes a table that is there. -/
  kept : ∀ step next answer, s.step step = some (next, answer) →
    (∀ name native position type, step ≠ .setType name native position type) →
    s.tables <+: next.tables
  /-- A writer writes what a library holds at the time, with what the table that it was given holds
  at the time, whatever has happened since to names and to other writers. -/
  writes : ∀ name target created answer between later answers,
    s.step (.writer name target) = some (created, answer) →
    created.run between = some (later, answers) →
    (∀ step ∈ between, ∀ target, step ≠ .writer name target) →
    ∃ index table, s.Assigned created index target ∧ later.tables[index]? = some table ∧
      ∀ slot r, later.recognitions.get? slot = some r → ∃ after,
        later.step (.write name slot) =
          some (after, .text (TypeScript.declarationFile table r.library))
  /-- Writing changes nothing but the lines that a writer remembers. -/
  written : ∀ name slot next answer, s.step (.write name slot) = some (next, answer) →
    ∃ writers, next = { s with writers }

theorem Sound.exists_assigned (hs : s.Sound) {name : Text} {target : Option Text}
    (h : s.step (.writer name target) = some (next, answer)) :
    ∃ index, s.Assigned next index target ∧ next.ownerOf? name = some index := by
  cases hs.leads h with
  | leave hstep => exact hstep.elim
  | @writer _ table index htable =>
      exact ⟨index, htable, by simp [ownerOf?, Keyed.get?_set]⟩
  | defaultWriter hseparate htables =>
      exact ⟨s.tables.length, ⟨rfl, htables⟩, by simp [ownerOf?, Keyed.get?_set]⟩

/-- A writer of a sound session can write every library. -/
theorem Sound.exists_write (hs : s.Sound) {name : Text} {index : Nat}
    (h : s.ownerOf? name = some index) :
    ∃ table, s.tables[index]? = some table ∧
      ∀ slot r, s.recognitions.get? slot = some r → ∃ next,
        s.step (.write name slot) =
          some (next, .text (TypeScript.declarationFile table r.library)) := by
  obtain ⟨writer, hwriter, rfl⟩ := Option.map_eq_some_iff.mp h
  have htable := List.getElem?_eq_getElem (hs.owned hwriter).2
  exact ⟨_, htable, fun slot r hslot => ⟨_, step_write hwriter htable hslot⟩⟩

theorem Sound.isolated (hs : s.Sound) : s.Isolated where
  original := by
    simp only [Session.step, hs.original, Option.bind_eq_bind, Option.bind_some, Option.pure_def]
  names := fun name other index h =>
    ⟨Nat.ne_of_gt (hs.named h).1, fun hother => hs.distinct h hother⟩
  table := by
    intro name given
    obtain ⟨store, -, htables, hstep⟩ := hs.step_table name given
    exact ⟨_, hstep, htables, rfl⟩
  layer := by
    intro name lower upper table hlower
    obtain ⟨store, -, htables, hstep⟩ := hs.step_layer hlower name upper
    exact ⟨_, hstep, htables, rfl⟩
  setType := by
    intro name index native position type hname
    obtain ⟨table, htable, -⟩ := hs.exists_table hname
    obtain ⟨store, -, htables, hstep⟩ := hs.step_setType hname htable native position type
    refine ⟨table, _, htable, hstep, ?_, fun other hother => ?_⟩
    · rw [tables, htables, List.getElem?_set_self (hs.named hname).2]
    · rw [tables, htables, List.getElem?_set_ne hother.symm]
  kept := fun _ _ _ h hstep => (hs.leads h).kept hstep
  writes := by
    intro name target created answer between later answers hcreate hrun hbetween
    have hcreated := (hs.leads hcreate).sound hs
    obtain ⟨index, hassigned, howner⟩ := hs.exists_assigned hcreate
    obtain ⟨table, htable, hwrite⟩ :=
      (hcreated.run hrun).exists_write ((hcreated.ownerOf?_run hrun hbetween).trans howner)
    exact ⟨index, table, hassigned, htable, hwrite⟩
  written := by
    intro name slot next answer h
    cases hs.leads h with
    | leave hstep => exact hstep.elim
    | write => exact ⟨_, rfl⟩

theorem isolated_of_run {steps : List Step} {answers : List Answer}
    (h : empty.run steps = some (s, answers)) : s.Isolated :=
  (sound_empty.run h).isolated

/-- Two tables, one laid over the other, are changed in turn, and then a default one is made. -/
theorem isolated_of_run_layers :
    ∃ s answers,
      empty.run
        [.table ['a'] none, .layer ['b'] ['a'] .empty, .writer ['w'] (some ['a']),
          .setType ['b'] ['n'] 0 ['t'], .setType ['a'] ['n'] 0 ['u'], .table ['a'] none] =
        some (s, answers) ∧ s.Isolated := by
  obtain ⟨⟨s, answers⟩, h⟩ := Option.isSome_iff_exists.mp (by decide +kernel : (empty.run
    [.table ['a'] none, .layer ['b'] ['a'] .empty, .writer ['w'] (some ['a']),
      .setType ['b'] ['n'] 0 ['t'], .setType ['a'] ['n'] 0 ['u'], .table ['a'] none]).isSome)
  exact ⟨s, answers, h, isolated_of_run h⟩

/-- The writer follows its table, and not the name of it. -/
example :
    (empty.run
      [.recognize ['l'] ⟨[], "native Filter takes code f returns filterfunc".toList⟩,
        .table ['a'] none, .writer ['w'] (some ['a']),
        .setType ['a'] "Filter".toList 0 ['t'], .table ['a'] none,
        .write ['w'] ['l']]).map (fun (_, answers) => answers.getLast?) =
      some (some (.text
        "/** @noSelfInFile **/\n\n\ndeclare function Filter(f: t): filterfunc\n\n\n".toList)) := by
  decide +kernel

end Session

end JassDecl
