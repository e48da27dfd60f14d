import JassDecl.Proofs.JsonObjects
import JassDecl.Proofs.TableFiles
import Mathlib.Data.List.Induction

/-! # Checks of override files

A file is taken as a whole or not at all. What is wrong with it is what is wrong with the first part
that is not as it must be, in the order of the file.
-/

namespace JassDecl

/-! ## Keyed lists -/

theorem Entries.get?_eq_some_iff {κ α : Type} [DecidableEq κ] {k : κ} {a : α}
    {entries : List (κ × α)} :
    get? k entries = some a ↔
      ∃ before after, entries = before ++ (k, a) :: after ∧ k ∉ before.map Prod.fst := by
  induction entries with
  | nil => simp [get?]
  | cons entry rest ih =>
      obtain ⟨key, b⟩ := entry
      rw [get?]
      by_cases hk : key = k
      · rw [if_pos hk]
        constructor
        · rintro ⟨⟩
          exact ⟨[], rest, by rw [hk, List.nil_append], List.not_mem_nil⟩
        · rintro ⟨before, after, hsplit, hnew⟩
          obtain ⟨-, hentry⟩ | ⟨before, rfl, -⟩ := List.cons_eq_append_iff.mp hsplit
          · rw [(Prod.mk.inj (List.cons.inj hentry).1).2]
          · exact absurd List.mem_cons_self (hk ▸ hnew)
      · rw [if_neg hk, ih]
        constructor
        · rintro ⟨before, after, rfl, hnew⟩
          exact ⟨(key, b) :: before, after, rfl, by simpa [Ne.symm hk] using hnew⟩
        · rintro ⟨before, after, hsplit, hnew⟩
          obtain ⟨-, hentry⟩ | ⟨before, rfl, hrest⟩ := List.cons_eq_append_iff.mp hsplit
          · exact absurd (Prod.mk.inj (List.cons.inj hentry).1).1.symm hk
          · exact ⟨before, after, hrest, fun h => hnew (List.mem_cons_of_mem _ h)⟩

namespace Keyed

variable {κ α : Type} [DecidableEq κ]

/-- The last value of a key counts. -/
theorem get?_ofList (entries : List (κ × α)) (k : κ) :
    (ofList entries).get? k = Entries.get? k entries.reverse := by
  induction entries using List.reverseRecOn with
  | nil => rfl
  | append_singleton entries entry ih =>
      have hlast : ofList (entries ++ [entry]) = (ofList entries).set entry.1 entry.2 := by
        rw [ofList, List.foldl_concat, ofList]
      rw [hlast, get?_set, List.reverse_concat, Entries.get?, ih]

theorem isSome_get?_ofList_iff {entries : List (κ × α)} {k : κ} :
    ((ofList entries).get? k).isSome = true ↔ k ∈ entries.map Prod.fst := by
  rw [get?_ofList, Option.isSome_iff_ne_none, Ne, Entries.get?_eq_none_iff, not_not,
    List.map_reverse, List.mem_reverse]

theorem get?_ofList_eq_some_iff {entries : List (κ × α)} {k : κ} {a : α} :
    (ofList entries).get? k = some a ↔
      ∃ before after, entries = before ++ (k, a) :: after ∧ k ∉ after.map Prod.fst := by
  rw [get?_ofList, Entries.get?_eq_some_iff]
  constructor
  · rintro ⟨before, after, hsplit, hnew⟩
    exact ⟨after.reverse, before.reverse, by simpa using congrArg List.reverse hsplit,
      by simpa using hnew⟩
  · rintro ⟨before, after, rfl, hnew⟩
    exact ⟨after.reverse, before.reverse, by simp, by simpa using hnew⟩

theorem get?_ofList_of_mem {entries : List (κ × α)} (h : (entries.map Prod.fst).Nodup) {k : κ}
    {a : α} (hmem : (k, a) ∈ entries) : (ofList entries).get? k = some a := by
  obtain ⟨before, after, rfl⟩ := List.append_of_mem hmem
  rw [List.map_append, List.map_cons, List.nodup_append] at h
  exact get?_ofList_eq_some_iff.mpr ⟨before, after, rfl, (List.nodup_cons.mp h.2.1).1⟩

end Keyed

namespace Override

/-! ## First faults -/

/-- The fault of a list is the fault of its first item that is not valid. -/
def FirstFault {α : Type} (Valid : α → Prop) (Faulty : α → Fault → Prop) (xs : List α)
    (fault : Fault) : Prop :=
  ∃ before x after, xs = before ++ x :: after ∧ (∀ y ∈ before, Valid y) ∧ Faulty x fault

theorem firstFault_nil {α : Type} {Valid : α → Prop} {Faulty : α → Fault → Prop} {fault : Fault} :
    ¬ FirstFault Valid Faulty [] fault := by
  simp [FirstFault]

theorem firstFault_cons {α : Type} {Valid : α → Prop} {Faulty : α → Fault → Prop} {x : α}
    {xs : List α} {fault : Fault} :
    FirstFault Valid Faulty (x :: xs) fault ↔
      Faulty x fault ∨ Valid x ∧ FirstFault Valid Faulty xs fault := by
  constructor
  · rintro ⟨before, y, after, hsplit, hbefore, hy⟩
    obtain ⟨-, hhead⟩ | ⟨before, rfl, rfl⟩ := List.cons_eq_append_iff.mp hsplit
    · exact Or.inl ((List.cons.inj hhead).1 ▸ hy)
    · obtain ⟨hx, hbefore⟩ := List.forall_mem_cons.mp hbefore
      exact Or.inr ⟨hx, before, y, after, rfl, hbefore, hy⟩
  · rintro (hx | ⟨hx, before, y, after, rfl, hbefore, hy⟩)
    · exact ⟨[], x, xs, rfl, by simp, hx⟩
    · exact ⟨x :: before, y, after, rfl, List.forall_mem_cons.mpr ⟨hx, hbefore⟩, hy⟩

/-- What is valid is read, and what is at fault is answered with its fault. -/
structure Checks {α β : Type} (read : α → Except Fault β) (Valid : α → Prop)
    (Faulty : α → Fault → Prop) : Prop where
  ok_iff : ∀ x, (∃ b, read x = .ok b) ↔ Valid x
  error_iff : ∀ x fault, read x = .error fault ↔ Faulty x fault

namespace Checks

variable {α β γ : Type} {read : α → Except Fault β} {Valid : α → Prop}
  {Faulty : α → Fault → Prop}

theorem map (h : Checks read Valid Faulty) (f : α → β → γ) :
    Checks (fun x => (read x).map (f x)) Valid Faulty where
  ok_iff x := by
    rw [← h.ok_iff]
    cases read x <;> simp [Except.map]
  error_iff x fault := by
    rw [← h.error_iff]
    cases read x <;> simp [Except.map]

/-- The items are looked at in order, up to the first fault. -/
theorem mapM (h : Checks read Valid Faulty) :
    Checks (fun xs => xs.mapM read) (fun xs => ∀ x ∈ xs, Valid x) (FirstFault Valid Faulty) where
  ok_iff xs := by
    induction xs with
    | nil => simp [pure, Except.pure]
    | cons x xs ih =>
        rw [List.forall_mem_cons, ← h.ok_iff, ← ih, List.mapM_cons]
        cases read x with
        | error fault => simp [bind, Except.bind]
        | ok b => cases xs.mapM read <;> simp [bind, Except.bind, pure, Except.pure]
  error_iff xs fault := by
    induction xs with
    | nil => simp [firstFault_nil, pure, Except.pure]
    | cons x xs ih =>
        rw [firstFault_cons, ← h.ok_iff, ← h.error_iff, ← ih, List.mapM_cons]
        cases read x with
        | error fault => simp [bind, Except.bind]
        | ok b => cases xs.mapM read <;> simp [bind, Except.bind, pure, Except.pure]

end Checks

/-! ## Entries -/

/-- The key writes the position. There are many ways to write one. -/
def Denotes (key : Text) (position : Nat) : Prop :=
  Text.Numeral.integer? key = some (.ofNat position)

theorem Denotes.eq {key : Text} {m n : Nat} (hm : Denotes key m) (hn : Denotes key n) : m = n :=
  Int.ofNat.inj (Option.some.inj (hm.symm.trans hn))

/-- The key of the entry is a position, and its value is a type. -/
def EntryValid (entry : Text × Json.Value) : Prop :=
  (∃ position, Denotes entry.1 position) ∧ ∃ type, entry.2 = .string type

/-- What is wrong with an entry of a native. The value matters only if the key is an integer. -/
inductive EntryFault (name : Text) : Text × Json.Value → Fault → Prop where
  | noInteger {key value} (hkey : Text.Numeral.integer? key = none) :
      EntryFault name (key, value) (.noInteger name key)
  | negative {key value integer} (hkey : Text.Numeral.integer? key = some integer)
      (hnegative : integer < 0) : EntryFault name (key, value) (.noType name key)
  | noString {key value integer} (hkey : Text.Numeral.integer? key = some integer)
      (hvalue : ∀ type, value ≠ .string type) : EntryFault name (key, value) (.noType name key)

theorem readEntry_eq_ok_iff {name key : Text} {value : Json.Value} {position : Nat}
    {type : Text} :
    readEntry name key value = .ok (position, type) ↔
      Denotes key position ∧ value = .string type := by
  rw [readEntry, Denotes]
  split
  · next hkey => simp [hkey]
  · next n hkey => simp [hkey]
  · next n hkey =>
      cases value with
      | string t =>
          simp only [hkey, Option.some.injEq, Int.ofNat.injEq, Except.ok.injEq, Prod.mk.injEq,
            Json.Value.string.injEq]
      | _ => simp

theorem checks_readEntry (name : Text) :
    Checks (fun entry => readEntry name entry.1 entry.2) EntryValid (EntryFault name) where
  ok_iff entry := by
    simp only [Prod.exists, readEntry_eq_ok_iff, EntryValid, exists_and_left, exists_and_right]
  error_iff entry fault := by
    obtain ⟨key, value⟩ := entry
    constructor
    · intro h
      rw [readEntry] at h
      split at h
      · next hkey =>
          obtain rfl := Except.error.inj h
          exact .noInteger hkey
      · next hkey =>
          obtain rfl := Except.error.inj h
          exact .negative hkey (Int.negSucc_lt_zero _)
      · next hkey =>
          split at h
          · cases h
          · next hvalue =>
              obtain rfl := Except.error.inj h
              exact .noString hkey hvalue
    · intro h
      cases h with
      | noInteger hkey => simp [readEntry, hkey]
      | @negative _ _ integer hkey hnegative =>
          obtain ⟨n, rfl⟩ := Int.eq_negSucc_of_lt_zero hnegative
          simp [readEntry, hkey]
      | @noString _ _ integer hkey hvalue =>
          cases integer <;> cases value <;> simp_all [readEntry]

/-! ## Natives -/

/-- The value of the member is an object of valid entries. -/
def NativeValid (member : Text × Json.Value) : Prop :=
  ∃ entries, member.2 = .object entries ∧ ∀ entry ∈ entries, EntryValid entry

/-- What is wrong with a native. -/
inductive NativeFault : Text × Json.Value → Fault → Prop where
  | noPositions {name value} (hvalue : ∀ entries, value ≠ .object entries) :
      NativeFault (name, value) (.noPositions name)
  | entry {name entries fault} (h : FirstFault EntryValid (EntryFault name) entries fault) :
      NativeFault (name, .object entries) fault

/-- The last entry for the position has the type. -/
def Counts (entries : List (Text × Json.Value)) (position : Nat) (type : Text) : Prop :=
  ∃ before key after, entries = before ++ (key, .string type) :: after ∧ Denotes key position ∧
    ∀ entry ∈ after, ¬ Denotes entry.1 position

theorem readPositions_object (name : Text) (entries : List (Text × Json.Value)) :
    readPositions name (.object entries) =
      (entries.mapM fun entry => readEntry name entry.1 entry.2).map Keyed.ofList := by
  rw [readPositions]
  rfl

theorem checks_readPositions :
    Checks (fun member => readPositions member.1 member.2) NativeValid NativeFault where
  ok_iff member := by
    obtain ⟨name, value⟩ := member
    cases value with
    | object entries =>
        have hentries := ((checks_readEntry name).mapM.map fun _ => Keyed.ofList).ok_iff entries
        rw [readPositions_object, hentries]
        simp [NativeValid]
    | _ => simp [readPositions, NativeValid]
  error_iff member fault := by
    obtain ⟨name, value⟩ := member
    cases value with
    | object entries =>
        have hentries :=
          ((checks_readEntry name).mapM.map fun _ => Keyed.ofList).error_iff entries fault
        rw [readPositions_object, hentries]
        constructor
        · exact .entry
        · intro h
          cases h with
          | noPositions hvalue => exact absurd rfl (hvalue entries)
          | entry h => exact h
    | _ =>
        constructor
        · intro h
          obtain rfl := Except.error.inj h
          exact .noPositions (by simp)
        · intro h
          cases h with
          | noPositions hvalue => rfl

theorem exists_denotes_iff {name : Text} {entries : List (Text × Json.Value)}
    {pairs : List (Nat × Text)}
    (h : entries.map (fun entry => readEntry name entry.1 entry.2) = pairs.map .ok)
    (position : Nat) :
    (∃ entry ∈ entries, Denotes entry.1 position) ↔ position ∈ pairs.map Prod.fst := by
  constructor
  · rintro ⟨entry, hentry, hdenotes⟩
    have hmem := List.mem_map_of_mem (f := fun entry => readEntry name entry.1 entry.2) hentry
    rw [h] at hmem
    obtain ⟨pair, hpair, hread⟩ := List.mem_map.mp hmem
    obtain ⟨hposition, -⟩ := readEntry_eq_ok_iff.mp hread.symm
    exact List.mem_map.mpr ⟨pair, hpair, hposition.eq hdenotes⟩
  · intro hposition
    obtain ⟨pair, hpair, rfl⟩ := List.mem_map.mp hposition
    have hmem : (.ok pair : Except Fault (Nat × Text)) ∈ pairs.map .ok := List.mem_map_of_mem hpair
    rw [← h] at hmem
    obtain ⟨entry, hentry, hread⟩ := List.mem_map.mp hmem
    exact ⟨entry, hentry, (readEntry_eq_ok_iff.mp hread).1⟩

theorem isSome_readPositions_iff {name : Text} {entries : List (Text × Json.Value)}
    {positions : Positions} (h : readPositions name (.object entries) = .ok positions)
    (position : Nat) :
    (positions.get? position).isSome = true ↔ ∃ entry ∈ entries, Denotes entry.1 position := by
  rw [readPositions_object] at h
  obtain ⟨pairs, hpairs, rfl⟩ := TypeScript.exists_of_map_mapM h
  rw [Keyed.isSome_get?_ofList_iff, exists_denotes_iff hpairs]

theorem get?_readPositions_iff {name : Text} {entries : List (Text × Json.Value)}
    {positions : Positions} (h : readPositions name (.object entries) = .ok positions)
    (position : Nat) (type : Text) :
    positions.get? position = some type ↔ Counts entries position type := by
  rw [readPositions_object] at h
  obtain ⟨pairs, hpairs, rfl⟩ := TypeScript.exists_of_map_mapM h
  rw [Keyed.get?_ofList_eq_some_iff]
  constructor
  · rintro ⟨pairsBefore, pairsAfter, rfl, hlast⟩
    rw [List.map_append, List.map_cons] at hpairs
    obtain ⟨before, rest, rfl, -, hrest⟩ := List.map_eq_append_iff.mp hpairs
    obtain ⟨⟨key, value⟩, after, rfl, hread, hafter⟩ := List.map_eq_cons_iff.mp hrest
    obtain ⟨hkey, rfl⟩ := readEntry_eq_ok_iff.mp hread
    refine ⟨before, key, after, rfl, hkey, ?_⟩
    simpa [← exists_denotes_iff hafter position] using hlast
  · rintro ⟨before, key, after, rfl, hkey, hlast⟩
    rw [List.map_append, List.map_cons, eq_comm] at hpairs
    obtain ⟨pairsBefore, rest, rfl, -, hrest⟩ := List.map_eq_append_iff.mp hpairs
    obtain ⟨pair, pairsAfter, rfl, hread, hafter⟩ := List.map_eq_cons_iff.mp hrest
    rw [readEntry_eq_ok_iff.mpr ⟨hkey, rfl⟩] at hread
    obtain rfl := Except.ok.inj hread
    refine ⟨pairsBefore, pairsAfter, rfl, ?_⟩
    rw [← exists_denotes_iff hafter.symm position]
    simpa using hlast

/-! ## Tables -/

namespace Table

/-- A native with its positions. -/
def readMember (member : Text × Json.Value) : Except Fault (Text × Positions) :=
  (readPositions member.1 member.2).map (Prod.mk member.1)

theorem ofJson_object (members : List (Text × Json.Value)) :
    ofJson (.object members) = (members.mapM readMember).map Keyed.ofList := by
  rw [ofJson]
  rfl

theorem checks_members :
    Checks (fun members => ofJson (.object members)) (fun members => ∀ m ∈ members, NativeValid m)
      (FirstFault NativeValid NativeFault) := by
  simp only [ofJson_object]
  exact (checks_readPositions.map fun member => Prod.mk member.1).mapM.map fun _ => Keyed.ofList

theorem readMember_eq_ok_iff {member : Text × Json.Value} {name : Text} {positions : Positions} :
    readMember member = .ok (name, positions) ↔
      member.1 = name ∧ readPositions member.1 member.2 = .ok positions := by
  rw [readMember]
  cases readPositions member.1 member.2 <;> simp [Except.map]

theorem names_of_readMember {members : List (Text × Json.Value)} {pairs : List (Text × Positions)}
    (h : members.map readMember = pairs.map .ok) :
    pairs.map Prod.fst = members.map Prod.fst := by
  induction members generalizing pairs with
  | nil => simp_all
  | cons member members ih =>
      cases pairs with
      | nil => simp at h
      | cons pair pairs =>
          obtain ⟨hread, hrest⟩ := List.cons.inj h
          rw [List.map_cons, List.map_cons, (readMember_eq_ok_iff.mp hread).1, ih hrest]

theorem keys_of_ofJson {members : List (Text × Json.Value)} {table : Table}
    (hnames : (members.map Prod.fst).Nodup) (h : ofJson (.object members) = .ok table) :
    table.keys = members.map Prod.fst := by
  rw [ofJson_object] at h
  obtain ⟨pairs, hpairs, rfl⟩ := TypeScript.exists_of_map_mapM h
  have hpairs := names_of_readMember hpairs
  rw [Keyed.keys, Keyed.entries_ofList (hpairs ▸ hnames), hpairs]

/-- A native has the positions that are read from its member. -/
theorem exists_get?_of_ofJson {members : List (Text × Json.Value)} {table : Table}
    (hnames : (members.map Prod.fst).Nodup) (h : ofJson (.object members) = .ok table) {name : Text}
    {entries : List (Text × Json.Value)} (hmem : (name, .object entries) ∈ members) :
    ∃ positions, table.get? name = some positions ∧
      readPositions name (.object entries) = .ok positions := by
  rw [ofJson_object] at h
  obtain ⟨pairs, hpairs, rfl⟩ := TypeScript.exists_of_map_mapM h
  have hread := List.mem_map_of_mem (f := readMember) hmem
  rw [hpairs] at hread
  obtain ⟨⟨name', positions⟩, hpair, hread⟩ := List.mem_map.mp hread
  obtain ⟨rfl, hpositions⟩ := readMember_eq_ok_iff.mp hread.symm
  rw [← names_of_readMember hpairs] at hnames
  exact ⟨positions, Keyed.get?_ofList_of_mem hnames hpair, hpositions⟩

end Table

/-! ## Files -/

/-- The text of the file stands for the value. -/
def Holds (bytes : Bytes) (value : Json.Value) : Prop :=
  ∃ text, Utf8.decode bytes = .ok text ∧ Json.read (Text.unifyNewlines text) = .ok value

theorem Holds.ofBytes_eq {bytes : Bytes} {value : Json.Value} (h : Holds bytes value) :
    Table.ofBytes bytes = Table.ofJson value := by
  obtain ⟨text, hdecode, hread⟩ := h
  rw [Table.ofBytes, hdecode]
  simp only [Table.ofText, hread]

theorem Holds.distinct {bytes : Bytes} {value : Json.Value} (h : Holds bytes value) :
    value.Distinct := by
  obtain ⟨text, -, hread⟩ := h
  exact Json.distinct_of_read hread

theorem holds_render {value : Json.Value} (h : Json.Textual value) (layout : Json.Layout) :
    Holds (Utf8.encode (Json.render layout value)) value :=
  ⟨_, Utf8.decode_encode _, h.read_unifyNewlines_render layout⟩

/-- What is made of the members of an object, in their order. -/
structure MembersSpec (members : List (Text × Json.Value)) (result : Except Fault Table) :
    Prop where
  ok_iff : (∃ table, result = .ok table) ↔ ∀ member ∈ members, NativeValid member
  error_iff : ∀ fault, result = .error fault ↔ FirstFault NativeValid NativeFault members fault
  /-- A native without entries is in the table, too. -/
  keys_eq : ∀ table, result = .ok table → table.keys = members.map Prod.fst
  isSome_iff : ∀ table, result = .ok table → ∀ name entries, (name, .object entries) ∈ members →
    ∀ position, (table.type? name position).isSome = true ↔
      ∃ entry ∈ entries, Denotes entry.1 position
  type?_iff : ∀ table, result = .ok table → ∀ name entries, (name, .object entries) ∈ members →
    ∀ position type, table.type? name position = some type ↔ Counts entries position type

theorem membersSpec_ofJson {members : List (Text × Json.Value)}
    (hnames : (members.map Prod.fst).Nodup) :
    MembersSpec members (Table.ofJson (.object members)) where
  ok_iff := Table.checks_members.ok_iff members
  error_iff := Table.checks_members.error_iff members
  keys_eq _ := Table.keys_of_ofJson hnames
  isSome_iff table htable name entries hmem position := by
    obtain ⟨positions, hget, hread⟩ := Table.exists_get?_of_ofJson hnames htable hmem
    rw [Table.type?, hget, Option.bind_some, isSome_readPositions_iff hread]
  type?_iff table htable name entries hmem position type := by
    obtain ⟨positions, hget, hread⟩ := Table.exists_get?_of_ofJson hnames htable hmem
    rw [Table.type?, hget, Option.bind_some, get?_readPositions_iff hread]

/-- What is made of a file whose text stands for a value. -/
structure LoadSpec (value : Json.Value) (result : Except Fault Table) : Prop where
  distinct : value.Distinct
  noObject : (∀ members, value ≠ .object members) → result = .error .noObject
  object : ∀ members, value = .object members → MembersSpec members result

/-- A file gives a table, or the fault of its first part that is at fault. -/
theorem loadSpec_ofBytes {bytes : Bytes} {value : Json.Value} (h : Holds bytes value) :
    LoadSpec value (Table.ofBytes bytes) where
  distinct := h.distinct
  noObject hvalue := by
    rw [h.ofBytes_eq]
    cases value with
    | object members => exact absurd rfl (hvalue members)
    | _ => rfl
  object members hvalue := by
    obtain rfl := hvalue
    rw [h.ofBytes_eq]
    exact membersSpec_ofJson h.distinct.names_nodup

/-- Two spellings of one position, a native without entries, and a file with three faults. -/
theorem loadSpec_ofBytes_spellings :
    let filter : Text × Json.Value := ("Filter".toList,
      .object [("1".toList, .string "a".toList), (" +0_1".toList, .string "b".toList)])
    let good : Json.Value := .object [filter, ("é".toList, .object [])]
    let bad : Json.Value := .object [filter,
      ("é".toList, .object [("2".toList, .string []), ("x".toList, .null), ("-1".toList, .null)]),
      ("F".toList, .null)]
    let file := fun value => Utf8.encode (Json.render (.indented 2) value)
    (Holds (file good) good ∧ ∃ table, Table.ofBytes (file good) = .ok table ∧
      table.keys = ["Filter".toList, "é".toList] ∧
      table.type? "Filter".toList 1 = some "b".toList) ∧
    Holds (file bad) bad ∧
      Table.ofBytes (file bad) = .error (.noInteger "é".toList "x".toList) := by
  intro filter good bad file
  have htextual : Json.Textual filter.2 := .object (by decide) (by simp [Json.Textual.string])
  have hgood : Holds (file good) good := by
    refine holds_render (.object (by decide) ?_) _
    exact List.forall_mem_cons.mpr ⟨htextual, by simp [Json.Textual.object]⟩
  have hbad : Holds (file bad) bad := by
    refine holds_render (.object (by decide) ?_) _
    refine List.forall_mem_cons.mpr ⟨htextual, List.forall_mem_cons.mpr ⟨?_, ?_⟩⟩
    · exact .object (by decide) (by simp [Json.Textual.string, Json.Textual.null])
    · simp [Json.Textual.null]
  obtain ⟨hplain, hpadded, htwo⟩ :
      Denotes "1".toList 1 ∧ Denotes " +0_1".toList 1 ∧ Denotes "2".toList 2 := by
    unfold Denotes
    decide
  have hvalid {key type : Text} {n : Nat} (h : Denotes key n) : EntryValid (key, .string type) :=
    ⟨⟨n, h⟩, type, rfl⟩
  have hfilter : NativeValid filter :=
    ⟨_, rfl, List.forall_mem_cons.mpr ⟨hvalid hplain, by simpa using hvalid hpadded⟩⟩
  have hspec := (loadSpec_ofBytes hgood).object _ rfl
  obtain ⟨table, htable⟩ := hspec.ok_iff.mpr
    (List.forall_mem_cons.mpr ⟨hfilter, by simp [NativeValid]⟩)
  refine ⟨⟨hgood, table, htable, hspec.keys_eq table htable, ?_⟩, hbad, ?_⟩
  · refine (hspec.type?_iff table htable _ _ List.mem_cons_self 1 _).mpr ?_
    exact ⟨[_], _, [], rfl, hpadded, by simp⟩
  · refine (((loadSpec_ofBytes hbad).object _ rfl).error_iff _).mpr ?_
    refine ⟨[_], _, [_], rfl, by simpa using hfilter, .entry ?_⟩
    exact ⟨[_], _, [_], rfl, by simpa using hvalid htwo, .noInteger (by decide)⟩

end Override

end JassDecl
