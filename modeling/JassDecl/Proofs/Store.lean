import JassDecl.Override.Store
import JassDecl.Proofs.Layering

/-! # What tables in memory hold

As long as no two natives share a cell, tables in memory are like a list of values: what is done to
one of them leaves the others as they are. -/

namespace JassDecl.Override

/-! ## Sheets -/

namespace Sheet

variable {cells others : List Positions} {sheet : Sheet}

theorem content_congr
    (h : ∀ native address, sheet.get? native = some address → others[address]? = cells[address]?) :
    content others sheet = content cells sheet := by
  refine Keyed.ext_get? (by simp [content]) fun native => ?_
  simp only [content, Keyed.get?_mapValues, List.getD_eq_getElem?_getD]
  cases hget : sheet.get? native with
  | none => rfl
  | some address => simp [h native address hget]

theorem content_set (cells : List Positions) (sheet : Sheet) (native : Text) (address : Nat) :
    content cells (sheet.set native address) =
      (content cells sheet).set native (cells.getD address .empty) := by
  refine Keyed.ext_get? (by simp [content, Keyed.set, Keyed.keys_alter]) fun name => ?_
  simp only [content, Keyed.get?_mapValues, Keyed.get?_set]
  split <;> rfl

/-- What is changed in the cell of one native is changed for it alone. -/
theorem content_modify {native : Text} {address : Nat} (hget : sheet.get? native = some address)
    (hcell : address < cells.length)
    (hapart : ∀ name, sheet.get? name = some address → name = native)
    (f : Positions → Positions) :
    content (cells.modify address f) sheet =
      (content cells sheet).alter native fun positions => f (positions.getD .empty) := by
  refine Keyed.ext_get? (by simp [content, Keyed.keys_alter, hget]) fun name => ?_
  simp only [content, Keyed.get?_mapValues, Keyed.get?_alter, List.getD_eq_getElem?_getD,
    List.getElem?_modify]
  by_cases hname : native = name
  · subst hname
    simp [hget, hcell]
  · rw [if_neg hname]
    cases hother : sheet.get? name with
    | none => rfl
    | some other =>
        have hne : address ≠ other := fun h => hname (hapart name (h ▸ hother)).symm
        simp [hne]

end Sheet

/-! ## Stores -/

namespace Store

variable {s : Store} {index : Nat}

/-- No two natives share a cell, be they of one table or of two. -/
structure Separate (s : Store) : Prop where
  bounded : ∀ {index native address}, s.address? index native = some address →
    address < s.cells.length
  apart : ∀ {index native address other name}, s.address? index native = some address →
    s.address? other name = some address → other = index ∧ name = native

theorem separate_empty : Separate empty where
  bounded := fun h => by simp [empty, address?] at h
  apart := fun h => by simp [empty, address?] at h

theorem length_tables (s : Store) : s.tables.length = s.sheets.length :=
  List.length_map _

theorem getElem?_tables (s : Store) (index : Nat) :
    s.tables[index]? = (s.sheets[index]?).map (Sheet.content s.cells) :=
  List.getElem?_map

theorem address?_eq_some_iff {native : Text} {address : Nat} :
    s.address? index native = some address ↔
      ∃ sheet, s.sheets[index]? = some sheet ∧ sheet.get? native = some address :=
  Option.bind_eq_some_iff

theorem bind_get?_tables (s : Store) (index : Nat) (native : Text) :
    (s.tables[index]?).bind (·.get? native) =
      (s.address? index native).map fun address => s.cells.getD address .empty := by
  rw [getElem?_tables, address?]
  cases s.sheets[index]? with
  | none => rfl
  | some sheet => exact Keyed.get?_mapValues ..

/-! ### New cells -/

theorem address?_place (h : index < s.sheets.length) (native : Text) (positions : Positions)
    (other : Nat) (name : Text) :
    (s.place index native positions).address? other name =
      if other = index ∧ name = native then some s.cells.length else s.address? other name := by
  by_cases hother : index = other
  · subst hother
    simp [address?, place, List.getElem?_eq_getElem h, Keyed.get?_set, eq_comm]
  · simp [address?, place, hother, Ne.symm hother]

theorem Separate.place (hs : s.Separate) (h : index < s.sheets.length) (native : Text)
    (positions : Positions) : (s.place index native positions).Separate where
  bounded := by
    intro other name address haddress
    simp only [Store.place, List.length_append, List.length_singleton]
    rw [address?_place h] at haddress
    split at haddress
    · simp at haddress
      omega
    · have := hs.bounded haddress
      omega
  apart := by
    intro i m address j n hfirst hsecond
    rw [address?_place h] at hfirst hsecond
    -- The new cell lies past all the old ones, so no native has it yet.
    have hfresh {i m} : s.address? i m ≠ some s.cells.length := fun h =>
      Nat.lt_irrefl _ (hs.bounded h)
    have := @hs.apart i m address j n
    grind

theorem Separate.tables_place (hs : s.Separate) (index : Nat) (native : Text)
    (positions : Positions) :
    (s.place index native positions).tables = s.tables.modify index (·.set native positions) := by
  refine List.ext_getElem? fun other => ?_
  rw [List.getElem?_modify, getElem?_tables, getElem?_tables, Store.place, List.getElem?_modify]
  cases hsheet : s.sheets[other]? with
  | none => rfl
  | some sheet =>
      have hold : sheet.content (s.cells ++ [positions]) = sheet.content s.cells :=
        Sheet.content_congr fun name address hget => List.getElem?_append_left
          (hs.bounded (address?_eq_some_iff.mpr ⟨sheet, hsheet, hget⟩))
      by_cases hother : index = other
      · have hset := Sheet.content_set (s.cells ++ [positions]) sheet native s.cells.length
        rw [hold] at hset
        simpa [hother] using hset
      · simpa [hother] using hold

/-! ### Cells that are there -/

theorem Separate.tables_modify (hs : s.Separate) {native : Text} {address : Nat}
    (haddress : s.address? index native = some address) (f : Positions → Positions) :
    ({ s with cells := s.cells.modify address f } : Store).tables =
      s.tables.modify index (·.alter native fun positions => f (positions.getD .empty)) := by
  obtain ⟨own, hown, hget⟩ := address?_eq_some_iff.mp haddress
  refine List.ext_getElem? fun other => ?_
  rw [List.getElem?_modify, getElem?_tables, getElem?_tables]
  cases hsheet : s.sheets[other]? with
  | none => rfl
  | some sheet =>
      by_cases hother : index = other
      · -- In the table itself no other native has the cell.
        subst hother
        obtain rfl := Option.some.inj (hown.symm.trans hsheet)
        have hmodify := Sheet.content_modify hget (hs.bounded haddress) (fun name hname =>
          (hs.apart haddress (address?_eq_some_iff.mpr ⟨own, hown, hname⟩)).2) f
        simpa using hmodify
      · -- In another table no native at all has it.
        have hold : sheet.content (s.cells.modify address f) = sheet.content s.cells := by
          refine Sheet.content_congr fun name cell hcell => ?_
          have hne : address ≠ cell := fun h => hother (hs.apart (h ▸ haddress)
            (address?_eq_some_iff.mpr ⟨sheet, hsheet, hcell⟩)).1.symm
          simp [hne]
        simpa [hother] using hold

/-! ### Operations on one table -/

/-- The operation does to the table at a position what `f` does to its value, and nothing to the
others. -/
def Acts (index : Nat) (operation : Store → Store) (f : Table → Table) : Prop :=
  ∀ ⦃s : Store⦄, s.Separate → index < s.tables.length →
    (operation s).Separate ∧ (operation s).tables = s.tables.modify index f

theorem acts_place (index : Nat) (native : Text) (positions : Positions) :
    Acts index (·.place index native positions) (·.set native positions) := by
  intro s hs h
  rw [length_tables] at h
  exact ⟨hs.place h native positions, hs.tables_place index native positions⟩

theorem acts_change (index : Nat) (native : Text) (f : Positions → Positions) :
    Acts index (·.change index native f)
      (·.alter native fun positions => f (positions.getD .empty)) := by
  intro s hs h
  simp only [change]
  cases haddress : s.address? index native with
  | none =>
      obtain ⟨hseparate, htables⟩ := acts_place index native (f .empty) hs h
      refine ⟨hseparate, htables.trans ?_⟩
      have hget : s.tables[index].get? native = none := by
        simpa [haddress, h] using s.bind_get?_tables index native
      simp [List.modify_eq_set_getElem?, Keyed.alter_eq_set, h, hget]
  | some address =>
      refine ⟨⟨fun hother => ?_, hs.apart⟩, hs.tables_modify haddress f⟩
      rw [List.length_modify]
      exact hs.bounded hother

theorem Acts.foldl {β : Type} {operation : β → Store → Store} {f : β → Table → Table}
    (h : ∀ b, Acts index (operation b) (f b)) (bs : List β) :
    Acts index (fun s => bs.foldl (fun s b => operation b s) s)
      (fun table => bs.foldl (fun table b => f b table) table) := by
  induction bs with
  | nil => exact fun s hs _ => ⟨hs, (List.modify_id ..).symm⟩
  | cons b rest ih =>
      intro s hs hindex
      obtain ⟨hseparate, htables⟩ := h b hs hindex
      obtain ⟨hlast, hall⟩ := ih hseparate (by rwa [htables, List.length_modify])
      refine ⟨hlast, ?_⟩
      simp only [List.foldl_cons]
      rw [hall, htables, List.modify_modify_eq]
      rfl

/-! ### New tables -/

theorem modify_concat {α : Type} (l : List α) (a : α) (f : α → α) :
    (l ++ [a]).modify l.length f = l ++ [f a] := by
  rw [List.modify_eq_take_cons_drop (by simp)]
  simp

theorem address?_blank (s : Store) (index : Nat) (native : Text) :
    s.blank.address? index native = s.address? index native := by
  simp only [address?, blank, List.getElem?_append]
  split
  · rfl
  · have hold : s.sheets[index]? = none := List.getElem?_eq_none (by omega)
    rw [hold]
    cases h : ([.empty] : List Sheet)[index - s.sheets.length]? with
    | none => rfl
    | some sheet =>
        obtain rfl := List.mem_singleton.mp (List.mem_of_getElem? h)
        rfl

theorem Separate.blank (hs : s.Separate) : s.blank.Separate where
  bounded := fun h => hs.bounded ((address?_blank ..).symm.trans h)
  apart := fun h hother =>
    hs.apart ((address?_blank ..).symm.trans h) ((address?_blank ..).symm.trans hother)

theorem tables_blank (s : Store) : s.blank.tables = s.tables ++ [.empty] := by
  simp [tables, Store.blank, Sheet.content, Keyed.mapValues, Keyed.empty]

/-- A new table is kept apart from those that are there. -/
theorem Separate.add (hs : s.Separate) (table : Table) :
    (s.add table).Separate ∧ (s.add table).tables = s.tables ++ [table] := by
  have hplace := Acts.foldl (fun entry : Text × Positions =>
    acts_place s.sheets.length entry.1 entry.2) table.entries
  obtain ⟨hseparate, htables⟩ := hplace hs.blank (by simp [tables_blank, length_tables])
  refine ⟨hseparate, htables.trans ?_⟩
  rw [tables_blank, ← length_tables, modify_concat]
  exact congrArg (s.tables ++ [·]) (Keyed.ofList_entries table)

/-- A table over a copy of another one is kept apart from it. -/
theorem Separate.layer (hs : s.Separate) {lower : Nat} {table : Table}
    (hlower : s.tables[lower]? = some table) (upper : Table) :
    ∃ next, s.layer lower upper = some next ∧ next.Separate ∧
      next.tables = s.tables ++ [table.layer upper] := by
  obtain ⟨hseparate, htables⟩ := hs.add table
  have hchange := Acts.foldl (fun entry : Text × Positions =>
    acts_change s.sheets.length entry.1 (Positions.update · entry.2)) upper.entries
  obtain ⟨hlast, hall⟩ := hchange hseparate (by simp [htables, length_tables])
  refine ⟨_, by rw [Store.layer, hlower]; rfl, hlast, hall.trans ?_⟩
  rw [htables, ← length_tables, modify_concat, Table.layer, Keyed.merge]
  congr
  funext m entry
  congr
  funext below
  cases below with
  | none => exact Keyed.merge_empty ..
  | some below => rfl

end Store

end JassDecl.Override
