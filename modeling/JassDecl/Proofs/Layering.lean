import JassDecl.TypeScript.Types
import Mathlib.Data.List.Nodup

/-! # Laying one table over another

A parameter has the type that the upper table gives it, or else the one of the lower table. Both
levels of a table, the names and the positions of a name, are merged by the same laws. -/

namespace JassDecl

/-! ## Keyed lists -/

namespace Keyed

variable {κ α : Type} [DecidableEq κ]

theorem foldl_alter_eq (f : κ × α → Option α → α) (hf : ∀ entry, f entry none = entry.2)
    (m : Keyed κ α) (entries : List (κ × α)) (h : ((m.entries ++ entries).map Prod.fst).Nodup) :
    (entries.foldl (fun m entry => m.alter entry.1 (f entry)) m).entries =
      m.entries ++ entries := by
  induction entries generalizing m with
  | nil => simp
  | cons entry rest ih =>
      have hnew : entry.1 ∉ m.entries.map Prod.fst := by
        rw [List.map_append, List.map_cons] at h
        exact fun hm => (List.nodup_append.mp h).2.2 _ hm _ List.mem_cons_self rfl
      have hset : (m.alter entry.1 (f entry)).entries = m.entries ++ [entry] := by
        simp only [alter, Entries.alter_of_notMem hnew, hf]
      rw [List.foldl_cons, ih, hset, List.append_assoc, List.singleton_append]
      rwa [hset, List.append_assoc, List.singleton_append]

/-- Entries with distinct keys stay as they are. -/
theorem entries_ofList {entries : List (κ × α)} (h : (entries.map Prod.fst).Nodup) :
    (ofList entries).entries = entries :=
  foldl_alter_eq (fun entry _ => entry.2) (fun _ => rfl) empty entries h

/-- A map is made again of its entries. -/
theorem ofList_entries (m : Keyed κ α) : ofList m.entries = m :=
  Keyed.ext (entries_ofList m.nodup)

theorem merge_empty (combine : α → α → α) (m : Keyed κ α) : merge combine empty m = m :=
  Keyed.ext (foldl_alter_eq _ (fun _ => rfl) empty m.entries m.nodup)

theorem get?_merge (combine : α → α → α) (lower upper : Keyed κ α) (k : κ) :
    (merge combine lower upper).get? k = (lower.get? k).merge combine (upper.get? k) := by
  obtain ⟨entries, hnodup⟩ := upper
  simp only [merge]
  change _ = (lower.get? k).merge combine (Entries.get? k entries)
  induction entries generalizing lower with
  | nil => simp [Entries.get?]
  | cons entry rest ih =>
      obtain ⟨hnew, hrest⟩ := List.nodup_cons.mp hnodup
      rw [List.foldl_cons, ih _ hrest, get?_alter, Entries.get?]
      by_cases hk : entry.1 = k
      · rw [if_pos hk, if_pos hk, Entries.get?_eq_none_iff.mpr (hk ▸ hnew), hk]
        cases lower.get? k <;> rfl
      · rw [if_neg hk, if_neg hk]

theorem keys_merge (combine : α → α → α) (lower upper : Keyed κ α) :
    (merge combine lower upper).keys =
      lower.keys ++ upper.keys.filter fun k => decide (k ∉ lower.keys) := by
  obtain ⟨entries, hnodup⟩ := upper
  simp only [merge]
  change _ = lower.keys ++ (entries.map Prod.fst).filter fun k => decide (k ∉ lower.keys)
  induction entries generalizing lower with
  | nil => simp
  | cons entry rest ih =>
      obtain ⟨hnew, hrest⟩ := List.nodup_cons.mp hnodup
      rw [List.foldl_cons, ih _ hrest, keys_alter, List.map_cons]
      by_cases hk : entry.1 ∈ lower.keys
      · have hsome : (lower.get? entry.1).isSome = true := by
          simpa [Option.isSome_iff_ne_none, Ne, get?_eq_none_iff] using hk
        simp [hsome, hk]
      · have hnone : lower.get? entry.1 = none := get?_eq_none_iff.mpr hk
        have hsame : ∀ k ∈ rest.map Prod.fst,
            decide (k ∉ lower.keys ++ [entry.1]) = decide (k ∉ lower.keys) := by
          intro k hmem
          have hne : k ≠ entry.1 := fun h => hnew (h ▸ hmem)
          simp [hne]
        rw [hnone, Option.isSome_none, if_neg Bool.false_ne_true, List.filter_congr hsame,
          List.filter_cons_of_pos (by simpa using hk), List.append_assoc, List.singleton_append]

theorem mem_keys_merge {combine : α → α → α} {lower upper : Keyed κ α} {k : κ} :
    k ∈ (merge combine lower upper).keys ↔ k ∈ lower.keys ∨ k ∈ upper.keys := by
  rw [keys_merge, List.mem_append, List.mem_filter, decide_eq_true_eq]
  tauto

theorem merge_assoc {combine : α → α → α}
    (h : ∀ x y z, combine (combine x y) z = combine x (combine y z)) (a b c : Keyed κ α) :
    merge combine (merge combine a b) c = merge combine a (merge combine b c) := by
  refine ext_get? ?_ fun k => ?_
  · simp only [keys_merge, List.filter_append, List.filter_filter, List.append_assoc]
    congr 2
    apply List.filter_congr
    intro k _
    by_cases ha : k ∈ a.keys <;> simp [ha]
  · simp only [get?_merge]
    cases a.get? k <;> cases b.get? k <;> cases c.get? k <;> simp [h]

/-- A map that has been merged adds nothing when it is merged again. -/
theorem merge_merge_self {combine : α → α → α} (hself : ∀ x, combine x x = x)
    (htwice : ∀ x y, combine (combine x y) y = combine x y) (a b : Keyed κ α) :
    merge combine (merge combine a b) b = merge combine a b := by
  refine ext_get? ?_ fun k => ?_
  · have hnew : b.keys.filter (fun k => decide (k ∉ (merge combine a b).keys)) = [] := by
      rw [List.filter_eq_nil_iff]
      intro k hk
      simp [mem_keys_merge, hk]
    rw [keys_merge _ (merge combine a b), hnew, List.append_nil]
  · simp only [get?_merge]
    cases a.get? k <;> cases b.get? k <;> simp [hself, htwice]

end Keyed

namespace Override.Table

theorem type?_layer (lower upper : Table) (native : Text) (position : Nat) :
    (layer lower upper).type? native position =
      (upper.type? native position).or (lower.type? native position) := by
  rw [type?, layer, Keyed.get?_merge, type?, type?]
  cases lower.get? native with
  | none => cases upper.get? native <;> simp
  | some below =>
      cases upper.get? native with
      | none => simp
      | some above =>
          simp only [Option.merge, Option.bind_some, Keyed.get?_merge]
          cases below.get? position <;> cases above.get? position <;> rfl

theorem layer_assoc (a b c : Table) : layer (layer a b) c = layer a (layer b c) :=
  Keyed.merge_assoc (Keyed.merge_assoc fun _ _ _ => rfl) a b c

theorem layer_layer_self (lower upper : Table) :
    layer (layer lower upper) upper = layer lower upper := by
  let combine : Positions → Positions → Positions := Keyed.merge fun _ type => type
  have htwice (x y : Positions) : combine (combine x y) y = combine x y := by
    apply Keyed.merge_merge_self
    · exact fun _ => rfl
    · exact fun _ _ => rfl
  have hself (x : Positions) : combine x x = x := by
    simpa only [combine, Keyed.merge_empty] using htwice .empty x
  exact Keyed.merge_merge_self hself htwice lower upper

/-- The laws of laying one table over another, and of asking the result. -/
structure LayerSpec (lower upper : Table) : Prop where
  type?_eq : ∀ name position, (layer lower upper).type? name position =
    (upper.type? name position).or (lower.type? name position)
  type?_eq_none_iff : ∀ name position, (layer lower upper).type? name position = none ↔
    upper.type? name position = none ∧ lower.type? name position = none
  /-- A name without positions counts, too. -/
  mem_keys_iff : ∀ name, name ∈ (layer lower upper).keys ↔ name ∈ lower.keys ∨ name ∈ upper.keys
  /-- A name of the upper table keeps what the lower one has at other positions. -/
  kept : ∀ name ∈ upper.keys, ∀ position, upper.type? name position = none →
    (layer lower upper).type? name position = lower.type? name position
  assoc : ∀ top, layer (layer lower upper) top = layer lower (layer upper top)
  empty_layer : layer .empty upper = upper
  layer_empty : layer lower .empty = lower
  twice : layer (layer lower upper) upper = layer lower upper
  asked_upper : ∀ native position type, upper.type? native.name position = some type →
    TypeScript.nativeArgumentType (layer lower upper) native position = .ok type
  asked_lower : ∀ native position, upper.type? native.name position = none →
    TypeScript.nativeArgumentType (layer lower upper) native position =
      TypeScript.nativeArgumentType lower native position

/-- Layers are a union that prefers the upper table at each position. -/
theorem layerSpec (lower upper : Table) : LayerSpec lower upper where
  type?_eq := type?_layer lower upper
  type?_eq_none_iff name position := by
    rw [type?_layer, Option.or_eq_none_iff]
  mem_keys_iff _ := Keyed.mem_keys_merge
  kept name _ position h := by
    rw [type?_layer, h, Option.none_or]
  assoc := layer_assoc lower upper
  empty_layer := Keyed.merge_empty _ upper
  layer_empty := rfl
  twice := layer_layer_self lower upper
  asked_upper native position type h := by
    rw [TypeScript.nativeArgumentType, type?_layer, h, Option.some_or]
  asked_lower native position h := by
    rw [TypeScript.nativeArgumentType, TypeScript.nativeArgumentType, type?_layer, h,
      Option.none_or]

/-- A name of both tables, and a name without positions. -/
example :
    let lower : Table := .ofList [("f".toList, .ofList [(0, ['a']), (1, ['b'])])]
    let upper : Table := .ofList [("g".toList, .empty), ("f".toList, .ofList [(1, ['c'])])]
    layer lower upper =
      .ofList [("f".toList, .ofList [(0, ['a']), (1, ['c'])]), ("g".toList, .empty)] := by
  decide

end Override.Table

end JassDecl
