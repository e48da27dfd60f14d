/-!
# Keyed lists

A finite map that lists its keys in the order in which they were first set. Setting a key again
changes its value and leaves it in its place.
-/

namespace JassDecl

variable {κ α β : Type} [DecidableEq κ]

/-! ## Entries -/

namespace Entries

/-- Changes the value of the key `k` in its place, or sets it in a new last entry. -/
def alter (k : κ) (f : Option α → α) : List (κ × α) → List (κ × α)
  | [] => [(k, f none)]
  | (key, a) :: rest =>
      if key = k then (key, f (some a)) :: rest else (key, a) :: alter k f rest

/-- Sets the value of the key `k`. -/
def set (k : κ) (a : α) (entries : List (κ × α)) : List (κ × α) :=
  alter k (fun _ => a) entries

/-- The value of the first entry with the key `k`. -/
def get? (k : κ) : List (κ × α) → Option α
  | [] => none
  | (key, a) :: rest => if key = k then some a else get? k rest

theorem get?_alter (k x : κ) (f : Option α → α) (entries : List (κ × α)) :
    get? x (alter k f entries) = if k = x then some (f (get? k entries)) else get? x entries := by
  induction entries with
  | nil => simp [alter, get?]
  | cons entry rest ih =>
      obtain ⟨key, a⟩ := entry
      by_cases hk : key = k
      · by_cases hx : k = x <;> simp [alter, get?, hk, hx]
      · by_cases hx : k = x
        · subst hx
          simp [alter, get?, hk, ih]
        · simp only [alter, if_neg hk, get?, if_neg hx, ih]

theorem mem_of_get? {k : κ} {a : α} {entries : List (κ × α)} (h : get? k entries = some a) :
    (k, a) ∈ entries := by
  induction entries with
  | nil => simp [get?] at h
  | cons entry rest ih =>
      rw [get?] at h
      split at h
      · rename_i hk
        obtain rfl := Option.some.inj h
        rw [← hk]
        exact List.mem_cons_self
      · exact List.mem_cons_of_mem _ (ih h)

theorem get?_eq_none_iff {k : κ} {entries : List (κ × α)} :
    get? k entries = none ↔ k ∉ entries.map Prod.fst := by
  induction entries with
  | nil => simp [get?]
  | cons entry rest ih =>
      by_cases h : entry.1 = k
      · simp [get?, h]
      · simp [get?, h, Ne.symm h, ih]

theorem get?_map (k : κ) (f : α → β) (entries : List (κ × α)) :
    get? k (entries.map fun entry => (entry.1, f entry.2)) = (get? k entries).map f := by
  induction entries with
  | nil => rfl
  | cons entry rest ih =>
      rw [List.map_cons, get?, get?, ih]
      split <;> rfl

/-- Entries are determined by their keys in order and by the value of each key. -/
theorem eq_of_get? {entries others : List (κ × α)} (hnodup : (entries.map Prod.fst).Nodup)
    (hkeys : entries.map Prod.fst = others.map Prod.fst)
    (hget : ∀ k, get? k entries = get? k others) : entries = others := by
  induction entries generalizing others with
  | nil => exact (List.map_eq_nil_iff.mp hkeys.symm).symm
  | cons entry rest ih =>
      cases others with
      | nil => simp at hkeys
      | cons other more =>
          obtain ⟨key, a⟩ := entry
          obtain ⟨_, b⟩ := other
          obtain ⟨rfl, hrest⟩ := List.cons.inj hkeys
          obtain ⟨hnew, hnodup⟩ := List.nodup_cons.mp hnodup
          have hvalue : a = b := by simpa [get?] using hget key
          rw [hvalue, ih hnodup hrest fun k => ?_]
          by_cases hk : key = k
          · rw [← hk, get?_eq_none_iff.mpr hnew, get?_eq_none_iff.mpr (hrest ▸ hnew)]
          · simpa [get?, hk] using hget k

theorem keys_alter_of_mem {k : κ} {f : Option α → α} {entries : List (κ × α)}
    (h : k ∈ entries.map Prod.fst) : (alter k f entries).map Prod.fst = entries.map Prod.fst := by
  induction entries with
  | nil => simp at h
  | cons entry rest ih =>
      by_cases hk : entry.1 = k
      · simp [alter, hk]
      · have hrest := (List.mem_cons.mp h).resolve_left (Ne.symm hk)
        simp only [alter, if_neg hk, List.map_cons, ih hrest]

theorem mem_keys_alter {k : κ} {f : Option α → α} {entries : List (κ × α)} {x : κ} :
    x ∈ (alter k f entries).map Prod.fst ↔ x ∈ entries.map Prod.fst ∨ x = k := by
  induction entries with
  | nil => simp [alter]
  | cons entry rest ih =>
      by_cases h : entry.1 = k
      · simp only [alter, h, if_true, List.map_cons, List.mem_cons]
        grind
      · simp only [alter, h, if_false, List.map_cons, List.mem_cons, ih]
        grind

theorem nodup_alter {k : κ} {f : Option α → α} {entries : List (κ × α)}
    (h : (entries.map Prod.fst).Nodup) : ((alter k f entries).map Prod.fst).Nodup := by
  induction entries with
  | nil => simp [alter]
  | cons entry rest ih =>
      by_cases hk : entry.1 = k
      · simpa [alter, hk] using h
      · have hrest := List.nodup_cons.mp h
        simp only [alter, hk, if_false, List.map_cons, List.nodup_cons, mem_keys_alter]
        exact ⟨by simpa [hk] using hrest.1, ih hrest.2⟩

/-- A new key comes last. -/
theorem alter_of_notMem {k : κ} {f : Option α → α} {entries : List (κ × α)}
    (h : k ∉ entries.map Prod.fst) : alter k f entries = entries ++ [(k, f none)] := by
  induction entries with
  | nil => rfl
  | cons entry rest ih =>
      rw [List.map_cons, List.mem_cons, not_or] at h
      rw [alter, if_neg (Ne.symm h.1), ih h.2, List.cons_append]

end Entries

/-! ## Keyed lists -/

/-- Entries in order, with no key twice. -/
@[ext]
structure Keyed (κ α : Type) where
  entries : List (κ × α)
  nodup : (entries.map Prod.fst).Nodup
  deriving DecidableEq, Repr

namespace Keyed

/-- The map without keys. -/
def empty : Keyed κ α where
  entries := []
  nodup := .nil

instance : Inhabited (Keyed κ α) := ⟨⟨[], .nil⟩⟩

/-- The keys in order. -/
def keys (m : Keyed κ α) : List κ :=
  m.entries.map Prod.fst

/-- The value of a key. -/
def get? (m : Keyed κ α) (k : κ) : Option α :=
  Entries.get? k m.entries

/-- Changes the value of a key. -/
def alter (m : Keyed κ α) (k : κ) (f : Option α → α) : Keyed κ α where
  entries := Entries.alter k f m.entries
  nodup := Entries.nodup_alter m.nodup

theorem get?_alter (m : Keyed κ α) (k x : κ) (f : Option α → α) :
    (m.alter k f).get? x = if k = x then some (f (m.get? k)) else m.get? x :=
  Entries.get?_alter k x f m.entries

/-- Sets the value of a key. -/
def set (m : Keyed κ α) (k : κ) (a : α) : Keyed κ α :=
  m.alter k fun _ => a

@[simp]
theorem get?_empty (k : κ) : (empty : Keyed κ α).get? k = none :=
  rfl

theorem get?_set (m : Keyed κ α) (k x : κ) (a : α) :
    (m.set k a).get? x = if k = x then some a else m.get? x :=
  m.get?_alter k x fun _ => a

theorem get?_eq_none_iff {m : Keyed κ α} {k : κ} : m.get? k = none ↔ k ∉ m.keys :=
  Entries.get?_eq_none_iff

theorem keys_alter (m : Keyed κ α) (k : κ) (f : Option α → α) :
    (m.alter k f).keys = if (m.get? k).isSome then m.keys else m.keys ++ [k] := by
  cases h : m.get? k with
  | none =>
      have hnew : k ∉ m.entries.map Prod.fst := get?_eq_none_iff.mp h
      simp [keys, alter, Entries.alter_of_notMem hnew]
  | some a =>
      have hmem : k ∈ m.entries.map Prod.fst := List.mem_map_of_mem (Entries.mem_of_get? h)
      simp [keys, alter, Entries.keys_alter_of_mem hmem]

theorem ext_get? {m n : Keyed κ α} (hkeys : m.keys = n.keys)
    (hget : ∀ k, m.get? k = n.get? k) : m = n :=
  Keyed.ext (Entries.eq_of_get? m.nodup hkeys hget)

theorem alter_eq_set (m : Keyed κ α) (k : κ) (f : Option α → α) :
    m.alter k f = m.set k (f (m.get? k)) := by
  refine ext_get? ?_ fun x => ?_
  · rw [set, keys_alter, keys_alter]
  · rw [get?_set, get?_alter]

/-- The same keys with other values. -/
def mapValues (f : α → β) (m : Keyed κ α) : Keyed κ β where
  entries := m.entries.map fun entry => (entry.1, f entry.2)
  nodup := by simpa [Function.comp_def] using m.nodup

omit [DecidableEq κ] in
@[simp]
theorem keys_mapValues (f : α → β) (m : Keyed κ α) : (m.mapValues f).keys = m.keys := by
  simp [keys, mapValues]

@[simp]
theorem get?_mapValues (f : α → β) (m : Keyed κ α) (k : κ) :
    (m.mapValues f).get? k = (m.get? k).map f :=
  Entries.get?_map k f m.entries

/-- Sets the entries in order, so that the last value of a key counts. -/
def ofList (entries : List (κ × α)) : Keyed κ α :=
  entries.foldl (fun m entry => m.set entry.1 entry.2) empty

/-- The keys of both maps, those of `lower` first. A key of both gets the value that `combine` makes
of its two values. -/
def merge (combine : α → α → α) (lower upper : Keyed κ α) : Keyed κ α :=
  upper.entries.foldl
    (fun m entry => m.alter entry.1 fun
      | none => entry.2
      | some below => combine below entry.2)
    lower

end Keyed

end JassDecl
