import JassDecl.Proofs.Unambiguity

/-! # What a table changes

An override table replaces the types of the parameters that it names, and leaves all else of a
declaration file as it is.
-/

namespace JassDecl.TypeScript

/-! ## Asking for types one by one -/

/-- The parameters of a native when each type is asked for at its position. -/
def askedParameters (table : Override.Table) (d : Prototype) : Except PositionFault (List Text) :=
  d.arguments.zipIdx.mapM fun asked =>
    (nativeArgumentType table d asked.2).map (parameter asked.1.name)

theorem mapM_eq_ok_iff {α β ε : Type} {f : α → Except ε β} {xs : List α} {ys : List β} :
    xs.mapM f = .ok ys ↔ xs.map f = ys.map .ok := by
  induction xs generalizing ys with
  | nil => simp [List.mapM_nil, pure, Except.pure, eq_comm]
  | cons x xs ih =>
      rw [List.mapM_cons, List.map_cons]
      cases ys with
      | nil => cases f x <;> cases xs.mapM f <;> simp [bind, Except.bind, pure, Except.pure]
      | cons y ys =>
          rw [List.map_cons, List.cons.injEq, ← ih]
          cases f x <;> cases xs.mapM f <;> simp [bind, Except.bind, pure, Except.pure]

theorem exists_of_map_mapM {α β γ ε : Type} {f : α → Except ε β} {g : List β → γ} {xs : List α}
    {c : γ} (h : (xs.mapM f).map g = .ok c) : ∃ ys, xs.map f = ys.map .ok ∧ c = g ys := by
  cases hys : xs.mapM f with
  | error fault =>
      rw [hys] at h
      cases h
  | ok ys =>
      rw [hys] at h
      exact ⟨ys, mapM_eq_ok_iff.mp hys, (Except.ok.inj h).symm⟩

theorem mapM_eq_ok {α β ε : Type} {f : α → Except ε β} {g : α → β} {xs : List α}
    (h : ∀ x ∈ xs, f x = .ok (g x)) : xs.mapM f = .ok (xs.map g) := by
  rw [mapM_eq_ok_iff, List.map_map]
  exact List.map_congr_left h

/-- Every position that is asked for has a parameter. -/
theorem askedParameters_eq_ok (table : Override.Table) (d : Prototype) :
    askedParameters table d = .ok (nativeParameters table d) := by
  rw [nativeParameters, List.mapIdx_eq_zipIdx_map, askedParameters]
  apply mapM_eq_ok
  intro asked hasked
  have hget : d.arguments[asked.2]? = some asked.1 := List.mk_mem_zipIdx_iff_getElem?.mp hasked
  rw [nativeArgumentType_eq_shownType hget]
  rfl

/-! ## Lines of natives -/

/-- The types of the parameters of a native as they are declared. -/
def declaredTypes (d : Prototype) : List Text :=
  d.arguments.map fun argument => argumentType argument.type

/-- Types of the parameters of a native, with those of the table in their places. -/
def overridden (table : Override.Table) (native : Text) (types : List Text) : List Text :=
  types.mapIdx fun position type => (table.type? native position).getD type

/-- The line of a native whose parameters have the given types. -/
def lineWithTypes (d : Prototype) (types : List Text) : Text :=
  let names := d.arguments.map Argument.name
  let parameters := List.zipWith (fun name type => name ++ ": ".toList ++ type) names types
  "declare function ".toList ++ d.name ++ "(".toList ++ List.intercalate ", ".toList parameters ++
    "): ".toList ++ valueType d.returnType

/-- Whether a table has a type for a parameter of a native. -/
def Affects (table : Override.Table) (d : Prototype) : Prop :=
  ∃ position < d.arguments.length, (table.type? d.name position).isSome = true

theorem length_declaredTypes (d : Prototype) : (declaredTypes d).length = d.arguments.length :=
  List.length_map _

theorem overridden_declaredTypes (table : Override.Table) (d : Prototype) :
    overridden table d.name (declaredTypes d) = d.arguments.mapIdx (shownType table d.name) := by
  apply List.ext_getElem?
  intro position
  rw [overridden, declaredTypes, List.getElem?_mapIdx, List.getElem?_map, List.getElem?_mapIdx,
    Option.map_map]
  rfl

theorem nativeLine_eq_lineWithTypes (table : Override.Table) (d : Prototype) :
    nativeLine table d = lineWithTypes d (overridden table d.name (declaredTypes d)) := by
  rw [nativeLine_eq, parameters_eq_zipWith, ← overridden_declaredTypes]
  rfl

/-- A type of the table is shown as it is, at its position. -/
theorem getElem?_overridden_of_type? {table : Override.Table} {d : Prototype} {position : Nat}
    (hposition : position < d.arguments.length) {type : Text}
    (htype : table.type? d.name position = some type) :
    (overridden table d.name (declaredTypes d))[position]? = some type := by
  have hbound : position < (declaredTypes d).length := by rwa [length_declaredTypes]
  have hget : (declaredTypes d)[position]? = some (declaredTypes d)[position] :=
    List.getElem?_eq_getElem hbound
  rw [overridden, List.getElem?_mapIdx, hget, Option.map_some, htype, Option.getD_some]

theorem overridden_congr {table other : Override.Table} {d : Prototype}
    (h : ∀ position < d.arguments.length,
      table.type? d.name position = other.type? d.name position) :
    overridden table d.name (declaredTypes d) = overridden other d.name (declaredTypes d) := by
  apply List.mapIdx_eq_mapIdx_iff.mpr
  intro position hposition
  rw [length_declaredTypes] at hposition
  rw [h position hposition]

theorem type?_empty (native : Text) (position : Nat) :
    Override.Table.type? .empty native position = none :=
  rfl

theorem overridden_empty (d : Prototype) :
    overridden .empty d.name (declaredTypes d) = declaredTypes d := by
  apply List.ext_getElem?
  intro position
  rw [overridden, List.getElem?_mapIdx]
  exact Option.map_id'

theorem nativeLine_congr {table other : Override.Table} {d : Prototype}
    (h : ∀ position < d.arguments.length,
      table.type? d.name position = other.type? d.name position) :
    nativeLine table d = nativeLine other d := by
  rw [nativeLine_eq_lineWithTypes, nativeLine_eq_lineWithTypes, overridden_congr h]

theorem nativeLine_of_not_affects {table : Override.Table} {d : Prototype}
    (h : ¬ Affects table d) : nativeLine table d = nativeLine .empty d := by
  apply nativeLine_congr
  intro position hposition
  have hnone : (table.type? d.name position).isSome ≠ true := fun hsome =>
    h ⟨position, hposition, hsome⟩
  rw [type?_empty]
  simpa using hnone

/-! ## Lines of files -/

/-- The lines in front of the natives of a library. -/
def linesBefore (l : Library) : List Text :=
  [header, []] ++ l.types.map typeLine ++ [[]]

/-- The lines behind the natives of a library. -/
def linesBehind (l : Library) : List Text :=
  [[]] ++ l.globals.map globalLine ++ [[]] ++ l.functions.map functionLine

/-- Only the lines of natives are written with the table. -/
theorem declarationLines_eq (table : Override.Table) (l : Library) :
    declarationLines table l =
      linesBefore l ++ (l.natives.map (nativeLine table) ++ linesBehind l) := by
  simp only [declarationLines, linesBefore, linesBehind, List.append_assoc]

theorem length_linesBefore (l : Library) : (linesBefore l).length = 3 + l.types.length := by
  simp only [linesBefore, List.length_append, List.length_map, List.length_cons, List.length_nil]
  omega

theorem declarationLines_native {table : Override.Table} {l : Library} {j : Nat} {d : Prototype}
    (h : l.natives[j]? = some d) :
    (declarationLines table l)[3 + l.types.length + j]? = some (nativeLine table d) := by
  have hlength : j < (l.natives.map (nativeLine table)).length := by
    rw [List.length_map]
    exact (List.getElem?_eq_some_iff.mp h).1
  rw [declarationLines_eq, ← length_linesBefore, List.getElem?_append_right (Nat.le_add_right _ _),
    Nat.add_sub_cancel_left, List.getElem?_append_left hlength, List.getElem?_map, h,
    Option.map_some]

/-- A line that is not the line of an affected native. -/
theorem declarationLines_unchanged {table : Override.Table} {l : Library} {k : Nat}
    (h : ∀ j d, k = 3 + l.types.length + j → l.natives[j]? = some d → ¬ Affects table d) :
    (declarationLines table l)[k]? = (declarationLines .empty l)[k]? := by
  rw [declarationLines_eq, declarationLines_eq]
  by_cases hk : k < (linesBefore l).length
  · rw [List.getElem?_append_left hk, List.getElem?_append_left hk]
  · rw [List.getElem?_append_right (Nat.le_of_not_lt hk),
      List.getElem?_append_right (Nat.le_of_not_lt hk), List.getElem?_append,
      List.getElem?_append, List.length_map, List.length_map, List.getElem?_map,
      List.getElem?_map]
    cases hnative : l.natives[k - (linesBefore l).length]? with
    | none => rfl
    | some d =>
        have hposition : k = 3 + l.types.length + (k - (linesBefore l).length) := by
          rw [length_linesBefore] at hk ⊢
          omega
        rw [Option.map_some, Option.map_some,
          nativeLine_of_not_affects (h _ d hposition hnative)]

theorem declarationFile_congr {table other : Override.Table} {l : Library}
    (h : ∀ d ∈ l.natives, ∀ position < d.arguments.length,
      table.type? d.name position = other.type? d.name position) :
    declarationFile table l = declarationFile other l := by
  have hnatives : l.natives.map (nativeLine table) = l.natives.map (nativeLine other) :=
    List.map_congr_left fun d hd => nativeLine_congr (h d hd)
  rw [declarationFile, declarationFile, declarationLines_eq, declarationLines_eq, hnatives]

/-- What a table makes of the lines of a library, line by line. -/
structure OverrideSpec (table : Override.Table) (l : Library) : Prop where
  /-- No type is asked for past the last parameter. -/
  asked : ∀ d ∈ l.natives, askedParameters table d = .ok (nativeParameters table d)
  length : (declarationLines table l).length = (declarationLines .empty l).length
  /-- The header, empty lines, and the lines of types, globals, functions and other natives. -/
  unchanged : ∀ k,
    (∀ j d, k = 3 + l.types.length + j → l.natives[j]? = some d → ¬ Affects table d) →
      (declarationLines table l)[k]? = (declarationLines .empty l)[k]?
  native : ∀ j d, l.natives[j]? = some d →
    (declarationLines .empty l)[3 + l.types.length + j]? =
        some (lineWithTypes d (declaredTypes d)) ∧
      (declarationLines table l)[3 + l.types.length + j]? =
        some (lineWithTypes d (overridden table d.name (declaredTypes d)))
  /-- Natives of one name get the same types at the same positions. -/
  sameName : ∀ d ∈ l.natives, ∀ e ∈ l.natives, d.name = e.name → ∀ position type,
    table.type? d.name position = some type →
      position < d.arguments.length → position < e.arguments.length →
        (overridden table d.name (declaredTypes d))[position]? = some type ∧
          (overridden table e.name (declaredTypes e))[position]? = some type
  /-- Nothing else that a table holds matters. -/
  congr : ∀ other : Override.Table,
    (∀ d ∈ l.natives, ∀ position < d.arguments.length,
      table.type? d.name position = other.type? d.name position) →
        declarationFile table l = declarationFile other l

/-- A table changes the types of the parameters that it names, and nothing else. -/
theorem declarationLines_overrides (table : Override.Table) (l : Library) :
    OverrideSpec table l where
  asked d _ := askedParameters_eq_ok table d
  length := by
    rw [declarationLines_eq, declarationLines_eq]
    simp only [List.length_append, List.length_map]
  unchanged k h := declarationLines_unchanged h
  native j d h := by
    rw [declarationLines_native h, declarationLines_native h, nativeLine_eq_lineWithTypes,
      nativeLine_eq_lineWithTypes, overridden_empty]
    exact ⟨rfl, rfl⟩
  sameName d _ e _ hname position type htype hd he :=
    ⟨getElem?_overridden_of_type? hd htype, getElem?_overridden_of_type? he (hname ▸ htype)⟩
  congr other h := declarationFile_congr h

/-- A native and a function of one name, and an override past the last parameter. -/
example :
    let table : Override.Table :=
      .ofList [("f".toList, .ofList [(0, "string".toList), (7, "never".toList)])]
    let d : Prototype := ⟨"f".toList, [⟨"code".toList, "a".toList⟩], []⟩
    declarationLines table { natives := [d], functions := [d] } =
      [header, [], [], "declare function f(a: string): void".toList, [], [],
        "declare function f(a: () => void): void".toList] := by
  decide

end JassDecl.TypeScript
