import JassDecl.Proofs.Rereading
import JassDecl.Proofs.Unambiguity

/-! # Lines of declaration files

The file of a recognized library has one line for each declaration. No field of a declaration holds
a line feed, whatever the source is, so no line of the file is broken.
-/

namespace JassDecl

/-- Whether no type of a table holds a line feed. -/
def Override.Table.OneLine (table : Override.Table) : Prop :=
  ∀ entry ∈ table.entries, ∀ new ∈ entry.2.entries, '\n' ∉ new.2

instance (table : Override.Table) : Decidable table.OneLine :=
  inferInstanceAs (Decidable (∀ entry ∈ table.entries, _))

theorem Override.Table.OneLine.newline_notMem {table : Override.Table} (h : table.OneLine)
    {native type : Text} {position : Nat} (htype : table.type? native position = some type) :
    '\n' ∉ type := by
  obtain ⟨positions, hnative, hposition⟩ := Option.bind_eq_some_iff.mp htype
  exact h _ (Entries.mem_of_get? hnative) _ (Entries.mem_of_get? hposition)

namespace TypeScript

/-! ## Line feeds -/

theorem newline_notMem_valueType {t : Text} (h : '\n' ∉ t) : '\n' ∉ valueType t := by
  rw [valueType]
  split_ifs
  · decide
  · decide
  · decide
  · exact h

theorem newline_notMem_argumentType {t : Text} (h : '\n' ∉ t) : '\n' ∉ argumentType t := by
  rw [argumentType]
  split
  · decide
  · exact newline_notMem_valueType h

theorem newline_notMem_arrayOf {t : Text} (h : '\n' ∉ t) : '\n' ∉ arrayOf t := by
  rw [arrayOf]
  split <;> simp [h]

theorem newline_notMem_typeLine {d : TypeDecl} (h : d.WellFormed) : '\n' ∉ typeLine d := by
  rw [← List.append_nil (typeLine d), typeLine_append]
  simp [h.name.fits.noNewline, h.parent.fits.noNewline]

theorem newline_notMem_globalLine {d : GlobalDecl} (h : d.WellFormed) : '\n' ∉ globalLine d := by
  have htype := newline_notMem_valueType h.type.fits.noNewline
  have harray := newline_notMem_arrayOf htype
  rw [← List.append_nil (globalLine d), globalLine_append]
  cases d.constant <;> cases d.array <;> simp [h.name.fits.noNewline, htype, harray]

theorem newline_notMem_signature {typeOf : Nat → Argument → Text} {d : Prototype}
    (h : d.WellFormed)
    (htypes : ∀ position, ∀ a ∈ d.arguments, '\n' ∉ typeOf position a) :
    '\n' ∉ signature d.name (parameters typeOf d.arguments) d.returnType := by
  have hparameters : '\n' ∉ List.intercalate ", ".toList (parameters typeOf d.arguments) := by
    intro hm
    rcases Text.mem_of_mem_intercalate hm with hm | ⟨p, hp, hm⟩
    · exact absurd hm (by decide)
    · obtain ⟨position, hposition, rfl⟩ := List.mem_mapIdx.mp hp
      have ha : d.arguments[position] ∈ d.arguments := List.getElem_mem hposition
      have hname := (h.arguments _ ha).name.fits.noNewline
      simp [parameter, hname, htypes position _ ha] at hm
  have hreturn := newline_notMem_valueType h.returnType.fits.noNewline
  have hname := h.name.fits.noNewline
  rw [← List.append_nil (signature _ _ _), signature_append]
  simp only [List.mem_append, not_or]
  exact ⟨by decide, hname, by decide, hparameters, by decide, hreturn, by decide⟩

theorem newline_notMem_functionLine {d : Prototype} (h : d.WellFormed) :
    '\n' ∉ functionLine d := by
  rw [functionLine_eq]
  exact newline_notMem_signature h fun _ a ha =>
    newline_notMem_argumentType (h.arguments a ha).type.fits.noNewline

theorem newline_notMem_nativeLine {table : Override.Table} (htable : table.OneLine) {d : Prototype}
    (h : d.WellFormed) : '\n' ∉ nativeLine table d := by
  rw [nativeLine_eq]
  refine newline_notMem_signature h fun position a ha => ?_
  rw [shownType]
  cases hentry : table.type? d.name position with
  | some type => exact htable.newline_notMem hentry
  | none => exact newline_notMem_argumentType (h.arguments a ha).type.fits.noNewline

/-! ## Starts of lines -/

/-- The start of the line of a type. -/
def typeHead (d : TypeDecl) : Text :=
  "declare abstract class ".toList ++ d.name ++ " extends ".toList ++ d.parent ++ " \x7b".toList

/-- The start of the line of a native or a function. -/
def routineHead (d : Prototype) : Text :=
  "declare function ".toList ++ d.name ++ ['(']

/-- The start of the line of a global. -/
def globalHead (d : GlobalDecl) : Text :=
  "declare ".toList ++ (if d.constant then "const ".toList else "var ".toList) ++ d.name ++
    ": ".toList

theorem typeHead_isPrefixOf (d : TypeDecl) : typeHead d <+: typeLine d := by
  have hcut : " \x7b __".toList = " \x7b".toList ++ " __".toList := by decide
  rw [← List.append_nil (typeLine d), typeLine_append, hcut]
  change "declare abstract class ".toList ++ d.name ++ " extends ".toList ++ d.parent ++
    " \x7b".toList <+: _
  simp only [List.append_assoc, List.prefix_append_right_inj, List.prefix_append]

theorem routineHead_isPrefixOf (d : Prototype) (params : List Text) :
    routineHead d <+: signature d.name params d.returnType := by
  rw [← List.append_nil (signature _ _ _), signature_append, ← List.append_assoc,
    ← List.append_assoc]
  exact List.prefix_append _ _

theorem globalHead_isPrefixOf (d : GlobalDecl) : globalHead d <+: globalLine d := by
  rw [← List.append_nil (globalLine d), globalLine_append, ← List.append_assoc,
    ← List.append_assoc, ← List.append_assoc]
  exact List.prefix_append _ _

/-! ## Files -/

theorem newline_notMem_declarationLines {table : Override.Table} (htable : table.OneLine)
    {l : Library} (h : l.WellFormed) : ∀ line ∈ declarationLines table l, '\n' ∉ line := by
  have hhead : ∀ line ∈ [header, []], '\n' ∉ line := by decide
  have hempty : ∀ line ∈ [([] : Text)], '\n' ∉ line := by decide
  have htypes : ∀ line ∈ l.types.map typeLine, '\n' ∉ line :=
    List.forall_mem_map.mpr fun d hd => newline_notMem_typeLine (h.types d hd)
  have hnatives : ∀ line ∈ l.natives.map (nativeLine table), '\n' ∉ line :=
    List.forall_mem_map.mpr fun d hd => newline_notMem_nativeLine htable (h.natives d hd)
  have hglobals : ∀ line ∈ l.globals.map globalLine, '\n' ∉ line :=
    List.forall_mem_map.mpr fun d hd => newline_notMem_globalLine (h.globals d hd)
  have hfunctions : ∀ line ∈ l.functions.map functionLine, '\n' ∉ line :=
    List.forall_mem_map.mpr fun d hd => newline_notMem_functionLine (h.functions d hd)
  simp only [declarationLines, List.forall_mem_append]
  exact ⟨⟨⟨⟨⟨⟨⟨hhead, htypes⟩, hempty⟩, hnatives⟩, hempty⟩, hglobals⟩, hempty⟩, hfunctions⟩

theorem lines_declarationFile {table : Override.Table} (htable : table.OneLine)
    {l : Library} (h : l.WellFormed) :
    Text.lines (declarationFile table l) = declarationLines table l ++ [[]] :=
  Text.lines_unlines (newline_notMem_declarationLines htable h)

theorem length_declarationLines (table : Override.Table) (l : Library) :
    (declarationLines table l).length =
      5 + l.types.length + l.natives.length + l.globals.length + l.functions.length := by
  simp only [declarationLines, List.length_append, List.length_map, List.length_cons,
    List.length_nil]
  omega

theorem count_newline_declarationFile {table : Override.Table} (htable : table.OneLine)
    {l : Library} (h : l.WellFormed) : (declarationFile table l).count '\n' =
      5 + l.types.length + l.natives.length + l.globals.length + l.functions.length := by
  have hlines := Text.length_lines (declarationFile table l)
  rw [lines_declarationFile htable h, List.length_append, length_declarationLines] at hlines
  exact (Nat.succ.inj hlines).symm

/-- The file of a library without declarations. -/
def skeleton : Text :=
  Text.unlines [header, [], [], [], []]

/-- Any declaration adds a line to the skeleton. -/
theorem declarationFile_eq_skeleton_iff {table : Override.Table} (htable : table.OneLine)
    {l : Library} (h : l.WellFormed) :
    declarationFile table l = skeleton ↔ l.isEmpty = true := by
  have hempty : l.isEmpty = true ↔
      l.types = [] ∧ l.natives = [] ∧ l.globals = [] ∧ l.functions = [] := by
    simp [Library.isEmpty, and_assoc]
  rw [hempty]
  constructor
  · intro hfile
    have hcount := count_newline_declarationFile htable h
    have hskeleton : skeleton.count '\n' = 5 := by decide
    rw [hfile, hskeleton] at hcount
    simp only [← List.length_eq_zero_iff]
    omega
  · rintro ⟨htypes, hnatives, hglobals, hfunctions⟩
    rw [declarationFile, declarationLines, htypes, hnatives, hglobals, hfunctions]
    rfl

/-- The lines of the groups of a file. -/
structure Groups where
  types : List Text
  natives : List Text
  globals : List Text
  functions : List Text

/-- The lines of a file with these groups. -/
def Groups.lines (groups : Groups) : List Text :=
  [header, []] ++ groups.types ++ [[]] ++ groups.natives ++ [[]] ++ groups.globals ++ [[]] ++
    groups.functions

/-- What the lines of the file of a library are, each ended by a line feed. -/
structure FileSpec (l : Library) (file : Text) (groups : Groups) : Prop where
  /-- Behind the last line feed comes nothing. -/
  lines : Text.lines file = groups.lines ++ [[]]
  length : groups.lines.length =
    5 + l.types.length + l.natives.length + l.globals.length + l.functions.length
  types : List.Forall₂ (fun d line => typeHead d <+: line) l.types groups.types
  natives : List.Forall₂ (fun d line => routineHead d <+: line) l.natives groups.natives
  globals : List.Forall₂ (fun d line => globalHead d <+: line) l.globals groups.globals
  functions : List.Forall₂ (fun d line => routineHead d <+: line) l.functions groups.functions
  /-- Only the lines between groups are empty. -/
  nonempty : ∀ line ∈ header :: groups.types ++ groups.natives ++ groups.globals ++
    groups.functions, line ≠ []
  bare : file = skeleton ↔ l.isEmpty = true

/-- Every line that `line` writes for a declaration begins with the head of the declaration. -/
theorem forall₂_map_isPrefixOf {α : Type} {head line : α → Text} (h : ∀ x, head x <+: line x)
    (xs : List α) : List.Forall₂ (fun x t => head x <+: t) xs (xs.map line) :=
  List.forall₂_map_right_iff.mpr (List.forall₂_same.mpr fun x _ => h x)

theorem ne_nil_of_mem_map {α : Type} {P : α → Prop} {R : α → α → Prop} {line : α → Text}
    (h : Readable P R line) (xs : List α) : ∀ t ∈ xs.map line, t ≠ [] := by
  simp only [List.forall_mem_map]
  intro x _ hx
  have hhead := h.head x
  rw [hx] at hhead
  exact absurd hhead (by decide)

theorem fileSpec_declarationFile {table : Override.Table} (htable : table.OneLine) {l : Library}
    (h : l.WellFormed) : FileSpec l (declarationFile table l)
      ⟨l.types.map typeLine, l.natives.map (nativeLine table), l.globals.map globalLine,
        l.functions.map functionLine⟩ where
  lines := lines_declarationFile htable h
  length := length_declarationLines table l
  types := forall₂_map_isPrefixOf typeHead_isPrefixOf _
  natives := forall₂_map_isPrefixOf (fun d => routineHead_isPrefixOf d _) _
  globals := forall₂_map_isPrefixOf globalHead_isPrefixOf _
  functions := forall₂_map_isPrefixOf (fun d => routineHead_isPrefixOf d _) _
  nonempty := by
    have hheader : ∀ line ∈ [header], line ≠ [] := by decide
    rw [← List.singleton_append]
    simp only [List.forall_mem_append]
    exact ⟨⟨⟨⟨hheader, ne_nil_of_mem_map readable_typeLine _⟩,
      ne_nil_of_mem_map (readable_nativeLine table) _⟩, ne_nil_of_mem_map readable_globalLine _⟩,
      ne_nil_of_mem_map readable_functionLine _⟩
  bare := declarationFile_eq_skeleton_iff htable h

/-- Whatever the source, its file has one line for each declaration that is recognized in it, and no
line of it is broken. -/
theorem fileSpec_ofSource {table : Override.Table} (htable : table.OneLine) (text : Text) :
    ∃ groups, FileSpec (Recognition.ofSource ⟨[], text⟩).library (ofSource table text) groups :=
  ⟨_, fileSpec_declarationFile htable (Recognition.wellFormed_library ⟨[], text⟩)⟩

/-- A native that takes only a comma, and a global with the name `array` in a block that is never
closed, have a line each. -/
theorem fileSpec_ofSource_degenerate :
    let text := "native Filter takes ,\nglobals\nconstant real array".toList
    Override.Table.default.OneLine ∧ ∃ groups,
      FileSpec (Recognition.ofSource ⟨[], text⟩).library (ofSource Override.Table.default text)
        groups ∧
      groups.natives.length = 1 ∧ groups.globals.length = 1 := by
  intro text
  have htable : Override.Table.default.OneLine := by decide
  obtain ⟨groups, hspec⟩ := fileSpec_ofSource htable text
  refine ⟨htable, groups, hspec, ?_, ?_⟩
  · rw [← hspec.natives.length_eq]
    decide
  · rw [← hspec.globals.length_eq]
    decide

end TypeScript

end JassDecl
