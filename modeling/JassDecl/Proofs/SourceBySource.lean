import JassDecl.Proofs.FileLines
import JassDecl.Proofs.NormalText

/-! # Sources one by one

Each source is recognized on its own, so what it adds to a library, to the diagnostics and to a
declaration file does not depend on the sources around it.
-/

namespace JassDecl

/-! ## Joined libraries -/

namespace Library

@[simp] theorem types_append (a b : Library) : (a ++ b).types = a.types ++ b.types :=
  rfl

@[simp] theorem natives_append (a b : Library) : (a ++ b).natives = a.natives ++ b.natives :=
  rfl

@[simp] theorem globals_append (a b : Library) : (a ++ b).globals = a.globals ++ b.globals :=
  rfl

@[simp] theorem functions_append (a b : Library) :
    (a ++ b).functions = a.functions ++ b.functions :=
  rfl

theorem append_eq (a b : Library) : a ++ b = ⟨a.types ++ b.types, a.natives ++ b.natives,
    a.globals ++ b.globals, a.functions ++ b.functions⟩ :=
  rfl

theorem append_assoc (a b c : Library) : a ++ b ++ c = a ++ (b ++ c) := by
  rw [append_eq (a ++ b) c, append_eq a (b ++ c)]
  simp only [types_append, natives_append, globals_append, functions_append, List.append_assoc]

theorem WellFormed.append {a b : Library} (ha : a.WellFormed) (hb : b.WellFormed) :
    (a ++ b).WellFormed where
  types := List.forall_mem_append.mpr ⟨ha.types, hb.types⟩
  natives := List.forall_mem_append.mpr ⟨ha.natives, hb.natives⟩
  globals := List.forall_mem_append.mpr ⟨ha.globals, hb.globals⟩
  functions := List.forall_mem_append.mpr ⟨ha.functions, hb.functions⟩

end Library

/-! ## Joined recognitions -/

namespace Recognition

@[simp] theorem library_append (a b : Recognition) : (a ++ b).library = a.library ++ b.library :=
  rfl

@[simp] theorem diagnostics_append (a b : Recognition) :
    (a ++ b).diagnostics = a.diagnostics ++ b.diagnostics :=
  rfl

theorem empty_append (r : Recognition) : empty ++ r = r :=
  rfl

theorem append_eq (a b : Recognition) :
    a ++ b = ⟨a.library ++ b.library, a.diagnostics ++ b.diagnostics⟩ :=
  rfl

theorem append_assoc (a b c : Recognition) : a ++ b ++ c = a ++ (b ++ c) := by
  rw [append_eq (a ++ b) c, append_eq a (b ++ c)]
  simp only [library_append, diagnostics_append, Library.append_assoc, List.append_assoc]

theorem ofSources_append (xs ys : List Source) :
    ofSources (xs ++ ys) = ofSources xs ++ ofSources ys := by
  induction xs with
  | nil => exact (empty_append _).symm
  | cons x xs ih => rw [List.cons_append, ofSources_cons, ofSources_cons, ih, append_assoc]

/-- What is listed of joined recognitions one after the other is listed source by source. -/
theorem flatMap_ofSource {α : Type} {f : Recognition → List α} (hempty : f empty = [])
    (happend : ∀ a b, f (a ++ b) = f a ++ f b) (sources : List Source) :
    f (ofSources sources) = sources.flatMap fun source => f (ofSource source) := by
  induction sources with
  | nil => exact hempty
  | cons source sources ih => rw [ofSources_cons, happend, ih, List.flatMap_cons]

theorem wellFormed_library_ofSources (sources : List Source) :
    (ofSources sources).library.WellFormed := by
  induction sources with
  | nil => constructor <;> exact List.forall_mem_nil _
  | cons source sources ih =>
      rw [ofSources_cons, library_append]
      exact (wellFormed_library source).append ih

theorem path_of_mem_diagnostics {source : Source} :
    ∀ d ∈ (ofSource source).diagnostics, d.path = source.path := by
  intro d hd
  rw [ofSource_eq] at hd
  cases hblock : finalBlock source.text with
  | outside =>
      rw [hblock] at hd
      simp [leftover] at hd
  | inside openedAt =>
      rw [hblock] at hd
      obtain rfl : d = .unclosed source.path openedAt := by simpa [leftover] using hd
      rfl

end Recognition

/-! ## Groups of lines -/

namespace TypeScript

/-- The lines of the declarations of a library. -/
def Groups.ofLibrary (table : Override.Table) (l : Library) : Groups where
  types := l.types.map typeLine
  natives := l.natives.map (nativeLine table)
  globals := l.globals.map globalLine
  functions := l.functions.map functionLine

/-- The groups of lines that stand in a file after its header, if the empty lines part four. -/
def Groups.ofText? (file : Text) : Option Groups :=
  match List.splitOn [] (Text.lines file).dropLast with
  | [_, types, natives, globals, functions] => some ⟨types, natives, globals, functions⟩
  | _ => none

/-- The lines of some groups, group by group. -/
def Groups.join (parts : List Groups) : Groups where
  types := parts.flatMap Groups.types
  natives := parts.flatMap Groups.natives
  globals := parts.flatMap Groups.globals
  functions := parts.flatMap Groups.functions

theorem FileSpec.ofText?_eq {l : Library} {file : Text} {groups : Groups}
    (h : FileSpec l file groups) : Groups.ofText? file = some groups := by
  have hne := h.nonempty
  rw [← List.singleton_append] at hne
  simp only [List.forall_mem_append] at hne
  obtain ⟨⟨⟨⟨hheader, htypes⟩, hnatives⟩, hglobals⟩, hfunctions⟩ := hne
  have hfree : ∀ {ls : List Text}, (∀ line ∈ ls, line ≠ []) → [] ∉ ls := fun hls hm =>
    hls [] hm rfl
  have hlines : groups.lines = [header] ++ [] :: (groups.types ++ [] :: (groups.natives ++
      [] :: (groups.globals ++ [] :: groups.functions))) := by
    simp [Groups.lines]
  rw [Groups.ofText?, h.lines, List.dropLast_concat, hlines]
  simp only [List.splitOn_append_cons_self]
  rw [List.splitOn_eq_singleton (hfree hheader), List.splitOn_eq_singleton (hfree htypes),
    List.splitOn_eq_singleton (hfree hnatives), List.splitOn_eq_singleton (hfree hglobals),
    List.splitOn_eq_singleton (hfree hfunctions)]
  rfl

theorem ofText?_declarationFile {table : Override.Table} (htable : table.OneLine) {l : Library}
    (h : l.WellFormed) :
    Groups.ofText? (declarationFile table l) = some (Groups.ofLibrary table l) :=
  (fileSpec_declarationFile htable h).ofText?_eq

/-- The lines of a joined library are those of its parts, group by group. -/
theorem Groups.ofLibrary_ofSources (table : Override.Table) (sources : List Source) :
    Groups.ofLibrary table (Recognition.ofSources sources).library =
      .join (sources.map fun source => ofLibrary table (Recognition.ofSource source).library) := by
  simp only [Groups.join, List.flatMap_map]
  simp only [Groups.ofLibrary]
  rw [Recognition.flatMap_ofSource (f := fun r => r.library.types.map typeLine) rfl
      (fun _ _ => List.map_append),
    Recognition.flatMap_ofSource (f := fun r => r.library.natives.map (nativeLine table)) rfl
      (fun _ _ => List.map_append),
    Recognition.flatMap_ofSource (f := fun r => r.library.globals.map globalLine) rfl
      (fun _ _ => List.map_append),
    Recognition.flatMap_ofSource (f := fun r => r.library.functions.map functionLine) rfl
      (fun _ _ => List.map_append)]

end TypeScript

namespace Recognition

open TypeScript (Groups)

/-- What several sources come to, source by source. -/
structure SourceBySource (table : Override.Table) (sources : List Source) : Prop where
  types : (ofSources sources).library.types =
    sources.flatMap fun source => (ofSource source).library.types
  natives : (ofSources sources).library.natives =
    sources.flatMap fun source => (ofSource source).library.natives
  globals : (ofSources sources).library.globals =
    sources.flatMap fun source => (ofSource source).library.globals
  functions : (ofSources sources).library.functions =
    sources.flatMap fun source => (ofSource source).library.functions
  diagnostics : (ofSources sources).diagnostics =
    sources.flatMap fun source => (ofSource source).diagnostics
  paths : ∀ source ∈ sources, ∀ d ∈ (ofSource source).diagnostics, d.path = source.path
  /-- The groups of the common file are those of the files of the texts, joined. -/
  groups : ∃ parts,
    List.Forall₂ (fun source part =>
      Groups.ofText? (TypeScript.ofSource table source.text) = some part) sources parts ∧
    Groups.ofText? (TypeScript.declarationFile table (ofSources sources).library) =
      some (.join parts)

theorem sourceBySource {table : Override.Table} (htable : table.OneLine) (sources : List Source) :
    SourceBySource table sources where
  types := flatMap_ofSource (f := fun r => r.library.types) rfl (fun _ _ => rfl) sources
  natives := flatMap_ofSource (f := fun r => r.library.natives) rfl (fun _ _ => rfl) sources
  globals := flatMap_ofSource (f := fun r => r.library.globals) rfl (fun _ _ => rfl) sources
  functions := flatMap_ofSource (f := fun r => r.library.functions) rfl (fun _ _ => rfl) sources
  diagnostics := flatMap_ofSource (f := Recognition.diagnostics) rfl (fun _ _ => rfl) sources
  paths := fun _ _ => path_of_mem_diagnostics
  groups := by
    refine ⟨sources.map fun source => .ofLibrary table (ofSource source).library, ?_, ?_⟩
    · rw [List.forall₂_map_right_iff]
      exact List.forall₂_same.mpr fun source _ =>
        TypeScript.ofText?_declarationFile htable (wellFormed_library _)
    · rw [TypeScript.ofText?_declarationFile htable (wellFormed_library_ofSources sources),
        TypeScript.Groups.ofLibrary_ofSources]

/-- Sources in a row come to what they come to one by one. Whatever stands in front of a source and
behind it, it adds what is recognized in it alone. -/
theorem ofSources_append_cons {table : Override.Table} (htable : table.OneLine)
    (xs ys : List Source) :
    SourceBySource table xs ∧ ofSources (xs ++ ys) = ofSources xs ++ ofSources ys ∧
      ∀ source, ofSources (xs ++ source :: ys) =
        ofSources xs ++ (ofSource source ++ ofSources ys) := by
  refine ⟨sourceBySource htable xs, ofSources_append xs ys, fun source => ?_⟩
  rw [ofSources_append, ofSources_cons]

/-- A block that one source leaves open swallows no line of the next one. -/
theorem ofSources_append_cons_open_block :
    let opened : Source := ⟨"a".toList, "type t extends u\nglobals\nreal x".toList⟩
    let next : Source := ⟨"b".toList, "native f takes nothing".toList⟩
    Override.Table.default.OneLine ∧
    SourceBySource Override.Table.default [opened] ∧
    ofSources [opened, next] = ofSource opened ++ (ofSource next ++ ofSources []) ∧
    (ofSources [opened, next]).diagnostics = [.unclosed "a".toList 2] ∧
    (ofSources [opened, next]).library.natives = [⟨"f".toList, [], []⟩] := by
  intro opened next
  have htable : Override.Table.default.OneLine := by decide
  obtain ⟨hopened, -, hcons⟩ := ofSources_append_cons htable [opened] []
  have hrow := hcons next
  refine ⟨htable, hopened, hrow, ?_, ?_⟩
  · exact (congrArg Recognition.diagnostics hrow).trans (by decide)
  · exact (congrArg (Library.natives ∘ Recognition.library) hrow).trans (by decide)

end Recognition

end JassDecl
