import JassDecl.Product
import JassDecl.Proofs.JsonReading

/-! # Libraries as JSON texts

The text of a library is ASCII, denotes the JSON value of the library and no other value, and the
library can be read back from it. -/

namespace JassDecl

open Json

/-! ## Reading records back -/

theorem Json.Value.items?_map {α : Type} {read : Value → Option α} {write : α → Value}
    (h : ∀ a, read (write a) = some a) (xs : List α) :
    Value.items? read (.array (xs.map write)) = some xs := by
  rw [Value.items?]
  induction xs with
  | nil => rfl
  | cons x xs ih => simp [h, ih]

theorem Json.Value.optionalText?_ofText? (t : Option Text) :
    (ofText? t).optionalText? = some t := by
  cases t <;> rfl

theorem Argument.ofJson?_toJson (a : Argument) : ofJson? a.toJson = some a :=
  rfl

theorem TypeDecl.ofJson?_toJson (d : TypeDecl) : ofJson? d.toJson = some d :=
  rfl

theorem Prototype.ofJson?_toJson (d : Prototype) : ofJson? d.toJson = some d := by
  have harguments := Value.items?_map Argument.ofJson?_toJson d.arguments
  simp [ofJson?, toJson, Value.member?, Entries.get?, Value.text?, harguments]

theorem GlobalDecl.ofJson?_toJson (d : GlobalDecl) : ofJson? d.toJson = some d := by
  have hvalue := Value.optionalText?_ofText? d.value
  simp [ofJson?, toJson, Value.member?, Entries.get?, Value.text?, Value.bool?, hvalue]

namespace Library

theorem ofJson?_toJson (l : Library) : ofJson? l.toJson = some l := by
  have htypes := Value.items?_map TypeDecl.ofJson?_toJson l.types
  have hnatives := Value.items?_map Prototype.ofJson?_toJson l.natives
  have hglobals := Value.items?_map GlobalDecl.ofJson?_toJson l.globals
  have hfunctions := Value.items?_map Prototype.ofJson?_toJson l.functions
  simp [ofJson?, toJson, Value.member?, Entries.get?, htypes, hnatives, hglobals, hfunctions]

end Library

/-! ## Texts -/

theorem Json.textual_map {α : Type} {write : α → Value} (h : ∀ a, Textual (write a))
    (xs : List α) : Textual (.array (xs.map write)) := by
  refine .array ?_
  simpa using fun a _ => h a

theorem Argument.textual_toJson (a : Argument) : Textual a.toJson := by
  refine .object (by simp) ?_
  simp [Textual.string]

theorem TypeDecl.textual_toJson (d : TypeDecl) : Textual d.toJson := by
  refine .object (by simp) ?_
  simp [Textual.string]

theorem Prototype.textual_toJson (d : Prototype) : Textual d.toJson := by
  refine .object (by simp) ?_
  simp [Textual.string, textual_map Argument.textual_toJson]

theorem GlobalDecl.textual_toJson (d : GlobalDecl) : Textual d.toJson := by
  refine .object (by simp) ?_
  have hvalue : Textual (.ofText? d.value) := by
    cases d.value with
    | none => exact .null
    | some t => exact .string t
  simp [Textual.string, Textual.bool, hvalue]

theorem Library.textual_toJson (l : Library) : Textual l.toJson := by
  refine .object (by simp) ?_
  simp [textual_map TypeDecl.textual_toJson, textual_map Prototype.textual_toJson,
    textual_map GlobalDecl.textual_toJson]

namespace Product

/-- What the text of a library says, and to whom. -/
structure LibraryTextSpec (l : Library) (text : Text) : Prop where
  ascii : ∀ c ∈ text, c.toNat < 0x80
  /-- By the grammar the text has one value. -/
  denotes_iff : ∀ v, Denotes text v ↔ v = l.toJson
  read : Json.read text = .ok l.toJson
  /-- Every field is recovered, and every list in its order. -/
  library : Library.ofJson? l.toJson = some l
  injective : ∀ other, libraryText other = text → other = l

theorem denotes_libraryText (l : Library) : Denotes (libraryText l) l.toJson :=
  l.textual_toJson.denotes_render (.indented 2) (by simp [Spaces, isSpace])

theorem libraryText_spec (l : Library) : LibraryTextSpec l (libraryText l) where
  ascii := by
    intro c hc
    have hprinted : AllPrinted (libraryText l) :=
      allPrinted_append.mpr ⟨l.textual_toJson.allPrinted_write (.indented 2) 0, by simp [Printed]⟩
    exact (hprinted c hc).toNat_lt
  denotes_iff v := ⟨fun hv => hv.eq (denotes_libraryText l), fun hv => hv ▸ denotes_libraryText l⟩
  read := (denotes_libraryText l).read_eq
  library := l.ofJson?_toJson
  injective other htext := by
    have hjson : other.toJson = l.toJson :=
      (denotes_libraryText other).eq (htext ▸ denotes_libraryText l)
    have hlibrary := other.ofJson?_toJson
    rw [hjson, l.ofJson?_toJson] at hlibrary
    exact (Option.some.inj hlibrary).symm

end Product

end JassDecl
