import JassDecl.Proofs.WholeWords
import JassDecl.TypeScript.Declarations
import Mathlib.Data.List.Forall2

/-! # Declaration files are unambiguous

What a declaration file tells of a library can be read from its text. Each part is read from the
front of a text that goes on behind it in any way, so nothing is asked of the types of an override
table: they are the same on both sides.
-/

namespace JassDecl

open Token (Breaks IsWord)

/-! ## Declarations of words -/

/-- A prototype whose names and types are words. The return type may be empty. -/
structure Prototype.InWords (d : Prototype) : Prop where
  name : IsWord d.name
  arguments : ∀ a ∈ d.arguments, IsWord a.type ∧ IsWord a.name
  returnType : d.returnType = [] ∨ IsWord d.returnType

instance (d : Prototype) : Decidable d.InWords :=
  decidable_of_iff (IsWord d.name ∧ (∀ a ∈ d.arguments, IsWord a.type ∧ IsWord a.name) ∧
      (d.returnType = [] ∨ IsWord d.returnType))
    ⟨fun ⟨hname, hargs, hreturn⟩ => ⟨hname, hargs, hreturn⟩,
      fun ⟨hname, hargs, hreturn⟩ => ⟨hname, hargs, hreturn⟩⟩

/-- A library whose names and types are words. -/
structure Library.InWords (l : Library) : Prop where
  types : ∀ d ∈ l.types, IsWord d.name ∧ IsWord d.parent
  natives : ∀ d ∈ l.natives, d.InWords
  globals : ∀ d ∈ l.globals, IsWord d.name ∧ IsWord d.type
  functions : ∀ d ∈ l.functions, d.InWords

namespace TypeScript

/-! ## Types at the front of a text -/

/-- The ways in which the types of parameters, returns and globals are written. -/
inductive IsTypeText : Text → Prop where
  | word {w : Text} (hw : IsWord w) : IsTypeText w
  | callback : IsTypeText "() => void".toList
  | nullable : IsTypeText "boolexpr | null".toList

theorem valueType_cases {t : Text} (h : t = [] ∨ IsWord t) :
    IsWord (valueType t) ∨ valueType t = "() => void".toList := by
  rw [valueType]
  split_ifs with hnumber hvoid hcode
  · exact Or.inl (by decide)
  · exact Or.inl (by decide)
  · exact Or.inr rfl
  · rw [Bool.not_eq_true, Bool.or_eq_false_iff, decide_eq_false_iff_not,
      decide_eq_false_iff_not] at hvoid
    exact Or.inl (h.resolve_left hvoid.2)

theorem isTypeText_valueType {t : Text} (h : t = [] ∨ IsWord t) : IsTypeText (valueType t) := by
  rcases valueType_cases h with hw | hcallback
  · exact .word hw
  · rw [hcallback]
    exact .callback

theorem isTypeText_argumentType {t : Text} (h : IsWord t) : IsTypeText (argumentType t) := by
  rw [argumentType]
  split
  · exact .nullable
  · exact isTypeText_valueType (Or.inr h)

/-- Whether a text does not go on with the type in front of it. -/
def EndsType (t : Text) : Prop :=
  Breaks t ∧ t.head? ≠ some ' '

instance (t : Text) : Decidable (EndsType t) :=
  inferInstanceAs (Decidable (_ ∧ _))

theorem EndsType.append {s : Text} (hs : EndsType s) (hne : s ≠ []) (t : Text) :
    EndsType (s ++ t) := by
  refine ⟨hs.1.append hne t, ?_⟩
  obtain ⟨c, s, rfl⟩ := List.exists_cons_of_ne_nil hne
  exact hs.2

theorem word_append_ne_callback {w : Text} (hw : IsWord w) (s t : Text) :
    w ++ s ≠ "() => void".toList ++ t :=
  Token.word_append_ne hw (.append (by decide) (by decide) t) s

theorem word_append_ne_nullable {w s : Text} (hw : IsWord w) (hs : EndsType s) (t : Text) :
    w ++ s ≠ "boolexpr | null".toList ++ t := by
  intro h
  have hcut : "boolexpr | null".toList ++ t = "boolexpr".toList ++ (" | null".toList ++ t) := rfl
  rw [hcut] at h
  obtain ⟨-, hrest⟩ :=
    Token.word_append_inj hw (by decide) hs.1 (.append (by decide) (by decide) t) h
  exact hs.2 (by rw [hrest]; rfl)

theorem typeText_append_inj {x y s t : Text} (hx : IsTypeText x) (hy : IsTypeText y)
    (hs : EndsType s) (ht : EndsType t) (h : x ++ s = y ++ t) : x = y ∧ s = t := by
  cases hx with
  | word hx =>
      cases hy with
      | word hy => exact Token.word_append_inj hx hy hs.1 ht.1 h
      | callback => exact absurd h (word_append_ne_callback hx s t)
      | nullable => exact absurd h (word_append_ne_nullable hx hs t)
  | callback =>
      cases hy with
      | word hy => exact absurd h.symm (word_append_ne_callback hy t s)
      | callback => exact ⟨rfl, List.append_cancel_left h⟩
      | nullable => exact absurd h (by simp)
  | nullable =>
      cases hy with
      | word hy => exact absurd h.symm (word_append_ne_nullable hy ht s)
      | callback => exact absurd h (by simp)
      | nullable => exact ⟨rfl, List.append_cancel_left h⟩

/-! ## Types of arrays -/

theorem arrayOf_of_isWord {w : Text} (hw : IsWord w) : arrayOf w = w ++ "[]".toList := by
  have hpart : ∀ part : Text, (∃ c ∈ part, Token.isWordChar c = false) →
      Text.hasPart part w = false := by
    rintro part ⟨c, hc, hchar⟩
    rw [Bool.eq_false_iff, Ne, Text.hasPart_iff]
    intro hp
    rw [hw.2 c (hp.subset hc)] at hchar
    exact absurd hchar (by decide)
  rw [arrayOf, hpart _ ⟨'=', by decide, by decide⟩, hpart _ ⟨'|', by decide, by decide⟩]
  rfl

/-- What stands behind a word that is the type of a global. -/
def brackets (array : Bool) : Text :=
  if array then "[]".toList else []

theorem ite_arrayOf_of_isWord {w : Text} (hw : IsWord w) (array : Bool) :
    (if array then arrayOf w else w) = w ++ brackets array := by
  cases array with
  | false => exact (List.append_nil w).symm
  | true => exact arrayOf_of_isWord hw

theorem breaks_brackets_append (array : Bool) (s : Text) :
    Breaks (brackets array ++ '\n' :: s) := by
  rw [← List.singleton_append, ← List.append_assoc]
  cases array <;> exact .append (by decide) (by decide) s

theorem brackets_append_inj {a b : Bool} {s t : Text}
    (h : brackets a ++ '\n' :: s = brackets b ++ '\n' :: t) : a = b ∧ s = t := by
  cases a <;> cases b <;> simp_all [brackets]

theorem word_append_ne_ite_callback {w : Text} (hw : IsWord w) (array : Bool) (s t : Text) :
    w ++ s ≠ (if array then arrayOf "() => void".toList else "() => void".toList) ++ t := by
  have hbreaks : Breaks
      ((if array then arrayOf "() => void".toList else "() => void".toList) ++ t) := by
    cases array <;> exact .append (by decide) (by decide) t
  exact Token.word_append_ne hw hbreaks s

theorem ite_callback_append_inj {a b : Bool} {s t : Text}
    (h : (if a then arrayOf "() => void".toList else "() => void".toList) ++ s =
      (if b then arrayOf "() => void".toList else "() => void".toList) ++ t) : a = b ∧ s = t := by
  have harray : arrayOf "() => void".toList = "(() => void)[]".toList := by decide
  rw [harray] at h
  cases a <;> cases b <;> simp_all

/-- The type of a global at the end of its line. -/
theorem globalType_append_inj {a b : Bool} {x y s t : Text}
    (hx : IsWord x ∨ x = "() => void".toList) (hy : IsWord y ∨ y = "() => void".toList)
    (h : (if a then arrayOf x else x) ++ '\n' :: s = (if b then arrayOf y else y) ++ '\n' :: t) :
    a = b ∧ x = y ∧ s = t := by
  rcases hx with hx | rfl
  · rw [ite_arrayOf_of_isWord hx, List.append_assoc] at h
    rcases hy with hy | rfl
    · rw [ite_arrayOf_of_isWord hy, List.append_assoc] at h
      obtain ⟨hxy, h⟩ := Token.word_append_inj hx hy (breaks_brackets_append a s)
        (breaks_brackets_append b t) h
      obtain ⟨hab, hst⟩ := brackets_append_inj h
      exact ⟨hab, hxy, hst⟩
    · exact absurd h (word_append_ne_ite_callback hx b _ _)
  · rcases hy with hy | rfl
    · rw [ite_arrayOf_of_isWord hy, List.append_assoc] at h
      exact absurd h.symm (word_append_ne_ite_callback hy a _ _)
    · obtain ⟨hab, hst⟩ := ite_callback_append_inj h
      exact ⟨hab, rfl, (List.cons.inj hst).2⟩

/-! ## Parameters -/

/-- The parameters of a list, each with the type that `typeOf` gives it at its position. -/
def parameters (typeOf : Nat → Argument → Text) (args : List Argument) : List Text :=
  args.mapIdx fun position a => parameter a.name (typeOf position a)

theorem parameters_cons (typeOf : Nat → Argument → Text) (a : Argument) (args : List Argument) :
    parameters typeOf (a :: args) =
      parameter a.name (typeOf 0 a) :: parameters (fun position => typeOf (position + 1)) args :=
  List.mapIdx_cons

theorem parameters_eq_zipWith (typeOf : Nat → Argument → Text) (args : List Argument) :
    parameters typeOf args =
      List.zipWith parameter (args.map Argument.name) (args.mapIdx typeOf) := by
  induction args generalizing typeOf with
  | nil => rfl
  | cons a args ih =>
      rw [parameters_cons, ih, List.map_cons, List.mapIdx_cons, List.zipWith_cons_cons]

/-- A way of giving types to parameters whose types can be read at the front of a text. -/
def ReadableTypes (typeOf : Nat → Argument → Text) : Prop :=
  ∀ position a b, IsWord a.type → IsWord b.type → ∀ s t, EndsType s → EndsType t →
    typeOf position a ++ s = typeOf position b ++ t →
      typeOf position a = typeOf position b ∧ s = t

theorem endsType_parameters (typeOf : Nat → Argument → Text) (args : List Argument) (s : Text) :
    EndsType ((parameters typeOf args).flatMap (", ".toList ++ ·) ++ ("): ".toList ++ s)) := by
  cases args with
  | nil => exact .append (by decide) (by decide) s
  | cons a args =>
      rw [parameters_cons, List.flatMap_cons, List.append_assoc, List.append_assoc]
      exact .append (by decide) (by decide) _

/-- Parameters up to the bracket behind them, from the first on or behind another one. -/
theorem parameters_append_inj {as bs : List Argument}
    (has : ∀ a ∈ as, IsWord a.type ∧ IsWord a.name) (hbs : ∀ b ∈ bs, IsWord b.type ∧ IsWord b.name)
    {typeOf : Nat → Argument → Text} (htypes : ReadableTypes typeOf) {s t : Text}
    (h : (parameters typeOf as).flatMap (", ".toList ++ ·) ++ ("): ".toList ++ s) =
      (parameters typeOf bs).flatMap (", ".toList ++ ·) ++ ("): ".toList ++ t)) :
    as.map Argument.name = bs.map Argument.name ∧ as.mapIdx typeOf = bs.mapIdx typeOf ∧ s = t := by
  induction as generalizing bs typeOf with
  | nil =>
      cases bs with
      | nil => exact ⟨rfl, rfl, List.append_cancel_left h⟩
      | cons b bs => exact absurd (congrArg List.head? h) (by simp [parameters])
  | cons a as ih =>
      cases bs with
      | nil => exact absurd (congrArg List.head? h) (by simp [parameters])
      | cons b bs =>
          obtain ⟨⟨ha, hname⟩, has⟩ := List.forall_mem_cons.mp has
          obtain ⟨⟨hb, hname'⟩, hbs⟩ := List.forall_mem_cons.mp hbs
          simp only [parameters_cons, List.flatMap_cons, parameter, List.append_assoc] at h
          have hcolon : ∀ u, Breaks (": ".toList ++ u) := .append (by decide) (by decide)
          obtain ⟨hnames, h⟩ := Token.word_append_inj hname hname' (hcolon _) (hcolon _)
            (List.append_cancel_left h)
          obtain ⟨htype, h⟩ := htypes 0 a b ha hb _ _ (endsType_parameters _ as s)
            (endsType_parameters _ bs t) (List.append_cancel_left h)
          obtain ⟨hrest, hrest', hst⟩ := ih has hbs (fun position => htypes (position + 1)) h
          refine ⟨?_, ?_, hst⟩
          · rw [List.map_cons, List.map_cons, hnames, hrest]
          · rw [List.mapIdx_cons, List.mapIdx_cons, htype, hrest']

theorem not_breaks_parameters {a : Argument} (ha : IsWord a.name) (args : List Argument)
    (typeOf : Nat → Argument → Text) (s : Text) :
    ¬ Breaks (List.intercalate ", ".toList (parameters typeOf (a :: args)) ++ s) := by
  rw [parameters_cons, Text.intercalate_cons, parameter, List.append_assoc, List.append_assoc,
    List.append_assoc]
  exact Token.not_breaks_of_isWord ha _

/-- The parameters of a signature up to the bracket behind them. -/
theorem intercalate_parameters_append_inj {as bs : List Argument}
    (has : ∀ a ∈ as, IsWord a.type ∧ IsWord a.name) (hbs : ∀ b ∈ bs, IsWord b.type ∧ IsWord b.name)
    {typeOf : Nat → Argument → Text} (htypes : ReadableTypes typeOf) {s t : Text}
    (h : List.intercalate ", ".toList (parameters typeOf as) ++ ("): ".toList ++ s) =
      List.intercalate ", ".toList (parameters typeOf bs) ++ ("): ".toList ++ t)) :
    as.map Argument.name = bs.map Argument.name ∧ as.mapIdx typeOf = bs.mapIdx typeOf ∧ s = t := by
  have hbracket : ∀ u, Breaks ("): ".toList ++ u) := .append (by decide) (by decide)
  cases as with
  | nil =>
      cases bs with
      | nil => exact ⟨rfl, rfl, List.append_cancel_left h⟩
      | cons b bs =>
          exact absurd (h ▸ hbracket s) (not_breaks_parameters (hbs b (by simp)).2 bs typeOf _)
  | cons a as =>
      cases bs with
      | nil =>
          exact absurd (h.symm ▸ hbracket t) (not_breaks_parameters (has a (by simp)).2 as typeOf _)
      | cons b bs =>
          refine parameters_append_inj has hbs htypes ?_
          rw [parameters_cons, parameters_cons, Text.intercalate_cons, Text.intercalate_cons] at h
          simp only [parameters_cons, List.flatMap_cons, List.append_assoc] at h ⊢
          rw [h]

/-! ## Signatures -/

/-- What two signatures have in common when `typeOf` gives types to the parameters of a name. -/
structure SameSignature (typeOf : Text → Nat → Argument → Text) (d e : Prototype) : Prop where
  name : d.name = e.name
  argumentNames : d.arguments.map Argument.name = e.arguments.map Argument.name
  argumentTypes : d.arguments.mapIdx (typeOf d.name) = e.arguments.mapIdx (typeOf e.name)
  returnType : valueType d.returnType = valueType e.returnType

theorem signature_append (name : Text) (params : List Text) (returnType s : Text) :
    signature name params returnType ++ s =
      "declare function ".toList ++ (name ++ (['('] ++ (List.intercalate ", ".toList params ++
        ("): ".toList ++ (valueType returnType ++ s))))) := by
  change "declare function ".toList ++ name ++ ['('] ++ List.intercalate ", ".toList params ++
    "): ".toList ++ valueType returnType ++ s = _
  simp only [List.append_assoc]

theorem endsType_newline (s : Text) : EndsType ('\n' :: s) :=
  .append (s := ['\n']) (by decide) (by decide) s

theorem signature_append_inj {typeOf : Text → Nat → Argument → Text}
    (htypes : ∀ name, ReadableTypes (typeOf name)) {d e : Prototype} (hd : d.InWords)
    (he : e.InWords) {s t : Text}
    (h : signature d.name (parameters (typeOf d.name) d.arguments) d.returnType ++ '\n' :: s =
      signature e.name (parameters (typeOf e.name) e.arguments) e.returnType ++ '\n' :: t) :
    SameSignature typeOf d e ∧ s = t := by
  rw [signature_append, signature_append] at h
  have hbracket : ∀ u, Breaks (['('] ++ u) := .append (by decide) (by decide)
  obtain ⟨hname, h⟩ := Token.word_append_inj hd.name he.name (hbracket _) (hbracket _)
    (List.append_cancel_left h)
  rw [hname] at h
  obtain ⟨hnames, htypes, h⟩ := intercalate_parameters_append_inj hd.arguments he.arguments
    (htypes e.name) (List.append_cancel_left h)
  obtain ⟨hreturn, hst⟩ := typeText_append_inj (isTypeText_valueType hd.returnType)
    (isTypeText_valueType he.returnType) (endsType_newline s) (endsType_newline t) h
  exact ⟨⟨hname, hnames, by rw [hname, htypes], hreturn⟩, (List.cons.inj hst).2⟩

theorem SameSignature.signature_eq {typeOf : Text → Nat → Argument → Text} {d e : Prototype}
    (h : SameSignature typeOf d e) :
    signature d.name (parameters (typeOf d.name) d.arguments) d.returnType =
      signature e.name (parameters (typeOf e.name) e.arguments) e.returnType := by
  rw [← List.append_nil (signature d.name _ _), signature_append, parameters_eq_zipWith,
    h.argumentNames, h.argumentTypes, h.returnType, h.name, ← parameters_eq_zipWith,
    ← signature_append, List.append_nil]

/-! ## Natives and functions -/

theorem mapIdx_const_eq_map {β : Type} (f : Argument → β) (args : List Argument) :
    (args.mapIdx fun _ a => f a) = args.map f :=
  List.ext_getElem? fun i => by rw [List.getElem?_mapIdx, List.getElem?_map]

theorem functionLine_eq (d : Prototype) : functionLine d =
    signature d.name (parameters (fun _ a => argumentType a.type) d.arguments) d.returnType := by
  rw [functionLine, functionParameters, parameters, mapIdx_const_eq_map]

theorem readableTypes_argumentType : ReadableTypes fun _ a => argumentType a.type :=
  fun _ _ _ ha hb _ _ hs ht h =>
    typeText_append_inj (isTypeText_argumentType ha) (isTypeText_argumentType hb) hs ht h

/-- The type that a native shows for a parameter at a position. -/
def shownType (table : Override.Table) (native : Text) (position : Nat) (a : Argument) : Text :=
  (table.type? native position).getD (argumentType a.type)

theorem nativeLine_eq (table : Override.Table) (d : Prototype) : nativeLine table d =
    signature d.name (parameters (shownType table d.name) d.arguments) d.returnType :=
  rfl

/-- A type of the table is the same on both sides, and can be taken away whatever it is. -/
theorem readableTypes_shownType (table : Override.Table) (native : Text) :
    ReadableTypes (shownType table native) := by
  intro position a b ha hb s t hs ht h
  rw [shownType, shownType] at h ⊢
  cases hentry : table.type? native position with
  | some type =>
      rw [hentry] at h
      exact ⟨rfl, List.append_cancel_left h⟩
  | none =>
      rw [hentry] at h
      exact readableTypes_argumentType position a b ha hb s t hs ht h

theorem nativeArgumentType_eq_shownType {table : Override.Table} {d : Prototype} {i : Nat}
    {a : Argument} (h : d.arguments[i]? = some a) :
    nativeArgumentType table d i = .ok (shownType table d.name i a) := by
  rw [nativeArgumentType, shownType, h]
  cases table.type? d.name i <;> rfl

/-- What the lines of two natives have in common. -/
structure SameNative (table : Override.Table) (d e : Prototype) : Prop where
  name : d.name = e.name
  argumentNames : d.arguments.map Argument.name = e.arguments.map Argument.name
  argumentTypes : ∀ i, nativeArgumentType table d i = nativeArgumentType table e i
  returnType : valueType d.returnType = valueType e.returnType

/-- What the lines of two functions have in common. -/
structure SameFunction (d e : Prototype) : Prop where
  name : d.name = e.name
  argumentNames : d.arguments.map Argument.name = e.arguments.map Argument.name
  argumentTypes : (d.arguments.map fun a => argumentType a.type) =
    e.arguments.map fun a => argumentType a.type
  returnType : valueType d.returnType = valueType e.returnType

theorem mapIdx_shownType_eq_iff {table : Override.Table} {d e : Prototype} (hname : d.name = e.name)
    (hnames : d.arguments.map Argument.name = e.arguments.map Argument.name) :
    d.arguments.mapIdx (shownType table d.name) = e.arguments.mapIdx (shownType table e.name) ↔
      ∀ i, nativeArgumentType table d i = nativeArgumentType table e i := by
  have hlength : d.arguments.length = e.arguments.length := by
    simpa using congrArg List.length hnames
  rw [List.ext_getElem?_iff]
  refine forall_congr' fun i => ?_
  rw [List.getElem?_mapIdx, List.getElem?_mapIdx]
  by_cases hi : i < d.arguments.length
  · have hd := List.getElem?_eq_getElem hi
    have he := List.getElem?_eq_getElem (hlength ▸ hi)
    rw [nativeArgumentType_eq_shownType hd, nativeArgumentType_eq_shownType he, hd, he]
    simp
  · have hd : d.arguments[i]? = none := List.getElem?_eq_none (Nat.le_of_not_lt hi)
    have he : e.arguments[i]? = none := List.getElem?_eq_none (hlength ▸ Nat.le_of_not_lt hi)
    rw [nativeArgumentType, nativeArgumentType, hd, he, hname]
    simp

theorem sameNative_iff {table : Override.Table} {d e : Prototype} :
    SameNative table d e ↔ SameSignature (shownType table) d e := by
  constructor
  · rintro ⟨hname, hnames, htypes, hreturn⟩
    exact ⟨hname, hnames, (mapIdx_shownType_eq_iff hname hnames).mpr htypes, hreturn⟩
  · rintro ⟨hname, hnames, htypes, hreturn⟩
    exact ⟨hname, hnames, (mapIdx_shownType_eq_iff hname hnames).mp htypes, hreturn⟩

theorem sameFunction_iff {d e : Prototype} :
    SameFunction d e ↔ SameSignature (fun _ _ a => argumentType a.type) d e := by
  constructor
  · rintro ⟨hname, hnames, htypes, hreturn⟩
    exact ⟨hname, hnames, by rw [mapIdx_const_eq_map, mapIdx_const_eq_map, htypes], hreturn⟩
  · rintro ⟨hname, hnames, htypes, hreturn⟩
    rw [mapIdx_const_eq_map, mapIdx_const_eq_map] at htypes
    exact ⟨hname, hnames, htypes, hreturn⟩

/-! ## Types and globals -/

theorem typeLine_append (d : TypeDecl) (s : Text) :
    typeLine d ++ s = "declare abstract class ".toList ++ (d.name ++ (" extends ".toList ++
      (d.parent ++ (" \x7b __".toList ++ (d.name ++ (": never; \x7d".toList ++ s)))))) := by
  change "declare abstract class ".toList ++ d.name ++ " extends ".toList ++ d.parent ++
    " \x7b __".toList ++ d.name ++ ": never; \x7d".toList ++ s = _
  simp only [List.append_assoc]

theorem typeLine_append_inj {d e : TypeDecl} (hd : IsWord d.name ∧ IsWord d.parent)
    (he : IsWord e.name ∧ IsWord e.parent) {s t : Text}
    (h : typeLine d ++ '\n' :: s = typeLine e ++ '\n' :: t) : d = e ∧ s = t := by
  obtain ⟨name, parent⟩ := d
  obtain ⟨name', parent'⟩ := e
  rw [typeLine_append, typeLine_append] at h
  have hextends : ∀ u, Breaks (" extends ".toList ++ u) := .append (by decide) (by decide)
  have hbrace : ∀ u, Breaks (" \x7b __".toList ++ u) := .append (by decide) (by decide)
  obtain ⟨rfl, h⟩ := Token.word_append_inj hd.1 he.1 (hextends _) (hextends _)
    (List.append_cancel_left h)
  obtain ⟨rfl, h⟩ := Token.word_append_inj hd.2 he.2 (hbrace _) (hbrace _)
    (List.append_cancel_left h)
  exact ⟨rfl, (List.cons.inj (List.append_cancel_left (List.append_cancel_left
    (List.append_cancel_left h)))).2⟩

theorem globalLine_append (d : GlobalDecl) (s : Text) :
    globalLine d ++ s = "declare ".toList ++ ((if d.constant then "const ".toList
      else "var ".toList) ++ (d.name ++ (": ".toList ++
        ((if d.array then arrayOf (valueType d.type) else valueType d.type) ++ s)))) := by
  change "declare ".toList ++ (if d.constant then "const ".toList else "var ".toList) ++ d.name ++
    ": ".toList ++ (if d.array then arrayOf (valueType d.type) else valueType d.type) ++ s = _
  simp only [List.append_assoc]

theorem marker_append_inj {a b : Bool} {s t : Text}
    (h : (if a then "const ".toList else "var ".toList) ++ s =
      (if b then "const ".toList else "var ".toList) ++ t) : a = b ∧ s = t := by
  cases a <;> cases b <;> simp_all

/-- What the lines of two globals have in common. -/
structure SameGlobal (d e : GlobalDecl) : Prop where
  constant : d.constant = e.constant
  array : d.array = e.array
  name : d.name = e.name
  type : valueType d.type = valueType e.type

theorem SameGlobal.globalLine_eq {d e : GlobalDecl} (h : SameGlobal d e) :
    globalLine d = globalLine e := by
  rw [← List.append_nil (globalLine d), globalLine_append, h.constant, h.array, h.name, h.type,
    ← globalLine_append, List.append_nil]

theorem globalLine_append_inj {d e : GlobalDecl} (hd : IsWord d.name ∧ IsWord d.type)
    (he : IsWord e.name ∧ IsWord e.type) {s t : Text}
    (h : globalLine d ++ '\n' :: s = globalLine e ++ '\n' :: t) : SameGlobal d e ∧ s = t := by
  rw [globalLine_append, globalLine_append] at h
  have hcolon : ∀ u, Breaks (": ".toList ++ u) := .append (by decide) (by decide)
  obtain ⟨hconstant, h⟩ := marker_append_inj (List.append_cancel_left h)
  obtain ⟨hname, h⟩ := Token.word_append_inj hd.1 he.1 (hcolon _) (hcolon _) h
  obtain ⟨harray, htype, hst⟩ := globalType_append_inj (valueType_cases (Or.inr hd.2))
    (valueType_cases (Or.inr he.2)) (List.append_cancel_left h)
  exact ⟨⟨hconstant, harray, hname, htype⟩, hst⟩

/-! ## Groups of lines -/

/-- Lines of the declarations with `P`, from which all that `R` compares can be read, and nothing
else. -/
structure Readable {α : Type} (P : α → Prop) (R : α → α → Prop) (line : α → Text) : Prop where
  head : ∀ x, (line x).head? = some 'd'
  congr : ∀ {x y}, R x y → line x = line y
  append_inj : ∀ {x y s t}, P x → P y → line x ++ '\n' :: s = line y ++ '\n' :: t → R x y ∧ s = t

/-- A group of lines can be read up to the empty line behind it. -/
theorem Readable.unlines_append_inj {α : Type} {P : α → Prop} {R : α → α → Prop} {line : α → Text}
    (h : Readable P R line) {xs ys : List α} (hxs : ∀ x ∈ xs, P x) (hys : ∀ y ∈ ys, P y)
    {s t : Text} (he : Text.unlines (xs.map line) ++ '\n' :: s =
      Text.unlines (ys.map line) ++ '\n' :: t) : List.Forall₂ R xs ys ∧ s = t := by
  have hhead : ∀ (x : α) (u v : Text), line x ++ u ≠ '\n' :: v := by
    intro x u v hline
    obtain ⟨w, hw⟩ := List.head?_eq_some_iff.mp (h.head x)
    rw [hw, List.cons_append] at hline
    exact absurd (List.cons.inj hline).1 (by decide)
  induction xs generalizing ys with
  | nil =>
      cases ys with
      | nil => exact ⟨.nil, (List.cons.inj he).2⟩
      | cons y ys =>
          rw [List.map_cons, Text.unlines_cons, List.append_assoc] at he
          exact absurd he.symm (hhead y _ _)
  | cons x xs ih =>
      rw [List.map_cons, Text.unlines_cons, List.append_assoc, List.cons_append] at he
      cases ys with
      | nil => exact absurd he (hhead x _ _)
      | cons y ys =>
          rw [List.map_cons, Text.unlines_cons, List.append_assoc, List.cons_append] at he
          obtain ⟨hx, hxs⟩ := List.forall_mem_cons.mp hxs
          obtain ⟨hy, hys⟩ := List.forall_mem_cons.mp hys
          obtain ⟨hxy, he⟩ := h.append_inj hx hy he
          obtain ⟨hrest, hst⟩ := ih hxs hys he
          exact ⟨.cons hxy hrest, hst⟩

theorem Readable.map_eq {α : Type} {P : α → Prop} {R : α → α → Prop} {line : α → Text}
    (h : Readable P R line) {xs ys : List α} (hxy : List.Forall₂ R xs ys) :
    xs.map line = ys.map line := by
  induction hxy with
  | nil => rfl
  | cons hxy _ ih => rw [List.map_cons, List.map_cons, h.congr hxy, ih]

theorem readable_typeLine :
    Readable (fun d : TypeDecl => IsWord d.name ∧ IsWord d.parent) Eq typeLine where
  head _ := rfl
  congr := congrArg typeLine
  append_inj hd he h := typeLine_append_inj hd he h

theorem readable_nativeLine (table : Override.Table) :
    Readable Prototype.InWords (SameNative table) (nativeLine table) where
  head _ := rfl
  congr h := by
    rw [nativeLine_eq, nativeLine_eq, (sameNative_iff.mp h).signature_eq]
  append_inj hd he h := by
    rw [nativeLine_eq, nativeLine_eq] at h
    obtain ⟨hsame, hst⟩ := signature_append_inj (readableTypes_shownType table) hd he h
    exact ⟨sameNative_iff.mpr hsame, hst⟩

theorem readable_globalLine :
    Readable (fun d : GlobalDecl => IsWord d.name ∧ IsWord d.type) SameGlobal globalLine where
  head _ := rfl
  congr := SameGlobal.globalLine_eq
  append_inj hd he h := globalLine_append_inj hd he h

theorem readable_functionLine : Readable Prototype.InWords SameFunction functionLine where
  head _ := rfl
  congr h := by
    rw [functionLine_eq, functionLine_eq]
    exact (sameFunction_iff.mp h).signature_eq
  append_inj hd he h := by
    rw [functionLine_eq, functionLine_eq] at h
    obtain ⟨hsame, hst⟩ := signature_append_inj (fun _ => readableTypes_argumentType) hd he h
    exact ⟨sameFunction_iff.mpr hsame, hst⟩

/-! ## Files -/

/-- What the declaration files of two libraries have in common. -/
structure SameDeclarations (table : Override.Table) (l m : Library) : Prop where
  types : l.types = m.types
  natives : List.Forall₂ (SameNative table) l.natives m.natives
  globals : List.Forall₂ SameGlobal l.globals m.globals
  functions : List.Forall₂ SameFunction l.functions m.functions

/-- Behind each group comes an empty line, behind the last one too if one is added. -/
theorem declarationFile_append_newline (table : Override.Table) (l : Library) :
    declarationFile table l ++ ['\n'] = header ++ '\n' :: '\n' ::
      (Text.unlines (l.types.map typeLine) ++ '\n' ::
        (Text.unlines (l.natives.map (nativeLine table)) ++ '\n' ::
          (Text.unlines (l.globals.map globalLine) ++ '\n' ::
            (Text.unlines (l.functions.map functionLine) ++ '\n' :: [])))) := by
  simp only [declarationFile, declarationLines, Text.unlines_append, Text.unlines_cons,
    List.append_assoc, List.cons_append, List.nil_append]

/-- Two libraries of words have the same declaration file exactly if they show the same
declarations in the same order. -/
theorem declarationFile_eq_iff (table : Override.Table) {l m : Library} (hl : l.InWords)
    (hm : m.InWords) :
    declarationFile table l = declarationFile table m ↔ SameDeclarations table l m := by
  constructor
  · intro h
    have hfile := congrArg (· ++ ['\n']) h
    simp only [declarationFile_append_newline] at hfile
    have hgroups := (List.cons.inj (List.cons.inj (List.append_cancel_left hfile)).2).2
    obtain ⟨htypes, hgroups⟩ := readable_typeLine.unlines_append_inj hl.types hm.types hgroups
    obtain ⟨hnatives, hgroups⟩ :=
      (readable_nativeLine table).unlines_append_inj hl.natives hm.natives hgroups
    obtain ⟨hglobals, hgroups⟩ :=
      readable_globalLine.unlines_append_inj hl.globals hm.globals hgroups
    obtain ⟨hfunctions, -⟩ :=
      readable_functionLine.unlines_append_inj hl.functions hm.functions hgroups
    exact ⟨List.forall₂_eq_eq_eq ▸ htypes, hnatives, hglobals, hfunctions⟩
  · rintro ⟨htypes, hnatives, hglobals, hfunctions⟩
    rw [declarationFile, declarationFile, declarationLines, declarationLines, htypes,
      (readable_nativeLine table).map_eq hnatives, readable_globalLine.map_eq hglobals,
      readable_functionLine.map_eq hfunctions]

/-- A filter takes a callback whatever it declares, and no value of a global is shown. -/
theorem declarationFile_eq_iff_filter :
    let l : Library :=
      { natives := [⟨"Filter".toList, [⟨"code".toList, "func".toList⟩], "real".toList⟩]
        globals := [⟨true, "integer".toList, true, "A".toList, none⟩] }
    let m : Library :=
      { natives := [⟨"Filter".toList, [⟨"unit".toList, "func".toList⟩], "integer".toList⟩]
        globals := [⟨true, "real".toList, true, "A".toList, some "1".toList⟩] }
    l.InWords ∧ m.InWords ∧ SameDeclarations Override.Table.default l m := by
  intro l m
  have hl : l.InWords := ⟨by decide, by decide, by decide, by decide⟩
  have hm : m.InWords := ⟨by decide, by decide, by decide, by decide⟩
  exact ⟨hl, hm, (declarationFile_eq_iff Override.Table.default hl hm).mp (by decide)⟩

end TypeScript

end JassDecl
