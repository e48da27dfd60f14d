import JassDecl.Json.Lexeme
import JassDecl.Json.Printer
import JassDecl.Proofs.Encoding
import JassDecl.Proofs.Splitting

/-! # The grammar of JSON

Which texts denote a value, said without a reader and for any spaces between lexemes. A written
value is one of the texts that denote it, whatever its layout, and holds ASCII characters only. -/

namespace JassDecl.Json

/-! ## Strings -/

/-- What may stand between the quotes of a string, and the UTF-16 units that it stands for. -/
inductive Body : Text → List Nat → Prop where
  | nil : Body [] []
  | plain {c t units} (hcontrol : 0x20 ≤ c.toNat) (hquote : c ≠ '"') (hbackslash : c ≠ '\\')
      (h : Body t units) : Body (c :: t) (Utf16.encodeChar c ++ units)
  | short {c d t units} (hescape : shortEscape? c = some d) (h : Body t units) :
      Body ('\\' :: c :: t) (Utf16.encodeChar d ++ units)
  | unit {a b c d unit t units} (hunit : hexUnit? a b c d = some unit) (h : Body t units) :
      Body ('\\' :: 'u' :: a :: b :: c :: d :: t) (unit :: units)

/-- The text `t` is the string `s`, in quotes. -/
def Quoted (s t : Text) : Prop :=
  ∃ body, Body body (Utf16.encode s) ∧ t = '"' :: body ++ ['"']

/-! ## Numbers -/

/-- One or more digits. -/
def Digits (t : Text) : Prop :=
  t ≠ [] ∧ ∀ c ∈ t, c.isDigit = true

/-- The parts of a number. Its digits start with a zero only if there is no other one, and an
integer has only so many of them. -/
structure Number.WellFormed (n : Number) : Prop where
  sign : n.sign = [] ∨ n.sign = ['-']
  whole : n.whole = ['0'] ∨ Digits n.whole ∧ n.whole.head? ≠ some '0'
  fraction : n.fraction = [] ∨ ∃ digits, Digits digits ∧ n.fraction = '.' :: digits
  exponent : n.exponent = [] ∨ ∃ mark sign digits, (mark = 'e' ∨ mark = 'E') ∧
    (sign = [] ∨ sign = ['+'] ∨ sign = ['-']) ∧ Digits digits ∧
    n.exponent = mark :: sign ++ digits
  length_le : n.isInteger = true → n.whole.length ≤ Text.Numeral.maxDigits

/-! ## Values -/

/-- White space of any length. -/
def Spaces (t : Text) : Prop :=
  ∀ c ∈ t, isSpace c = true

/-- The parts of a text that the rules speak of: a value, a value among white space, and rows of one
or more items or members. -/
inductive Phrase where
  | value (v : Value)
  | element (v : Value)
  | elements (vs : List Value)
  | members (ms : List (Text × Value))

/-- The rules: the texts of each phrase. The names in an object are distinct. -/
inductive Derives : Phrase → Text → Prop where
  | null : Derives (.value .null) "null".toList
  | true : Derives (.value (.bool true)) "true".toList
  | false : Derives (.value (.bool false)) "false".toList
  | number {n : Number} (hn : n.WellFormed) : Derives (.value (.number n.lexeme)) n.lexeme
  | string {s t} (hs : Quoted s t) : Derives (.value (.string s)) t
  | emptyArray {b} (hb : Spaces b) : Derives (.value (.array [])) ('[' :: b ++ [']'])
  | array {vs t} (h : Derives (.elements vs) t) : Derives (.value (.array vs)) ('[' :: t ++ [']'])
  | emptyObject {b} (hb : Spaces b) : Derives (.value (.object [])) ('{' :: b ++ ['}'])
  | object {ms t} (hnames : (ms.map Prod.fst).Nodup) (h : Derives (.members ms) t) :
      Derives (.value (.object ms)) ('{' :: t ++ ['}'])
  | element {v a t b} (ha : Spaces a) (hb : Spaces b) (h : Derives (.value v) t) :
      Derives (.element v) (a ++ t ++ b)
  | lastElement {v t} (h : Derives (.element v) t) : Derives (.elements [v]) t
  | elements {v vs t u} (hv : Derives (.element v) t) (h : Derives (.elements vs) u) :
      Derives (.elements (v :: vs)) (t ++ ',' :: u)
  | lastMember {name v a q b t} (ha : Spaces a) (hname : Quoted name q) (hb : Spaces b)
      (hv : Derives (.element v) t) : Derives (.members [(name, v)]) (a ++ q ++ b ++ ':' :: t)
  | members {name v ms a q b t u} (ha : Spaces a) (hname : Quoted name q) (hb : Spaces b)
      (hv : Derives (.element v) t) (h : Derives (.members ms) u) :
      Derives (.members ((name, v) :: ms)) (a ++ q ++ b ++ ':' :: t ++ ',' :: u)

/-- The text denotes the value. -/
def Denotes (t : Text) (v : Value) : Prop :=
  Derives (.element v) t

/-! ## Written strings -/

theorem Body.append {t u : Text} {units more : List Nat} (ht : Body t units) (hu : Body u more) :
    Body (t ++ u) (units ++ more) := by
  induction ht with
  | nil => exact hu
  | plain hcontrol hquote hbackslash _ ih =>
      rw [List.append_assoc]
      exact .plain hcontrol hquote hbackslash ih
  | short hescape _ ih =>
      rw [List.append_assoc]
      exact .short hescape ih
  | unit hunit _ ih => exact .unit hunit ih

theorem hexDigit?_digitChar : ∀ d < 16, Text.hexDigit? (Nat.digitChar d) = some d := by
  decide

theorem body_escapeUnit {unit : Nat} (h : unit < 0x10000) : Body (escapeUnit unit) [unit] := by
  refine .unit ?_ .nil
  have hdigit (n : Nat) := hexDigit?_digitChar (n % 16) (Nat.mod_lt n (by decide))
  simp only [hexUnit?, hdigit, Option.bind_eq_bind, Option.bind_some, Option.pure_def,
    Option.some.injEq]
  omega

theorem body_flatMap_escapeUnit {units : List Nat} (h : ∀ unit ∈ units, unit < 0x10000) :
    Body (units.flatMap escapeUnit) units := by
  induction units with
  | nil => exact .nil
  | cons unit units ih =>
      rw [List.forall_mem_cons] at h
      exact (body_escapeUnit h.1).append (ih h.2)

theorem lt_of_mem_encodeChar {c : Char} {unit : Nat} (h : unit ∈ Utf16.encodeChar c) :
    unit < 0x10000 := by
  have hbound := Utf8.toNat_lt c
  simp only [Utf16.encodeChar] at h
  split at h
  · rw [List.mem_singleton] at h
    omega
  · simp only [List.mem_cons, List.not_mem_nil, or_false] at h
    omega

theorem body_escapeChar (c : Char) : Body (escapeChar c) (Utf16.encodeChar c) := by
  have hshort {e d : Char} (h : shortEscape? e = some d) : Body ['\\', e] (Utf16.encodeChar d) := by
    simpa using Body.short h .nil
  fun_cases escapeChar c with
  | case8 _ hquote hbackslash _ _ _ _ _ hplain =>
      simpa using Body.plain hplain.1 hquote hbackslash .nil
  | case9 => exact body_flatMap_escapeUnit fun _ => lt_of_mem_encodeChar
  | _ => exact hshort rfl

theorem quoted_quote (t : Text) : Quoted t (quote t) := by
  refine ⟨t.flatMap escapeChar, ?_, rfl⟩
  induction t with
  | nil => exact .nil
  | cons c t ih => exact (body_escapeChar c).append ih

/-! ## Written values -/

/-- A value without numbers, in which no object has a name twice. -/
inductive Textual : Value → Prop where
  | null : Textual .null
  | bool (b) : Textual (.bool b)
  | string (t) : Textual (.string t)
  | array {items} (hitems : ∀ v ∈ items, Textual v) : Textual (.array items)
  | object {members : List (Text × Value)} (hnames : (members.map Prod.fst).Nodup)
      (hmembers : ∀ m ∈ members, Textual m.2) : Textual (.object members)

theorem spaces_nil : Spaces [] := by
  simp [Spaces]

theorem spaces_edge (layout : Layout) (depth : Nat) : Spaces (layout.edge depth) := by
  cases layout with
  | inline => simp [Layout.edge, Spaces]
  | indented width =>
      intro c hc
      rw [Layout.edge, List.mem_cons, List.mem_replicate] at hc
      obtain rfl | ⟨_, rfl⟩ := hc <;> rfl

theorem exists_separator_eq (layout : Layout) (depth : Nat) :
    ∃ b, Spaces b ∧ layout.separator depth = ',' :: b := by
  cases layout with
  | inline => exact ⟨[' '], by simp [Spaces, isSpace], rfl⟩
  | indented width => exact ⟨_, spaces_edge (.indented width) depth, rfl⟩

theorem derives_elements {layout : Layout} {depth : Nat} {items : List Value} (hne : items ≠ [])
    (h : ∀ v ∈ items, Derives (.value v) (v.write layout depth)) {a b : Text} (ha : Spaces a)
    (hb : Spaces b) :
    Derives (.elements items)
      (a ++ List.intercalate (layout.separator depth) (writeItems layout depth items) ++ b) := by
  induction items generalizing a with
  | nil => exact absurd rfl hne
  | cons v rest ih =>
      rw [List.forall_mem_cons] at h
      cases rest with
      | nil => simpa [writeItems] using Derives.lastElement (.element ha hb h.1)
      | cons w rest =>
          obtain ⟨s, hs, hseparator⟩ := exists_separator_eq layout depth
          have hfirst := Derives.element ha spaces_nil h.1
          have hrest := ih (List.cons_ne_nil w rest) h.2 hs
          simpa [writeItems, hseparator] using Derives.elements hfirst hrest

theorem derives_members {layout : Layout} {depth : Nat} {members : List (Text × Value)}
    (hne : members ≠ []) (h : ∀ m ∈ members, Derives (.value m.2) (m.2.write layout depth))
    {a b : Text} (ha : Spaces a) (hb : Spaces b) :
    Derives (.members members)
      (a ++ List.intercalate (layout.separator depth) (writeMembers layout depth members) ++ b) := by
  have hspace : Spaces [' '] := by simp [Spaces, isSpace]
  induction members generalizing a with
  | nil => exact absurd rfl hne
  | cons m rest ih =>
      rw [List.forall_mem_cons] at h
      have hname := quoted_quote m.1
      cases rest with
      | nil =>
          have hvalue := Derives.element hspace hb h.1
          simpa [writeMembers] using Derives.lastMember ha hname spaces_nil hvalue
      | cons n rest =>
          obtain ⟨s, hs, hseparator⟩ := exists_separator_eq layout depth
          have hvalue := Derives.element hspace spaces_nil h.1
          have hrest := ih (List.cons_ne_nil n rest) h.2 hs
          simpa [writeMembers, hseparator] using
            Derives.members ha hname spaces_nil hvalue hrest

theorem Textual.derives_write {v : Value} (h : Textual v) (layout : Layout) (depth : Nat) :
    Derives (.value v) (v.write layout depth) := by
  induction h generalizing depth with
  | null => exact .null
  | bool b => cases b with
    | true => exact .true
    | false => exact .false
  | string t => exact .string (quoted_quote t)
  | @array items _ ih =>
      cases items with
      | nil => exact .emptyArray spaces_nil
      | cons v rest =>
          have h := derives_elements (List.cons_ne_nil v rest) (fun w hw => ih w hw (depth + 1))
            (spaces_edge layout (depth + 1)) (spaces_edge layout depth)
          simpa [Value.write, writeItems, Layout.enclose] using Derives.array h
  | @object members hnames _ ih =>
      cases members with
      | nil => exact .emptyObject spaces_nil
      | cons m rest =>
          have h := derives_members (List.cons_ne_nil m rest) (fun n hn => ih n hn (depth + 1))
            (spaces_edge layout (depth + 1)) (spaces_edge layout depth)
          simpa [Value.write, writeMembers, Layout.enclose] using Derives.object hnames h

/-- A value is written as a text that denotes it. -/
theorem Textual.denotes_render {v : Value} (h : Textual v) (layout : Layout) {b : Text}
    (hb : Spaces b) : Denotes (render layout v ++ b) v :=
  .element spaces_nil hb (h.derives_write layout 0)

/-! ## Characters of written values -/

/-- A line feed, or a character of ASCII that takes up a column. -/
def Printed (c : Char) : Prop :=
  c = '\n' ∨ 0x20 ≤ c.toNat ∧ c.toNat < 0x7f

theorem Printed.toNat_lt {c : Char} (h : Printed c) : c.toNat < 0x80 := by
  obtain rfl | ⟨-, hlt⟩ := h
  · decide
  · omega

theorem Printed.ne_return {c : Char} (h : Printed c) : c ≠ '\r' := by
  rintro rfl
  simp [Printed] at h

/-- Every character of the text is printed. -/
def AllPrinted (t : Text) : Prop :=
  ∀ c ∈ t, Printed c

@[simp]
theorem allPrinted_nil : AllPrinted [] := by
  simp [AllPrinted]

@[simp]
theorem allPrinted_cons {c : Char} {t : Text} :
    AllPrinted (c :: t) ↔ Printed c ∧ AllPrinted t :=
  List.forall_mem_cons

@[simp]
theorem allPrinted_append {t u : Text} : AllPrinted (t ++ u) ↔ AllPrinted t ∧ AllPrinted u :=
  List.forall_mem_append

theorem allPrinted_flatMap {α : Type} {f : α → Text} {xs : List α}
    (h : ∀ x ∈ xs, AllPrinted (f x)) : AllPrinted (xs.flatMap f) := by
  intro c hc
  obtain ⟨x, hx, hc⟩ := List.mem_flatMap.mp hc
  exact h x hx c hc

theorem allPrinted_intercalate {mark : Text} {ts : List Text} (hmark : AllPrinted mark)
    (h : ∀ t ∈ ts, AllPrinted t) : AllPrinted (List.intercalate mark ts) := by
  intro c hc
  obtain hc | ⟨t, ht, hc⟩ := Text.mem_of_mem_intercalate hc
  · exact hmark c hc
  · exact h t ht c hc

theorem printed_digitChar : ∀ d < 16, Printed (Nat.digitChar d) := by
  unfold Printed
  decide

theorem allPrinted_hex (width n : Nat) : AllPrinted (Text.hex width n) := by
  induction width generalizing n with
  | zero => exact allPrinted_nil
  | succ width ih =>
      have hdigit := printed_digitChar (n % 16) (Nat.mod_lt n (by decide))
      simp [Text.hex, ih (n / 16), hdigit]

theorem allPrinted_escapeChar (c : Char) : AllPrinted (escapeChar c) := by
  fun_cases escapeChar c with
  | case8 _ _ _ _ _ _ _ _ hplain => exact allPrinted_cons.mpr ⟨Or.inr hplain, allPrinted_nil⟩
  | case9 =>
      apply allPrinted_flatMap
      intro unit _
      simp [escapeUnit, allPrinted_hex, Printed]
  | _ => simp [Printed]

theorem allPrinted_quote (t : Text) : AllPrinted (quote t) := by
  have hbody : AllPrinted (t.flatMap escapeChar) :=
    allPrinted_flatMap fun c _ => allPrinted_escapeChar c
  simp [quote, hbody, Printed]

theorem allPrinted_edge (layout : Layout) (depth : Nat) : AllPrinted (layout.edge depth) := by
  cases layout with
  | inline => exact allPrinted_nil
  | indented width =>
      intro c hc
      rw [Layout.edge, List.mem_cons, List.mem_replicate] at hc
      obtain rfl | ⟨_, rfl⟩ := hc <;> simp [Printed]

theorem allPrinted_separator (layout : Layout) (depth : Nat) :
    AllPrinted (layout.separator depth) := by
  cases layout with
  | inline => simp [Layout.separator, Printed]
  | indented width => simp [Layout.separator, allPrinted_edge, Printed]

theorem allPrinted_enclose {layout : Layout} {depth : Nat} {opening closing : Char}
    {items : List Text} (hopening : Printed opening) (hclosing : Printed closing)
    (h : ∀ t ∈ items, AllPrinted t) : AllPrinted (layout.enclose depth opening closing items) := by
  cases items with
  | nil => simp [Layout.enclose, hopening, hclosing]
  | cons item rest =>
      have hitems := allPrinted_intercalate (allPrinted_separator layout (depth + 1)) h
      simp [Layout.enclose, hopening, hclosing, hitems, allPrinted_edge]

theorem writeItems_eq_map (layout : Layout) (depth : Nat) (items : List Value) :
    writeItems layout depth items = items.map (·.write layout depth) := by
  induction items with
  | nil => rfl
  | cons v rest ih => rw [writeItems, ih, List.map_cons]

theorem writeMembers_eq_map (layout : Layout) (depth : Nat) (members : List (Text × Value)) :
    writeMembers layout depth members =
      members.map fun m => quote m.1 ++ [':', ' '] ++ m.2.write layout depth := by
  induction members with
  | nil => rfl
  | cons m rest ih => rw [writeMembers, ih, List.map_cons]

theorem Textual.allPrinted_write {v : Value} (h : Textual v) (layout : Layout) (depth : Nat) :
    AllPrinted (v.write layout depth) := by
  induction h generalizing depth with
  | null => simp [Value.write, Printed]
  | bool b => cases b <;> simp [Value.write, Printed]
  | string t => exact allPrinted_quote t
  | array _ ih =>
      rw [Value.write, writeItems_eq_map]
      refine allPrinted_enclose (by simp [Printed]) (by simp [Printed]) ?_
      simpa using fun v hv => ih v hv (depth + 1)
  | object _ _ ih =>
      rw [Value.write, writeMembers_eq_map]
      refine allPrinted_enclose (by simp [Printed]) (by simp [Printed]) ?_
      intro t ht
      obtain ⟨m, hm, rfl⟩ := List.mem_map.mp ht
      simp [allPrinted_quote, ih m hm, Printed]

end JassDecl.Json
