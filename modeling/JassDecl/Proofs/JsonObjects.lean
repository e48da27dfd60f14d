import JassDecl.Json.Reader

/-! # Names in JSON objects

However often a text repeats the name of a member, no object that is read has a name twice. -/

namespace JassDecl

theorem Entries.mem_set {κ α : Type} [DecidableEq κ] {k : κ} {a : α} {entries : List (κ × α)}
    {x : κ × α} (h : x ∈ set k a entries) : x = (k, a) ∨ x ∈ entries := by
  induction entries with
  | nil => exact Or.inl (List.mem_singleton.mp h)
  | cons entry rest ih =>
      rw [set, alter] at h
      split at h
      · next hk =>
          obtain rfl | hrest := List.mem_cons.mp h
          · exact Or.inl (by rw [hk])
          · exact Or.inr (List.mem_cons_of_mem _ hrest)
      · obtain rfl | hrest := List.mem_cons.mp h
        · exact Or.inr List.mem_cons_self
        · exact (ih hrest).imp_right (List.mem_cons_of_mem _)

namespace Json

/-- No object in the value, however deep, has a name twice. -/
inductive Value.Distinct : Value → Prop where
  | null : Distinct .null
  | bool (b) : Distinct (.bool b)
  | number (lexeme) : Distinct (.number lexeme)
  | string (t) : Distinct (.string t)
  | array {items} (hitems : ∀ v ∈ items, Distinct v) : Distinct (.array items)
  | object {members : List (Text × Value)} (hnames : (members.map Prod.fst).Nodup)
      (hmembers : ∀ m ∈ members, Distinct m.2) : Distinct (.object members)

namespace Value.Distinct

theorem names_nodup {members : List (Text × Value)} (h : Distinct (.object members)) :
    (members.map Prod.fst).Nodup := by
  cases h with
  | object hnames _ => exact hnames

theorem append {items : List Value} {v : Value} (h : Distinct (.array items)) (hv : v.Distinct) :
    Distinct (.array (items ++ [v])) := by
  cases h with
  | array hitems => exact .array (List.forall_mem_append.mpr ⟨hitems, by simpa using hv⟩)

/-- A name that stands there already gets the new value and no second place. -/
theorem set {members : List (Text × Value)} {v : Value} (h : Distinct (.object members))
    (hv : v.Distinct) (name : Text) : Distinct (.object (Entries.set name v members)) := by
  cases h with
  | object hnames hmembers =>
      refine .object (Entries.nodup_alter hnames) fun m hm => ?_
      obtain rfl | hm := Entries.mem_set hm
      · exact hv
      · exact hmembers m hm

end Value.Distinct

/-! ## Lexemes -/

theorem distinct_of_mem_words {word : Text} {v : Value} (h : (word, v) ∈ words) : v.Distinct := by
  simp only [words, List.mem_cons, Prod.mk.injEq, List.not_mem_nil, or_false] at h
  obtain ⟨-, rfl⟩ | ⟨-, rfl⟩ | ⟨-, rfl⟩ | ⟨-, rfl⟩ | ⟨-, rfl⟩ | ⟨-, rfl⟩ := h <;> constructor

theorem distinct_of_readWord? {t : Text} {v : Value} {length : Nat}
    (h : readWord? t = some (v, length)) : v.Distinct := by
  obtain ⟨⟨word, w⟩, hword, hread⟩ := List.exists_of_findSome?_eq_some h
  obtain ⟨-, rfl, -⟩ : word.isPrefixOf t = true ∧ w = v ∧ word.length = length := by
    simpa using hread
  exact distinct_of_mem_words hword

theorem Number.distinct_of_value {n : Number} {v : Value} (h : n.value = .ok v) : v.Distinct := by
  rw [value] at h
  split at h
  · cases h
  · obtain rfl := Except.ok.inj h
    exact .number _

theorem distinct_of_readToken {offset : Nat} {c : Char} {rest : Text} {v : Value}
    (h : (readToken offset c rest).1 = .literal (.ok v)) : v.Distinct := by
  rw [readToken] at h
  split at h
  · next token hmark =>
      rw [mark?.eq_def] at hmark
      split at hmark <;> cases hmark <;> cases h
  · split at h
    · split at h <;> cases h
    · split at h
      · next hword =>
          obtain rfl := Except.ok.inj (Token.literal.inj h)
          exact distinct_of_readWord? hword
      · split at h
        · exact Number.distinct_of_value (Token.literal.inj h)
        · cases h

theorem distinct_of_mem_lexFrom {offset : Nat} {t : Text} {x : Lexeme} (hx : x ∈ lexFrom offset t)
    {v : Value} (hv : x.token = .literal (.ok v)) : v.Distinct := by
  fun_induction lexFrom offset t with
  | case1 => cases hx
  | case2 _ _ _ _ ih => exact ih hx
  | case3 _ _ _ _ read ih =>
      obtain rfl | hrest := List.mem_cons.mp hx
      · exact distinct_of_readToken hv
      · exact ih hrest

/-! ## States -/

/-- What has been read of an open array or object. -/
def Frame.value : Frame → Value
  | .array items => .array items
  | .object members _ => .object members

namespace State

/-- What has been read, the innermost value first. -/
def values : State → List Value
  | .beforeValue stack | .firstItem stack | .firstName stack => stack.map Frame.value
  | .beforeName members stack | .beforeColon members _ stack | .afterMember members stack =>
      .object members :: stack.map Frame.value
  | .afterItem items stack => .array items :: stack.map Frame.value
  | .done value => [value]

/-- No object that has been read, as a whole or in part, has a name twice. -/
def Distinct (state : State) : Prop :=
  ∀ v ∈ state.values, v.Distinct

theorem distinct_put {v : Value} {stack : List Frame} (hv : v.Distinct)
    (hstack : ∀ w ∈ stack.map Frame.value, w.Distinct) : (put v stack).Distinct := by
  cases stack with
  | nil => simpa [put, Distinct, values] using hv
  | cons frame stack =>
      rw [List.map_cons, List.forall_mem_cons] at hstack
      obtain ⟨hframe, hstack⟩ := hstack
      cases frame with
      | array items => exact List.forall_mem_cons.mpr ⟨hframe.append hv, hstack⟩
      | object members name => exact List.forall_mem_cons.mpr ⟨hframe.set hv name, hstack⟩

theorem distinct_startValue {stack : List Frame} {x : Lexeme} {after : State}
    (hstack : ∀ w ∈ stack.map Frame.value, w.Distinct)
    (hx : ∀ v, x.token = .literal (.ok v) → v.Distinct)
    (h : startValue stack x = .ok after) : after.Distinct := by
  rw [startValue] at h
  split at h
  · next content _ =>
      cases content with
      | error fault => cases h
      | ok t =>
          obtain rfl := Except.ok.inj h
          exact distinct_put (.string t) hstack
  · next value hvalue =>
      cases value with
      | error fault => cases h
      | ok v =>
          obtain rfl := Except.ok.inj h
          exact distinct_put (hx v hvalue) hstack
  · obtain rfl := Except.ok.inj h
    exact hstack
  · obtain rfl := Except.ok.inj h
    exact hstack
  · cases h

theorem distinct_startMember {members : List (Text × Value)} {stack : List Frame} {x : Lexeme}
    {after : State} (hmembers : (Value.object members).Distinct)
    (hstack : ∀ w ∈ stack.map Frame.value, w.Distinct)
    (h : startMember members stack x = .ok after) : after.Distinct := by
  rw [startMember] at h
  split at h
  · next content _ =>
      cases content with
      | error fault => cases h
      | ok name =>
          obtain rfl := Except.ok.inj h
          exact List.forall_mem_cons.mpr ⟨hmembers, hstack⟩
  · cases h

/-- A lexeme may bring in a literal, and nothing else that is not in the state before it. -/
theorem Distinct.step {state after : State} {x : Lexeme} (hstate : state.Distinct)
    (hx : ∀ v, x.token = .literal (.ok v) → v.Distinct) (h : state.step x = .ok after) :
    after.Distinct := by
  -- An array or object that opens has nothing in it yet.
  have harray : (Value.array []).Distinct := .array (by simp)
  have hobject : (Value.object []).Distinct := .object .nil (by simp)
  cases state with
  | beforeValue stack => exact distinct_startValue hstate hx h
  | firstItem stack =>
      simp only [State.step] at h
      split at h
      · obtain rfl := Except.ok.inj h
        exact distinct_put harray hstate
      · have hstack : ∀ w ∈ (Frame.array [] :: stack).map Frame.value, w.Distinct :=
          List.forall_mem_cons.mpr ⟨harray, hstate⟩
        exact distinct_startValue hstack hx h
  | firstName stack =>
      simp only [State.step] at h
      split at h
      · obtain rfl := Except.ok.inj h
        exact distinct_put hobject hstate
      · exact distinct_startMember hobject hstate h
  | beforeName members stack =>
      obtain ⟨hmembers, hstack⟩ := List.forall_mem_cons.mp hstate
      exact distinct_startMember hmembers hstack h
  | beforeColon members name stack =>
      simp only [State.step] at h
      split at h
      · obtain rfl := Except.ok.inj h
        exact hstate
      · cases h
  | afterItem items stack =>
      obtain ⟨hitems, hstack⟩ := List.forall_mem_cons.mp hstate
      simp only [State.step] at h
      split at h
      · obtain rfl := Except.ok.inj h
        exact hstate
      · obtain rfl := Except.ok.inj h
        exact distinct_put hitems hstack
      · cases h
  | afterMember members stack =>
      obtain ⟨hmembers, hstack⟩ := List.forall_mem_cons.mp hstate
      simp only [State.step] at h
      split at h
      · obtain rfl := Except.ok.inj h
        exact hstate
      · obtain rfl := Except.ok.inj h
        exact distinct_put hmembers hstack
      · cases h
  | done value => cases h

theorem Distinct.run {state after : State} {xs : List Lexeme} (hstate : state.Distinct)
    (hxs : ∀ x ∈ xs, ∀ v, x.token = .literal (.ok v) → v.Distinct)
    (h : state.run xs = .ok after) : after.Distinct := by
  induction xs generalizing state with
  | nil =>
      obtain rfl := Except.ok.inj h
      exact hstate
  | cons x rest ih =>
      obtain ⟨hx, hrest⟩ := List.forall_mem_cons.mp hxs
      rw [State.run] at h
      split at h
      · next next hnext => exact ih (hstate.step hx hnext) hrest h
      · cases h

end State

/-! ## Texts -/

theorem distinct_of_read {text : Text} {v : Value} (h : read text = .ok v) : v.Distinct := by
  rw [read] at h
  split at h
  · cases h
  · cases hrun : (State.beforeValue []).run (lex text) with
    | error fault => simp [hrun, Except.bind] at h
    | ok state =>
        have hstart : (State.beforeValue []).Distinct := by simp [State.Distinct, State.values]
        have hstate := hstart.run (fun x hx v hv => distinct_of_mem_lexFrom hx hv) hrun
        rw [hrun] at h
        cases state with
        | done value =>
            obtain rfl : value = v := Except.ok.inj h
            exact hstate value List.mem_cons_self
        | _ => cases h

end Json

end JassDecl
