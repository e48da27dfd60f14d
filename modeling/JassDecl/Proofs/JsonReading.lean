import JassDecl.Json.Reader
import JassDecl.Proofs.JsonGrammar

/-! # Reading JSON texts

The reader answers every text that denotes a value with that value. -/

namespace JassDecl

/-! ## UTF-16 -/

namespace Utf16

theorem single_toNat (c : Char) : single c.toNat = c := by
  have hbound := Utf8.toNat_lt c
  have hsurrogate : (isHigh c.toNat || isLow c.toNat) = false := by
    simp [isHigh, isLow]
    omega
  rw [single, hsurrogate, Char.ofNat_toNat]
  rfl

theorem decode_encodeChar_append (c : Char) (units : List Nat) :
    decode (encodeChar c ++ units) = c :: decode units := by
  have hbound := Utf8.toNat_lt c
  rw [encodeChar]
  by_cases h : c.toNat < 0x10000
  · rw [if_pos h]
    cases units with
    | nil => simp [decode, single_toNat]
    | cons unit units =>
        have hhigh : isHigh c.toNat = false := by
          simp [isHigh]
          omega
        simp [decode, hhigh, single_toNat]
  · rw [if_neg h]
    have hhigh : isHigh (0xd800 + (c.toNat - 0x10000) / 0x400) = true := by
      simp [isHigh]
      omega
    have hlow : isLow (0xdc00 + (c.toNat - 0x10000) % 0x400) = true := by
      simp [isLow]
      omega
    have hpair : 0x10000 + (0xd800 + (c.toNat - 0x10000) / 0x400 - 0xd800) * 0x400 +
        (0xdc00 + (c.toNat - 0x10000) % 0x400 - 0xdc00) = c.toNat := by
      omega
    simp only [List.cons_append, List.nil_append, decode, hhigh, hlow, Bool.and_self, if_true, pair,
      hpair, Char.ofNat_toNat]

theorem decode_encode (t : Text) : decode (encode t) = t := by
  induction t with
  | nil => rfl
  | cons c t ih =>
      rw [encode, List.flatMap_cons, decode_encodeChar_append]
      exact congrArg (c :: ·) ih

end Utf16

namespace Json

/-! ## Strings -/

theorem readString_body {body : Text} {units : List Nat} (h : Body body units) (opened offset : Nat)
    (rest : Text) :
    readString opened offset (body ++ '"' :: rest) = .ok (units, body.length + 1) := by
  induction h generalizing offset with
  | nil => rw [List.nil_append, readString]; rfl
  | @plain c t units hcontrol hquote hbackslash _ ih =>
      rw [List.cons_append, readString]
      · simp [ih, prepend, Nat.not_lt.mpr hcontrol, Except.map]
        omega
      all_goals simp [hquote, hbackslash]
  | @short c d t units hescape _ ih =>
      have hc : c ≠ 'u' := by
        rintro rfl
        cases hescape
      rw [List.cons_append, List.cons_append, readString]
      · simp [hescape, ih, prepend, Except.map]
        omega
      all_goals simp [hc]
  | @unit a b c d unit t units hunit _ ih =>
      -- The reader looks for one character after the digits, which the closing quote is at last.
      obtain ⟨next, rest', hnext⟩ : ∃ next rest', t ++ '"' :: rest = next :: rest' := by
        cases t with
        | nil => exact ⟨_, _, rfl⟩
        | cons c t => exact ⟨_, _, rfl⟩
      simp only [List.cons_append, hnext, readString, hunit]
      rw [← hnext, ih]
      simp [prepend, Except.map]
      omega

/-! ## Numbers -/

/-- What comes next is no part of the value in front of it. -/
def Stops (rest : Text) : Prop :=
  ∀ c ∈ rest.head?, isSpace c = true ∨ c = ',' ∨ c = ']' ∨ c = '}'

/-- What comes next is not a digit. -/
def NoDigit (rest : Text) : Prop :=
  ∀ c ∈ rest.head?, c.isDigit = false

theorem Stops.head? {rest : Text} (h : Stops rest) {c : Char} (hc : c ∈ rest.head?) :
    c.isDigit = false ∧ c ≠ '.' ∧ c ≠ 'e' ∧ c ≠ 'E' := by
  have hstop := h c hc
  simp only [isSpace, Bool.or_eq_true, beq_iff_eq] at hstop
  obtain ((((rfl | rfl) | rfl) | rfl) | rfl | rfl | rfl) := hstop <;> decide

theorem Stops.noDigit {rest : Text} (h : Stops rest) : NoDigit rest :=
  fun _ hc => (h.head? hc).1

theorem ne_of_isDigit {d c : Char} (hd : d.isDigit = true) (hc : c.isDigit = false) : d ≠ c := by
  rintro rfl
  exact Bool.false_ne_true (hc.symm.trans hd)

theorem Digits.takeWhile_append {digits rest : Text} (h : Digits digits) (hrest : NoDigit rest) :
    (digits ++ rest).takeWhile Char.isDigit = digits := by
  rw [List.takeWhile_append_of_pos h.2]
  cases rest with
  | nil => simp
  | cons c rest => simp [hrest c rfl]

namespace Number

theorem readWhole_append {whole rest : Text}
    (h : whole = ['0'] ∨ Digits whole ∧ whole.head? ≠ some '0') (hrest : NoDigit rest) :
    readWhole (whole ++ rest) = whole := by
  obtain rfl | ⟨hdigits, hzero⟩ := h
  · rfl
  · have htake := hdigits.takeWhile_append hrest
    obtain ⟨c, t, rfl⟩ := List.exists_cons_of_ne_nil hdigits.1
    rw [List.cons_append] at htake ⊢
    rw [readWhole, htake]
    intro _ heq
    exact hzero (congrArg List.head? heq)

theorem readFraction_append {fraction rest : Text}
    (h : fraction = [] ∨ ∃ digits, Digits digits ∧ fraction = '.' :: digits)
    (hdigit : NoDigit rest) (hpoint : rest.head? ≠ some '.') :
    readFraction (fraction ++ rest) = fraction := by
  obtain rfl | ⟨digits, hdigits, rfl⟩ := h
  · rw [List.nil_append, readFraction.eq_def]
    split
    · exact absurd rfl hpoint
    · rfl
  · simp [readFraction, hdigits.takeWhile_append hdigit, hdigits.1]

theorem readSign_append {sign digits : Text} (h : sign = [] ∨ sign = ['+'] ∨ sign = ['-'])
    (hdigits : Digits digits) (rest : Text) : readSign (sign ++ digits ++ rest) = sign := by
  obtain rfl | rfl | rfl := h
  · obtain ⟨c, t, rfl⟩ := List.exists_cons_of_ne_nil hdigits.1
    have hc := hdigits.2 c List.mem_cons_self
    rw [List.nil_append, List.cons_append, readSign]
    all_goals
      rintro _ heq
      rw [(List.cons.inj heq).1] at hc
      cases hc
  · rfl
  · rfl

theorem readExponent_append {exponent rest : Text}
    (h : exponent = [] ∨ ∃ mark sign digits, (mark = 'e' ∨ mark = 'E') ∧
      (sign = [] ∨ sign = ['+'] ∨ sign = ['-']) ∧ Digits digits ∧
      exponent = mark :: sign ++ digits)
    (hrest : Stops rest) : readExponent (exponent ++ rest) = exponent := by
  obtain rfl | ⟨mark, sign, digits, hmark, hsign, hdigits, rfl⟩ := h
  · cases rest with
    | nil => rfl
    | cons c rest =>
        have hc := hrest.head? (c := c) rfl
        simp [readExponent, hc.2.2]
  · have htake := hdigits.takeWhile_append hrest.noDigit
    have hread := readSign_append hsign hdigits rest
    rw [List.append_assoc] at hread
    simp [readExponent, hread, htake, hmark, hdigits.1]

theorem WellFormed.digits_whole {n : Number} (h : n.WellFormed) : Digits n.whole := by
  obtain hzero | ⟨hdigits, _⟩ := h.whole
  · simp [hzero, Digits]
  · exact hdigits

theorem WellFormed.head?_exponent {n : Number} (h : n.WellFormed) {rest : Text}
    (hrest : Stops rest) : ∀ c ∈ (n.exponent ++ rest).head?, c.isDigit = false ∧ c ≠ '.' := by
  intro c hc
  obtain hnone | ⟨mark, sign, digits, hmark, _, _, hsome⟩ := h.exponent
  · rw [hnone] at hc
    exact ⟨(hrest.head? hc).1, (hrest.head? hc).2.1⟩
  · rw [hsome] at hc
    obtain rfl : mark = c := by simpa using hc
    obtain rfl | rfl := hmark <;> decide

theorem WellFormed.noDigit_fraction {n : Number} (h : n.WellFormed) {rest : Text}
    (hrest : Stops rest) : NoDigit (n.fraction ++ (n.exponent ++ rest)) := by
  intro c hc
  obtain hnone | ⟨digits, _, hsome⟩ := h.fraction
  · rw [hnone] at hc
    exact (h.head?_exponent hrest c hc).1
  · rw [hsome] at hc
    obtain rfl : '.' = c := by simpa using hc
    rfl

/-- A number starts with a digit, or with a minus sign and a digit. -/
theorem WellFormed.lexeme_cases {n : Number} (h : n.WellFormed) :
    ∃ d t, d.isDigit = true ∧
      (n.sign = [] ∧ n.lexeme = d :: t ∨ n.sign = ['-'] ∧ n.lexeme = '-' :: d :: t) := by
  obtain ⟨d, digits, hwhole⟩ := List.exists_cons_of_ne_nil h.digits_whole.1
  have hd : d.isDigit = true := h.digits_whole.2 d (by simp [hwhole])
  refine ⟨d, digits ++ n.fraction ++ n.exponent, hd, ?_⟩
  obtain hsign | hsign := h.sign <;> simp [lexeme, hsign, hwhole]

theorem WellFormed.read?_append {n : Number} (h : n.WellFormed) {rest : Text}
    (hrest : Stops rest) : read? (n.lexeme ++ rest) = some n := by
  have hsign : (if (n.lexeme ++ rest).head? = some '-' then ['-'] else []) = n.sign := by
    obtain ⟨d, t, hd, ⟨hsign, hlexeme⟩ | ⟨hsign, hlexeme⟩⟩ := h.lexeme_cases
    · simp [hlexeme, hsign, ne_of_isDigit hd]
    · simp [hlexeme, hsign]
  have hafter := h.head?_exponent hrest
  have hwhole := readWhole_append h.whole (h.noDigit_fraction hrest)
  have hfraction := readFraction_append h.fraction (fun c hc => (hafter c hc).1)
    (fun hpoint => (hafter '.' hpoint).2 rfl)
  have hexponent := readExponent_append h.exponent hrest
  simp only [read?, hsign]
  simp [lexeme, List.append_assoc, hwhole, hfraction, hexponent, h.digits_whole.1]

end Number

/-! ## Lexemes -/

theorem lexFrom_spaces {a : Text} (ha : Spaces a) (offset : Nat) (rest : Text) :
    ∃ next, lexFrom offset (a ++ rest) = lexFrom next rest := by
  induction a generalizing offset with
  | nil => exact ⟨offset, rfl⟩
  | cons c a ih =>
      obtain ⟨hc, ha⟩ := List.forall_mem_cons.mp ha
      rw [List.cons_append, lexFrom, if_pos hc]
      exact ih ha (offset + 1)

/-- A lexeme is read off the front of a text. -/
theorem lexFrom_of_readToken (c : Char) (lexeme rest : Text) {token : Token} {offset : Nat}
    (hc : isSpace c = false)
    (hread : readToken offset c (lexeme ++ rest) = (token, lexeme.length)) :
    ∃ next, lexFrom offset (c :: lexeme ++ rest) = ⟨offset, token⟩ :: lexFrom next rest := by
  refine ⟨offset + lexeme.length + 1, ?_⟩
  rw [List.cons_append, lexFrom, if_neg (by simp [hc]), hread]
  simp

theorem lexFrom_mark {c : Char} {token : Token} (h : mark? c = some token) (offset : Nat)
    (rest : Text) : ∃ next, lexFrom offset (c :: rest) = ⟨offset, token⟩ :: lexFrom next rest := by
  apply lexFrom_of_readToken c [] rest
  · rw [mark?.eq_def] at h
    split at h <;> first | rfl | cases h
  · simp [readToken, h]

theorem lexFrom_quoted {s t : Text} (h : Quoted s t) (offset : Nat) (rest : Text) :
    ∃ next, lexFrom offset (t ++ rest) = ⟨offset, .string (.ok s)⟩ :: lexFrom next rest := by
  obtain ⟨body, hbody, rfl⟩ := h
  apply lexFrom_of_readToken '"' (body ++ ['"']) rest rfl
  have hread := readString_body hbody offset (offset + 1) rest
  simp [readToken, mark?, hread, Utf16.decode_encode]

theorem readWord?_of_isDigit {d : Char} (hd : d.isDigit = true) (t : Text) :
    readWord? (d :: t) = none ∧ readWord? ('-' :: d :: t) = none := by
  have hne (c : Char) (hc : c.isDigit = false) : c ≠ d := (ne_of_isDigit hd hc).symm
  constructor <;> simp [readWord?, words, List.findSome?, hne]

theorem lexFrom_number {n : Number} (h : n.WellFormed) {rest : Text} (hrest : Stops rest)
    (offset : Nat) :
    ∃ next, lexFrom offset (n.lexeme ++ rest) =
      ⟨offset, .literal (.ok (.number n.lexeme))⟩ :: lexFrom next rest := by
  have hread := h.read?_append hrest
  have hvalue : n.value = .ok (.number n.lexeme) := by
    rw [Number.value, if_neg]
    rintro ⟨hinteger, hlt⟩
    exact Nat.not_lt.mpr (h.length_le hinteger) hlt
  obtain ⟨d, t, hd, ⟨-, hlexeme⟩ | ⟨-, hlexeme⟩⟩ := h.lexeme_cases
  · have hword := (readWord?_of_isDigit hd (t ++ rest)).1
    rw [hlexeme] at hread hvalue ⊢
    rw [List.cons_append] at hread
    apply lexFrom_of_readToken d t rest
    · simp [isSpace, ne_of_isDigit hd]
    · simp [readToken, mark?, ne_of_isDigit hd, hword, hread, hvalue, hlexeme]
  · have hword := (readWord?_of_isDigit hd (t ++ rest)).2
    rw [hlexeme] at hread hvalue ⊢
    rw [List.cons_append, List.cons_append] at hread
    apply lexFrom_of_readToken '-' (d :: t) rest rfl
    simp [readToken, mark?, hword, hread, hvalue, hlexeme]

theorem lexFrom_word {word : Text} {value : Value} (h : (word, value) ∈ words.take 3) (offset : Nat)
    (rest : Text) :
    ∃ next, lexFrom offset (word ++ rest) =
      ⟨offset, .literal (.ok value)⟩ :: lexFrom next rest := by
  have h : word = ['n', 'u', 'l', 'l'] ∧ value = .null ∨
      word = ['t', 'r', 'u', 'e'] ∧ value = .bool true ∨
      word = ['f', 'a', 'l', 's', 'e'] ∧ value = .bool false := by
    simpa [words] using h
  obtain ⟨rfl, rfl⟩ | ⟨rfl, rfl⟩ | ⟨rfl, rfl⟩ := h
  all_goals exact lexFrom_of_readToken _ _ rest rfl (by simp [readToken, mark?, readWord?, words])

/-! ## Phrases -/

/-- The state goes on as one in which a value must stand, unless an array ends. -/
def State.StartsValue (state : State) (stack : List Frame) : Prop :=
  ∀ x, x.token ≠ .closeArray → state.step x = startValue stack x

/-- The state goes on as one in which a name must stand, unless an object ends. -/
def State.StartsMember (state : State) (members : List (Text × Value)) (stack : List Frame) :
    Prop :=
  ∀ x, x.token ≠ .closeObject → state.step x = startMember members stack x

/-- The state in front of a phrase and the one behind it. -/
inductive Phrase.Leads : Phrase → State → State → Prop where
  | value {v state stack} (h : state.StartsValue stack) : Leads (.value v) state (.put v stack)
  | element {v state stack} (h : state.StartsValue stack) : Leads (.element v) state (.put v stack)
  | elements {vs state items stack} (h : state.StartsValue (.array items :: stack)) :
      Leads (.elements vs) state (.afterItem (items ++ vs) stack)
  | members {ms state members stack} (h : state.StartsMember members stack)
      (hnames : ((members ++ ms).map Prod.fst).Nodup) :
      Leads (.members ms) state (.afterMember (members ++ ms) stack)

namespace State

/-- One lexeme is read, and the rest of the text is still to be read. -/
theorem run_lexeme {state after : State} {offset : Nat} {text rest : Text} {token : Token}
    (hlex : ∃ next, lexFrom offset text = ⟨offset, token⟩ :: lexFrom next rest)
    (hstep : state.step ⟨offset, token⟩ = .ok after) :
    ∃ next, state.run (lexFrom offset text) = after.run (lexFrom next rest) := by
  obtain ⟨next, hlex⟩ := hlex
  exact ⟨next, by rw [hlex, run, hstep]⟩

theorem run_mark (state : State) (c : Char) {after : State} {token : Token}
    (hc : mark? c = some token) (hstep : ∀ offset, state.step ⟨offset, token⟩ = .ok after)
    (offset : Nat) (rest : Text) :
    ∃ next, state.run (lexFrom offset (c :: rest)) = after.run (lexFrom next rest) :=
  run_lexeme (lexFrom_mark hc offset rest) (hstep offset)

/-- A mark that opens, what stands behind it, and the mark that closes. -/
theorem run_enclosed {state inside filled after : State} {c d : Char} {opening closing : Token}
    {t rest : Text} (hc : mark? c = some opening) (hd : mark? d = some closing)
    (hopen : ∀ offset, state.step ⟨offset, opening⟩ = .ok inside)
    (ht : ∀ offset, ∃ next, inside.run (lexFrom offset (t ++ d :: rest)) =
      filled.run (lexFrom next (d :: rest)))
    (hclose : ∀ offset, filled.step ⟨offset, closing⟩ = .ok after) (offset : Nat) :
    ∃ next, state.run (lexFrom offset (c :: t ++ [d] ++ rest)) =
      after.run (lexFrom next rest) := by
  simp only [List.cons_append, List.append_assoc, List.nil_append]
  obtain ⟨n₁, h₁⟩ := run_mark state c hc hopen offset (t ++ d :: rest)
  obtain ⟨n₂, h₂⟩ := ht n₁
  obtain ⟨n₃, h₃⟩ := run_mark filled d hd hclose n₂ rest
  exact ⟨n₃, by rw [h₁, h₂, h₃]⟩

theorem run_spaces (state : State) {b : Text} (hb : Spaces b) (rest : Text) (offset : Nat) :
    ∃ next, state.run (lexFrom offset (b ++ rest)) = state.run (lexFrom next rest) := by
  obtain ⟨next, hnext⟩ := lexFrom_spaces hb offset rest
  exact ⟨next, by rw [hnext]⟩

theorem startsValue_beforeValue (stack : List Frame) : (beforeValue stack).StartsValue stack :=
  fun _ _ => rfl

theorem startsValue_firstItem (stack : List Frame) :
    (firstItem stack).StartsValue (.array [] :: stack) := by
  intro x hx
  rw [step]
  split
  · contradiction
  · rfl

theorem startsMember_beforeName (members : List (Text × Value)) (stack : List Frame) :
    (beforeName members stack).StartsMember members stack :=
  fun _ _ => rfl

theorem startsMember_firstName (stack : List Frame) : (firstName stack).StartsMember [] stack := by
  intro x hx
  rw [step]
  split
  · contradiction
  · rfl

end State

theorem Stops.spaces_append {b rest : Text} (hb : Spaces b) (h : Stops rest) :
    Stops (b ++ rest) := by
  cases b with
  | nil => exact h
  | cons c b =>
      rintro _ ⟨⟩
      exact Or.inl (hb c List.mem_cons_self)

theorem stops_cons {c : Char} (hc : c = ',' ∨ c = ']' ∨ c = '}') (rest : Text) :
    Stops (c :: rest) := by
  rintro _ ⟨⟩
  exact Or.inr hc

theorem notMem_of_nodup_append {members ms : List (Text × Value)} {m : Text × Value}
    (h : ((members ++ m :: ms).map Prod.fst).Nodup) : m.1 ∉ members.map Prod.fst := by
  rw [List.map_append, List.map_cons] at h
  exact fun hm => (List.nodup_append.mp h).2.2 m.1 hm m.1 List.mem_cons_self rfl

/-- The name of a member, a colon and its value. -/
theorem State.run_member {state : State} {members : List (Text × Value)} {stack : List Frame}
    (hstate : state.StartsMember members stack) {name : Text} {v : Value}
    (hnew : name ∉ members.map Prod.fst) {a q b t : Text} (ha : Spaces a) (hname : Quoted name q)
    (hb : Spaces b)
    (hvalue : ∀ {state after : State}, (Phrase.element v).Leads state after → ∀ offset {rest},
      Stops rest →
        ∃ next, state.run (lexFrom offset (t ++ rest)) = after.run (lexFrom next rest))
    (offset : Nat) {rest : Text} (hrest : Stops rest) :
    ∃ next, state.run (lexFrom offset (a ++ q ++ b ++ ':' :: t ++ rest)) =
      (afterMember (members ++ [(name, v)]) stack).run (lexFrom next rest) := by
  simp only [List.append_assoc, List.cons_append]
  obtain ⟨n₁, h₁⟩ := lexFrom_spaces ha offset (q ++ (b ++ ':' :: (t ++ rest)))
  obtain ⟨n₂, h₂⟩ := run_lexeme (lexFrom_quoted hname n₁ (b ++ ':' :: (t ++ rest)))
    (hstate _ nofun)
  obtain ⟨n₃, h₃⟩ := lexFrom_spaces hb n₂ (':' :: (t ++ rest))
  obtain ⟨n₄, h₄⟩ := run_mark (beforeColon members name stack) ':' rfl
    (fun _ => rfl) n₃ (t ++ rest)
  obtain ⟨n₅, h₅⟩ := hvalue (.element (startsValue_beforeValue (.object members name :: stack))) n₄
    hrest
  refine ⟨n₅, ?_⟩
  rw [h₁, h₂, h₃, h₄, h₅, put, Entries.set, Entries.alter_of_notMem hnew]

/-- Reading the text of a phrase leads to the state behind it. -/
theorem Derives.run {phrase : Phrase} {text : Text} (h : Derives phrase text) {state after : State}
    (hleads : phrase.Leads state after) (offset : Nat) {rest : Text} (hrest : Stops rest) :
    ∃ next, state.run (lexFrom offset (text ++ rest)) = after.run (lexFrom next rest) := by
  induction h generalizing state after offset rest with
  | null =>
      obtain ⟨hstate⟩ := hleads
      exact State.run_lexeme (lexFrom_word (by simp [words]) offset rest) (hstate _ nofun)
  | true =>
      obtain ⟨hstate⟩ := hleads
      exact State.run_lexeme (lexFrom_word (by simp [words]) offset rest) (hstate _ nofun)
  | false =>
      obtain ⟨hstate⟩ := hleads
      exact State.run_lexeme (lexFrom_word (by simp [words]) offset rest) (hstate _ nofun)
  | number hn =>
      obtain ⟨hstate⟩ := hleads
      exact State.run_lexeme (lexFrom_number hn hrest offset) (hstate _ nofun)
  | string hs =>
      obtain ⟨hstate⟩ := hleads
      exact State.run_lexeme (lexFrom_quoted hs offset rest) (hstate _ nofun)
  | emptyArray hb =>
      obtain ⟨hstate⟩ := hleads
      exact State.run_enclosed (c := '[') (d := ']') rfl rfl (fun _ => hstate _ nofun)
        (State.run_spaces (.firstItem _) hb _) (fun _ => rfl) offset
  | array _ ih =>
      obtain ⟨hstate⟩ := hleads
      exact State.run_enclosed (c := '[') (d := ']') rfl rfl (fun _ => hstate _ nofun)
        (fun n => ih (.elements (State.startsValue_firstItem _)) n (stops_cons (by simp) rest))
        (fun _ => rfl) offset
  | emptyObject hb =>
      obtain ⟨hstate⟩ := hleads
      exact State.run_enclosed (c := '{') (d := '}') rfl rfl (fun _ => hstate _ nofun)
        (State.run_spaces (.firstName _) hb _) (fun _ => rfl) offset
  | object hnames _ ih =>
      obtain ⟨hstate⟩ := hleads
      exact State.run_enclosed (c := '{') (d := '}') rfl rfl (fun _ => hstate _ nofun)
        (fun n => ih (.members (State.startsMember_firstName _) hnames) n
          (stops_cons (by simp) rest))
        (fun _ => rfl) offset
  | @element v a t b ha hb _ ih =>
      obtain _ | ⟨hstate⟩ := hleads
      simp only [List.append_assoc]
      obtain ⟨n₁, h₁⟩ := lexFrom_spaces ha offset (t ++ (b ++ rest))
      obtain ⟨n₂, h₂⟩ := ih (.value hstate) n₁ (hrest.spaces_append hb)
      obtain ⟨n₃, h₃⟩ := lexFrom_spaces hb n₂ rest
      exact ⟨n₃, by rw [h₁, h₂, h₃]⟩
  | lastElement _ ih =>
      obtain _ | _ | ⟨hstate⟩ := hleads
      exact ih (.element hstate) offset hrest
  | @elements v vs t u _ _ ihv ih =>
      obtain _ | _ | @⟨_, _, items, stack, hstate⟩ := hleads
      simp only [List.append_assoc, List.cons_append]
      obtain ⟨n₁, h₁⟩ := ihv (.element hstate) offset (stops_cons (c := ',') (by simp) (u ++ rest))
      obtain ⟨n₂, h₂⟩ := State.run_mark (.afterItem (items ++ [v]) stack) ',' rfl
        (fun _ => rfl) n₁ (u ++ rest)
      obtain ⟨n₃, h₃⟩ := ih (.elements (State.startsValue_beforeValue _)) n₂ hrest
      exact ⟨n₃, by rw [h₁, State.put, h₂, h₃, List.append_assoc, List.singleton_append]⟩
  | lastMember ha hname hb _ ih =>
      obtain _ | _ | _ | ⟨hstate, hnames⟩ := hleads
      exact State.run_member hstate (notMem_of_nodup_append hnames) ha hname hb ih offset hrest
  | @members name v ms a q b t u ha hname hb _ _ ihv ih =>
      obtain _ | _ | _ | @⟨_, _, members, stack, hstate, hnames⟩ := hleads
      obtain ⟨n₁, h₁⟩ := State.run_member hstate (notMem_of_nodup_append hnames) ha hname hb ihv
        offset (stops_cons (c := ',') (by simp) (u ++ rest))
      obtain ⟨n₂, h₂⟩ := State.run_mark (.afterMember (members ++ [(name, v)]) stack) ','
        rfl (fun _ => rfl) n₁ (u ++ rest)
      have hnames' : ((members ++ [(name, v)] ++ ms).map Prod.fst).Nodup := by simpa using hnames
      obtain ⟨n₃, h₃⟩ := ih (.members (State.startsMember_beforeName _ _) hnames') n₂ hrest
      refine ⟨n₃, ?_⟩
      simp only [List.append_assoc, List.cons_append, List.nil_append] at h₁ h₃ ⊢
      rw [h₁, h₂, h₃]

theorem Denotes.run_eq {t : Text} {v : Value} (h : Denotes t v) :
    (State.beforeValue []).run (lex t) = .ok (.done v) := by
  have hleads := Phrase.Leads.element (v := v) (State.startsValue_beforeValue [])
  have hstops : Stops [] := by simp [Stops]
  obtain ⟨next, hrun⟩ := h.run hleads 0 hstops
  rw [List.append_nil] at hrun
  rw [lex, hrun, lexFrom]
  rfl

/-- No value starts with a byte-order mark. -/
theorem Denotes.head?_ne {t : Text} {v : Value} (h : Denotes t v) : t.head? ≠ some '\uFEFF' := by
  intro hmark
  obtain ⟨t, rfl⟩ := List.head?_eq_some_iff.mp hmark
  have hread : readToken 0 '\uFEFF' t = (.other, 0) := by
    simp [readToken, mark?, readWord?, words, Number.read?, Number.readWhole, Char.isDigit]
  have hrun := h.run_eq
  rw [lex, lexFrom, if_neg (by decide), hread] at hrun
  cases hrun

/-- The reader answers every text that denotes a value with the value. -/
theorem Denotes.read_eq {t : Text} {v : Value} (h : Denotes t v) : read t = .ok v := by
  rw [read, if_neg h.head?_ne, h.run_eq]
  rfl

theorem Denotes.eq {t : Text} {v w : Value} (hv : Denotes t v) (hw : Denotes t w) : v = w :=
  Except.ok.inj (hv.read_eq.symm.trans hw.read_eq)

end Json

end JassDecl
