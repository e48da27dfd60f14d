import JassDecl.GlobalLine
import JassDecl.Library.Source
import JassDecl.Proofs.Fitting

/-! # Lines that declare globals -/

namespace JassDecl.GlobalDecl

open Token (Fits IsName IsWord RestOfLine)

/-- A global that one line can declare. -/
structure WellFormed (d : GlobalDecl) : Prop where
  type : IsName Keyword.endglobals d.type
  name : IsName Keyword.endglobals d.name
  type_ne : d.constant = false → d.type ≠ Keyword.constant
  value : ∀ v ∈ d.value, v ≠ [] ∧ RestOfLine Keyword.endglobals v

/-! ## The words in front of the value -/

/-- The words that stand in front of the value of a global. -/
def words (d : GlobalDecl) : List Text :=
  (if d.constant then [Keyword.constant] else []) ++ [d.type] ++
    (if d.array then [Keyword.array] else []) ++ [d.name]

/-- The global, constant or not and with the given value, that the other words declare. -/
def ofDeclarator? (constant : Bool) (value : Option Text) : List Text → Option GlobalDecl
  | [type, marker, name] =>
      if marker = Keyword.array then some ⟨constant, type, true, name, value⟩ else none
  | [type, name] => some ⟨constant, type, false, name, value⟩
  | _ => none

theorem ofDeclarator?_eq_some_iff {constant : Bool} {value : Option Text} {ws : List Text}
    {d : GlobalDecl} : ofDeclarator? constant value ws = some d ↔
      ws = [d.type] ++ (if d.array then [Keyword.array] else []) ++ [d.name] ∧
        constant = d.constant ∧ value = d.value := by
  constructor
  · intro h
    rw [ofDeclarator?.eq_def] at h
    split at h
    · split at h
      · rename_i hmarker
        obtain rfl := Option.some.inj h
        exact ⟨by simp [hmarker], rfl, rfl⟩
      · simp at h
    · obtain rfl := Option.some.inj h
      exact ⟨by simp, rfl, rfl⟩
    · simp at h
  · rintro ⟨rfl, rfl, rfl⟩
    obtain ⟨constant, type, array, name, value⟩ := d
    cases array <;> simp [ofDeclarator?]

/-- The global with the given value that all words declare. -/
def ofWords? (ws : List Text) (value : Option Text) : Option GlobalDecl :=
  if ws.head? = some Keyword.constant then ofDeclarator? true value (ws.drop 1)
  else ofDeclarator? false value ws

theorem ofWords?_eq_some_iff {ws : List Text} {value : Option Text} {d : GlobalDecl} :
    ofWords? ws value = some d ↔
      ws = d.words ∧ value = d.value ∧ (d.constant = false → d.type ≠ Keyword.constant) := by
  rw [ofWords?]
  split
  · rename_i hhead
    obtain ⟨ws, rfl⟩ : ∃ ws', ws = Keyword.constant :: ws' := List.head?_eq_some_iff.mp hhead
    rw [ofDeclarator?_eq_some_iff, List.drop_one, List.tail_cons]
    constructor
    · rintro ⟨rfl, hconstant, hvalue⟩
      exact ⟨by simp [words, ← hconstant], hvalue, by simp [← hconstant]⟩
    · rintro ⟨hws, hvalue, htype⟩
      cases hconstant : d.constant with
      | true =>
          rw [words, hconstant] at hws
          exact ⟨(List.cons.inj hws).2, rfl, hvalue⟩
      | false =>
          rw [words, hconstant] at hws
          exact absurd (List.cons.inj hws).1.symm (htype hconstant)
  · rename_i hhead
    rw [ofDeclarator?_eq_some_iff]
    constructor
    · rintro ⟨rfl, hconstant, hvalue⟩
      refine ⟨by simp [words, ← hconstant], hvalue, fun _ htype => hhead ?_⟩
      rw [htype]
      rfl
    · rintro ⟨rfl, hvalue, htype⟩
      cases hconstant : d.constant with
      | true => exact absurd (by simp [words, hconstant]) hhead
      | false => exact ⟨by simp [words, hconstant], rfl, hvalue⟩

/-! ## The tokens of a line -/

theorem ofLine?_eq_ofDeclarator? (line : Text) :
    ofLine? line =
      let constant := (Token.scan line).head?.any (·.text = Keyword.constant)
      let rest := if constant then (Token.scan line).drop 1 else Token.scan line
      if (rest.takeWhile (!·.isOperator '=')).all Token.isWord then
        ofDeclarator? constant (initializer? line rest)
          ((rest.takeWhile (!·.isOperator '=')).map Token.text)
      else none :=
  rfl

theorem ofLine?_eq (line : Text) :
    ofLine? line =
      if ((Token.scan line).takeWhile (!·.isOperator '=')).all Token.isWord then
        ofWords? (((Token.scan line).takeWhile (!·.isOperator '=')).map Token.text)
          (initializer? line (Token.scan line))
      else none := by
  rw [ofLine?_eq_ofDeclarator?]
  cases hscan : Token.scan line with
  | nil => rfl
  | cons first later =>
      by_cases hfirst : first.text = Keyword.constant
      · -- The first token is a word, so it does not start the value.
        have hlength : Keyword.constant.length ≠ 1 := by decide
        have hword : first.isWord = true := by
          rcases Token.text_of_mem_scanFrom first (hscan ▸ List.mem_cons_self) with
            ⟨hkind, -⟩ | ⟨-, c, hc, -⟩
          · rw [Token.isWord, hkind]
            rfl
          · exact absurd (by rw [← hfirst, hc, List.length_singleton]) hlength
        have hequals : first.isOperator '=' = false := Token.isOperator_of_isWord hword '='
        have hinit : initializer? line (first :: later) = initializer? line later := by
          rw [initializer?, initializer?, List.find?_cons_of_neg (by simp [hequals])]
        simp [hfirst, hword, hequals, hinit, ofWords?]
      · by_cases hequals : first.isOperator '=' = true
        · simp [hfirst, hequals, ofWords?, ofDeclarator?]
        · simp [hfirst, hequals, ofWords?]

/-! ## Lines that are read -/

theorem value_of_mem_initializer? {line v : Text} (hline : Fits Keyword.endglobals line)
    (h : v ∈ initializer? line (Token.scan line)) :
    v ≠ [] ∧ RestOfLine Keyword.endglobals v := by
  rw [initializer?] at h
  split at h
  · simp at h
  · rename_i equals hfind
    obtain ⟨-, ts, us, hscan, -⟩ := List.find?_eq_some_iff_append.mp hfind
    obtain ⟨a, b, rfl, hstart, rfl, rfl⟩ := Token.exists_eq_append_of_scan hscan
    have hdrop : (a ++ equals.text ++ b).drop equals.stop = b := by
      rw [Token.stop, hstart, ← List.length_append, List.drop_left]
    rw [hdrop, Text.nonempty?] at h
    split at h
    · simp at h
    · rename_i hne
      obtain rfl := Option.some.inj h
      exact ⟨by simpa using hne, (hline.of_scanFrom hscan).2.restOfLine_normal⟩

/-- What a line declares inside a block of globals is well-formed. -/
theorem wellFormed_of_ofLine? {line : Text} (hline : Fits Keyword.endglobals line)
    {d : GlobalDecl} (h : ofLine? line = some d) : d.WellFormed := by
  rw [ofLine?_eq] at h
  split at h
  · rename_i hwords
    obtain ⟨hds, hvalue, htype⟩ := ofWords?_eq_some_iff.mp h
    have hname : ∀ w ∈ d.words, IsName Keyword.endglobals w := by
      intro w hw
      rw [← hds] at hw
      obtain ⟨tok, htok, rfl⟩ := List.mem_map.mp hw
      exact hline.isName_of_mem_scan ((List.takeWhile_prefix _).subset htok)
        (List.all_eq_true.mp hwords tok htok)
    exact {
      type := hname d.type (by simp [words])
      name := hname d.name (by simp [words])
      type_ne := htype
      value := fun v hv => value_of_mem_initializer? hline (hvalue ▸ hv) }
  · simp at h

/-! ## Lines that are written -/

theorem isName_of_mem_words {d : GlobalDecl} (h : d.WellFormed) :
    ∀ w ∈ d.words, IsName Keyword.endglobals w := by
  intro w hw
  obtain ⟨constant, type, array, name, value⟩ := d
  have hconstant : IsName Keyword.endglobals Keyword.constant := by decide
  have harray : IsName Keyword.endglobals Keyword.array := by decide
  cases constant <;> cases array <;> simp only [words, Bool.false_eq_true, if_true, if_false,
    List.nil_append, List.append_nil, List.cons_append, List.mem_cons, List.not_mem_nil,
    or_false] at hw
  · rcases hw with rfl | rfl
    exacts [h.type, h.name]
  · rcases hw with rfl | rfl | rfl
    exacts [h.type, harray, h.name]
  · rcases hw with rfl | rfl | rfl
    exacts [hconstant, h.type, h.name]
  · rcases hw with rfl | rfl | rfl | rfl
    exacts [hconstant, h.type, harray, h.name]

theorem sourceLine_eq (d : GlobalDecl) :
    d.sourceLine = List.intercalate [' '] (d.words ++
      match d.value with | none => [] | some v => [['='], v]) :=
  rfl

theorem fits_sourceLine {d : GlobalDecl} (h : d.WellFormed) :
    Fits Keyword.endglobals d.sourceLine := by
  have hequals : Fits Keyword.endglobals ['='] :=
    ⟨⟨by decide, fun hp => absurd hp.length_le (by decide)⟩, by decide, by decide⟩
  rw [sourceLine_eq]
  refine Token.fits_intercalate (by decide) fun t ht => ?_
  rcases List.mem_append.mp ht with ht | ht
  · exact (isName_of_mem_words h t ht).fits
  · cases hv : d.value with
    | none => simp [hv] at ht
    | some v =>
        rw [hv] at ht
        rcases List.mem_pair.mp ht with rfl | rfl
        · exact hequals
        · exact (h.value t hv).2.fits

theorem flatMap_pieces_words {d : GlobalDecl} (h : d.WellFormed) :
    d.words.flatMap Line.pieces = d.words := by
  have hpieces : d.words.flatMap Line.pieces = d.words.flatMap fun w => [w] :=
    List.flatMap_congr fun w hw => Token.pieces_of_isWord (isName_of_mem_words h w hw).1
  rw [hpieces, List.flatMap_singleton']

/-- Tokens that are the words of a global, and then none or an `=`, are read as its head. -/
theorem takeWhile_words {d : GlobalDecl} {ts us : List Token}
    (hts : ts.map Token.lexeme = d.words.map fun w => (.word, w))
    (hus : ∀ t ∈ us.head?, t.isOperator '=' = true) :
    (ts ++ us).takeWhile (!·.isOperator '=') = ts := by
  have hnot : ∀ t ∈ ts, (!t.isOperator '=') = true := by
    intro t ht
    rw [Token.isOperator_of_isWord ((Token.words_of_map_lexeme hts).2 t ht)]
    rfl
  rw [List.takeWhile_append_of_pos hnot]
  cases us with
  | nil => rw [List.takeWhile_nil, List.append_nil]
  | cons u us =>
      rw [List.takeWhile_cons_of_neg (by simp [hus u (by simp)]), List.append_nil]

theorem ofLine?_of_words {d : GlobalDecl} (htype : d.constant = false → d.type ≠ Keyword.constant)
    {line : Text} {ts us : List Token} (hscan : Token.scan line = ts ++ us)
    (hts : ts.map Token.lexeme = d.words.map fun w => (.word, w))
    (hus : ∀ t ∈ us.head?, t.isOperator '=' = true)
    (hvalue : initializer? line (ts ++ us) = d.value) : ofLine? line = some d := by
  obtain ⟨htexts, hwords⟩ := Token.words_of_map_lexeme hts
  rw [ofLine?_eq, hscan, takeWhile_words hts hus, if_pos (List.all_eq_true.mpr hwords), htexts]
  exact ofWords?_eq_some_iff.mpr ⟨rfl, hvalue, htype⟩

theorem find?_equals_of_isWord {ts us : List Token} (hts : ∀ t ∈ ts, t.isWord = true) :
    (ts ++ us).find? (Token.isOperator '=') = us.find? (Token.isOperator '=') := by
  have hnone : ts.find? (Token.isOperator '=') = none :=
    List.find?_eq_none.mpr fun t ht => by simp [Token.isOperator_of_isWord (hts t ht)]
  rw [List.find?_append, hnone, Option.none_or]

/-- A well-formed global is read back from its line. -/
theorem ofLine?_sourceLine {d : GlobalDecl} (h : d.WellFormed) :
    ofLine? (Line.spaced d.sourceLine) = some d := by
  have hwords : ∀ w ∈ d.words, IsWord w := fun w hw => (isName_of_mem_words h w hw).1
  cases hv : d.value with
  | none =>
      have hlexemes : (Token.scan (Line.spaced d.sourceLine)).map Token.lexeme =
          d.words.map fun w => (.word, w) := by
        change Token.lexemes _ = _
        rw [Token.lexemes_spaced, sourceLine_eq, hv, List.append_nil, Token.lexemes_intercalate,
          Token.flatMap_lexemes_of_isWord hwords]
      refine ofLine?_of_words h.type_ne (List.append_nil _).symm hlexemes (by simp) ?_
      rw [initializer?, find?_equals_of_isWord (Token.words_of_map_lexeme hlexemes).2, hv]
      rfl
  | some v =>
      obtain ⟨hne, hrest⟩ := h.value v hv
      have hpieces : Line.pieces d.sourceLine = d.words ++ ['='] :: Line.pieces v := by
        rw [sourceLine_eq, Line.pieces_intercalate, List.flatMap_append, flatMap_pieces_words h, hv]
        simp only [List.flatMap_cons, List.flatMap_nil, List.append_nil]
        rfl
      have hscan := Token.scan_spaced
        (fun n => Token.scanFrom_operator (c := '=') (by decide) (by decide) n []) hpieces
      have hlexemes : (Token.scan (Line.leading d.words)).map Token.lexeme =
          d.words.map fun w => (.word, w) := by
        rw [← Token.flatMap_lexemes_of_isWord hwords]
        exact Token.lexemes_leading d.words
      refine ofLine?_of_words h.type_ne hscan hlexemes (fun t ht => ?_) ?_
      · rw [List.head?_cons, Option.mem_some_iff] at ht
        rw [← ht]
        rfl
      · have hline := Line.spaced_of_pieces hpieces
        have hplain : Line.Plain (Line.trailing (Line.pieces v)) :=
          (Line.plain_spaced (fits_sourceLine h).plain).of_isInfix
            ⟨Line.leading d.words ++ ['='], [], by rw [hline]; simp⟩
        have hdrop : (Line.spaced d.sourceLine).drop
            (Token.stop ⟨.operator, ['='], (Line.leading d.words).length⟩) =
              Line.trailing (Line.pieces v) := by
          rw [hline, Token.stop, ← List.length_append, ← List.append_assoc, List.drop_left]
        rw [initializer?, find?_equals_of_isWord (Token.words_of_map_lexeme hlexemes).2,
          List.find?_cons_of_pos (by rfl)]
        simp only [hdrop]
        rw [Line.normal_of_plain hplain, Line.spaced_trailing_pieces, hrest.spaced_eq, hv,
          Text.nonempty?, if_neg (by simpa using hne)]

end JassDecl.GlobalDecl
