import JassDecl.Plan
import JassDecl.Proofs.Encoding
import JassDecl.Proofs.JsonReading
import JassDecl.Proofs.Layering
import JassDecl.Proofs.Overriding
import JassDecl.Proofs.Splitting
import Mathlib.Algebra.Group.Nat.Defs

/-! # Files of tables

A table that is written to a file is read back from it as it was, and a run that names the file asks
the table for the types of parameters before the default one. -/

namespace JassDecl

/-! ## Decimal numbers -/

namespace Text.Numeral

theorem isDigit_of_mem_ofNat {n : Nat} {c : Char} (h : c ∈ ofNat n) : c.isDigit = true :=
  Nat.isDigit_of_mem_toDigits (by decide) (by decide) h

theorem toNat_of_isDigit {c : Char} (h : c.isDigit = true) : 0x30 ≤ c.toNat ∧ c.toNat ≤ 0x39 := by
  simpa [Char.isDigit, UInt32.le_iff_toNat_le] using h

theorem trimWhere_eq_self {p : Char → Bool} {t : Text} (h : ∀ c ∈ t, p c = false) :
    trimWhere p t = t := by
  have hdrop {u : Text} (hu : ∀ c ∈ u, p c = false) : u.dropWhile p = u := by
    cases u with
    | nil => rfl
    | cons c u => rw [List.dropWhile_cons_of_neg (by simp [hu c])]
  rw [trimWhere, hdrop h, hdrop (by simpa using h), List.reverse_reverse]

theorem digits?_ofNat (n : Nat) : digits? (ofNat n) = some (ofNat n) := by
  have hsplit : splitOn '_' (ofNat n) = [ofNat n] := by
    rw [splitOn, splitWhere_eq_splitOnP]
    apply List.splitOnP_eq_singleton
    intro c hc
    simpa using Json.ne_of_isDigit (isDigit_of_mem_ofNat hc) rfl
  have hne : ofNat n ≠ [] := Nat.toDigits_ne_nil
  have hall : ∀ c ∈ ofNat n, c.isDigit = true := fun _ => isDigit_of_mem_ofNat
  rw [digits?, hsplit]
  simpa [hne] using hall

theorem natural?_ofNat {n : Nat} (h : (ofNat n).length ≤ maxDigits) :
    natural? (ofNat n) = some n := by
  have hvalue : Nat.ofDigitChars 10 (ofNat n) 0 = n := Nat.ofDigitChars_ten_toDigits
  simp [natural?, digits?_ofNat, h, hvalue]

theorem ofNat_injective : Function.Injective ofNat := by
  intro m n h
  have hvalue := congrArg (Nat.ofDigitChars 10 · 0) h
  simpa [ofNat, Nat.ofDigitChars_ten_toDigits] using hvalue

/-- A number in decimal is read back. -/
theorem integer?_ofNat {n : Nat} (h : (ofNat n).length ≤ maxDigits) :
    integer? (ofNat n) = some (.ofNat n) := by
  have hdigit {c : Char} (hc : c ∈ ofNat n) := isDigit_of_mem_ofNat hc
  have hascii : (ofNat n).map toAscii = ofNat n := by
    have hchar : ∀ c ∈ ofNat n, toAscii c = id c := by
      intro c hc
      have := toNat_of_isDigit (hdigit hc)
      exact if_pos (by omega)
    rw [List.map_congr_left hchar, List.map_id]
  have htrim : trimWhere isAsciiSpace (ofNat n) = ofNat n := by
    apply trimWhere_eq_self
    intro c hc
    have := toNat_of_isDigit (hdigit hc)
    have hspace := Json.ne_of_isDigit (hdigit hc) (show ' '.isDigit = false from rfl)
    simp [isAsciiSpace, hspace]
    omega
  rw [integer?, hascii, htrim]
  split
  · next hsign => exact absurd (hdigit (c := '+') (by simp [hsign])) (by decide)
  · next hsign => exact absurd (hdigit (c := '-') (by simp [hsign])) (by decide)
  · rw [natural?_ofNat h]
    rfl

end Text.Numeral

/-! ## Texts in files -/

theorem Text.unifyNewlines_eq_self {t : Text} (h : '\r' ∉ t) : unifyNewlines t = t := by
  fun_induction unifyNewlines t with
  | case1 => rfl
  | case2 => simp at h
  | case3 => simp at h
  | case4 c rest _ _ ih =>
      rw [List.mem_cons, not_or] at h
      rw [ih h.2]

namespace Json.Textual

variable {v : Value}

theorem read_unifyNewlines_render (h : Textual v) (layout : Layout) :
    read (Text.unifyNewlines (render layout v)) = .ok v := by
  have hreturn : '\r' ∉ render layout v :=
    fun hc => (h.allPrinted_write layout 0 '\r' hc).ne_return rfl
  have hdenotes := h.denotes_render layout spaces_nil
  rw [List.append_nil] at hdenotes
  rw [Text.unifyNewlines_eq_self hreturn, hdenotes.read_eq]

end Json.Textual

/-! ## Tables -/

namespace Override

/-- Every position of the table has only so many digits that it can be read. -/
def Table.Readable (table : Table) : Prop :=
  ∀ entry ∈ table.entries, ∀ position ∈ entry.2.keys,
    (Text.ofNat position).length ≤ Text.Numeral.maxDigits

theorem readPositions_positionsToJson (name : Text) {positions : Positions}
    (h : ∀ position ∈ positions.keys, (Text.ofNat position).length ≤ Text.Numeral.maxDigits) :
    readPositions name (Table.positionsToJson positions) = .ok positions := by
  have hentry : ∀ entry ∈ positions.entries,
      readEntry name (Text.ofNat entry.1) (.string entry.2) = .ok (id entry) := by
    intro entry hentry
    have hposition := h entry.1 (List.mem_map_of_mem hentry)
    simp [readEntry, Text.Numeral.integer?_ofNat hposition]
  simp only [Table.positionsToJson, readPositions, List.mapM_map, Function.comp_def]
  rw [TypeScript.mapM_eq_ok hentry, List.map_id]
  exact congrArg Except.ok positions.ofList_entries

namespace Table

theorem ofJson_toJson {table : Table} (h : table.Readable) : ofJson table.toJson = .ok table := by
  have hentry : ∀ entry ∈ table.entries,
      (do return (entry.1, ← readPositions entry.1 (positionsToJson entry.2))) =
        (Except.ok (id entry) : Except Fault _) := by
    intro entry hentry
    rw [readPositions_positionsToJson entry.1 (h entry hentry)]
    rfl
  simp only [toJson, ofJson, List.mapM_map, Function.comp_def]
  rw [TypeScript.mapM_eq_ok hentry, List.map_id]
  exact congrArg Except.ok table.ofList_entries

theorem textual_positionsToJson (positions : Positions) :
    Json.Textual (positionsToJson positions) := by
  refine .object ?_ ?_
  · have hkeys := positions.nodup.map Text.Numeral.ofNat_injective
    rw [List.map_map] at hkeys ⊢
    exact hkeys
  · rintro m hm
    obtain ⟨entry, _, rfl⟩ := List.mem_map.mp hm
    exact .string entry.2

theorem textual_toJson (table : Table) : Json.Textual table.toJson := by
  refine .object ?_ ?_
  · rw [List.map_map]
    exact table.nodup
  · rintro m hm
    obtain ⟨entry, _, rfl⟩ := List.mem_map.mp hm
    exact textual_positionsToJson entry.2

theorem ofBytes_toBytes (layout : Json.Layout) {table : Table} (h : table.Readable) :
    ofBytes (table.toBytes layout) = .ok table := by
  rw [ofBytes, toBytes, Utf8.decode_encode]
  simp only [ofText, table.textual_toJson.read_unifyNewlines_render]
  exact ofJson_toJson h

end Table

/-- What comes of a table that is written to a file. -/
structure FileSpec (layout : Json.Layout) (table : Table) : Prop where
  ofBytes_eq : Table.ofBytes (table.toBytes layout) = .ok table
  /-- A run that names the file asks it first, the default table second, and the declaration of the
  parameter last. The tables answer past the last parameter, too. -/
  readTable : ∀ read path, read path = some (table.toBytes layout) →
    ∃ layered, Plan.readTable read (some path) = .ok layered ∧
      (∀ native position type, (table.type? native.name position).or
          (Table.default.type? native.name position) = some type →
        TypeScript.nativeArgumentType layered native position = .ok type) ∧
      ∀ native position argument, native.arguments[position]? = some argument →
        TypeScript.nativeArgumentType layered native position =
          .ok (((table.type? native.name position).or
            (Table.default.type? native.name position)).getD
              (TypeScript.argumentType argument.type))

/-- A table is read back from the file it is written to. -/
theorem fileSpec_toBytes (layout : Json.Layout) {table : Table} (h : table.Readable) :
    FileSpec layout table where
  ofBytes_eq := Table.ofBytes_toBytes layout h
  readTable read path hread := by
    refine ⟨Table.default.layer table, ?_, ?_, ?_⟩
    · simp only [Plan.readTable, Plan.tableAt, hread, Table.ofBytes_toBytes layout h]
    · intro native position type htype
      rw [TypeScript.nativeArgumentType, Table.type?_layer, htype]
    · intro native position argument hargument
      rw [TypeScript.nativeArgumentType_eq_shownType hargument, TypeScript.shownType,
        Table.type?_layer]

/-- A name without positions, a long position, and characters that are escaped. -/
theorem fileSpec_toBytes_escapes :
    let table : Table := .ofList
      [("Filter".toList, .ofList [(1, "a|\"😀\\\r\n".toList), (10 ^ 30, [])]), ("é".toList, .empty)]
    let native : Prototype :=
      ⟨"Filter".toList, [⟨"code".toList, "f".toList⟩, ⟨"unit".toList, []⟩], []⟩
    table.Readable ∧ Table.ofBytes (table.toBytes (.indented 2)) = .ok table ∧
      ∃ layered,
        Plan.readTable (fun _ => some (table.toBytes (.indented 2))) (some ['t']) = .ok layered ∧
        TypeScript.nativeArgumentType layered native 0 = .ok "() => boolean".toList ∧
        TypeScript.nativeArgumentType layered native 1 = .ok "a|\"😀\\\r\n".toList := by
  intro table native
  have hreadable : table.Readable := by
    unfold Table.Readable
    decide
  obtain ⟨hbytes, htable⟩ := fileSpec_toBytes (.indented 2) hreadable
  obtain ⟨layered, hlayered, -, htypes⟩ :=
    htable (fun _ => some (table.toBytes (.indented 2))) ['t'] rfl
  refine ⟨hreadable, hbytes, layered, hlayered, ?_, ?_⟩
  · exact htypes native 0 _ rfl
  · exact htypes native 1 _ rfl

end Override

end JassDecl
