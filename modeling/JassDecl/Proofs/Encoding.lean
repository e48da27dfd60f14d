import JassDecl.Text.Utf8
import JassDecl.Proofs.Settings
import Mathlib.Data.Char
import Mathlib.Data.List.Basic

/-! # Texts as bytes

Each code point has one sequence of bytes, the one of the standard encoding. Bytes can be read
exactly when they are the sequences of a text one after the other. -/

namespace JassDecl.Utf8

/-! ## Sequences -/

theorem toNat_ofNat {code : Nat} (h : code < 0xd800 ∨ 0xdfff < code ∧ code < 0x110000) :
    (Char.ofNat code).toNat = code := by
  rw [Char.ofNat, dif_pos h]
  rfl

theorem toNat_lt (c : Char) : c.toNat < 0xd800 ∨ 0xdfff < c.toNat ∧ c.toNat < 0x110000 :=
  c.valid

theorem ofNat_eq {n : Nat} {byte : UInt8} (h : n = byte.toNat) : UInt8.ofNat n = byte := by
  rw [h, UInt8.ofNat_toNat]

theorem exists_byte {n : Nat} (h : n < 256) : ∃ byte : UInt8, n = byte.toNat :=
  ⟨.ofNat n, (UInt8.toNat_ofNat_of_lt h).symm⟩

section Sizes

variable {c : Char} {first second third fourth : UInt8}

theorem encodeChar_one (h : c.toNat < 0x80) : encodeChar c = [.ofNat c.toNat] := by
  simp only [encodeChar, if_pos h]

theorem encodeChar_two (h : 0x80 ≤ c.toNat) (h' : c.toNat < 0x800)
    (hfirst : 0xc0 + c.toNat / 0x40 = first.toNat)
    (hsecond : 0x80 + c.toNat % 0x40 = second.toNat) : encodeChar c = [first, second] := by
  simp only [encodeChar, if_neg (Nat.not_lt.mpr h), if_pos h', Nat.div_one, ofNat_eq hfirst,
    ofNat_eq hsecond]

theorem encodeChar_three (h : 0x800 ≤ c.toNat) (h' : c.toNat < 0x10000)
    (hfirst : 0xe0 + c.toNat / 0x1000 = first.toNat)
    (hsecond : 0x80 + c.toNat / 0x40 % 0x40 = second.toNat)
    (hthird : 0x80 + c.toNat % 0x40 = third.toNat) : encodeChar c = [first, second, third] := by
  have hone : ¬ c.toNat < 0x80 := by omega
  simp only [encodeChar, if_neg hone, if_neg (Nat.not_lt.mpr h), if_pos h', Nat.div_one,
    ofNat_eq hfirst, ofNat_eq hsecond, ofNat_eq hthird]

theorem encodeChar_four (h : 0x10000 ≤ c.toNat) (hfirst : 0xf0 + c.toNat / 0x40000 = first.toNat)
    (hsecond : 0x80 + c.toNat / 0x1000 % 0x40 = second.toNat)
    (hthird : 0x80 + c.toNat / 0x40 % 0x40 = third.toNat)
    (hfourth : 0x80 + c.toNat % 0x40 = fourth.toNat) :
    encodeChar c = [first, second, third, fourth] := by
  have hone : ¬ c.toNat < 0x80 := by omega
  have htwo : ¬ c.toNat < 0x800 := by omega
  simp only [encodeChar, if_neg hone, if_neg htwo, if_neg (Nat.not_lt.mpr h), Nat.div_one,
    ofNat_eq hfirst, ofNat_eq hsecond, ofNat_eq hthird, ofNat_eq hfourth]

end Sizes

/-- The bytes of a code point are those of the standard encoding. -/
theorem encodeChar_eq (c : Char) : encodeChar c = String.utf8EncodeChar c := by
  have hc := toNat_lt c
  simp only [encodeChar, String.utf8EncodeChar, Char.toNat] at hc ⊢
  -- Both tell four sizes apart. Below the last code point the first byte needs no remainder.
  split_ifs <;> first | omega | rfl | simp only [List.cons.injEq, and_true, Nat.div_one]
  · refine ⟨?_, ?_⟩ <;> congr 1 <;> omega
  · refine ⟨?_, ?_, ?_⟩ <;> congr 1 <;> omega
  · refine ⟨?_, ?_, ?_, ?_⟩ <;> congr 1 <;> omega

theorem encode_eq (t : Text) : encode t = (String.ofList t).toByteArray.data.toList := by
  rw [String.toByteArray_ofList, List.utf8Encode, List.toList_data_toByteArray, encode,
    funext encodeChar_eq]

/-! ## Reading one sequence -/

theorem Range.has_iff {r : Range} {byte : UInt8} :
    r.has byte = true ↔ r.least ≤ byte.toNat ∧ byte.toNat ≤ r.greatest := by
  rw [Range.has, Bool.and_eq_true, decide_eq_true_iff, decide_eq_true_iff]

theorem follow_nil_eq_ok_iff {bits code : Nat} {bytes : Bytes} :
    follow bits [] bytes = .ok code ↔ bits = code := by
  rw [follow, Except.ok.injEq]

theorem follow_cons_eq_ok_iff {bits : Nat} {range : Range} {ranges : List Range}
    {bytes : Bytes} {code : Nat} :
    follow bits (range :: ranges) bytes = .ok code ↔
      ∃ byte rest, bytes = byte :: rest ∧ range.has byte = true ∧
        follow (bits * 0x40 + (byte.toNat - 0x80)) ranges rest = .ok code := by
  cases bytes with
  | nil => simp [follow]
  | cons byte rest =>
      cases hbyte : range.has byte <;>
        cases hrest : follow (bits * 0x40 + (byte.toNat - 0x80)) ranges rest <;>
        simp [follow, hbyte, hrest]

/-- What is read as a sequence is the sequence of the code point that is read. -/
theorem encodeChar_of_follow {byte : UInt8} {bytes : Bytes} {lead : Lead} {code : Nat}
    (hlead : Lead.ofByte? byte = some lead)
    (h : follow lead.bits lead.following bytes = .ok code) :
    encodeChar (Char.ofNat code) = byte :: bytes.take lead.following.length := by
  have hbyte : byte.toNat < 256 := byte.toNat_lt
  simp only [Lead.ofByte?] at hlead
  split_ifs at hlead <;> obtain rfl := Option.some.inj hlead <;>
    simp only [follow_cons_eq_ok_iff, follow_nil_eq_ok_iff, Range.has_iff, Range.following] at h
  · obtain ⟨second, _, rfl, hsecond, rfl⟩ := h
    apply encodeChar_two <;> rw [toNat_ofNat (by omega)] <;> omega
  -- Three first bytes have a second byte of their own range.
  iterate 3
    · obtain ⟨second, _, rfl, hsecond, third, _, rfl, hthird, rfl⟩ := h
      apply encodeChar_three <;> rw [toNat_ofNat (by omega)] <;> omega
  iterate 3
    · obtain ⟨second, _, rfl, hsecond, third, _, rfl, hthird, fourth, _, rfl, hfourth, rfl⟩ := h
      apply encodeChar_four <;> rw [toNat_ofNat (by omega)] <;> omega

/-- The first byte of three says in which range the second one lies. -/
theorem exists_range_three {c : Char} {first second : UInt8} (h : 0x800 ≤ c.toNat)
    (h' : c.toNat < 0x10000) (hfirst : 0xe0 + c.toNat / 0x1000 = first.toNat)
    (hsecond : 0x80 + c.toNat / 0x40 % 0x40 = second.toNat) :
    ∃ bits range, Lead.ofByte? first = some ⟨bits, [range, .following]⟩ ∧
      bits = c.toNat / 0x1000 ∧ range.least ≤ second.toNat ∧ second.toNat ≤ range.greatest := by
  have hc := toNat_lt c
  simp only [Lead.ofByte?]
  split_ifs <;> first | omega | refine ⟨_, _, rfl, ?_, ?_, ?_⟩
  all_goals first | omega | (dsimp only [Range.following]; omega)

/-- The first byte of four says in which range the second one lies. -/
theorem exists_range_four {c : Char} {first second : UInt8} (h : 0x10000 ≤ c.toNat)
    (hfirst : 0xf0 + c.toNat / 0x40000 = first.toNat)
    (hsecond : 0x80 + c.toNat / 0x1000 % 0x40 = second.toNat) :
    ∃ bits range, Lead.ofByte? first = some ⟨bits, [range, .following, .following]⟩ ∧
      bits = c.toNat / 0x40000 ∧ range.least ≤ second.toNat ∧ second.toNat ≤ range.greatest := by
  have hc := toNat_lt c
  simp only [Lead.ofByte?]
  split_ifs <;> first | omega | refine ⟨_, _, rfl, ?_, ?_, ?_⟩
  all_goals first | omega | (dsimp only [Range.following]; omega)

theorem has_following {byte : UInt8} {n : Nat} (h : 0x80 + n % 0x40 = byte.toNat) :
    Range.following.has byte = true := by
  rw [Range.has_iff]
  dsimp only [Range.following]
  omega

/-- The bytes of a code point of several bytes are read as a sequence. -/
theorem exists_lead (c : Char) (h : 0x80 ≤ c.toNat) :
    ∃ byte tail lead, encodeChar c = byte :: tail ∧ 0x80 ≤ byte.toNat ∧
      Lead.ofByte? byte = some lead ∧ lead.following.length = tail.length ∧
      ∀ rest, follow lead.bits lead.following (tail ++ rest) = .ok c.toNat := by
  have hc := toNat_lt c
  obtain ⟨last, hlast⟩ := exists_byte (n := 0x80 + c.toNat % 0x40) (by omega)
  by_cases htwo : c.toNat < 0x800
  · obtain ⟨first, hfirst⟩ := exists_byte (n := 0xc0 + c.toNat / 0x40) (by omega)
    have hlead : Lead.ofByte? first = some ⟨first.toNat - 0xc0, [.following]⟩ := by
      rw [Lead.ofByte?, if_neg (by omega), if_pos (by omega)]
    refine ⟨first, [last], _, encodeChar_two h htwo hfirst hlast, by omega, hlead, rfl, ?_⟩
    intro rest
    refine follow_cons_eq_ok_iff.mpr ⟨last, rest, rfl, has_following hlast, ?_⟩
    rw [follow_nil_eq_ok_iff]
    dsimp only
    omega
  obtain ⟨middle, hmiddle⟩ := exists_byte (n := 0x80 + c.toNat / 0x40 % 0x40) (by omega)
  by_cases hthree : c.toNat < 0x10000
  · obtain ⟨first, hfirst⟩ := exists_byte (n := 0xe0 + c.toNat / 0x1000) (by omega)
    obtain ⟨bits, range, hlead, hbits, hrange⟩ :=
      exists_range_three (Nat.not_lt.mp htwo) hthree hfirst hmiddle
    refine ⟨first, [middle, last], _,
      encodeChar_three (Nat.not_lt.mp htwo) hthree hfirst hmiddle hlast, by omega, hlead, rfl, ?_⟩
    intro rest
    refine follow_cons_eq_ok_iff.mpr ⟨middle, last :: rest, rfl, Range.has_iff.mpr hrange, ?_⟩
    refine follow_cons_eq_ok_iff.mpr ⟨last, rest, rfl, has_following hlast, ?_⟩
    rw [follow_nil_eq_ok_iff]
    dsimp only
    omega
  · obtain ⟨second, hsecond⟩ := exists_byte (n := 0x80 + c.toNat / 0x1000 % 0x40) (by omega)
    obtain ⟨first, hfirst⟩ := exists_byte (n := 0xf0 + c.toNat / 0x40000) (by omega)
    obtain ⟨bits, range, hlead, hbits, hrange⟩ :=
      exists_range_four (Nat.not_lt.mp hthree) hfirst hsecond
    refine ⟨first, [second, middle, last], _,
      encodeChar_four (Nat.not_lt.mp hthree) hfirst hsecond hmiddle hlast, by omega, hlead, rfl, ?_⟩
    intro rest
    refine follow_cons_eq_ok_iff.mpr
      ⟨second, middle :: last :: rest, rfl, Range.has_iff.mpr hrange, ?_⟩
    refine follow_cons_eq_ok_iff.mpr ⟨middle, last :: rest, rfl, has_following hmiddle, ?_⟩
    refine follow_cons_eq_ok_iff.mpr ⟨last, rest, rfl, has_following hlast, ?_⟩
    rw [follow_nil_eq_ok_iff]
    dsimp only
    omega

/-! ## Reading a text -/

theorem decodeFrom_encodeChar_append (offset : Nat) (c : Char) (rest : Bytes) :
    decodeFrom offset (encodeChar c ++ rest) =
      (decodeFrom (offset + (encodeChar c).length) rest).map (c :: ·) := by
  by_cases hone : c.toNat < 0x80
  · have hbyte : (UInt8.ofNat c.toNat).toNat = c.toNat :=
      UInt8.toNat_ofNat_of_lt (Nat.lt_trans hone (by decide))
    rw [encodeChar_one hone, List.singleton_append, decodeFrom, hbyte, if_pos hone,
      Char.ofNat_toNat]
    rfl
  · obtain ⟨byte, tail, lead, hencode, hbyte, hlead, hlength, hfollow⟩ :=
      exists_lead c (Nat.not_lt.mp hone)
    rw [hencode, List.cons_append, decodeFrom, if_neg (Nat.not_lt.mpr hbyte)]
    simp only [hlead, hfollow, hlength, List.drop_left, Char.ofNat_toNat, List.length_cons,
      Nat.add_assoc]

theorem encode_cons (c : Char) (t : Text) : encode (c :: t) = encodeChar c ++ encode t :=
  List.flatMap_cons

theorem decodeFrom_encode (offset : Nat) (t : Text) : decodeFrom offset (encode t) = .ok t := by
  induction t generalizing offset with
  | nil => rw [encode, List.flatMap_nil, decodeFrom]
  | cons c t ih =>
      rw [encode_cons, decodeFrom_encodeChar_append, ih]
      rfl

/-- A text that has been written is read back. -/
theorem decode_encode (t : Text) : decode (encode t) = .ok t :=
  decodeFrom_encode 0 t

theorem eq_encode_of_decodeFrom {offset : Nat} {bytes : Bytes} {t : Text}
    (h : decodeFrom offset bytes = .ok t) : bytes = encode t := by
  fun_induction decodeFrom offset bytes generalizing t with
  | case1 =>
      obtain rfl := Except.ok.inj h
      rfl
  -- One byte, and the rest.
  | case2 offset byte bytes hone ih =>
      obtain ⟨later, hlater, rfl⟩ := Options.map_eq_ok h
      have hcode : (Char.ofNat byte.toNat).toNat = byte.toNat := toNat_ofNat (by omega)
      rw [encode_cons, encodeChar_one (by rwa [hcode]), hcode, UInt8.ofNat_toNat, ← ih hlater]
      rfl
  | case3 => cases h
  | case4 => cases h
  -- A sequence of several bytes, and what follows it.
  | case5 offset byte bytes _ lead hlead code hfollow read =>
      rename_i ih
      obtain ⟨later, hlater, rfl⟩ := Options.map_eq_ok h
      rw [encode_cons, encodeChar_of_follow hlead hfollow, ← ih hlater, List.cons_append,
        List.take_append_drop]

/-- Bytes can be read exactly when they are those of the text that is read. -/
theorem decode_eq_ok_iff {bytes : Bytes} {t : Text} : decode bytes = .ok t ↔ bytes = encode t := by
  constructor
  · exact eq_encode_of_decodeFrom
  · rintro rfl
    exact decode_encode t

theorem encode_injective : Function.Injective encode := by
  intro s t h
  have hread := decode_encode s
  rw [h, decode_encode] at hread
  exact (Except.ok.inj hread).symm

theorem encode_mark_cons (t : Text) :
    encode ('\uFEFF' :: t) = [0xef, 0xbb, 0xbf] ++ encode t := by
  rw [encode_cons]
  rfl

end JassDecl.Utf8
