import JassDecl.Proofs.Concatenation
import Mathlib.Data.List.Forall2
import Mathlib.Logic.Relation

/-! # Lines laid out in other ways

Blanks, carriage returns and comments may stand elsewhere in a line and leave its normal form as it
is. Nothing but the normal forms of its lines counts when a text is recognized.
-/

namespace JassDecl

namespace Line

/-! ## Runs of blanks -/

/-- A run of blanks, which may be empty. -/
def Blanks (t : Text) : Prop :=
  ∀ c ∈ t, isBlank c = true

/-- A run of blanks that parts what stands on its two sides. -/
def Gap (t : Text) : Prop :=
  t ≠ [] ∧ Blanks t

-- The checks run over the characters of the text, and not over all characters.
instance (t : Text) : Decidable (Blanks t) :=
  List.decidableBAll _ t

instance (t : Text) : Decidable (Gap t) :=
  inferInstanceAs (Decidable (_ ∧ _))

theorem blanks_nil : Blanks [] :=
  List.forall_mem_nil _

theorem blanks_cons_iff {c : Char} {t : Text} : Blanks (c :: t) ↔ isBlank c = true ∧ Blanks t :=
  List.forall_mem_cons

theorem pieces_code_blanks_append {r : Text} (hr : Blanks r) (b : Text) :
    pieces (code (r ++ b)) = pieces (code b) := by
  induction r with
  | nil => rfl
  | cons c r ih =>
      obtain ⟨hc, hr⟩ := blanks_cons_iff.mp hr
      rw [List.cons_append, code_cons_blank hc, pieces_cons_blank hc, ih hr]

/-! ## Comments -/

theorem beforeComment_append_cons {a : Text} (h : Text.NoPair '/' a) {c : Char} (hc : c ≠ '/')
    (b : Text) : beforeComment (a ++ c :: b) = a ++ c :: beforeComment b := by
  induction a with
  | nil => simp [beforeComment, hc]
  | cons x a ih =>
      obtain ⟨hx, ha⟩ := Text.noPair_cons_iff.mp h
      rw [List.cons_append, beforeComment_cons, ih ha, List.cons_append]
      cases a with
      | nil => simp [hc]
      | cons y a => exact hx

theorem beforeComment_append_of_not_noPair {a : Text} (h : ¬ Text.NoPair '/' a) (b : Text) :
    beforeComment (a ++ b) = beforeComment a := by
  fun_induction beforeComment a with
  | case1 => exact absurd (by simp [Text.NoPair]) h
  | case2 rest => rfl
  | case3 c rest hslash ih =>
      -- The pair is not at the front, so it is in the rest, which has a character.
      have hfront := head?_ne_of_not_comment hslash
      have hrest : ¬ Text.NoPair '/' rest := fun hr => h (Text.noPair_cons_iff.mpr ⟨hfront, hr⟩)
      rw [List.cons_append, beforeComment_cons, ih hrest]
      cases rest with
      | nil => exact absurd (by simp [Text.NoPair]) hrest
      | cons d rest => exact hfront

/-- Whether no comment starts in a part of a raw line. -/
def Uncommented (raw : Text) : Prop :=
  Text.NoPair '/' (raw.filter (· != '\r'))

instance (raw : Text) : Decidable (Uncommented raw) :=
  inferInstanceAs (Decidable (¬ _))

/-- What stands behind a character that starts no comment is read if none starts in front of it. -/
theorem code_append_cons {c : Char} (hreturn : c ≠ '\r') (hslash : c ≠ '/') (a b : Text) :
    code (a ++ c :: b) = code a ++ if Uncommented a then c :: code b else [] := by
  have hfilter : (a ++ c :: b).filter (· != '\r') =
      a.filter (· != '\r') ++ c :: b.filter (· != '\r') := by
    simp [hreturn]
  rw [code, hfilter]
  by_cases ha : Uncommented a
  · rw [if_pos ha, beforeComment_append_cons ha hslash, code, beforeComment_of_noPair ha]
    rfl
  · rw [if_neg ha, beforeComment_append_of_not_noPair ha, List.append_nil]
    rfl

theorem pieces_code_append_blank {c : Char} (hc : isBlank c = true) (a b : Text) :
    pieces (code (a ++ c :: b)) =
      pieces (code a) ++ if Uncommented a then pieces (code b) else [] := by
  rw [code_append_cons (ne_of_isBlank hc rfl) (ne_of_isBlank hc rfl)]
  split
  · rw [pieces_append_blank hc]
  · rw [List.append_nil, List.append_nil]

/-- What is read on the two sides of a gap does not depend on the gap. -/
theorem pieces_code_append_gap {r : Text} (hr : Gap r) (a b : Text) :
    pieces (code (a ++ r ++ b)) =
      pieces (code a) ++ if Uncommented a then pieces (code b) else [] := by
  obtain ⟨c, r, rfl⟩ := List.exists_cons_of_ne_nil hr.1
  obtain ⟨hc, hr⟩ := blanks_cons_iff.mp hr.2
  rw [List.append_assoc, List.cons_append, pieces_code_append_blank hc,
    pieces_code_blanks_append hr]

theorem pieces_code_append_blanks {r : Text} (hr : Blanks r) (a : Text) :
    pieces (code (a ++ r)) = pieces (code a) := by
  by_cases hne : r = []
  · rw [hne, List.append_nil]
  · have hgap := pieces_code_append_gap ⟨hne, hr⟩ a []
    rw [List.append_nil] at hgap
    rw [hgap]
    split <;> exact List.append_nil _

/-! ## Changes of the layout -/

/-- One change of the layout of a line. -/
inductive Change : Text → Text → Prop where
  | carriageReturn (a b : Text) : Change (a ++ b) (a ++ '\r' :: b)
  | indent {r : Text} (hr : Blanks r) (t : Text) : Change t (r ++ t)
  | trail {r : Text} (hr : Blanks r) (t : Text) : Change t (t ++ r)
  | respace {r s : Text} (hr : Gap r) (hs : Gap s) (a b : Text) : Change (a ++ r ++ b) (a ++ s ++ b)
  | comment {c : Char} (hc : isBlank c = true) (t rest : Text) :
      Change t (t ++ c :: '/' :: '/' :: rest)

/-- Two lines that differ by any number of changes, made or undone. -/
def SameLayout : Text → Text → Prop :=
  Relation.EqvGen Change

theorem Change.normal_eq {a b : Text} (h : Change a b) : normal a = normal b := by
  cases h with
  | carriageReturn a b => simp [normal, code]
  | indent hr _ => exact (spaced_congr (pieces_code_blanks_append hr a)).symm
  | trail hr _ => exact (spaced_congr (pieces_code_append_blanks hr a)).symm
  | respace hr hs a b =>
      apply spaced_congr
      rw [pieces_code_append_gap hr, pieces_code_append_gap hs]
  | comment hc t rest =>
      have hcode : code ('/' :: '/' :: rest) = [] := rfl
      apply spaced_congr
      rw [pieces_code_append_blank hc, hcode, pieces_nil, ite_self, List.append_nil]

theorem SameLayout.normal_eq {a b : Text} (h : SameLayout a b) : normal a = normal b := by
  induction h with
  | rel a b hab => exact hab.normal_eq
  | refl a => rfl
  | symm a b _ ih => exact ih.symm
  | trans a b c _ _ hab hbc => exact hab.trans hbc

end Line

/-! ## Texts with the same normal forms -/

theorem Block.readLines_congr {ls ms : List Text}
    (h : List.Forall₂ (fun l m => Line.normal l = Line.normal m) ls ms) (block : Block)
    (number : Nat) : block.readLines number ls = block.readLines number ms := by
  induction h generalizing block number with
  | nil => rfl
  | cons hlm _ ih => rw [readLines_cons, readLines_cons, hlm, ih]

namespace Recognition

theorem ofSource_congr (path : Text) {a b : Text} (ha : a.head? ≠ some '\uFEFF')
    (hb : b.head? ≠ some '\uFEFF')
    (h : List.Forall₂ (fun l m => Line.normal l = Line.normal m) (Text.lines a) (Text.lines b)) :
    ofSource ⟨path, a⟩ = ofSource ⟨path, b⟩ := by
  rw [ofSource_eq, ofSource_eq, finalBlock, finalBlock, declarations, declarations,
    Text.dropMark_of_head?_ne ha, Text.dropMark_of_head?_ne hb, Block.readLines_congr h]

/-- Two texts are recognized alike if their lines have the same normal forms, one by one. So they
are if their lines differ only in layout. -/
theorem ofSource_eq_of_layout (path : Text) {a b : Text} (ha : a.head? ≠ some '\uFEFF')
    (hb : b.head? ≠ some '\uFEFF') :
    (List.Forall₂ (fun l m => Line.normal l = Line.normal m) (Text.lines a) (Text.lines b) →
      ofSource ⟨path, a⟩ = ofSource ⟨path, b⟩) ∧
    (List.Forall₂ Line.SameLayout (Text.lines a) (Text.lines b) →
      ofSource ⟨path, a⟩ = ofSource ⟨path, b⟩) := by
  refine ⟨ofSource_congr path ha hb, fun h => ofSource_congr path ha hb ?_⟩
  exact h.imp fun _ _ hlm => hlm.normal_eq

/-- A comment whose two slashes a carriage return parts, and a keyword with one inside. -/
theorem ofSource_eq_of_layout_split_marks :
    List.Forall₂ Line.SameLayout (Text.lines "type a extends b\nglob\rals".toList)
      (Text.lines " type\ta extends b\t/\r/c\nglobals\t".toList) ∧
    List.Forall₂ (fun l m => Line.normal l = Line.normal m)
      (Text.lines "type a extends b\nglob\rals".toList)
      (Text.lines " type\ta extends b\t/\r/c\nglobals\t".toList) ∧
    ofSource ⟨[], "type a extends b\nglob\rals".toList⟩ =
      ofSource ⟨[], " type\ta extends b\t/\r/c\nglobals\t".toList⟩ ∧
    ofSource ⟨[], " type\ta extends b\t/\r/c\nglobals\t".toList⟩ =
      ⟨{ types := [⟨"a".toList, "b".toList⟩] }, [.unclosed [] 2]⟩ := by
  have hindent : Line.Change "type a extends b".toList " type a extends b".toList :=
    .indent (r := [' ']) (by decide) _
  have hrespace : Line.Change " type a extends b".toList " type\ta extends b".toList :=
    .respace (r := [' ']) (s := ['\t']) (by decide) (by decide) " type".toList
      "a extends b".toList
  have hcomment : Line.Change " type\ta extends b".toList " type\ta extends b\t//c".toList :=
    .comment (c := '\t') (by decide) _ ['c']
  have hinsert : Line.Change " type\ta extends b\t//c".toList " type\ta extends b\t/\r/c".toList :=
    .carriageReturn " type\ta extends b\t/".toList "/c".toList
  have hdelete : Line.Change "globals".toList "glob\rals".toList :=
    .carriageReturn "glob".toList "als".toList
  have htrail : Line.Change "globals".toList "globals\t".toList :=
    .trail (r := ['\t']) (by decide) _
  have hfirst : Line.SameLayout "type a extends b".toList " type\ta extends b\t/\r/c".toList :=
    (((Relation.EqvGen.rel _ _ hindent).trans _ _ _ (.rel _ _ hrespace)).trans _ _ _
      (.rel _ _ hcomment)).trans _ _ _ (.rel _ _ hinsert)
  have hsecond : Line.SameLayout "glob\rals".toList "globals\t".toList :=
    (Relation.EqvGen.symm _ _ (.rel _ _ hdelete)).trans _ _ _ (.rel _ _ htrail)
  have hlines : List.Forall₂ Line.SameLayout (Text.lines "type a extends b\nglob\rals".toList)
      (Text.lines " type\ta extends b\t/\r/c\nglobals\t".toList) :=
    .cons hfirst (.cons hsecond .nil)
  have hnormal := hlines.imp fun _ _ hlm => hlm.normal_eq
  obtain ⟨hof_normal, hof_layout⟩ := ofSource_eq_of_layout []
    (a := "type a extends b\nglob\rals".toList)
    (b := " type\ta extends b\t/\r/c\nglobals\t".toList) (by decide) (by decide)
  exact ⟨hlines, hnormal, hof_layout hlines, (hof_normal hnormal).symm.trans (by decide)⟩

end Recognition

end JassDecl
