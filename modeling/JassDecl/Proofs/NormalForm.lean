import JassDecl.Line
import JassDecl.Proofs.Splitting
import Mathlib.Data.List.Basic
import Mathlib.Data.List.TakeWhile

/-! # The normal form of a line -/

namespace JassDecl

/-! ## Neighbours -/

/-- No two neighbours are both `c`. -/
def Text.NoPair (c : Char) (t : Text) : Prop :=
  ¬ [c, c] <:+: t

theorem Text.NoPair.of_isInfix {c : Char} {s t : Text} (h : NoPair c t) (hs : s <:+: t) :
    NoPair c s :=
  fun hp => h (hp.trans hs)

theorem Text.noPair_cons_iff {c x : Char} {t : Text} :
    NoPair c (x :: t) ↔ ¬(x = c ∧ t.head? = some c) ∧ NoPair c t := by
  rw [NoPair, List.infix_cons_iff, not_or]
  refine and_congr_left fun _ => not_congr ?_
  cases t with
  | nil => simp
  | cons y t => simp [List.cons_prefix_cons, eq_comm]

/-- Another character in between keeps two texts apart. -/
theorem Text.noPair_append_cons {c d : Char} (hd : d ≠ c) (a b : Text) :
    NoPair c (a ++ d :: b) ↔ NoPair c a ∧ NoPair c b := by
  induction a with
  | nil =>
      have hnil : NoPair c [] := by simp [NoPair]
      simp [noPair_cons_iff, hd, hnil]
  | cons x a ih =>
      rw [List.cons_append, noPair_cons_iff, noPair_cons_iff, ih, and_assoc]
      cases a with
      | nil => simp [hd]
      | cons y a => simp

/-- A single `c` in between makes no pair. -/
theorem Text.noPair_append_self {c : Char} {a b : Text} (ha : NoPair c a)
    (hlast : a.getLast? ≠ some c) (hb : NoPair c b) (hhead : b.head? ≠ some c) :
    NoPair c (a ++ c :: b) := by
  induction a with
  | nil => exact noPair_cons_iff.mpr ⟨fun h => hhead h.2, hb⟩
  | cons x a ih =>
      rw [noPair_cons_iff] at ha
      rw [List.cons_append, noPair_cons_iff]
      cases a with
      | nil => exact ⟨fun h => hlast (by simp [h.1]), ih ha.2 (by simp)⟩
      | cons y a =>
          rw [List.getLast?_cons_cons] at hlast
          exact ⟨by simpa using ha.1, ih ha.2 hlast⟩

/-- Trimming takes away the spaces at both ends, and no more. -/
theorem Text.trim_append {l s r : Text} (hl : ∀ x ∈ l, x = ' ') (hr : ∀ x ∈ r, x = ' ')
    (hhead : s.head? ≠ some ' ') (hlast : s.getLast? ≠ some ' ') : trim (l ++ s ++ r) = s := by
  have hlp : ∀ x ∈ l, (x == ' ') = true := fun x hx => by simp [hl x hx]
  have hrp : ∀ x ∈ r, (x == ' ') = true := fun x hx => by simp [hr x hx]
  rw [trim, trimWhere, List.append_assoc, List.dropWhile_append_of_pos hlp]
  cases s with
  | nil => rw [List.nil_append, List.dropWhile_eq_nil_iff.mpr hrp]; rfl
  | cons c s =>
      have hfront : (c :: s ++ r).dropWhile (· == ' ') = c :: s ++ r :=
        List.dropWhile_beq_eq_self_of_head?_ne (by simpa using hhead)
      have hback : (c :: s).reverse.dropWhile (· == ' ') = (c :: s).reverse :=
        List.dropWhile_beq_eq_self_of_head?_ne (by rwa [List.head?_reverse])
      have hrev : ∀ x ∈ r.reverse, (x == ' ') = true := fun x hx => hrp x (List.mem_reverse.mp hx)
      rw [hfront, List.reverse_append, List.dropWhile_append_of_pos hrev, hback, List.reverse_reverse]

namespace Line

/-! ## Code without comments -/

/-- A text without carriage returns and comments. -/
structure Plain (t : Text) : Prop where
  noReturn : '\r' ∉ t
  noComment : Text.NoPair '/' t

theorem Plain.of_isInfix {s t : Text} (h : Plain t) (hs : s <:+: t) : Plain s :=
  ⟨fun hm => h.noReturn (hs.subset hm), h.noComment.of_isInfix hs⟩

theorem Plain.sides {a mark b : Text} (h : Plain (a ++ mark ++ b)) : Plain a ∧ Plain b :=
  ⟨h.of_isInfix ⟨[], mark ++ b, by simp⟩, h.of_isInfix ⟨a ++ mark, [], by simp⟩⟩

theorem plain_nil : Plain [] :=
  ⟨by simp, by simp [Text.NoPair]⟩

theorem plain_append_cons {c : Char} (hreturn : c ≠ '\r') (hslash : c ≠ '/') {a b : Text}
    (ha : Plain a) (hb : Plain b) : Plain (a ++ c :: b) := by
  refine ⟨?_, (Text.noPair_append_cons hslash a b).mpr ⟨ha.noComment, hb.noComment⟩⟩
  simp [ha.noReturn, hb.noReturn, hreturn.symm]

theorem plain_append {mark : Text} (hne : mark ≠ []) (hmark : ∀ c ∈ mark, c ≠ '\r' ∧ c ≠ '/')
    {a b : Text} (ha : Plain a) (hb : Plain b) : Plain (a ++ mark ++ b) := by
  induction mark generalizing a with
  | nil => exact absurd rfl hne
  | cons c mark ih =>
      obtain ⟨hreturn, hslash⟩ := hmark c (by simp)
      have hcons : a ++ c :: mark ++ b = a ++ c :: (mark ++ b) := by simp
      rw [hcons]
      refine plain_append_cons hreturn hslash ha ?_
      by_cases hm : mark = []
      · rwa [hm]
      · exact ih hm (fun x hx => hmark x (by simp [hx])) plain_nil

theorem plain_intercalate {mark : Text} (hne : mark ≠ [])
    (hmark : ∀ c ∈ mark, c ≠ '\r' ∧ c ≠ '/') {ts : List Text} (h : ∀ t ∈ ts, Plain t) :
    Plain (List.intercalate mark ts) := by
  induction ts with
  | nil => exact plain_nil
  | cons t ts ih =>
      cases ts with
      | nil => simpa using h t
      | cons t' ts =>
          rw [List.intercalate_cons_cons]
          exact plain_append hne hmark (h t (by simp)) (ih fun x hx => h x (by simp [hx]))

/-- A character is read if it and the next one do not start a comment. -/
theorem beforeComment_cons {c : Char} {t : Text} (h : ¬(c = '/' ∧ t.head? = some '/')) :
    beforeComment (c :: t) = c :: beforeComment t := by
  rw [beforeComment]
  rintro rest rfl rfl
  exact h ⟨rfl, rfl⟩

theorem head?_ne_of_not_comment {c : Char} {t : Text}
    (h : ∀ rest, c = '/' → t = '/' :: rest → False) : ¬(c = '/' ∧ t.head? = some '/') := by
  rintro ⟨hc, hhead⟩
  obtain ⟨rest, hrest⟩ := List.head?_eq_some_iff.mp hhead
  exact h rest hc hrest

theorem noPair_beforeComment (t : Text) : Text.NoPair '/' (beforeComment t) := by
  fun_induction beforeComment t with
  | case1 => simp [Text.NoPair]
  | case2 => simp [Text.NoPair]
  | case3 c rest hslash ih =>
      refine Text.noPair_cons_iff.mpr ⟨?_, ih⟩
      rintro ⟨rfl, hhead⟩
      cases rest with
      | nil => simp [beforeComment] at hhead
      | cons d rest =>
          rw [beforeComment.eq_def] at hhead
          split at hhead <;> simp_all

theorem beforeComment_of_noPair {t : Text} (h : Text.NoPair '/' t) : beforeComment t = t := by
  fun_induction beforeComment t with
  | case1 => rfl
  | case2 rest => exact absurd (List.prefix_append ['/', '/'] rest).isInfix h
  | case3 c rest _ ih => rw [ih (Text.noPair_cons_iff.mp h).2]

theorem beforeComment_isPrefixOf (t : Text) : beforeComment t <+: t := by
  fun_induction beforeComment t with
  | case1 => exact List.prefix_rfl
  | case2 => exact List.nil_prefix
  | case3 c rest _ ih => exact (List.prefix_cons_inj c).mpr ih

theorem plain_code (raw : Text) : Plain (code raw) := by
  refine ⟨fun hm => ?_, noPair_beforeComment _⟩
  have hf := (beforeComment_isPrefixOf _).subset hm
  simp at hf

theorem code_of_plain {t : Text} (h : Plain t) : code t = t := by
  have hf : t.filter (· != '\r') = t :=
    List.filter_eq_self.mpr fun c hc => by simpa using fun he : c = '\r' => h.noReturn (he ▸ hc)
  rw [code, hf, beforeComment_of_noPair h.noComment]

theorem code_subset (raw : Text) : code raw ⊆ raw :=
  fun _ hc => (List.mem_filter.mp ((beforeComment_isPrefixOf _).subset hc)).1

/-! ## Pieces between blanks -/

theorem pieces_eq (t : Text) : pieces t = (t.splitOnP isBlank).filter (!·.isEmpty) := by
  rw [pieces, Text.splitWhere_eq_splitOnP]

@[simp] theorem pieces_nil : pieces [] = [] :=
  rfl

theorem pieces_append_blank {c : Char} (hc : isBlank c = true) (a b : Text) :
    pieces (a ++ c :: b) = pieces a ++ pieces b := by
  rw [pieces_eq, List.splitOnP_append_cons a b hc, List.filter_append, ← pieces_eq, ← pieces_eq]

theorem pieces_cons_blank {c : Char} (hc : isBlank c = true) (t : Text) :
    pieces (c :: t) = pieces t :=
  pieces_append_blank hc [] t

theorem pieces_append_space (a b : Text) : pieces (a ++ ' ' :: b) = pieces a ++ pieces b :=
  pieces_append_blank rfl a b

theorem pieces_of_free {t : Text} (ht : ∀ x ∈ t, isBlank x = false) (hne : t ≠ []) :
    pieces t = [t] := by
  rw [pieces_eq, List.splitOnP_eq_singleton ht]
  simp [hne]

/-- A piece is a part of the text that is not empty and has no blank. -/
theorem mem_pieces {t w : Text} (h : w ∈ pieces t) :
    w ≠ [] ∧ (∀ x ∈ w, isBlank x = false) ∧ w <:+: t := by
  rw [pieces_eq, List.mem_filter] at h
  exact ⟨by simpa using h.2, Text.eq_false_of_mem_splitOnP isBlank t w h.1,
    Text.infix_of_mem_splitOnP isBlank t w h.1⟩

theorem pieces_of_mem_pieces {t w : Text} (h : w ∈ pieces t) : pieces w = [w] :=
  pieces_of_free (mem_pieces h).2.1 (mem_pieces h).1

theorem flatMap_pieces_pieces (t : Text) : (pieces t).flatMap pieces = pieces t := by
  have hw : (pieces t).flatMap pieces = (pieces t).flatMap fun w => [w] :=
    List.flatMap_congr fun w hw => pieces_of_mem_pieces hw
  rw [hw, List.flatMap_singleton']

theorem pieces_intercalate (ts : List Text) :
    pieces (List.intercalate [' '] ts) = ts.flatMap pieces := by
  induction ts with
  | nil => rfl
  | cons t ts ih =>
      cases ts with
      | nil => simp
      | cons t' ts =>
          rw [List.intercalate_cons_cons, List.append_assoc, List.singleton_append,
            pieces_append_space, ih]
          rfl

/-! ## One space between pieces -/

/-- The pieces of a text, with one space between them. -/
def spaced (t : Text) : Text :=
  List.intercalate [' '] (pieces t)

theorem pieces_spaced (t : Text) : pieces (spaced t) = pieces t := by
  rw [spaced, pieces_intercalate, flatMap_pieces_pieces]

theorem spaced_congr {s t : Text} (h : pieces s = pieces t) : spaced s = spaced t := by
  rw [spaced, spaced, h]

theorem spaced_of_free {t : Text} (ht : ∀ x ∈ t, isBlank x = false) : spaced t = t := by
  by_cases hne : t = []
  · rw [hne]
    rfl
  · rw [spaced, pieces_of_free ht hne, List.intercalate_singleton]

theorem spaced_eq_nil {t : Text} (h : pieces t = []) : spaced t = [] := by
  rw [spaced, h, List.intercalate_nil]

/-- What a first blank makes of the part `a` before it and the rest `b` after it. -/
theorem spaced_append_blank {a : Text} (ha : ∀ x ∈ a, isBlank x = false) {c : Char}
    (hc : isBlank c = true) (b : Text) :
    (a = [] ∧ spaced (a ++ c :: b) = spaced b) ∨
    (a ≠ [] ∧ pieces b = [] ∧ spaced (a ++ c :: b) = a) ∨
    (a ≠ [] ∧ pieces b ≠ [] ∧ spaced (a ++ c :: b) = a ++ ' ' :: spaced b) := by
  by_cases hane : a = []
  · exact Or.inl ⟨hane, by rw [hane]; exact spaced_congr (pieces_cons_blank hc b)⟩
  · have hp : pieces (a ++ c :: b) = a :: pieces b := by
      rw [pieces_append_blank hc, pieces_of_free ha hane, List.singleton_append]
    by_cases hb : pieces b = []
    · exact Or.inr (Or.inl ⟨hane, hb, by rw [spaced, hp, hb, List.intercalate_singleton]⟩)
    · refine Or.inr (Or.inr ⟨hane, hb, ?_⟩)
      rw [spaced, hp, List.intercalate_cons_of_ne_nil hb, List.append_assoc]
      rfl

theorem mem_of_mem_spaced {c : Char} {t : Text} (h : c ∈ spaced t) : c = ' ' ∨ c ∈ t := by
  rcases Text.mem_of_mem_intercalate h with h | ⟨w, hw, h⟩
  · exact Or.inl (by simpa using h)
  · exact Or.inr ((mem_pieces hw).2.2.subset h)

theorem plain_spaced {t : Text} (h : Plain t) : Plain (spaced t) :=
  plain_intercalate (by simp) (by simp) fun _ hw => h.of_isInfix (mem_pieces hw).2.2

/-! ## A piece among others -/

/-- Pieces in front of another, with a space after each. -/
def leading (ws : List Text) : Text :=
  ws.flatMap (· ++ [' '])

/-- Pieces behind another, with a space before each. -/
def trailing (ws : List Text) : Text :=
  ws.flatMap (' ' :: ·)

theorem intercalate_append_cons (xs : List Text) (y : Text) (ys : List Text) :
    List.intercalate [' '] (xs ++ y :: ys) = leading xs ++ (y ++ trailing ys) := by
  induction xs with
  | nil =>
      induction ys generalizing y with
      | nil => simp [leading, trailing]
      | cons y' ys ih =>
          have hrest := ih y'
          rw [List.nil_append] at hrest
          rw [List.nil_append, List.intercalate_cons_cons, hrest]
          simp [leading, trailing]
  | cons x xs ih =>
      rw [List.cons_append, List.intercalate_cons_of_ne_nil (by simp), ih]
      simp [leading]

theorem spaced_of_pieces {t w : Text} {xs ys : List Text} (h : pieces t = xs ++ w :: ys) :
    spaced t = leading xs ++ (w ++ trailing ys) := by
  rw [spaced, h, intercalate_append_cons]

theorem pieces_trailing (ws : List Text) : pieces (trailing ws) = ws.flatMap pieces := by
  induction ws with
  | nil => rfl
  | cons w ws ih =>
      have hcons : trailing (w :: ws) = ' ' :: (w ++ trailing ws) := rfl
      rw [hcons, pieces_cons_blank rfl, List.flatMap_cons, ← ih]
      cases ws with
      | nil => simp [trailing]
      | cons w' ws =>
          have hspace : trailing (w' :: ws) = ' ' :: (w' ++ trailing ws) := rfl
          rw [hspace, pieces_append_space, pieces_cons_blank rfl]

theorem spaced_trailing_pieces (t : Text) : spaced (trailing (pieces t)) = spaced t := by
  refine spaced_congr ?_
  rw [pieces_trailing, flatMap_pieces_pieces]

/-! ## Texts with single spaces -/

/-- A text whose only blanks are single spaces. Parts of a text in normal form are such texts. -/
structure SingleSpaced (t : Text) : Prop where
  noTab : '\t' ∉ t
  noPair : Text.NoPair ' ' t

theorem SingleSpaced.of_isInfix {s t : Text} (h : SingleSpaced t) (hs : s <:+: t) :
    SingleSpaced s :=
  ⟨fun hm => h.noTab (hs.subset hm), h.noPair.of_isInfix hs⟩

theorem space_notMem_of_free {t : Text} (ht : ∀ x ∈ t, isBlank x = false) : ' ' ∉ t := by
  intro hm
  have hb := ht ' ' hm
  simp [isBlank] at hb

theorem noPair_space_of_free {t : Text} (ht : ∀ x ∈ t, isBlank x = false) : Text.NoPair ' ' t :=
  fun hp => space_notMem_of_free ht (hp.subset (by simp))

theorem head?_spaced_ne (t : Text) : (spaced t).head? ≠ some ' ' := by
  intro hh
  cases hp : pieces t with
  | nil => simp [spaced, hp] at hh
  | cons w ws =>
      have hw := mem_pieces (t := t) (w := w) (by simp [hp])
      obtain ⟨c, w, rfl⟩ := List.exists_cons_of_ne_nil hw.1
      rw [spaced, hp, List.intercalate_cons_cons_left, List.head?_cons, Option.some.injEq] at hh
      exact space_notMem_of_free hw.2.1 (by simp [hh])

theorem getLast?_spaced_ne (t : Text) : (spaced t).getLast? ≠ some ' ' := by
  induction t using Text.marks_induction isBlank with
  | free t ht =>
      rw [spaced_of_free ht]
      exact fun hl => space_notMem_of_free ht (List.mem_of_getLast? hl)
  | mark a c b ha hc ih =>
      rcases spaced_append_blank ha hc b with ⟨-, hs⟩ | ⟨-, -, hs⟩ | ⟨-, hb, hs⟩
      · rw [hs]
        exact ih
      · rw [hs]
        exact fun hl => space_notMem_of_free ha (List.mem_of_getLast? hl)
      · have hsb : spaced b ≠ [] := fun he => hb (by rw [← pieces_spaced, he, pieces_nil])
        obtain ⟨x, s, hxs⟩ := List.exists_cons_of_ne_nil hsb
        rw [hxs] at ih
        rw [hs, hxs, List.getLast?_append_cons, List.getLast?_cons_cons]
        exact ih

theorem noPair_space_spaced (t : Text) : Text.NoPair ' ' (spaced t) := by
  induction t using Text.marks_induction isBlank with
  | free t ht =>
      rw [spaced_of_free ht]
      exact noPair_space_of_free ht
  | mark a c b ha hc ih =>
      rcases spaced_append_blank ha hc b with ⟨-, hs⟩ | ⟨-, -, hs⟩ | ⟨-, -, hs⟩
      · rw [hs]
        exact ih
      · rw [hs]
        exact noPair_space_of_free ha
      · rw [hs]
        exact Text.noPair_append_self (noPair_space_of_free ha)
          (fun hl => space_notMem_of_free ha (List.mem_of_getLast? hl)) ih (head?_spaced_ne b)

theorem singleSpaced_spaced (t : Text) : SingleSpaced (spaced t) := by
  refine ⟨fun hm => ?_, noPair_space_spaced t⟩
  rcases Text.mem_of_mem_intercalate hm with hm | ⟨w, hw, hm⟩
  · simp at hm
  · have hb := (mem_pieces hw).2.1 '\t' hm
    simp [isBlank] at hb

/-- Such a text differs from its normal form only by spaces at its two ends. -/
theorem SingleSpaced.exists_eq_append_spaced {t : Text} (h : SingleSpaced t) :
    ∃ l r, t = l ++ spaced t ++ r ∧ (∀ x ∈ l, x = ' ') ∧ ∀ x ∈ r, x = ' ' := by
  induction t using Text.marks_induction isBlank with
  | free t ht => exact ⟨[], [], by simp [spaced_of_free ht], by simp, by simp⟩
  | mark a c b ha hc ih =>
      obtain rfl : c = ' ' := by
        have hct : c ≠ '\t' := fun he => h.noTab (by simp [he])
        simpa [isBlank, hct] using hc
      obtain ⟨l, r, hb, hl, hr⟩ := ih (h.of_isInfix ⟨a ++ [' '], [], by simp⟩)
      rcases spaced_append_blank ha hc b with ⟨rfl, hs⟩ | ⟨-, hpb, hs⟩ | ⟨-, -, hs⟩
      · refine ⟨' ' :: l, r, ?_, by simpa using hl, hr⟩
        rw [hs, List.cons_append, List.cons_append, ← hb, List.nil_append]
      · refine ⟨[], ' ' :: b, by rw [hs, List.nil_append], by simp, ?_⟩
        have hbs : ∀ x ∈ b, x = ' ' := by
          intro x hx
          rw [hb, spaced_eq_nil hpb, List.append_nil] at hx
          rcases List.mem_append.mp hx with hx | hx
          · exact hl x hx
          · exact hr x hx
        simpa using hbs
      · -- A space in front of the next piece would make a pair.
        have hlnil : l = [] := by
          cases l with
          | nil => rfl
          | cons x l =>
              obtain rfl : x = ' ' := hl x (by simp)
              refine absurd ⟨a, l ++ spaced b ++ r, ?_⟩ h.noPair
              rw [List.append_assoc]
              exact congrArg (a ++ ' ' :: ·) hb.symm
        rw [hlnil, List.nil_append] at hb
        refine ⟨[], r, ?_, by simp, hr⟩
        rw [hs, List.nil_append, List.append_assoc, List.cons_append, ← hb]

theorem SingleSpaced.trim_eq {t : Text} (h : SingleSpaced t) : Text.trim t = spaced t := by
  obtain ⟨l, r, ht, hl, hr⟩ := h.exists_eq_append_spaced
  conv_lhs => rw [ht]
  exact Text.trim_append hl hr (head?_spaced_ne t) (getLast?_spaced_ne t)

/-! ## Raw lines -/

theorem normal_eq_spaced (raw : Text) : normal raw = spaced (code raw) :=
  rfl

theorem normal_of_plain {t : Text} (h : Plain t) : normal t = spaced t := by
  rw [normal_eq_spaced, code_of_plain h]

theorem plain_normal (raw : Text) : Plain (normal raw) :=
  plain_spaced (plain_code raw)

/-- The normal form of a line is in normal form. -/
theorem normal_normal (raw : Text) : normal (normal raw) = normal raw := by
  rw [normal_of_plain (plain_normal raw), normal_eq_spaced, spaced_congr (pieces_spaced _)]

theorem newline_notMem_normal {raw : Text} (h : '\n' ∉ raw) : '\n' ∉ normal raw := by
  intro hm
  rcases mem_of_mem_spaced hm with hm | hm
  · simp at hm
  · exact h (code_subset raw hm)

theorem ne_of_isBlank {c d : Char} (hc : isBlank c = true) (hd : isBlank d = false) : c ≠ d := by
  rintro rfl
  rw [hc] at hd
  cases hd

theorem code_cons_blank {c : Char} (hc : isBlank c = true) (raw : Text) :
    code (c :: raw) = c :: code raw := by
  have hreturn : c ≠ '\r' := ne_of_isBlank hc rfl
  have hslash : c ≠ '/' := ne_of_isBlank hc rfl
  simp [code, beforeComment, hreturn, hslash]

/-- Nothing but blanks stands in front of the comment of a comment line. -/
theorem normal_of_isComment {raw : Text} (h : isComment raw = true) : normal raw = [] := by
  suffices hp : pieces (code raw) = [] from spaced_eq_nil hp
  induction raw with
  | nil => rfl
  | cons c raw ih =>
      by_cases hc : isBlank c = true
      · rw [isComment, List.dropWhile_cons_of_pos hc] at h
        rw [code_cons_blank hc, pieces_cons_blank hc, ih h]
      · rw [isComment, List.dropWhile_cons_of_neg hc, List.isPrefixOf_iff_prefix] at h
        obtain ⟨rest, hrest⟩ := h
        rw [← hrest]
        rfl

end Line

end JassDecl
