import JassDecl.Proofs.WholeWords
import Mathlib.Data.List.Chain

/-! # Lines cut into segments

The tokens of a line are the only way to cut it: words that cannot be made longer, operators of one
character, and nothing but blanks between them.
-/

namespace JassDecl

/-! ## Columns of a text -/

namespace Text

theorem mem_slice_iff {start stop : Nat} {t : Text} {c : Char} :
    c ∈ slice start stop t ↔ ∃ column, start ≤ column ∧ column < stop ∧ t[column]? = some c := by
  rw [slice, List.mem_iff_getElem?]
  constructor
  · intro h
    obtain ⟨i, hi⟩ := h
    rw [List.getElem?_drop, List.getElem?_take] at hi
    split at hi
    · rename_i hstop
      exact ⟨start + i, Nat.le_add_right _ _, hstop, hi⟩
    · cases hi
  · intro h
    obtain ⟨column, hstart, hstop, hc⟩ := h
    refine ⟨column - start, ?_⟩
    rw [List.getElem?_drop, Nat.add_sub_cancel' hstart, List.getElem?_take_of_lt hstop, hc]

theorem slice_length_eq_drop (start : Nat) (t : Text) : slice start t.length t = t.drop start := by
  rw [slice, List.take_length]

/-- A text from one column on is cut at a later one. -/
theorem slice_append_drop {start stop : Nat} (h : start ≤ stop) (t : Text) :
    slice start stop t ++ t.drop stop = t.drop start := by
  have hdrop : t.drop stop = (t.drop start).drop (stop - start) := by
    rw [List.drop_drop, Nat.add_sub_cancel' h]
  rw [slice, List.drop_take, hdrop, List.take_append_drop]

theorem length_slice {start stop : Nat} {t : Text} (h : stop ≤ t.length) :
    (slice start stop t).length = stop - start := by
  rw [slice, List.length_drop, List.length_take_of_le h]

end Text

namespace Token

open Line (Blanks)

/-! ## Tokens and their columns -/

theorem scanFrom_blanks_append {r : Text} (hr : Blanks r) (n : Nat) (t : Text) :
    scanFrom n (r ++ t) = scanFrom (n + r.length) t := by
  induction r generalizing n with
  | nil => rfl
  | cons c r ih =>
      obtain ⟨hc, hr⟩ := Line.blanks_cons_iff.mp hr
      rw [List.cons_append, scanFrom_blank hc, ih hr, List.length_cons, Nat.add_right_comm,
        Nat.add_assoc]

theorem scanFrom_of_blanks {r : Text} (hr : Blanks r) (n : Nat) : scanFrom n r = [] := by
  rw [← List.append_nil r, scanFrom_blanks_append hr]
  rfl

theorem scanFrom_word_append {w t : Text} (hw : IsWord w) (ht : Breaks t) (n : Nat) :
    scanFrom n (w ++ t) = ⟨.word, w, n⟩ :: scanFrom (n + w.length) t := by
  rw [scanFrom_append n (apart_of_head? ht), scanFrom_word hw]
  rfl

/-! ## Segments -/

/-- A stretch of a line, from the column `start` up to, but not including, `stop`. -/
structure Segment where
  kind : TokenKind
  text : Text
  start : Nat
  stop : Nat
  deriving DecidableEq, Repr

/-- The stretch of a line that a token stands for. -/
def segment (t : Token) : Segment where
  kind := t.kind
  text := t.text
  start := t.start
  stop := t.stop

/-- Whether no word character stands next to a stretch of a line, in front of it or behind it. -/
def StandsAlone (l : Text) (start stop : Nat) : Prop :=
  (∀ c ∈ (l.take start).getLast?, isWordChar c = false) ∧ Breaks (l.drop stop)

instance (l : Text) (start stop : Nat) : Decidable (StandsAlone l start stop) :=
  @instDecidableAnd _ _ (Option.decidableForallMem _) inferInstance

namespace Segment

/-- Whether a column belongs to the segment. -/
def Covers (s : Segment) (column : Nat) : Prop :=
  s.start ≤ column ∧ column < s.stop

/-- Whether a segment is a word of the line that cannot be made longer, or an operator of it. -/
structure Fits (l : Text) (s : Segment) : Prop where
  nonempty : s.start < s.stop
  inside : s.stop ≤ l.length
  text : Text.slice s.start s.stop l = s.text
  word : s.kind = .word → IsWord s.text ∧ StandsAlone l s.start s.stop
  operator : s.kind = .operator →
    ∃ c, s.text = [c] ∧ isWordChar c = false ∧ Line.isBlank c = false

end Segment

/-- Segments that cut a line: each fits it and ends before the next one starts, and the columns
outside of them all are those of the blanks. -/
structure Segmentation (l : Text) (ss : List Segment) : Prop where
  fits : ∀ s ∈ ss, s.Fits l
  ordered : ss.IsChain fun s t => s.stop ≤ t.start
  blanks : ∀ column c, l[column]? = some c →
    (Line.isBlank c = true ↔ ∀ s ∈ ss, ¬ s.Covers column)

/-! ## Segments from a column on -/

/-- Segments that cut a line from the column `n` on. -/
structure SegmentationFrom (n : Nat) (l : Text) (ss : List Segment) : Prop where
  fits : ∀ s ∈ ss, s.Fits l
  ordered : ss.IsChain fun s t => s.stop ≤ t.start
  behind : ∀ s ∈ ss, n ≤ s.start
  blanks : ∀ column c, n ≤ column → l[column]? = some c →
    (Line.isBlank c = true ↔ ∀ s ∈ ss, ¬ s.Covers column)

theorem segmentationFrom_zero_iff {l : Text} {ss : List Segment} :
    SegmentationFrom 0 l ss ↔ Segmentation l ss := by
  constructor
  · intro h
    exact ⟨h.fits, h.ordered, fun column c => h.blanks column c (Nat.zero_le _)⟩
  · intro h
    exact ⟨h.fits, h.ordered, fun _ _ => Nat.zero_le _, fun column c _ => h.blanks column c⟩

theorem Segment.Fits.start_add_length {l : Text} {s : Segment} (h : s.Fits l) :
    s.start + s.text.length = s.stop := by
  rw [← h.text, Text.length_slice h.inside, Nat.add_sub_cancel' h.nonempty.le]

theorem Segment.Fits.isBlank_eq_false {l : Text} {s : Segment} (h : s.Fits l) {column : Nat}
    (hcovers : s.Covers column) {c : Char} (hc : l[column]? = some c) :
    Line.isBlank c = false := by
  have hmem : c ∈ s.text := by
    rw [← h.text, Text.mem_slice_iff]
    exact ⟨column, hcovers.1, hcovers.2, hc⟩
  cases hkind : s.kind with
  | word => exact isBlank_of_isWordChar ((h.word hkind).1.2 c hmem)
  | operator =>
      obtain ⟨d, hd, -, hblank⟩ := h.operator hkind
      rw [hd, List.mem_singleton] at hmem
      rwa [hmem]

/-- All later segments stand behind the first one. -/
theorem stop_le_start_of_isChain {s : Segment} {ss : List Segment}
    (hchain : (s :: ss).IsChain fun s t => s.stop ≤ t.start) (hne : ∀ t ∈ ss, t.start < t.stop) :
    ∀ t ∈ ss, s.stop ≤ t.start := by
  induction ss generalizing s with
  | nil => exact List.forall_mem_nil _
  | cons u ss ih =>
      rw [List.isChain_cons_cons] at hchain
      obtain ⟨hu, hne⟩ := List.forall_mem_cons.mp hne
      refine List.forall_mem_cons.mpr ⟨hchain.1, fun t ht => ?_⟩
      have hut := ih hchain.2 hne t ht
      omega

/-- All that is left behind the last segment is blank. -/
theorem segmentationFrom_nil_iff {n : Nat} {l : Text} :
    SegmentationFrom n l [] ↔ Blanks (l.drop n) := by
  constructor
  · intro h c hc
    rw [← Text.slice_length_eq_drop, Text.mem_slice_iff] at hc
    obtain ⟨column, hn, -, hc⟩ := hc
    exact (h.blanks column c hn hc).mpr (List.forall_mem_nil _)
  · intro h
    refine ⟨List.forall_mem_nil _, .nil, List.forall_mem_nil _, fun column c hn hc => ?_⟩
    refine iff_of_true (h c ?_) (List.forall_mem_nil _)
    rw [← Text.slice_length_eq_drop, Text.mem_slice_iff]
    exact ⟨column, hn, (List.getElem?_eq_some_iff.mp hc).1, hc⟩

/-- The first segment stands behind blanks, and the others cut the rest of the line. -/
theorem segmentationFrom_cons_iff {n : Nat} {l : Text} {s : Segment} {ss : List Segment} :
    SegmentationFrom n l (s :: ss) ↔
      n ≤ s.start ∧ Blanks (Text.slice n s.start l) ∧ s.Fits l ∧
        SegmentationFrom s.stop l ss := by
  constructor
  · intro h
    obtain ⟨hs, hss⟩ := List.forall_mem_cons.mp h.fits
    have hlater := stop_le_start_of_isChain h.ordered fun t ht => (hss t ht).nonempty
    have hnonempty := hs.nonempty
    refine ⟨h.behind s List.mem_cons_self, fun c hc => ?_, hs, hss, ?_, hlater,
      fun column c hcolumn hc => ?_⟩
    · obtain ⟨column, hn, hstart, hc⟩ := Text.mem_slice_iff.mp hc
      refine (h.blanks column c hn hc).mpr (List.forall_mem_cons.mpr ⟨?_, fun t ht => ?_⟩)
      · intro hcovers
        have hle := hcovers.1
        omega
      · intro hcovers
        have hle := hcovers.1
        have hbehind := hlater t ht
        omega
    · exact h.ordered.tail
    · have hn := h.behind s List.mem_cons_self
      rw [h.blanks column c (by omega) hc, List.forall_mem_cons, and_iff_right]
      intro hcovers
      have hlt := hcovers.2
      omega
  · intro ⟨hn, hblanks, hs, hss⟩
    have hnonempty := hs.nonempty
    refine ⟨List.forall_mem_cons.mpr ⟨hs, hss.fits⟩, ?_, ?_, fun column c hcolumn hc => ?_⟩
    · exact List.isChain_cons.mpr
        ⟨fun t ht => hss.behind t (List.mem_of_mem_head? ht), hss.ordered⟩
    · refine List.forall_mem_cons.mpr ⟨hn, fun t ht => ?_⟩
      have hbehind := hss.behind t ht
      omega
    · -- The column lies in front of the first segment, in it, or behind it.
      rw [List.forall_mem_cons]
      rcases Nat.lt_or_ge column s.start with hfront | hfront
      · refine iff_of_true (hblanks c (Text.mem_slice_iff.mpr ⟨column, hcolumn, hfront, hc⟩))
          ⟨fun hcovers => ?_, fun t ht hcovers => ?_⟩
        · have hle := hcovers.1
          omega
        · have hle := hcovers.1
          have hbehind := hss.behind t ht
          omega
      · rcases Nat.lt_or_ge column s.stop with hstop | hstop
        · have hcovers : s.Covers column := ⟨hfront, hstop⟩
          rw [hs.isBlank_eq_false hcovers hc]
          exact iff_of_false (by decide) fun h => h.1 hcovers
        · rw [hss.blanks column c hstop hc, and_iff_right]
          intro hcovers
          have hlt := hcovers.2
          omega

/-! ## Uniqueness -/

/-- Segments that cut the rest of a line are its tokens. -/
theorem SegmentationFrom.eq_scanFrom {n : Nat} {l : Text} {ss : List Segment}
    (h : SegmentationFrom n l ss) : ss = (scanFrom n (l.drop n)).map segment := by
  induction ss generalizing n with
  | nil => rw [scanFrom_of_blanks (segmentationFrom_nil_iff.mp h), List.map_nil]
  | cons s ss ih =>
      obtain ⟨hn, hblanks, hs, hss⟩ := segmentationFrom_cons_iff.mp h
      have hstart : s.start ≤ l.length := hs.nonempty.le.trans hs.inside
      have hcut : l.drop n = Text.slice n s.start l ++ (s.text ++ l.drop s.stop) := by
        rw [← hs.text, Text.slice_append_drop hs.nonempty.le, Text.slice_append_drop hn]
      have hlength := hs.start_add_length
      have hscan : scanFrom s.start (s.text ++ l.drop s.stop) =
          ⟨s.kind, s.text, s.start⟩ :: scanFrom s.stop (l.drop s.stop) := by
        rw [← hlength]
        cases hkind : s.kind with
        | word =>
            obtain ⟨hword, -, hbreaks⟩ := hs.word hkind
            rw [hlength, scanFrom_word_append hword hbreaks, hlength]
        | operator =>
            obtain ⟨c, hc, hw, hb⟩ := hs.operator hkind
            rw [hc, List.singleton_append, scanFrom_operator hb hw]
            rfl
      have hsegment : segment ⟨s.kind, s.text, s.start⟩ = s := by
        rw [segment, stop, hlength]
      rw [hcut, scanFrom_blanks_append hblanks, Text.length_slice hstart, Nat.add_sub_cancel' hn,
        hscan, List.map_cons, hsegment, ← ih hss]

/-! ## Existence -/

theorem standsAlone_append {a w t : Text} (ha : ∀ c ∈ a.getLast?, isWordChar c = false)
    (ht : Breaks t) : StandsAlone (a ++ w ++ t) a.length (a.length + w.length) := by
  rw [StandsAlone, ← List.length_append, List.drop_left, List.append_assoc, List.take_left]
  exact ⟨ha, ht⟩

theorem Segment.fits_append {kind : TokenKind} {a w t : Text} (hne : w ≠ [])
    (hword : kind = .word →
      IsWord w ∧ StandsAlone (a ++ w ++ t) a.length (a.length + w.length))
    (hoperator : kind = .operator → ∃ c, w = [c] ∧ isWordChar c = false ∧ Line.isBlank c = false) :
    Fits (a ++ w ++ t) (segment ⟨kind, w, a.length⟩) where
  nonempty := Nat.lt_add_of_pos_right (List.length_pos_iff.mpr hne)
  inside := by
    rw [List.length_append, List.length_append]
    exact Nat.le_add_right _ _
  text := Text.slice_append a w t
  word := hword
  operator := hoperator

/-- A token behind blanks is put in front of the segments that cut the rest of the line. -/
theorem segmentationFrom_append {kind : TokenKind} {a r w t : Text} {ss : List Segment}
    (hr : Blanks r) (hfits : Segment.Fits (a ++ r ++ w ++ t) (segment ⟨kind, w, (a ++ r).length⟩))
    (hss : SegmentationFrom (a ++ r ++ w).length (a ++ r ++ w ++ t) ss) :
    SegmentationFrom a.length (a ++ r ++ w ++ t) (segment ⟨kind, w, (a ++ r).length⟩ :: ss) := by
  refine segmentationFrom_cons_iff.mpr ⟨?_, ?_, hfits, ?_⟩
  · exact (List.prefix_append a r).length_le
  · have hslice := Text.slice_append a r (w ++ t)
    rw [← List.length_append, ← List.append_assoc] at hslice
    exact hslice.symm ▸ hr
  · rw [List.length_append] at hss
    exact hss

/-- No word goes on into blanks and another word. -/
theorem isWordChar_getLast?_of_apart {a r w t : Text} (hr : Blanks r) (hw : IsWord w)
    (h : Apart a (r ++ (w ++ t))) : ∀ c ∈ (a ++ r).getLast?, isWordChar c = false := by
  intro c hc
  rcases List.eq_nil_or_concat r with rfl | ⟨r, x, rfl⟩
  · obtain ⟨d, w, rfl⟩ := List.exists_cons_of_ne_nil hw.1
    rw [List.append_nil] at hc
    by_contra hword
    have hd := h c hc d rfl (by simpa using hword)
    rw [hw.2 d List.mem_cons_self] at hd
    exact absurd hd (by decide)
  · rw [List.concat_eq_append, ← List.append_assoc, List.getLast?_concat] at hc
    obtain rfl := Option.some.inj hc
    exact isWordChar_of_isBlank (hr x (by simp))

/-- The tokens of the rest of a line cut it, unless a word goes on there. -/
theorem segmentationFrom_scanFrom {a b : Text} (h : Apart a b) :
    SegmentationFrom a.length (a ++ b) ((scanFrom a.length b).map segment) := by
  induction b using lexemes_induction generalizing a with
  | blanks b hb =>
      rw [scanFrom_of_blanks hb, List.map_nil, segmentationFrom_nil_iff, List.drop_left]
      exact hb
  | word r w t hr hw ht ih =>
      have hlast := isWordChar_getLast?_of_apart hr hw h
      rw [scanFrom_blanks_append hr, scanFrom_word_append hw ht, List.map_cons,
        ← List.length_append, ← List.length_append, ← List.append_assoc, ← List.append_assoc]
      refine segmentationFrom_append hr (Segment.fits_append hw.1 (fun _ => ?_) nofun) ?_
      · exact ⟨hw, standsAlone_append hlast ht⟩
      · exact ih (apart_of_head? ht)
  | operator r c t hr hb hc ih =>
      have hlength : (a ++ r).length + 1 = (a ++ r ++ [c]).length := by simp [Nat.add_assoc]
      rw [scanFrom_blanks_append hr, scanFrom_operator hb hc, List.map_cons,
        ← List.length_append, hlength, ← List.singleton_append, ← List.append_assoc,
        ← List.append_assoc]
      refine segmentationFrom_append hr (Segment.fits_append (by simp) nofun fun _ => ?_) ?_
      · exact ⟨c, rfl, hc, hb⟩
      · refine ih (apart_of_getLast? fun x hx => ?_)
        rw [List.getLast?_concat] at hx
        rwa [← Option.some.inj hx]

theorem segmentation_scan (l : Text) : Segmentation l ((scan l).map segment) := by
  rw [← segmentationFrom_zero_iff]
  exact segmentationFrom_scanFrom (a := []) (by simp [Apart])

/-- No two tokens start in the same column, and they are listed from left to right. -/
theorem pairwise_start_scan (l : Text) : ((scan l).map start).Pairwise (· < ·) := by
  have h := segmentation_scan l
  have hchain : ((scan l).map segment).IsChain fun s t => s.start < t.start :=
    h.ordered.imp_of_mem_imp fun s t hs _ hst => (h.fits s hs).nonempty.trans_le hst
  rw [List.isChain_map] at hchain
  exact List.isChain_iff_pairwise.mp ((List.isChain_map start).mpr hchain)

/-- There is one way to cut a line into segments. -/
theorem segmentation_iff_eq_scan {l : Text} {ss : List Segment} :
    Segmentation l ss ↔ ss = (scan l).map segment := by
  constructor
  · intro h
    exact (segmentationFrom_zero_iff.mpr h).eq_scanFrom
  · rintro rfl
    exact segmentation_scan l

/-- A no-break space is no blank, and two operators side by side stay two. -/
example : (scan "ab\t+\u00A0c".toList).map segment =
    [⟨.word, "ab".toList, 0, 2⟩, ⟨.operator, ['+'], 3, 4⟩, ⟨.operator, ['\u00A0'], 4, 5⟩,
      ⟨.word, ['c'], 5, 6⟩] := by
  decide

end Token

end JassDecl
