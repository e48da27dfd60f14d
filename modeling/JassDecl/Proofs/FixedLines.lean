import JassDecl.Proofs.NormalTokens

/-!
# Lines that are their own normal form

A line is its own normal form exactly if it has the form that all normal forms have. The parts of
such a line are normal up to the spaces at their ends. Nothing but blanks, carriage returns and the
comment is lost on the way to a normal form.
-/

namespace JassDecl.Line

/-! ## The form of a normal line -/

/-- Code whose only blanks are single spaces, none of them at an end. -/
structure IsNormal (t : Text) : Prop extends Plain t, SingleSpaced t where
  head : t.head? ≠ some ' '
  last : t.getLast? ≠ some ' '

theorem isNormal_normal (raw : Text) : IsNormal (normal raw) where
  toPlain := plain_normal raw
  toSingleSpaced := singleSpaced_spaced (code raw)
  head := head?_spaced_ne (code raw)
  last := getLast?_spaced_ne (code raw)

theorem IsNormal.trim_eq_self {t : Text} (h : IsNormal t) : Text.trim t = t := by
  have htrim := Text.trim_append (l := []) (r := []) (by simp) (by simp) h.head h.last
  rwa [List.nil_append, List.append_nil] at htrim

/-- Of a part of a normal line, only the spaces at its two ends are taken away. -/
theorem IsNormal.normal_of_isInfix {part t : Text} (h : IsNormal t) (hpart : part <:+: t) :
    normal part = Text.trim part := by
  rw [normal_of_plain (h.toPlain.of_isInfix hpart), (h.toSingleSpaced.of_isInfix hpart).trim_eq]

theorem normal_eq_self_iff {t : Text} : normal t = t ↔ IsNormal t := by
  constructor
  · intro h
    rw [← h]
    exact isNormal_normal t
  · intro h
    rw [h.normal_of_isInfix List.infix_rfl, h.trim_eq_self]

/-! ## Characters that are kept -/

theorem flatten_pieces (t : Text) : (pieces t).flatten = t.filter (!isBlank ·) := by
  rw [pieces_eq, List.flatten_filter_not_isEmpty, Text.flatten_splitOnP]

/-- The spaces between the pieces apart, all that is taken away is blanks. -/
theorem filter_spaced (t : Text) : (spaced t).filter (· != ' ') = t.filter (!isBlank ·) := by
  have hpieces : ∀ w ∈ pieces t, w.filter (· != ' ') = w := by
    intro w hw
    refine List.filter_eq_self.mpr fun c hc => ?_
    have hfree : ' ' ∉ w := space_notMem_of_free (mem_pieces hw).2.1
    simpa using fun he : c = ' ' => hfree (he ▸ hc)
  calc (spaced t).filter (· != ' ')
      = (pieces t).flatMap (·.filter (· != ' ')) := Text.filter_intercalate rfl (pieces t)
    _ = (pieces t).flatMap id := List.flatMap_congr hpieces
    _ = (pieces t).flatten := List.flatMap_id
    _ = t.filter (!isBlank ·) := flatten_pieces t

/-! ## Lines without code -/

theorem pieces_eq_nil_iff {t : Text} : pieces t = [] ↔ Blanks t := by
  constructor
  · intro h
    have hfilter := flatten_pieces t
    rw [h, List.flatten_nil, eq_comm, List.filter_eq_nil_iff] at hfilter
    exact fun c hc => by simpa using hfilter c hc
  · intro h
    refine List.eq_nil_iff_forall_not_mem.mpr fun w hw => ?_
    obtain ⟨hne, hfree, hpart⟩ := mem_pieces hw
    obtain ⟨c, hc⟩ := List.exists_mem_of_ne_nil w hne
    simpa [hfree c hc] using h c (hpart.subset hc)

theorem spaced_eq_nil_iff {t : Text} : spaced t = [] ↔ Blanks t := by
  rw [← pieces_eq_nil_iff]
  refine ⟨fun h => ?_, spaced_eq_nil⟩
  rw [← pieces_spaced, h, pieces_nil]

/-- Where nothing but blanks stands in front of the comment, the text is a comment line or it has
nothing but blanks. -/
theorem isComment_or_blanks {t : Text} (h : Blanks (beforeComment t)) :
    isComment t = true ∨ Blanks t := by
  have hcut := cutAtComment_beforeComment t
  generalize beforeComment t = front at h hcut
  cases hcut with
  | whole => exact Or.inr h
  | front _ rest =>
      left
      rw [isComment, List.dropWhile_append_of_pos h]
      rfl

theorem normal_filter_return (raw : Text) : normal (raw.filter (· != '\r')) = normal raw := by
  simp [normal, code]

/-- A comment line counts as such once its carriage returns are taken away. -/
theorem normal_eq_nil_iff {raw : Text} : normal raw = [] ↔
    isComment (raw.filter (· != '\r')) = true ∨ Blanks (raw.filter (· != '\r')) := by
  constructor
  · intro h
    exact isComment_or_blanks (spaced_eq_nil_iff.mp h)
  · rintro (hcomment | hblanks)
    · rw [← normal_filter_return, normal_of_isComment hcomment]
    · exact spaced_eq_nil_iff.mpr fun c hc => hblanks c ((beforeComment_isPrefixOf _).subset hc)

/-! ## The normal form -/

/-- What the normal form of a raw line is. -/
structure NormalSpec (raw : Text) : Prop where
  fixed : normal raw = raw ↔ IsNormal raw
  isNormal : IsNormal (normal raw)
  again : normal (normal raw) = normal raw
  /-- Every part of a normal form is normal but for the spaces at its ends. -/
  parts : ∀ part, part <:+: normal raw → normal part = Text.trim part
  /-- What stands in front of the comment keeps all its characters but blanks, in their order. -/
  kept : ∃ front, CutAtComment (raw.filter (· != '\r')) front ∧
    (normal raw).filter (· != ' ') = front.filter (!isBlank ·)
  empty : normal raw = [] ↔
    isComment (raw.filter (· != '\r')) = true ∨ Blanks (raw.filter (· != '\r'))

theorem normalSpec (raw : Text) : NormalSpec raw where
  fixed := normal_eq_self_iff
  isNormal := isNormal_normal raw
  again := normal_normal raw
  parts := fun _ => (isNormal_normal raw).normal_of_isInfix
  kept := ⟨code raw, cutAtComment_beforeComment _, filter_spaced (code raw)⟩
  empty := normal_eq_nil_iff

/-- A carriage return inside the marks of a comment: the raw line is no comment line, and yet
nothing is left of it. -/
example : isComment "\t/\r/ a".toList = false ∧ normal "\t/\r/ a".toList = [] := by decide

end JassDecl.Line
