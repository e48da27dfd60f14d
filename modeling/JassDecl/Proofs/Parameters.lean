import JassDecl.Library.Source
import JassDecl.Proofs.Fitting
import JassDecl.Prototype

/-! # Parameters of a clause -/

namespace JassDecl.Argument

open Token (Fits HasWord IsName)

/-! ## Cells between commas -/

/-- The pieces of each part of a text that stands between commas. -/
def cells (t : Text) : List (List Text) :=
  (List.splitOn ',' t).map Line.pieces

/-- The parameter whose type and name are the first two of some pieces. -/
def ofWords (ws : List Text) : Argument :=
  ⟨ws.headD [], (ws[1]?).getD []⟩

theorem map_pieces_glue {c : Char} (hc : Line.isBlank c = true) {xs ys : List Text}
    (hxs : xs ≠ []) : (Text.glue xs (ys.modifyHead (c :: ·))).map Line.pieces =
      Text.glue (xs.map Line.pieces) (ys.map Line.pieces) := by
  induction xs with
  | nil => exact absurd rfl hxs
  | cons x xs ih =>
      cases xs with
      | nil =>
          cases ys with
          | nil => rfl
          | cons y ys => simp [Text.glue, Line.pieces_append_blank hc]
      | cons x' xs =>
          rw [Text.glue_cons x (by simp), List.map_cons, ih (by simp)]
          rfl

theorem cells_append_blank {c : Char} (hc : Line.isBlank c = true) (a b : Text) :
    cells (a ++ c :: b) = Text.glue (cells a) (cells b) := by
  have hcomma : (c == ',') = false := by
    rw [beq_eq_false_iff_ne]
    rintro rfl
    exact absurd hc (by decide)
  rw [cells, List.splitOn_eq_splitOnP, Text.splitOnP_append,
    List.splitOnP_cons_eq_if_modifyHead, hcomma]
  exact map_pieces_glue hc (List.splitOnP_ne_nil _ a)

theorem cells_ne_nil (t : Text) : cells t ≠ [] := by
  simp [cells]

/-- The normal form of a text has the same cells. -/
theorem cells_spaced (t : Text) : cells (Line.spaced t) = cells t := by
  induction t using Text.marks_induction Line.isBlank with
  | free t ht => rw [Line.spaced_of_free ht]
  | mark a c b ha hc ih =>
      rw [cells_append_blank hc, ← ih]
      rcases Line.spaced_append_blank ha hc b with ⟨rfl, hs⟩ | ⟨-, hb, hs⟩ | ⟨-, -, hs⟩
      · rw [hs]
        exact (Text.glue_nil_left _).symm
      · rw [hs, Line.spaced_eq_nil hb]
        exact (Text.glue_nil_right (cells_ne_nil a)).symm
      · rw [hs, cells_append_blank (by rfl)]

theorem ofPiece_of_singleSpaced {piece : Text} (h : Line.SingleSpaced piece) :
    ofPiece piece = ofWords (Line.pieces piece) := by
  rw [ofPiece, h.trim_eq, Text.splitOn_eq, Line.spaced]
  by_cases hp : Line.pieces piece = []
  · rw [hp]
    rfl
  · rw [List.splitOn_intercalate ' ' (fun w hw => Line.space_notMem_of_free
      (Line.mem_pieces hw).2.1) hp]
    rfl

/-- The parameters of a clause are the first two pieces of its cells. -/
theorem ofClause_spaced (t : Text) :
    ofClause (Line.spaced t) =
      if Line.spaced t = Keyword.nothing then [] else (cells t).map ofWords := by
  have hpieces : (Text.splitOn ',' (Line.spaced t)).map ofPiece = (cells t).map ofWords := by
    rw [← cells_spaced t, cells, List.map_map, Text.splitOn_eq]
    refine List.map_congr_left fun piece hp => ?_
    exact ofPiece_of_singleSpaced ((Line.singleSpaced_spaced t).of_isInfix
      (Text.infix_of_mem_splitOnP _ _ piece hp))
  rw [ofClause, hpieces]

/-! ## Well-formed parameters -/

/-- A text that can stand for a type or a name in a clause. -/
structure Part (t : Text) : Prop where
  fits : Fits Keyword.globals t
  free : ∀ x ∈ t, Line.isBlank x = false
  noComma : ',' ∉ t
  noReturns : ¬ HasWord Keyword.returns t

/-- A parameter that a clause can list. Its name is missing if its type is. -/
structure WellFormed (a : Argument) : Prop where
  type : Part a.type
  name : Part a.name
  name_eq_nil : a.type = [] → a.name = []

theorem part_nil : Part [] :=
  ⟨Token.fits_nil _, by simp, by simp, Token.not_hasWord_nil _⟩

theorem part_of_isName {w : Text} (h : IsName Keyword.globals w) (hreturns : w ≠ Keyword.returns) :
    Part w := by
  refine ⟨h.fits, Token.free_of_isWord h.1, fun hm => ?_, ?_⟩
  · exact absurd (h.1.2 ',' hm) (by decide)
  · rw [Token.hasWord_of_isWord h.1]
    exact hreturns.symm

/-! ## Clauses that are read -/

theorem pieces_ofWords_ne_nil {t : Text} :
    ∀ ws ∈ cells t, ∀ w ∈ ws, w ≠ [] := by
  intro ws hws w hw
  obtain ⟨part, -, rfl⟩ := List.mem_map.mp hws
  exact (Line.mem_pieces hw).1

theorem hasWord_of_mem_splitOn {keyword t : Text} :
    ∀ part ∈ List.splitOn ',' t, HasWord keyword part → HasWord keyword t := by
  rw [List.splitOn_eq_splitOnP]
  induction t using Text.marks_induction (· == ',') with
  | free t ht => simp [List.splitOnP_eq_singleton ht]
  | mark a c b ha hc ih =>
      obtain rfl : c = ',' := by simpa using hc
      rw [List.splitOnP_append_cons_of_forall_mem ha _ hc, HasWord,
        Token.lexemes_append_operator (by decide) (by decide)]
      intro part hp hw
      rcases List.mem_cons.mp hp with rfl | hp
      · exact List.mem_append_left _ hw
      · exact List.mem_append_right _ (List.mem_cons_of_mem _ (ih part hp hw))

theorem part_of_mem_cells {t : Text} (h : Fits Keyword.globals t)
    (hreturns : ¬ HasWord Keyword.returns t) : ∀ ws ∈ cells t, ∀ w ∈ ws, Part w := by
  intro ws hws w hw
  obtain ⟨part, hpart, rfl⟩ := List.mem_map.mp hws
  obtain ⟨-, hfree, hwpart⟩ := Line.mem_pieces hw
  have hwords : ∀ keyword, HasWord keyword w → HasWord keyword t := fun keyword hk =>
    hasWord_of_mem_splitOn part hpart (hk.of_mem_pieces hw)
  exact {
    fits := h.of_isInfix (hwpart.trans (Text.infix_of_mem_splitOnP _ t part hpart))
      fun hk => h.noKeyword (hwords _ hk)
    free := hfree
    noComma := fun hm => Text.notMem_of_mem_splitOn hpart (hwpart.subset hm)
    noReturns := fun hk => hreturns (hwords _ hk) }

theorem wellFormed_ofWords {ws : List Text} (hne : ∀ w ∈ ws, w ≠ []) (h : ∀ w ∈ ws, Part w) :
    (ofWords ws).WellFormed := by
  cases ws with
  | nil => exact ⟨part_nil, part_nil, fun _ => rfl⟩
  | cons w ws =>
      refine ⟨h w (by simp), ?_, fun hw => absurd hw (hne w (by simp))⟩
      cases ws with
      | nil => exact part_nil
      | cons w' ws => exact h w' (by simp)

/-- Every parameter that is read from a clause is well-formed. -/
theorem wellFormed_of_mem_ofClause {t : Text} (h : Fits Keyword.globals t)
    (hreturns : ¬ HasWord Keyword.returns t) : ∀ a ∈ ofClause (Line.spaced t), a.WellFormed := by
  rw [ofClause_spaced]
  split
  · simp
  · intro a ha
    obtain ⟨ws, hws, rfl⟩ := List.mem_map.mp ha
    exact wellFormed_ofWords (pieces_ofWords_ne_nil ws hws)
      (part_of_mem_cells h hreturns ws hws)

theorem eq_of_ofWords_eq {ws : List Text} (hne : ∀ w ∈ ws, w ≠ []) {type : Text}
    (htype : type ≠ []) (h : ofWords ws = ⟨type, []⟩) : ws = [type] := by
  cases ws with
  | nil => exact absurd (congrArg Argument.type h).symm htype
  | cons w ws =>
      have hw : w = type := congrArg Argument.type h
      cases ws with
      | nil => rw [hw]
      | cons w' ws => exact absurd (congrArg Argument.name h) (hne w' (by simp))

/-- The word `nothing` on its own is never read as a parameter. -/
theorem ofClause_ne_nothing (t : Text) : ofClause (Line.spaced t) ≠ [⟨Keyword.nothing, []⟩] := by
  rw [ofClause_spaced]
  split
  · simp
  · rename_i hne
    intro h
    obtain ⟨ws, hws, hof⟩ := List.map_eq_singleton_iff.mp h
    have hwords : ws = [Keyword.nothing] :=
      eq_of_ofWords_eq (pieces_ofWords_ne_nil ws (hws ▸ List.mem_singleton_self ws)) (by decide) hof
    obtain ⟨part, hpart, hpieces⟩ := List.map_eq_singleton_iff.mp hws
    have ht : part = t := by
      have hjoin : List.intercalate [','] (List.splitOn ',' t) = t := List.intercalate_splitOn ','
      rwa [hpart, List.intercalate_singleton] at hjoin
    apply hne
    rw [Line.spaced, ← ht, hpieces, hwords, List.intercalate_singleton]

/-! ## Clauses that are written -/

theorem splitOn_intercalate_comma (t : Text) (ts : List Text) (h : ∀ u ∈ t :: ts, ',' ∉ u) :
    List.splitOn ',' (List.intercalate [',', ' '] (t :: ts)) = t :: ts.map (' ' :: ·) := by
  induction ts generalizing t with
  | nil => rw [List.intercalate_singleton, List.splitOn_eq_singleton (h t (by simp))]; rfl
  | cons u ts ih =>
      have hspace : [',', ' '] ++ List.intercalate [',', ' '] (u :: ts) =
          ',' :: List.intercalate [',', ' '] ((' ' :: u) :: ts) := by
        rw [List.intercalate_cons_cons_left]
        rfl
      have hrest : ∀ v ∈ (' ' :: u) :: ts, ',' ∉ v := by
        intro v hv
        rcases List.mem_cons.mp hv with rfl | hv
        · simpa using h u (by simp)
        · exact h v (by simp [hv])
      rw [List.intercalate_cons_cons, List.append_assoc, hspace,
        List.splitOn_append_cons_self_of_not_mem (h t (by simp)), ih (' ' :: u) hrest]
      rfl

theorem noComma_source {a : Argument} (h : a.WellFormed) : ',' ∉ a.source := by
  rw [source]
  split
  · exact h.type.noComma
  · simp [h.type.noComma, h.name.noComma]

theorem hasWord_source {keyword : Text} {a : Argument} :
    HasWord keyword a.source ↔ HasWord keyword a.type ∨ HasWord keyword a.name := by
  rw [source]
  split
  · rename_i hname
    rw [List.isEmpty_iff.mp hname]
    simp [Token.not_hasWord_nil]
  · rw [List.append_assoc]
    exact Token.hasWord_append_cons (by rfl) a.type a.name

theorem ofWords_pieces_source {a : Argument} (h : a.WellFormed) :
    ofWords (Line.pieces a.source) = a := by
  obtain ⟨type, name⟩ := a
  by_cases hname : name = []
  · subst hname
    by_cases htype : type = []
    · subst htype
      rfl
    · rw [source]
      simp only [List.isEmpty_nil, if_true]
      rw [Line.pieces_of_free h.type.free htype]
      rfl
  · have htype : type ≠ [] := fun he => hname (h.name_eq_nil he)
    have hsource : source ⟨type, name⟩ = type ++ ' ' :: name := by
      simp [source, hname]
    rw [hsource, Line.pieces_append_space, Line.pieces_of_free h.type.free htype,
      Line.pieces_of_free h.name.free hname]
    rfl

theorem cells_clause (a : Argument) (args : List Argument)
    (h : ∀ b ∈ a :: args, b.WellFormed) :
    cells (clause (a :: args)) = (a :: args).map fun b => Line.pieces b.source := by
  have hcomma : ∀ u ∈ a.source :: args.map source, ',' ∉ u := by
    intro u hu
    rw [← List.map_cons] at hu
    obtain ⟨b, hb, rfl⟩ := List.mem_map.mp hu
    exact noComma_source (h b hb)
  rw [cells, clause, List.map_cons, splitOn_intercalate_comma _ _ hcomma]
  simp only [List.map_cons, List.map_map]
  congr 1

theorem fits_source {a : Argument} (h : a.WellFormed) : Fits Keyword.globals a.source := by
  rw [source]
  split
  · exact h.type.fits
  · have hjoin : a.type ++ [' '] ++ a.name = List.intercalate [' '] [a.type, a.name] := by simp
    rw [hjoin]
    refine Token.fits_intercalate (by decide) fun t ht => ?_
    rcases List.mem_pair.mp ht with rfl | rfl
    · exact h.type.fits
    · exact h.name.fits

theorem fits_clause {args : List Argument} (h : ∀ a ∈ args, a.WellFormed) :
    Fits Keyword.globals (clause args) := by
  cases args with
  | nil => exact IsName.fits (by decide)
  | cons a args =>
      refine Token.fits_intercalate (by decide) fun t ht => ?_
      obtain ⟨b, hb, rfl⟩ := List.mem_map.mp ht
      exact fits_source (h b hb)

/-- The words of a clause are those of its parameters, or the one that stands for none. -/
theorem hasWord_clause {keyword : Text} {args : List Argument} :
    HasWord keyword (clause args) ↔ (args = [] ∧ keyword = Keyword.nothing) ∨
      ∃ a ∈ args, HasWord keyword a.type ∨ HasWord keyword a.name := by
  cases args with
  | nil =>
      rw [clause, Token.hasWord_of_isWord (by decide)]
      simp
  | cons a args =>
      rw [clause, Token.hasWord_intercalate (by simp) (by simp [Token.isWordChar])]
      simp [hasWord_source]

theorem noReturns_clause {args : List Argument} (h : ∀ a ∈ args, a.WellFormed) :
    ¬ HasWord Keyword.returns (clause args) := by
  rw [hasWord_clause]
  rintro (⟨-, he⟩ | ⟨a, ha, hw | hw⟩)
  · exact absurd he (by decide)
  · exact (h a ha).type.noReturns hw
  · exact (h a ha).name.noReturns hw

/-- A clause lists the parameters that it was written for, whatever its spacing. -/
theorem ofClause_clause {args : List Argument} (h : ∀ a ∈ args, a.WellFormed)
    (hne : args ≠ [⟨Keyword.nothing, []⟩]) : ofClause (Line.spaced (clause args)) = args := by
  cases args with
  | nil => rfl
  | cons a args =>
      have hof : (cells (clause (a :: args))).map ofWords = a :: args := by
        rw [cells_clause a args h, List.map_map]
        exact (List.map_congr_left fun b hb => ofWords_pieces_source (h b hb)).trans (List.map_id' _)
      rw [ofClause_spaced, hof, if_neg]
      intro hs
      -- A clause that reads `nothing` has the one cell of that word.
      have hcells : cells (clause (a :: args)) = [[Keyword.nothing]] := by
        rw [← cells_spaced, hs]
        rfl
      rw [hcells] at hof
      exact hne hof.symm

end JassDecl.Argument
