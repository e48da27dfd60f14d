import JassDecl.Proofs.Arguments
import JassDecl.Proofs.Remarks

/-! # Strict runs and lenient ones

A strict run refuses sources that end inside a block of globals. A lenient run warns of them in the
same words and goes on. Where all blocks are closed, the two do not differ.
-/

namespace JassDecl

theorem Phase.bind_ofName?_eq_some_iff {name : Option Text} {phase : Phase} :
    name.bind ofName? = some phase ↔ name = some phase.name := by
  simp only [Option.bind_eq_some_iff, ofName?_eq_some_iff, eq_comm (a := phase.name),
    exists_eq_right]

/-! ## Two runs with the same sources -/

namespace Product

open Recognition (LeftOpen OpensForGood)

/-- Whether a strict run refuses sources: it recognizes them, and some source on its own ends inside
a block of globals. A name that is no phase stops nothing. -/
def Refuses (stopAt : Option Text) (sources : List Source) : Prop :=
  stopAt ≠ some (Phase.name .normalize) ∧
    ∃ source ∈ sources, ∃ n, OpensForGood source.path source.text n

theorem refuses_iff {stopAt : Option Text} {sources : List Source} :
    Refuses stopAt sources ↔ ¬ Accepts (stopAt.bind Phase.ofName?) true sources := by
  have hphase : stopAt.bind Phase.ofName? ≠ some .normalize ↔
      stopAt ≠ some (Phase.name .normalize) := not_congr Phase.bind_ofName?_eq_some_iff
  obtain ⟨opened, hopened⟩ := Recognition.exists_leftOpen sources
  rw [accepts_iff hopened, hopened.eq_nil_iff]
  simp only [Refuses, ← hphase, not_or, not_forall, not_not, Bool.true_eq_false, not_false_eq_true,
    true_and, exists_prop]

/-- A lenient run takes all sources. -/
theorem accepts_lenient (phase : Option Phase) (sources : List Source) :
    Accepts phase false sources :=
  Or.inr (Or.inl rfl)

/-- What a lenient run and a strict one come to on the same sources. -/
structure StrictnessSpec (stopAt : Option Text) (sources : List Source) (lenient strict : Product) :
    Prop where
  succeeds : lenient.exit = 0
  refuses : (strict.exit, strict.output.getD []) = (1, []) ↔ Refuses stopAt sources
  /-- The two report the same blocks, each by its path and the line that opens it. Only a lenient run
  goes on to look for declarations. -/
  severity : Refuses stopAt sources → ∃ opened, LeftOpen sources opened ∧
    Report.ofNotices strict.exit strict.notices = ⟨1, [], opened.flatMap fun entry =>
      "error: ".toList ++ Report.unclosedText entry.1.path entry.2 ++ ['\n']⟩ ∧
    Report.ofNotices lenient.exit lenient.notices = ⟨0, [],
      (opened.flatMap fun entry =>
        "warning: ".toList ++ Report.unclosedText entry.1.path entry.2 ++ ['\n']) ++
      if ∀ source ∈ sources, (Recognition.ofSource source).library = .empty then
        "warning: no declarations recognized\n".toList else []⟩
  agree : ¬ Refuses stopAt sources → strict = lenient

theorem strictnessSpec_ofSources (stopAt : Option Text) (table : Override.Table)
    (sources : List Source) :
    StrictnessSpec stopAt sources (ofSources (stopAt.bind Phase.ofName?) false table sources)
      (ofSources (stopAt.bind Phase.ofName?) true table sources) where
  succeeds := by
    rw [exit, output_of_accepts (accepts_lenient _ _)]
    rfl
  refuses := by
    rw [refuses_iff]
    by_cases h : Accepts (stopAt.bind Phase.ofName?) true sources
    · simp [h, exit, output_of_accepts h]
    · simp [h, exit, output_of_not_accepts h]
  severity := by
    intro hrefuses
    obtain ⟨opened, hopened⟩ := Recognition.exists_leftOpen sources
    have hphase : stopAt.bind Phase.ofName? ≠ some .normalize :=
      fun h => hrefuses.1 (Phase.bind_ofName?_eq_some_iff.mp h)
    have hrefused := refuses_iff.mp hrefuses
    refine ⟨opened, hopened, ?_, ?_⟩
    · rw [Report.ofNotices, map_render_of_not_accepts hopened hrefused, exit,
        output_of_not_accepts hrefused, complaints, Text.unlines, List.flatMap_map]
      rfl
    · have haccepts := accepts_lenient (stopAt.bind Phase.ofName?) sources
      rw [Report.ofNotices, map_render_of_accepts hopened haccepts, exit,
        output_of_accepts haccepts, Option.isSome_some, if_pos rfl, remarks, if_neg hphase,
        Text.unlines, List.flatMap_append, List.flatMap_map]
      split <;> rfl
  agree := by
    intro h
    rw [refuses_iff, not_not] at h
    exact ofSources_of_accepts h table

end Product

end JassDecl
