import JassDecl.Options
import Mathlib.Data.List.Basic

/-! # Arguments taken one unit after the other

Arguments are read from left to right. What is read of the first ones does not depend on what
follows them, as long as they do not end in an option without its value. -/

namespace JassDecl.Options

theorem map_eq_ok {ε α β : Type} {f : α → β} {e : Except ε α} {b : β} (h : e.map f = .ok b) :
    ∃ a, e = .ok a ∧ f a = b := by
  cases e with
  | error fault => cases h
  | ok a => exact ⟨a, rfl, Except.ok.inj h⟩

theorem map_map {ε α β γ : Type} (f : α → β) (g : β → γ) (e : Except ε α) :
    (e.map f).map g = e.map (g ∘ f) := by
  cases e <;> rfl

theorem settings_append {front : List Text} {ss : List Setting} (h : settings front = .ok ss)
    (back : List Text) : settings (front ++ back) = (settings back).map (ss ++ ·) := by
  fun_induction settings front generalizing ss with
  | case1 =>
      obtain rfl := Except.ok.inj h
      simp only [List.nil_append]
      cases settings back <;> rfl
  | case2 => cases h
  | case3 => cases h
  -- A flag or a path, and after it the rest.
  | case4 argument rest setting hswitch ih =>
      obtain ⟨later, hlater, rfl⟩ := map_eq_ok h
      simp only [List.cons_append, settings, hswitch, ih hlater, map_map, Function.comp_def]
  | case5 => cases h
  -- An option with its value, and after both the rest.
  | case6 argument setting hswitch value rest ih =>
      obtain ⟨later, hlater, rfl⟩ := map_eq_ok h
      simp only [List.cons_append, settings, hswitch, ih hlater, map_map, Function.comp_def]

end JassDecl.Options
