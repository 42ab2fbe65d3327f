import Mathlib.Logic.Basic

/-!
# Two runs of one computation

A fallible computation is run twice, on inputs that differ in what must not matter.
-/

namespace LiberSystem

variable {ε α β γ δ : Type}

/-- The outcomes of two runs that may differ by an `allowed` error only. -/
def Agree (R : α → β → Prop) (allowed : ε → Prop) : Except ε α → Except ε β → Prop
  | .ok a, .ok b => R a b
  | .ok _, .error e => allowed e
  | .error e, .ok _ => allowed e
  | .error e, .error e' => e = e' ∨ allowed e ∨ allowed e'

namespace Agree

variable {R : α → β → Prop} {S : γ → δ → Prop} {allowed allowed' : ε → Prop}
  {x x' : Except ε α} {y y' : Except ε β}

theorem fail (e : ε) : Agree R allowed (.error e) (.error e) := .inl rfl

theorem ite {c c' : Prop} [Decidable c] [Decidable c'] (hc : c ↔ c') (h : Agree R allowed x y)
    (h' : Agree R allowed x' y') :
    Agree R allowed (if c then x else x') (if c' then y else y') := by
  by_cases hcase : c
  · rw [if_pos hcase,if_pos (hc.mp hcase)]
    exact h
  · rw [if_neg hcase,if_neg fun h' => hcase (hc.mpr h')]
    exact h'

theorem ite_allowed {c c' : Prop} [Decidable c] [Decidable c'] {e : ε} (he : allowed e)
    (h : Agree R allowed x y) :
    Agree R allowed (if c then .error e else x) (if c' then .error e else y) := by
  split <;> split
  · exact fail e
  · cases y with
    | ok b => exact he
    | error e' => exact .inr (.inl he)
  · cases x with
    | ok a => exact he
    | error e' => exact .inr (.inr he)
  · exact h

theorem bind {f : α → Except ε γ} {g : β → Except ε δ} (h : Agree R allowed x y)
    (hle : ∀ e, allowed e → allowed' e) (hfg : ∀ a b, R a b → Agree S allowed' (f a) (g b)) :
    Agree S allowed' (x >>= f) (y >>= g) := by
  cases x with
  | ok a =>
    cases y with
    | ok b => exact hfg a b h
    | error e =>
      change Agree S allowed' (f a) (.error e)
      cases f a with
      | ok c => exact hle e h
      | error e' => exact .inr (.inr (hle e h))
  | error e =>
    cases y with
    | ok b =>
      change Agree S allowed' (.error e) (g b)
      cases g b with
      | ok c => exact hle e h
      | error e' => exact .inr (.inl (hle e h))
    | error e' =>
      rcases h with h | h | h
      · exact .inl h
      · exact .inr (.inl (hle e h))
      · exact .inr (.inr (hle e' h))

end Agree

end LiberSystem
