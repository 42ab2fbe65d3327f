import Mathlib.Control.Basic

/-!
# Computations that change a state and may fail

`Fallible σ ε α` runs on a state, ends with a value or an error and hands the state on in both
cases.
-/

namespace LiberSystem

variable {σ ε α β : Type}

/-- A computation on a state that may fail; the state is kept when it does. -/
abbrev Fallible (σ ε α : Type) := ExceptT ε (StateM σ) α

namespace Fallible

def exec (m : Fallible σ ε α) (s : σ) : Except ε α × σ := StateT.run (ExceptT.run m) s

def ensure (c : Prop) [Decidable c] (e : ε) : Fallible σ ε Unit :=
  if c then pure () else throw e

/-- What a computation needs of the state for its values to meet `Q` and its errors `E`. -/
def wp (m : Fallible σ ε α) (Q : α → σ → Prop) (E : ε → σ → Prop) (s : σ) : Prop :=
  match exec m s with
  | (.ok a, t) => Q a t
  | (.error e, t) => E e t

variable {m : Fallible σ ε α} {f : α → Fallible σ ε β} {Q Q' : α → σ → Prop}
  {R : β → σ → Prop} {E E' : ε → σ → Prop} {s t : σ}

variable {a : α} {e : ε} {c : Prop}

@[simp] theorem wp_pure : wp (pure a : Fallible σ ε α) Q E s = Q a s := rfl

@[simp] theorem wp_throw : wp (throw e : Fallible σ ε α) Q E s = E e s := rfl

@[simp] theorem wp_get {Q : σ → σ → Prop} : wp (get : Fallible σ ε σ) Q E s = Q s s := rfl

@[simp] theorem wp_set {Q : PUnit → σ → Prop} :
    wp (set t : Fallible σ ε PUnit) Q E s = Q ⟨⟩ t := rfl

@[simp] theorem wp_modify {g : σ → σ} {Q : PUnit → σ → Prop} :
    wp (modify g : Fallible σ ε PUnit) Q E s = Q ⟨⟩ (g s) := rfl

@[simp] theorem wp_bind :
    wp (m >>= f) R E s = wp m (fun a t => wp (f a) R E t) E s := by
  have hbind : exec (m >>= f) s = match exec m s with
      | (.ok a, t) => exec (f a) t
      | (.error e, t) => (.error e, t) := by
    change (ExceptT.bindCont (fun a => f a) (m s).1).run (m s).2 = _
    rcases hm : m s with ⟨r | a,t⟩ <;> simp only [exec,ExceptT.run,StateT.run,hm] <;> rfl
  rw [wp,hbind,wp]
  rcases exec m s with ⟨e | a,t⟩ <;> rfl

@[simp] theorem wp_map {g : α → β} : wp (g <$> m) R E s = wp m (fun a => R (g a)) E s := by
  rw [map_eq_pure_bind,wp_bind]
  rfl

@[simp] theorem wp_ite [Decidable c] {m' : Fallible σ ε α} :
    wp (if c then m else m') Q E s = if c then wp m Q E s else wp m' Q E s := by
  split <;> rfl

@[simp] theorem wp_ensure [Decidable c] {Q : Unit → σ → Prop} :
    wp (ensure c e : Fallible σ ε Unit) Q E s = if c then Q () s else E e s := by
  rw [ensure,wp_ite]
  rfl

section

variable (h : wp m Q E s) (hQ : ∀ a t, Q a t → Q' a t)
include h hQ

theorem wp.mono (hE : ∀ e t, E e t → E' e t) :
    wp m Q' E' s := by
  unfold wp at h ⊢
  split at h
  · exact hQ _ _ h
  · exact hE _ _ h

theorem wp.imp : wp m Q' (fun _ _ => True) s := h.mono hQ fun _ _ _ => trivial

end

theorem wp.of_ok (h : wp m Q E s) (hm : exec m s = (.ok a, t)) : Q a t := by
  rwa [wp,hm] at h

theorem ok_of_toOption {x : Except ε α} (h : x.toOption = some a) : x = .ok a := by
  cases x with
  | error e => cases h
  | ok b => exact congrArg Except.ok (Option.some.inj h)

end Fallible

end LiberSystem
