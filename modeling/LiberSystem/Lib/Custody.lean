import Mathlib.Logic.Function.Basic

/-!
# Resources in one hand

A resource that is live has at most one holder, or is in the list of the place where it is.
-/

namespace LiberSystem

open Function

variable {H P : Type*}

/-- What is held is live, and no two holders have one resource. -/
structure Custody (live : P → Bool) (holds : H → P → Prop) : Prop where
  live_of : ∀ h p, holds h p → live p = true
  one : ∀ h h' p, holds h p → holds h' p → h = h'

namespace Custody

variable {live : P → Bool} {holds holds' : H → P → Prop} {a b : H} {p : P}

section

variable (hc : Custody live holds)
include hc

theorem mono (hle : ∀ h q, holds' h q → holds h q) : Custody live holds' where
  live_of h q hq := hc.live_of h q (hle h q hq)
  one h h' q hq hq' := hc.one h h' q (hle h q hq) (hle h' q hq')

theorem acquire [DecidableEq P] (hp : live p = false)
    (hle : ∀ h q, holds' h q → holds h q ∨ h = a ∧ q = p) :
    Custody (update live p true) holds' := by
  have hfree : ∀ h, ¬ holds h p := by
    intro h hhold
    have := hc.live_of h p hhold
    rw [hp] at this
    cases this
  refine ⟨fun h q hq => ?_,fun h h' q hq hq' => ?_⟩
  · by_cases hqp : q = p
    · rw [hqp,update_self]
    · rw [update_of_ne hqp]
      exact hc.live_of h q ((hle h q hq).resolve_right fun hnew => hqp hnew.2)
  · rcases hle h q hq with hold | ⟨rfl,rfl⟩ <;> rcases hle h' q hq' with hold' | ⟨rfl,hqp⟩
    · exact hc.one h h' q hold hold'
    · exact absurd (hqp ▸ hold) (hfree h)
    · exact absurd hold' (hfree h')
    · rfl

theorem release [DecidableEq P] (ha : holds a p) (hle : ∀ h q, holds' h q → holds h q)
    (hgone : ¬ holds' a p) : Custody (update live p false) holds' := by
  refine ⟨fun h q hq => ?_,fun h h' q hq hq' => hc.one h h' q (hle h q hq) (hle h' q hq')⟩
  have hqp : q ≠ p := by
    rintro rfl
    have := hc.one h a q (hle h q hq) ha
    exact hgone (this ▸ hq)
  rw [update_of_ne hqp]
  exact hc.live_of h q (hle h q hq)

theorem pass (hle : ∀ h q, holds' h q → holds h q ∨ h = b ∧ holds a q ∧ ¬ holds' a q) :
    Custody live holds' := by
  refine ⟨fun h q hq => ?_,fun h h' q hq hq' => ?_⟩
  · rcases hle h q hq with hold | ⟨-,hold,-⟩
    · exact hc.live_of h q hold
    · exact hc.live_of a q hold
  rcases hle h q hq with hold | ⟨rfl,hold,hgone⟩ <;>
    rcases hle h' q hq' with hold' | ⟨rfl,hold',hgone'⟩
  · exact hc.one h h' q hold hold'
  · exact absurd (hc.one h a q hold hold' ▸ hq) hgone'
  · exact absurd (hc.one h' a q hold' hold ▸ hq') hgone
  · rfl

end

end Custody

open List

/-- Every resource is in the list of its place, once. What is at `out` is in no list. -/
structure InPlace (held : H → List P) (place : P → H) (out : H) : Prop where
  nodup : ∀ h ≠ out, (held h).Nodup
  mem : ∀ h ≠ out, ∀ p, p ∈ held h ↔ place p = h

theorem InPlace.move [DecidableEq P] {held held' : H → List P} {place place' : P → H} {out : H}
    (hl : InPlace held place out) {moved : List P} (src dst : H) (hne : src ≠ dst)
    (hmoved : moved.Nodup) (hin : ∀ p ∈ moved, place p = src)
    (hplace : ∀ p, place' p = if p ∈ moved then dst else place p)
    (hsrc : src ≠ out → (held src).Perm (moved ++ held' src))
    (hdst : dst ≠ out → (held' dst).Perm (moved ++ held dst))
    (hrest : ∀ h, h ≠ src → h ≠ dst → held' h = held h) : InPlace held' place' out := by
  have hnow : ∀ h ≠ out, (held' h).Nodup ∧ ∀ p, p ∈ held' h ↔ place' p = h := by
    intro h hout
    have hnodup := hl.nodup h hout
    have hmem := hl.mem h hout
    by_cases hs : h = src
    · subst hs
      rw [(hsrc hout).nodup_iff,nodup_append] at hnodup
      refine ⟨hnodup.2.1,fun p => ?_⟩
      rw [hplace]
      split
      · next hp => exact iff_of_false (fun hp' => hnodup.2.2 p hp p hp' rfl) hne.symm
      · next hp => rw [← hmem,(hsrc hout).mem_iff,mem_append,or_iff_right hp]
    have haway : ∀ p ∈ moved, p ∉ held h :=
      fun p hp hp' => hs (((hmem p).mp hp').symm.trans (hin p hp))
    by_cases hd : h = dst
    · subst hd
      rw [(hdst hout).nodup_iff,nodup_append]
      refine ⟨⟨hmoved,hnodup,?_⟩,fun p => ?_⟩
      · rintro p hp _ hp' rfl
        exact haway p hp hp'
      rw [hplace,(hdst hout).mem_iff,mem_append]
      split
      · next hp => exact iff_of_true (.inl hp) rfl
      · next hp => rw [or_iff_right hp,hmem]
    · rw [hrest h hs hd]
      refine ⟨hnodup,fun p => ?_⟩
      rw [hplace]
      split
      · next hp => exact iff_of_false (haway p hp) (Ne.symm hd)
      · exact hmem p
  exact ⟨fun h hout => (hnow h hout).1,fun h hout => (hnow h hout).2⟩

end LiberSystem
