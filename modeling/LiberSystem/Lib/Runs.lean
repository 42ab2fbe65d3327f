import Mathlib.Algebra.GroupWithZero.Nat
import Mathlib.Logic.Relation

/-!
# Runs of a partial transition function

A component is given by `step : σ → α → Option σ`: `none` means that the action is not possible.
-/

namespace LiberSystem

variable {σ α : Type*} {P : σ → Prop}

def StepWhere (step : σ → α → Option σ) (ok : σ → α → Prop) (s t : σ) : Prop :=
  ∃ a, ok s a ∧ step s a = some t

/-- `t` is reached from `s` by steps that all meet `ok`. -/
def Reaches (step : σ → α → Option σ) (ok : σ → α → Prop) : σ → σ → Prop :=
  Relation.ReflTransGen (StepWhere step ok)

namespace Reaches

variable {step : σ → α → Option σ} {ok ok' : σ → α → Prop} {s t u : σ}

theorem refl : Reaches step ok s s := Relation.ReflTransGen.refl

section

variable (h : Reaches step ok s t)
include h

theorem tail {a : α} (hok : ok t a) (hs : step t a = some u) : Reaches step ok s u :=
  Relation.ReflTransGen.tail h ⟨a,hok,hs⟩

/-- A property that holds at the start and that no step breaks holds in every
state reached. -/
theorem invariant (h0 : P s) (hstep : ∀ s a t, P s → ok s a → step s a = some t → P t) : P t := by
  induction h with
  | refl => exact h0
  | tail _ hst ih =>
    obtain ⟨a,hok,hs⟩ := hst
    exact hstep _ a _ ih hok hs

theorem mono (hle : ∀ s a, ok s a → ok' s a) : Reaches step ok' s t := by
  refine Relation.ReflTransGen.mono (fun s t hst => ?_) _ _ h
  obtain ⟨a,hok,hs⟩ := hst
  exact ⟨a,hle s a hok,hs⟩

theorem trans (h' : Reaches step ok t u) : Reaches step ok s u := Relation.ReflTransGen.trans h h'

end

end Reaches

def runList (step : σ → α → Option σ) : σ → List α → Option σ
  | s, [] => some s
  | s, a :: rest => (step s a).bind fun t => runList step t rest

variable {step : σ → α → Option σ} {ok : σ → α → Prop} {acts : List α} {s t : σ}

theorem reaches_of_runList (h : runList step s acts = some t)
    (hok : ∀ s, ∀ a ∈ acts, ok s a) : Reaches step ok s t := by
  induction acts generalizing s with
  | nil =>
    simp only [runList,Option.some.injEq] at h
    subst h
    exact Reaches.refl
  | cons a rest ih =>
    obtain ⟨m,hm,hr⟩ := Option.bind_eq_some_iff.mp h
    exact Relation.ReflTransGen.head ⟨a,hok s a List.mem_cons_self,hm⟩
      (ih hr fun s b hb => hok s b (List.mem_cons_of_mem a hb))

theorem reaches_of_runList_checked [∀ s a, Decidable (ok s a)]
    (h : runList (fun s a => if ok s a then step s a else none) s acts = some t) :
    Reaches step ok s t := by
  have hrun : Reaches _ (fun _ _ => True) s t := reaches_of_runList h fun _ _ _ => trivial
  refine Relation.ReflTransGen.mono (fun s t hst => ?_) _ _ hrun
  obtain ⟨a,-,hs⟩ := hst
  dsimp only at hs
  split at hs
  · next hok => exact ⟨a,hok,hs⟩
  · cases hs

theorem exists_of_any {o : Option σ} [DecidablePred P] (h : o.any fun s => P s) :
    ∃ s, o = some s ∧ P s := by
  obtain ⟨s,hs,hP⟩ := (Option.any_eq_true _ _).mp h
  exact ⟨s,hs,of_decide_eq_true hP⟩

/-- A run that is carried out and a check of the state it ends in show that such a state is
reached. -/
theorem exists_reaches_imp [∀ s a, Decidable (ok s a)] {Q : σ → Prop} [DecidablePred P]
    (acts : List α)
    (h : (runList (fun s a => if ok s a then step s a else none) s acts).any fun t => P t)
    (himp : ∀ t, Reaches step ok s t → P t → Q t) : ∃ t, Reaches step ok s t ∧ Q t := by
  obtain ⟨t,ht,hP⟩ := exists_of_any h
  have hrun := reaches_of_runList_checked ht
  exact ⟨t,hrun,himp t hrun hP⟩

theorem exists_reaches [∀ s a, Decidable (ok s a)] [DecidablePred P] (acts : List α)
    (h : (runList (fun s a => if ok s a then step s a else none) s acts).any fun t => P t) :
    ∃ t, Reaches step ok s t ∧ P t :=
  exists_reaches_imp acts h fun _ _ hP => hP

/-- A path through a labelled relation: the list of labels along it. -/
inductive Trace {ε : Type*} (R : ε → σ → σ → Prop) : List ε → σ → σ → Prop where
  | nil (s : σ) : Trace R [] s s
  | cons {e : ε} {rest : List ε} {s m t : σ} :
      R e s m → Trace R rest m t → Trace R (e :: rest) s t

namespace Trace

variable {ε : Type*} {R : ε → σ → σ → Prop} {e : ε} {es fs : List ε} {s t u : σ}

theorem single (h : R e s t) : Trace R [e] s t := .cons h (.nil t)

theorem append (h : Trace R es s t) (h' : Trace R fs t u) : Trace R (es ++ fs) s u := by
  induction h with
  | nil => exact h'
  | cons hR _ ih => exact .cons hR (ih h')

theorem append_inv (h : Trace R (es ++ fs) s u) : ∃ m, Trace R es s m ∧ Trace R fs m u := by
  induction es generalizing s with
  | nil => exact ⟨s,.nil s,h⟩
  | cons e es ih =>
    cases h with
    | cons hR hrest =>
      obtain ⟨m,hm,hu⟩ := ih hrest
      exact ⟨m,.cons hR hm,hu⟩

/-- What a label does to an invariant's parameter: if one edge keeps the invariant
while the parameter goes through `f`, a path keeps it through the fold. -/
theorem fold {β : Type*} {P : β → σ → Prop} {f : β → ε → β} (h : Trace R es s t) {b : β}
    (h0 : P b s) (hstep : ∀ b e s t, e ∈ es → P b s → R e s t → P (f b e) t) :
    P (es.foldl f b) t := by
  induction h generalizing b with
  | nil => exact h0
  | cons hR _ ih =>
    exact ih (hstep _ _ _ _ (by simp) h0 hR)
      fun b e s t he => hstep b e s t (List.mem_cons_of_mem _ he)

theorem invariant (h : Trace R es s t) (h0 : P s)
    (hstep : ∀ e s t, e ∈ es → P s → R e s t → P t) : P t :=
  h.fold (f := fun b _ => b) (b := ()) h0 fun _ e s t he => hstep e s t he

end Trace

end LiberSystem
