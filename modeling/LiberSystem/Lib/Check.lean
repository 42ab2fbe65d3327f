import Mathlib.Data.Set.Basic

/-!
# Checks that read step by step

A `Check` asks a question of a state that others may change between its reads.
-/

namespace LiberSystem

/-- A piece of code that only reads: each `read` is one atomic access, or one critical
section, possible when the lock it takes is free. -/
inductive Check (Ω : Type) where
  | done (answer : Bool)
  | read (free : Ω → Bool) (next : Ω → Check Ω)

namespace Check

variable {Ω ι : Type}

def test (c : Ω → Bool) : Check Ω := .read (fun _ => true) fun ω => .done (c ω)

def orElse : Check Ω → Check Ω → Check Ω
  | .done true, _ => .done true
  | .done false, q => q
  | .read free next, q => .read free fun ω => (next ω).orElse q

def andThen : Check Ω → Check Ω → Check Ω
  | .done true, q => q
  | .done false, _ => .done false
  | .read free next, q => .read free fun ω => (next ω).andThen q

def any (checks : List (Check Ω)) : Check Ω := checks.foldr orElse (.done false)

def all (checks : List (Check Ω)) : Check Ω := checks.foldr andThen (.done true)

def eval (ω : Ω) : Check Ω → Bool
  | .done answer => answer
  | .read _ next => (next ω).eval ω

@[simp] theorem eval_test (ω : Ω) (c : Ω → Bool) : (test c).eval ω = c ω := rfl

@[simp] theorem eval_orElse (ω : Ω) (p q : Check Ω) :
    (p.orElse q).eval ω = (p.eval ω || q.eval ω) := by
  induction p with
  | done answer => cases answer <;> simp [orElse,eval]
  | read free next ih => exact ih ω

@[simp] theorem eval_andThen (ω : Ω) (p q : Check Ω) :
    (p.andThen q).eval ω = (p.eval ω && q.eval ω) := by
  induction p with
  | done answer => cases answer <;> simp [andThen,eval]
  | read free next ih => exact ih ω

@[simp] theorem eval_all (ω : Ω) (checks : List (Check Ω)) :
    (all checks).eval ω = checks.all fun q => q.eval ω := by
  induction checks with
  | nil => rfl
  | cons q rest ih => simp [all,← ih]

section

variable (inv : Ω → Prop) (holds : ι → Ω → Prop) (facts : Set ι)

def falseAt (ω : Ω) : Set ι := {i | i ∈ facts ∧ ¬ holds i ω}

/-- Where the check says no, the goal can hold only if a fact does that was false at one of
the reads, or that is in `seen`. -/
def Refutes (goal : Ω → Prop) : Check Ω → Set ι → Prop
  | .done true, _ => True
  | .done false, seen => ∀ ω, inv ω → goal ω → ∃ i ∈ seen, holds i ω
  | .read free next, seen =>
    ∀ ω, inv ω → free ω = true → Refutes goal (next ω) (seen ∪ falseAt holds facts ω)

end

variable {inv : Ω → Prop} {holds : ι → Ω → Prop} {facts seen seen' : Set ι}
  {goal goal' : Ω → Prop} {p q : Check Ω}

theorem Refutes.mono (h : Refutes inv holds facts goal q seen) (hle : seen ⊆ seen') :
    Refutes inv holds facts goal q seen' := by
  induction q generalizing seen seen' with
  | done answer =>
    cases answer with
    | true => trivial
    | false =>
      intro ω hω hgoal
      obtain ⟨i,hi,hholds⟩ := h ω hω hgoal
      exact ⟨i,hle hi,hholds⟩
  | read free next ih =>
    intro ω hω hfree
    exact ih ω (h ω hω hfree) (Set.union_subset_union_left _ hle)

theorem Refutes.of_seen (h : ∀ ω, inv ω → goal ω → ∃ i ∈ seen, holds i ω) :
    Refutes inv holds facts goal q seen := by
  induction q generalizing seen with
  | done answer =>
    cases answer with
    | true => trivial
    | false => exact h
  | read free next ih =>
    intro ω hω _
    refine ih ω fun ω' hω' hgoal => ?_
    obtain ⟨i,hi,hholds⟩ := h ω' hω' hgoal
    exact ⟨i,.inl hi,hholds⟩

section

variable (h : Refutes inv holds facts goal q seen)
include h

theorem Refutes.or (h' : Refutes inv holds facts goal' q seen) :
    Refutes inv holds facts (fun ω => goal ω ∨ goal' ω) q seen := by
  induction q generalizing seen with
  | done answer =>
    cases answer with
    | true => trivial
    | false => exact fun ω hω hgoal => hgoal.elim (h ω hω) (h' ω hω)
  | read free next ih => exact fun ω hω hfree => ih ω (h ω hω hfree) (h' ω hω hfree)

theorem Refutes.imp
    (himp : ∀ ω, inv ω → goal' ω → goal ω) : Refutes inv holds facts goal' q seen := by
  induction q generalizing seen with
  | done answer =>
    cases answer with
    | true => trivial
    | false => exact fun ω hω hgoal => h ω hω (himp ω hω hgoal)
  | read free next ih => exact fun ω hω hfree => ih ω (h ω hω hfree)

end

variable {c : Ω → Bool} {α : Type} {l : List α} {f : α → Check Ω} {g : α → Ω → Prop}

theorem Refutes.tests (is : Set ι) (his : is ⊆ facts) (hno : ∀ i ∈ is, ∀ ω, inv ω → holds i ω → c ω)
    (hgoal : ∀ ω, inv ω → goal ω → ∃ i ∈ is, holds i ω) :
    Refutes inv holds facts goal (test c) seen := by
  intro ω hω _
  dsimp only
  cases hc : c ω with
  | true => trivial
  | false =>
    intro ω' hω' hg
    obtain ⟨i,hi,hnow⟩ := hgoal ω' hω' hg
    refine ⟨i,.inr ⟨his hi,fun hholds => ?_⟩,hnow⟩
    rw [hno i hi ω hω hholds] at hc
    cases hc

theorem Refutes.test {i : ι} (hi : i ∈ facts)
    (hno : ∀ ω, inv ω → holds i ω → c ω) (hgoal : ∀ ω, inv ω → goal ω → holds i ω) :
    Refutes inv holds facts goal (Check.test c) seen := by
  refine .tests {i} ?_ ?_ fun ω hω hg => ⟨i,rfl,hgoal ω hω hg⟩
  · rintro _ rfl
    exact hi
  · rintro _ rfl
    exact hno

section

variable (h : Refutes inv holds facts goal p seen)
include h

theorem Refutes.orElse (h' : Refutes inv holds facts goal' q seen) :
    Refutes inv holds facts (fun ω => goal ω ∨ goal' ω) (p.orElse q) seen := by
  induction p generalizing seen with
  | done answer =>
    cases answer with
    | true => trivial
    | false => exact (Refutes.of_seen h).or h'
  | read free next ih =>
    exact fun ω hω hfree => ih ω (h ω hω hfree) (h'.mono Set.subset_union_left)

theorem Refutes.andThen (h' : Refutes inv holds facts goal q seen) :
    Refutes inv holds facts goal (p.andThen q) seen := by
  induction p generalizing seen with
  | done answer =>
    cases answer with
    | true => exact h'
    | false => exact h
  | read free next ih =>
    exact fun ω hω hfree => ih ω (h ω hω hfree) (h'.mono Set.subset_union_left)

end

variable (h : ∀ a ∈ l, Refutes inv holds facts (g a) (f a) seen)
include h

theorem Refutes.any : Refutes inv holds facts (fun ω => ∃ a ∈ l, g a ω) (any (l.map f)) seen := by
  induction l with
  | nil => exact fun ω _ hgoal => absurd hgoal.choose_spec.1 List.not_mem_nil
  | cons a l ih =>
    have hrest := ih fun b hb => h b (List.mem_cons_of_mem _ hb)
    refine ((h a List.mem_cons_self).orElse hrest).imp fun ω _ hgoal => ?_
    obtain ⟨b,hb,hg⟩ := hgoal
    rcases List.mem_cons.mp hb with rfl | hb
    · exact .inl hg
    · exact .inr ⟨b,hb,hg⟩

theorem Refutes.all : Refutes inv holds facts (fun ω => ∀ a ∈ l, g a ω) (all (l.map f)) seen := by
  induction l with
  | nil => trivial
  | cons a l ih =>
    refine ((h a List.mem_cons_self).imp fun ω _ hgoal => hgoal a List.mem_cons_self).andThen ?_
    exact (ih fun b hb => h b (List.mem_cons_of_mem _ hb)).imp fun ω _ hgoal b hb =>
      hgoal b (List.mem_cons_of_mem _ hb)

end Check

end LiberSystem
