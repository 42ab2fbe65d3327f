import Mathlib.Algebra.GroupWithZero.Nat
import Mathlib.Control.Basic

/-!
# Computations that ask their environment

`Interact Req Ans α` is a computation that is done, or puts a request to its environment and goes on
with the answer. `wp env G p Q` is the weakest condition on the environment under which every answer
of `p` meets `Q` and every request on the way changes the environment within `G`.
-/

namespace LiberSystem

variable {Req : Type} {Ans : Req → Type} {α β σ ε η : Type} {a : α} {r : Req}

/-- A computation that is done, or asks and goes on with the answer. -/
inductive Interact (Req : Type) (Ans : Req → Type) (α : Type) where
  | done (a : α)
  | ask (r : Req) (next : Ans r → Interact Req Ans α)

/-- What an environment may do with a request: the state before it, the answer and the
state after it. -/
abbrev Environment (Req : Type) (Ans : Req → Type) (η : Type) := η → (r : Req) → Ans r → η → Prop

namespace Interact

protected def bind : Interact Req Ans α → (α → Interact Req Ans β) → Interact Req Ans β
  | done a, f => f a
  | ask r next, f => ask r fun ans => (next ans).bind f

instance : Monad (Interact Req Ans) where
  pure := done
  bind := Interact.bind

def request (r : Req) : Interact Req Ans (Ans r) := ask r done

/-- Run to the end with every request answered by the same function of the state. -/
def run (answer : η → (r : Req) → Ans r × η) : Interact Req Ans α → η → α × η
  | done a, h => (a, h)
  | ask r next, h => run answer (next (answer h r).1) (answer h r).2

variable {env : Environment Req Ans η} {G G' : η → η → Prop} {p : Interact Req Ans α}
  {f : α → Interact Req Ans β} {Q Q' : α → η → Prop} {R : β → η → Prop} {h h' : η}

/-- What the environment has to be like for the answers to meet `Q` and every request
on the way to meet `G`. -/
def wp (env : Environment Req Ans η) (G : η → η → Prop) :
    Interact Req Ans α → (α → η → Prop) → η → Prop
  | done a, Q, h => Q a h
  | ask r next, Q, h => ∀ ans h', env h r ans h' → G h h' ∧ wp env G (next ans) Q h'

@[simp] theorem wp_done : wp env G (done a) Q h = Q a h := rfl

theorem wp_bind : wp env G (p >>= f) R h ↔ wp env G p (fun a h => wp env G (f a) R h) h := by
  induction p generalizing h with
  | done a => rfl
  | ask r next ih =>
    refine forall₂_congr fun ans h' => imp_congr_right fun _ => and_congr_right fun _ => ?_
    exact ih ans

theorem wp.mono (hp : wp env G p Q h) (hG : ∀ h h', G h h' → G' h h')
    (hQ : ∀ a h, Q a h → Q' a h) : wp env G' p Q' h := by
  induction p generalizing h with
  | done a => exact hQ a h hp
  | ask r next ih =>
    intro ans h' henv
    obtain ⟨hg,hnext⟩ := hp ans h' henv
    exact ⟨hG _ _ hg,ih ans hnext⟩

theorem wp.run (hp : wp env G p Q h) {a : η → (r : Req) → Ans r × η}
    (hanswer : ∀ h r, env h r (a h r).1 (a h r).2) : Q (run a p h).1 (run a p h).2 := by
  induction p generalizing h with
  | done a => exact hp
  | ask r next ih => exact ih _ (hp _ _ (hanswer h r)).2

/-- `p` may end with `a` and leave the environment in `h'`. -/
inductive Leads (env : Environment Req Ans η) : Interact Req Ans α → η → α → η → Prop where
  | done (a : α) (h : η) : Leads env (done a) h a h
  | ask {r : Req} {next : Ans r → Interact Req Ans α} {h h' h'' : η} {ans : Ans r} {a : α} :
      env h r ans h' → Leads env (next ans) h' a h'' → Leads env (ask r next) h a h''

theorem wp.leads (hp : wp env G p Q h) (hl : Leads env p h a h') : Q a h' := by
  induction hl with
  | done => exact hp
  | ask henv _ ih => exact ih (hp _ _ henv).2

theorem Leads.related {R : η → η → Prop} (hrefl : ∀ h, R h h)
    (htrans : ∀ {h h' h''}, R h h' → R h' h'' → R h h'')
    (henv : ∀ {h r ans h'}, env h r ans h' → R h h') (hl : Leads env p h a h') :
    R h h' := by
  induction hl with
  | done => exact hrefl _
  | ask he _ ih => exact htrans (henv he) ih

end Interact

/-- A computation with a state of its own that asks its environment and may fail; the
state is kept when it does. -/
abbrev Proc (Req : Type) (Ans : Req → Type) (σ ε α : Type) :=
  ExceptT ε (StateT σ (Interact Req Ans)) α

namespace Proc

def exec (m : Proc Req Ans σ ε α) (s : σ) : Interact Req Ans (Except ε α × σ) :=
  StateT.run (ExceptT.run m) s

def call (r : Req) : Proc Req Ans σ ε (Ans r) :=
  ExceptT.lift (StateT.lift (Interact.request r))

def ensure (c : Prop) [Decidable c] (e : ε) : Proc Req Ans σ ε Unit :=
  if c then pure () else throw e

def orThrow (o : Option α) (e : ε) : Proc Req Ans σ ε α :=
  match o with
  | some a => pure a
  | none => throw e

def fromExcept (r : Except ε α) : Proc Req Ans σ ε α :=
  match r with
  | .ok a => pure a
  | .error e => throw e

/-- What holds of an outcome: `Q` of a value, `E` of an error. -/
def Ends (Q : α → σ → η → Prop) (E : ε → σ → η → Prop) : Except ε α × σ → η → Prop
  | (.ok a, s), h => Q a s h
  | (.error e, s), h => E e s h

/-- What a computation needs of its state and of the environment for its values to meet
`Q` and its errors `E`, with every request on the way within `G`. -/
def wp (env : Environment Req Ans η) (G : η → η → Prop) (m : Proc Req Ans σ ε α)
    (Q : α → σ → η → Prop) (E : ε → σ → η → Prop) (s : σ) (h : η) : Prop :=
  Interact.wp env G (exec m s) (Ends Q E) h

variable {env : Environment Req Ans η} {G : η → η → Prop} {m m' : Proc Req Ans σ ε α}
  {f : α → Proc Req Ans σ ε β} {Q Q' : α → σ → η → Prop} {R : β → σ → η → Prop}
  {E E' : ε → σ → η → Prop} {s t : σ} {h : η}

@[simp] theorem wp_pure :
    wp env G (pure a : Proc Req Ans σ ε α) Q E s h = Q a s h := rfl

variable {e : ε} {c : Prop}

@[simp] theorem wp_throw : wp env G (throw e : Proc Req Ans σ ε α) Q E s h = E e s h := rfl

@[simp] theorem wp_get {Q : σ → σ → η → Prop} :
    wp env G (get : Proc Req Ans σ ε σ) Q E s h = Q s s h := rfl

@[simp] theorem wp_set {Q : PUnit → σ → η → Prop} :
    wp env G (set t : Proc Req Ans σ ε PUnit) Q E s h = Q ⟨⟩ t h := rfl

@[simp] theorem wp_modify {g : σ → σ} {Q : PUnit → σ → η → Prop} :
    wp env G (modify g : Proc Req Ans σ ε PUnit) Q E s h = Q ⟨⟩ (g s) h := rfl

/-- No condition on the way: what a computation leaves is judged at its end. -/
def anyway (_ _ : η) : Prop := True

theorem wp_request {Q : Ans r → σ → η → Prop} (hQ : ∀ ans h', env h r ans h' → Q ans s h') :
    wp env anyway (call r : Proc Req Ans σ ε (Ans r)) Q E s h :=
  fun ans h' he => ⟨trivial,hQ ans h' he⟩

@[simp] theorem wp_bind :
    wp env G (m >>= f) R E s h ↔ wp env G m (fun a t h => wp env G (f a) R E t h) E s h := by
  have hbind : exec (m >>= f) s = exec m s >>= fun r => match r with
      | (.ok a, t) => exec (f a) t
      | (.error e, t) => .done (.error e, t) := by
    change Interact.bind (exec m s) _ = Interact.bind (exec m s) _
    congr 1
    funext r
    rcases r with ⟨e | a,t⟩ <;> rfl
  rw [wp,hbind,Interact.wp_bind,wp]
  have hends : (fun r h => Interact.wp env G (match r with
      | (.ok a, t) => exec (f a) t
      | (.error e, t) => .done (.error e, t)) (Ends R E) h) =
      Ends (fun a t h => wp env G (f a) R E t h) E := by
    funext r h
    rcases r with ⟨e | a,t⟩ <;> rfl
  rw [hends]

@[simp] theorem wp_ite [Decidable c] :
    wp env G (if c then m else m') Q E s h =
      if c then wp env G m Q E s h else wp env G m' Q E s h := by
  split <;> rfl

@[simp] theorem wp_ensure [Decidable c] {Q : Unit → σ → η → Prop} :
    wp env G (ensure c e) Q E s h = if c then Q () s h else E e s h := by
  rw [ensure,wp_ite]
  rfl

theorem wp_orThrow {o : Option α} (hsome : ∀ a, o = some a → Q a s h)
    (hnone : o = none → E e s h) : wp env G (orThrow o e) Q E s h := by
  cases o with
  | none => exact hnone rfl
  | some a => exact hsome a rfl

theorem wp_fromExcept {r : Except ε α} (hok : ∀ a, r = .ok a → Q a s h)
    (herror : ∀ e, r = .error e → E e s h) : wp env G (fromExcept r) Q E s h := by
  cases r with
  | error e => exact herror e rfl
  | ok a => exact hok a rfl

theorem wp.mono (hm : wp env G m Q E s h) (hQ : ∀ a t h, Q a t h → Q' a t h)
    (hE : ∀ e t h, E e t h → E' e t h) : wp env G m Q' E' s h := by
  refine Interact.wp.mono hm (fun _ _ hg => hg) ?_
  rintro ⟨e | a,t⟩ h hend
  · exact hE e t h hend
  · exact hQ a t h hend

end Proc

end LiberSystem
