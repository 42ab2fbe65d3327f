import LiberSystem.Admin.Broker
import LiberSystem.Lib.Vectors
import Mathlib.Data.List.Nodup

/-!
# What a call does to a request

`Move b c es q q'` lists what a call `c` that asks for the effects `es` can do to one request.
`call_follows` says that no call does anything else. A dispatch is asked for in one place only.
-/

namespace LiberSystem.Admin

open List Effect

variable {b b' : Broker} {c : Call} {es : List Effect} {q q' r r' q₁ q₂ q₃ : Request} {i : Nat}
  {e : Effect}

/-- A request in such a state is never dispatched any more. -/
def State.past (s : State) : Bool := s.terminal || s = .declining || s = .consumed

theorem State.past_of_terminal {s : State} (h : s.terminal) : s.past := by
  rw [past,h,Bool.true_or,Bool.true_or]

def Effect.isDispatch : Effect → Bool
  | .dispatch _ _ _ => true
  | _ => false

/-! ### Requests that are taken out of the way -/

/-- What identifies a request, and how a decline of it ends. -/
structure Request.Same (q q' : Request) : Prop where
  id : q'.id = q.id
  connection : q'.connection = q.connection
  executor : q'.executor = q.executor
  ending : q.ending.terminal = true → q'.ending.terminal = true

theorem Request.Same.refl (q : Request) : q.Same q := ⟨rfl,rfl,rfl,fun h => h⟩

theorem Request.Same.trans (h : q₁.Same q₂) (h' : q₂.Same q₃) : q₁.Same q₃ :=
  ⟨h'.id.trans h.id,h'.connection.trans h.connection,h'.executor.trans h.executor,
    fun he => h'.ending (h.ending he)⟩

/-- The request is left alone, or it is out of the way. -/
def Ends (q q' : Request) : Prop := q' = q ∨ q.Same q' ∧ q'.state.past = true

theorem Ends.refl (q : Request) : Ends q q := .inl rfl

theorem Ends.same (h : Ends q q') : q.Same q' := h.elim (fun heq => heq ▸ .refl q) And.left

theorem Ends.trans (h : Ends q₁ q₂) (h' : Ends q₂ q₃) : Ends q₁ q₃ := by
  rcases h with rfl | ⟨hsame,hpast⟩
  · exact h'
  · rcases h' with rfl | ⟨hsame',hpast'⟩
    · exact .inr ⟨hsame,hpast⟩
    · exact .inr ⟨hsame.trans hsame',hpast'⟩

/-- Each decline in progress is to end. -/
def Broker.Sound (b : Broker) : Prop := ∀ q ∈ b.requests, q.ending.terminal = true

def Harmless (es : List Effect) : Prop := ∀ e ∈ es, e.isDispatch = false

@[simp] theorem Harmless.nil : Harmless [] := fun _ he => (not_mem_nil he).elim

@[simp] theorem Harmless.cons :
    Harmless (e :: es) ↔ e.isDispatch = false ∧ Harmless es := forall_mem_cons

@[simp] theorem Harmless.append {es' : List Effect} :
    Harmless (es ++ es') ↔ Harmless es ∧ Harmless es' := forall_mem_append

section Through

variable {P : Request → Request → Prop} {out out' : Out} {l : List Request}

/-- A call under which requests change as `P` says, and which dispatches nothing. -/
structure Through (P : Request → Request → Prop) (b : Broker) (out : Out) : Prop where
  requests : List.Forall₂ P b.requests out.1.requests
  next : out.1.nextRequest = b.nextRequest
  harmless : Harmless out.2

theorem forall₂_set (hrefl : ∀ q, P q q) (hr : l[i]? = some r) (h : P r r') :
    List.Forall₂ P l (l.set i r') := by
  induction l generalizing i with
  | nil => exact .nil
  | cons q l ih =>
    cases i with
    | zero =>
      cases hr
      exact .cons h (forall₂_same.mpr fun q _ => hrefl q)
    | succ i => exact .cons (hrefl q) (ih hr)

theorem of_mem_forall₂ {l' : List Request} (h : List.Forall₂ P l l') (hq' : q' ∈ l') :
    ∃ q ∈ l, P q q' := by
  obtain ⟨i,hi,rfl⟩ := getElem_of_mem hq'
  have hi' : i < l.length := h.length_eq ▸ hi
  exact ⟨_,getElem_mem hi',h.get hi' hi⟩

namespace Through

theorem trans [IsTrans Request P] (h : Through P b out) (h' : Through P out.1 out') :
    Through P b (out'.1, out.2 ++ out'.2) where
  requests := by
    refine forall₂_iff_get.mpr ⟨h.requests.length_eq.trans h'.requests.length_eq,?_⟩
    intro i hi hi'
    exact Trans.trans (h.requests.get hi (h.requests.length_eq ▸ hi)) (h'.requests.get _ hi')
  next := h'.next.trans h.next
  harmless := Harmless.append.mpr ⟨h.harmless,h'.harmless⟩

theorem each [Std.Refl P] [IsTrans Request P] {α : Type} {f : Broker → α → Out} {l : List α}
    (hf : ∀ a ∈ l, ∀ out, Through P b out → Through P out.1 (f out.1 a)) :
    Through P b (Broker.each f b l) := by
  have hfold : ∀ (l' : List α) (out : Out), l' ⊆ l → Through P b out →
      Through P b (l'.foldl (fun out a => ((f out.1 a).1, out.2 ++ (f out.1 a).2)) out) := by
    intro l'
    induction l' with
    | nil => exact fun out _ h => h
    | cons a l' ih =>
      intro out hsub h
      exact ih _ (cons_subset.mp hsub).2 (h.trans (hf a (hsub mem_cons_self) out h))
  exact hfold l (b, []) (List.Subset.refl l) ⟨forall₂_refl _,rfl,.nil⟩

end Through

end Through

instance : Std.Refl Ends := ⟨.refl⟩

instance : IsTrans Request Ends := ⟨fun _ _ _ => .trans⟩

/-- A call under which requests are at most taken out of the way, and which dispatches nothing. -/
abbrev Calm (b : Broker) (out : Out) : Prop := Through Ends b out

namespace Calm

variable {out : Out}

theorem refl (b : Broker) : Calm b (b, []) := ⟨forall₂_refl _,rfl,.nil⟩

theorem cons (h : Calm b out) (he : e.isDispatch = false) : Calm b (out.1, e :: out.2) :=
  ⟨h.requests,h.next,Harmless.cons.mpr ⟨he,h.harmless⟩⟩

theorem of_eq (h : Calm b' out) (hreq : b'.requests = b.requests)
    (hnext : b'.nextRequest = b.nextRequest) : Calm b out :=
  ⟨hreq ▸ h.requests,hnext ▸ h.next,h.harmless⟩

theorem put (hr : b.requests[i]? = some r) (hsame : r.Same r') (hpast : r'.state.past)
    (hes : Harmless es) : Calm b (b.put i r', es) :=
  ⟨forall₂_set Ends.refl hr (.inr ⟨hsame,hpast⟩),rfl,hes⟩

theorem sound (h : Calm b out) (hb : b.Sound) : out.1.Sound := fun _ hq' => by
  obtain ⟨q,hq,hends⟩ := of_mem_forall₂ h.requests hq'
  exact hends.same.ending (hb q hq)

end Calm

namespace Broker

/-! ### The pieces of the calls -/

/-- A request is in another state, and what is asked for is no dispatch. -/
structure Leaves (q : Request) (state : State) (out : Request × List Effect) : Prop where
  same : q.Same out.1
  state : out.1.state = state
  harmless : Harmless out.2

namespace Leaves

variable {state : State} {out : Request × List Effect}

theorem of_same (h : Leaves q' state out) (hsame : q.Same q') : Leaves q state out :=
  ⟨hsame.trans h.same,h.state,h.harmless⟩

theorem append (h : Leaves q state out) (hes : Harmless es) : Leaves q state (out.1, out.2 ++ es) :=
  ⟨h.same,h.state,Harmless.append.mpr ⟨h.harmless,hes⟩⟩

theorem journal (h : Leaves q state out) (event : Event) (reason : String) (now : Nat) :
    Leaves q state ((journal out.1 event reason now).1,
      out.2 ++ (journal out.1 event reason now).2) :=
  ⟨h.same.trans ⟨rfl,rfl,rfl,id⟩,h.state,
    Harmless.append.mpr ⟨h.harmless,by simp [Broker.journal,isDispatch]⟩⟩

theorem calm (h : Leaves r' state out) (hr : b.requests[i]? = some r) (hsame : r.Same r')
    (hpast : state.past) : Calm b (b.put i out.1, out.2) :=
  .put hr (hsame.trans h.same) (h.state.symm ▸ hpast) h.harmless

end Leaves

theorem releasePrepared_leaves (q : Request) : Leaves q q.state (releasePrepared q) := by
  rw [releasePrepared]
  split
  · exact ⟨⟨rfl,rfl,rfl,id⟩,rfl,by simp [isDispatch]⟩
  · exact ⟨.refl q,rfl,.nil⟩

theorem endDecline_leaves (q : Request) : Leaves q q.ending (endDecline q) := by
  rw [endDecline,answerDeclined]
  split
  · exact ⟨⟨rfl,rfl,rfl,id⟩,rfl,.nil⟩
  · exact ⟨⟨rfl,rfl,rfl,id⟩,rfl,by simp [isDispatch]⟩

theorem fail_leaves (q : Request) (outcome : Option Outcome) : Leaves q .failed (fail q outcome) :=
  ((releasePrepared_leaves { q with state := .failed, redeeming := false }).append
    (by simp [isDispatch])).of_same ⟨rfl,rfl,rfl,id⟩

theorem lapse_leaves (q : Request) (now : Nat) : Leaves q .expired (lapse q now) :=
  (((releasePrepared_leaves { q with state := .expired }).append
    (by simp [isDispatch])).journal _ _ now).of_same ⟨rfl,rfl,rfl,id⟩

theorem hideIfShowing_calm (b : Broker) (id : RequestId) :
    (b.hideIfShowing id).1.requests = b.requests ∧
      (b.hideIfShowing id).1.nextRequest = b.nextRequest ∧ Harmless (b.hideIfShowing id).2 := by
  rw [hideIfShowing]
  split
  · split
    · exact ⟨rfl,rfl,by simp [isDispatch]⟩
    · exact ⟨rfl,rfl,.nil⟩
  · exact ⟨rfl,rfl,.nil⟩

/-- A decline takes the request out of the way, if it is not out of it already. -/
theorem declineAs_spec (hr : b.requests[i]? = some r) (ending : State)
    (hending : ending.terminal) (reason : String) (now : Nat) :
    ∃ r', (b.declineAs i ending reason now).1.requests = b.requests.set i r' ∧ r.Same r' ∧
      r'.state.past ∧ (b.declineAs i ending reason now).1.nextRequest = b.nextRequest ∧
      Harmless (b.declineAs i ending reason now).2 := by
  rw [declineAs,hr]
  dsimp only
  split
  · next hover =>
    refine ⟨r,?_,.refl r,?_,rfl,.nil⟩
    · obtain ⟨hlt,rfl⟩ := List.getElem?_eq_some_iff.mp hr
      rw [set_getElem_self]
    · rw [State.past,hover,Bool.true_or]
  obtain ⟨hreq,hnext,hhide⟩ := hideIfShowing_calm b r.id
  have hrel := releasePrepared_leaves { r with ending := ending }
  refine ⟨_,by rw [put,hreq],?_,rfl,hnext,?_⟩
  · exact ⟨hrel.same.id,hrel.same.connection,hrel.same.executor,fun _ => hrel.same.ending hending⟩
  simp only [Harmless.append]
  refine ⟨⟨⟨hhide,hrel.harmless⟩,?_⟩,by simp [journal,isDispatch]⟩
  split
  · simp [isDispatch]
  · exact .nil

theorem declineAs_calm (b : Broker) (i : Nat) (ending : State) (hending : ending.terminal)
    (reason : String) (now : Nat) : Calm b (b.declineAs i ending reason now) := by
  cases hr : b.requests[i]? with
  | none =>
    rw [declineAs,hr]
    exact .refl b
  | some r =>
    obtain ⟨r',hreq,hsame,hpast,hnext,hes⟩ := declineAs_spec hr ending hending reason now
    exact ⟨hreq ▸ forall₂_set Ends.refl hr (.inr ⟨hsame,hpast⟩),hnext,hes⟩

theorem put_declineAs_calm (hr : b.requests[i]? = some r) (r' : Request) (hsame : r.Same r')
    (ending : State) (hending : ending.terminal) (reason : String) (now : Nat) :
    Calm b ((b.put i r').declineAs i ending reason now) := by
  have hlt : i < b.requests.length := (List.getElem?_eq_some_iff.mp hr).1
  have hr' : (b.put i r').requests[i]? = some r' := List.getElem?_set_self hlt
  obtain ⟨r'',hreq,hsame',hpast,hnext,hes⟩ := declineAs_spec hr' ending hending reason now
  refine ⟨?_,hnext,hes⟩
  rw [hreq,put,set_set]
  exact forall₂_set Ends.refl hr (.inr ⟨hsame.trans hsame',hpast⟩)

theorem find_some {id : RequestId} (h : b.find id = some (i, r)) :
    b.requests[i]? = some r ∧ r.id = id := by
  obtain ⟨hr,hid⟩ := findAt_eq_some (p := fun r : Request => r.id == id) h
  exact ⟨hr,beq_iff_eq.mp hid⟩

/-! ### The calls that take requests out of the way at most -/

variable (b)

theorem refuse_calm (session : Nat) (reason : String) (now : Nat) :
    Calm b (b.refuse session reason now) := by
  rw [refuse]
  split
  · exact .refl b
  split
  · exact .refl b
  dsimp only
  split
  · exact ((Calm.refl _).cons rfl).of_eq rfl rfl
  · exact ((declineAs_calm _ _ _ rfl _ _).cons rfl).of_eq rfl rfl

theorem lose_calm (connection : ConnectionId) (reason : String) (now : Nat) :
    Calm b (b.lose connection reason now) := by
  rw [lose]
  split
  · exact .refl b
  · split
    · exact declineAs_calm _ _ _ rfl _ _
    · exact .refl b

theorem executed_calm (request : RequestId) (outcome : Outcome) (now : Nat) :
    Calm b (b.executed request outcome now) := by
  rw [executed]
  split
  · exact .refl b
  next hfind =>
  obtain ⟨hr,-⟩ := find_some hfind
  split
  · exact .refl b
  · refine .put hr ⟨rfl,rfl,rfl,id⟩ ?_ (by simp [isDispatch])
    cases outcome <;> rfl

theorem tickOne_calm (i now : Nat) (hb : b.Sound) : Calm b (b.tickOne i now) := by
  rw [tickOne]
  split
  · exact .refl b
  next r hr =>
  have hexchange : ∀ (reason : String), Calm b (if now ≥ r.exchangeBy then
      (b.put i { r with journaling := none, revalidating := false }).decline i reason now
      else (b, [])) := by
    intro reason
    split
    · exact put_declineAs_calm hr { r with journaling := none, revalidating := false }
        ⟨rfl,rfl,rfl,id⟩ .declined rfl _ _
    · exact .refl b
  have hconfirm : Calm b (if now ≥ r.confirmBy then
      b.declineAs i .expired "the confirmation expired" now else (b, [])) := by
    split
    · exact declineAs_calm _ _ _ rfl _ _
    · exact .refl b
  split
  · exact hexchange _
  · exact hexchange _
  · exact hexchange _
  · split
    · exact (fail_leaves { r with journaling := none } _).calm hr ⟨rfl,rfl,rfl,id⟩ rfl
    · exact .refl b
  · split
    · exact (endDecline_leaves { r with journaling := none }).calm hr ⟨rfl,rfl,rfl,id⟩
        (State.past_of_terminal (hb r (mem_of_getElem? hr)))
    · exact .refl b
  · exact hconfirm
  · exact hconfirm
  · split
    · exact (lapse_leaves r now).calm hr (.refl r) rfl
    · exact .refl b
  · exact .refl b

theorem tick_calm (now : Nat) (hb : b.Sound) : Calm b (b.tick now) := by
  have hloop : Calm b (each (fun b i => b.tickOne i now) b (List.range b.requests.length)) :=
    .each fun i _ out h => tickOne_calm out.1 i now (Calm.sound h hb)
  refine ⟨?_,hloop.next,hloop.harmless⟩
  refine forall₂_map_right_iff.mpr (hloop.requests.imp fun q q' h => ?_)
  split
  · next hover =>
    rw [Bool.and_eq_true,Bool.and_eq_true] at hover
    exact .inr ⟨h.same.trans ⟨rfl,rfl,rfl,id⟩,State.past_of_terminal hover.1.1⟩
  · exact h

end Broker

/-! ### The way to a dispatch -/

inductive Move (c : Call) (es : List Effect) : Request → Request → Prop where
  /-- It is left alone or taken out of the way. -/
  | ends {q q' : Request} : Ends q q' → Move c es q q'
  /-- An acknowledgment is noted. -/
  | cleared (q : Request) : Move c es q { q with journaling := none }
  | bound {q : Request} (executor : ExecutorId) :
      c = .bindExecutor q.id executor → Move c es q { q with executor := executor }
  | prepared {q x d encoded operation now by_} :
      q.state = .preparing → c = .prepared q.id x (.ok (d, encoded, operation)) now →
      checkPrepared q.asked d encoded = .ok () →
      Move c es q { q with
        operation := operation, descriptor := some d, state := .prepared
        journaling := some .requested, exchangeBy := by_ }
  | recorded {q now} :
      q.state = .prepared → c = .journaled q.id .requested true now →
      Move c es q { q with
        journaling := none, state := .awaitingAttention, confirmBy := deadline now CONFIRM_TICKS }
  | shown {q session now} :
      q.state = .awaitingAttention → c = .attention session now →
      .show (some q.id) session ∈ es →
      Move c es q { q with state := .awaitingDecision, session := session }
  | approved {q now by_} :
      q.state = .awaitingDecision → c = .approve q.session now → now < q.confirmBy →
      Move c es q { q with state := .approving, revalidating := true, exchangeBy := by_ }
  | revalidated {q now by_} :
      q.state = .approving → q.revalidating = true → c = .revalidated q.id true now →
      .journal q.id .granted "" ∈ es →
      Move c es q { q with
        revalidating := false, journaling := some .granted, exchangeBy := by_ }
  | granted {q now} :
      q.state = .approving → q.journaling = some .granted → c = .journaled q.id .granted true now →
      Move c es q { q with
        journaling := none, state := .granted, grantBy := deadline now GRANT_TICKS
        answered := true }
  | redeemed {q now by_} :
      q.state = .granted → c = .redeem q.id now → now < q.grantBy →
      Move c es q { q with
        state := .consuming, redeeming := true, journaling := some .consumed, exchangeBy := by_ }
  | lost {q now} :
      q.state = .consuming → c = .executorLost q.executor now →
      Move c es q { q with operation := 0 }

theorem Move.id (h : Move c es q q') : q'.id = q.id := by
  cases h with
  | ends h => exact h.same.id
  | _ => rfl

theorem Move.ending (h : Move c es q q') (hq : q.ending.terminal) : q'.ending.terminal := by
  cases h with
  | ends h => exact h.same.ending hq
  | _ => exact hq

/-- A dispatch is of a request whose consumption was recorded by the call, and is all that is
asked for. -/
def Dispatches (b : Broker) (c : Call) (out : Out) : Prop :=
  ∀ r x op, .dispatch r x op ∈ out.2 →
    ∃ q q', q ∈ b.requests ∧ q.id = r ∧ q.executor = x ∧ q.operation = op ∧ q.state = .consuming ∧
      b.live q.connection = true ∧ (∃ now, c = .journaled r .consumed true now) ∧
      q' ∈ out.1.requests ∧ q'.id = r ∧ q'.state = .consumed ∧ out.2 = [.dispatch r x op]

variable {out : Out}

theorem Dispatches.of_harmless (h : Harmless out.2) : Dispatches b c out :=
  fun _ _ _ hd => by cases h _ hd

/-- What a call does to the requests that there are, and what stands behind a dispatch. -/
structure Acts (b : Broker) (c : Call) (out : Out) : Prop where
  requests : List.Forall₂ (Move c out.2) b.requests out.1.requests
  next : out.1.nextRequest = b.nextRequest
  dispatch : Dispatches b c out

namespace Acts

variable {out : Out}

theorem of_through {P : Request → Request → Prop} (h : Through P b out)
    (hP : ∀ q q', P q q' → Move c out.2 q q') : Acts b c out :=
  ⟨h.requests.imp hP,h.next,.of_harmless h.harmless⟩

theorem of_calm (h : Calm b out) : Acts b c out := of_through h fun _ _ => .ends

theorem put (hr : b.requests[i]? = some r) (h : Move c es r r') (hes : Harmless es) :
    Acts b c (b.put i r', es) :=
  of_through ⟨forall₂_set (fun q => .ends (.refl q)) hr h,rfl,hes⟩ fun _ _ h => h

end Acts

namespace Broker

section

variable (b : Broker)

theorem put_put (i : Nat) (r r' : Request) : (b.put i r).put i r' = b.put i r' := by
  simp only [put,set_set]

variable (request : RequestId)

theorem bindExecutor_acts (executor : ExecutorId) :
    Acts b (.bindExecutor request executor) (b.bindExecutor request executor, []) := by
  rw [bindExecutor]
  split
  · exact .of_calm (.refl b)
  next hfind =>
  obtain ⟨hr,rfl⟩ := find_some hfind
  exact .put hr (.bound executor rfl) .nil

theorem prepared_acts (executor : ExecutorId)
    (answer : Except String (Descriptor × Nat × Nat)) (now : Nat) :
    Acts b (.prepared request executor answer now) (b.prepared request executor answer now) := by
  rw [prepared.eq_def]
  split
  · exact .of_calm ((Calm.refl b).cons rfl)
  · exact .of_calm (.refl b)
  next i r hfind =>
  obtain ⟨hr,rfl⟩ := find_some hfind
  split
  · split
    · exact .of_calm ((Calm.refl b).cons rfl)
    · exact .of_calm (.refl b)
  next hstate =>
  split
  · split
    · exact .of_calm ((put_declineAs_calm hr { r with operation := 0 } ⟨rfl,rfl,rfl,id⟩
        .declined rfl _ _).cons rfl)
    · next hcheck =>
      exact .put hr (.prepared (not_not.mp hstate) rfl hcheck) (by simp [isDispatch])
  · exact .of_calm (declineAs_calm _ _ _ rfl _ _)

theorem attention_acts (session now : Nat) :
    Acts b (.attention session now) (b.attention session now) := by
  rw [attention]
  split
  · exact .of_calm (.refl b)
  split
  · exact .of_calm (((Calm.refl _).cons rfl).of_eq rfl rfl)
  next i hi =>
  split
  · exact .of_calm (.refl b)
  next r hr =>
  obtain ⟨hlt,hguard,-⟩ := List.findIdx?_eq_some_iff_getElem.mp hi
  obtain ⟨_,heq⟩ := List.getElem?_eq_some_iff.mp hr
  rw [heq,Bool.and_eq_true,Bool.and_eq_true,decide_eq_true_eq] at hguard
  have hacts := Acts.put (c := .attention session now) hr
    (.shown hguard.1.1 rfl (mem_singleton.mpr rfl)) (by simp [isDispatch])
  exact ⟨hacts.requests,hacts.next,hacts.dispatch⟩

/-- An approval takes requests out of the way at most, or it moves the request that is shown,
which a blocked broker does not do. -/
theorem approve_spec (session now : Nat) :
    Calm b (b.approve session now) ∨ b.blocked = false ∧ ∃ i r r' es, b.requests[i]? = some r ∧
      Move (.approve session now) es r r' ∧ Harmless es ∧
      b.approve session now = ({ b with showing := none }.put i r', es) := by
  rw [approve]
  split
  · exact .inl (.refl b)
  split
  · exact .inl (.refl b)
  dsimp only
  have hhide : Calm b ({ b with showing := none }, [.hide]) :=
    ((Calm.refl _).cons rfl).of_eq rfl rfl
  split
  · exact .inl hhide
  next i r hfind =>
  obtain ⟨id,-,hfind⟩ := Option.bind_eq_some_iff.mp hfind
  have hrefuse reason := ((declineAs_calm { b with showing := none } i .declined rfl
    reason now).cons (e := .hide) rfl).of_eq (b := b) rfl rfl
  split
  · exact .inl hhide
  next hstate =>
  split
  · exact .inl (hrefuse _)
  split
  · exact .inl (hrefuse _)
  next hby =>
  split
  · exact .inl (hrefuse _)
  next hblocked =>
  simp only [Bool.or_eq_true,decide_eq_true_eq,not_or,not_not] at hstate
  obtain ⟨hstate,rfl⟩ := hstate
  exact .inr ⟨Bool.eq_false_iff.mpr hblocked,i,r,_,_,(find_some hfind).1,
    .approved hstate rfl (Nat.lt_of_not_le hby),by simp [isDispatch],rfl⟩

theorem approve_acts (session now : Nat) :
    Acts b (.approve session now) (b.approve session now) := by
  rcases approve_spec b session now with h | ⟨-,i,r,r',es,hr,hmove,hes,heq⟩
  · exact .of_calm h
  have hacts := Acts.put hr hmove hes
  rw [heq]
  exact ⟨hacts.requests,hacts.next,hacts.dispatch⟩

theorem revalidated_acts (still : Bool) (now : Nat) :
    Acts b (.revalidated request still now) (b.revalidated request still now) := by
  rw [revalidated]
  split
  · exact .of_calm (.refl b)
  next i r hfind =>
  obtain ⟨hr,rfl⟩ := find_some hfind
  split
  · exact .of_calm (.refl b)
  next hstate =>
  have hrefuse : ∀ reason : String, Acts b (.revalidated r.id still now)
      ((b.put i { r with revalidating := false }).decline i reason now) := fun reason =>
    .of_calm (put_declineAs_calm hr { r with revalidating := false } ⟨rfl,rfl,rfl,id⟩
      .declined rfl reason now)
  dsimp only
  split
  · exact hrefuse _
  next hstill =>
  split
  · exact hrefuse _
  rw [put_put]
  simp only [Bool.or_eq_true,decide_eq_true_eq,not_or,not_not,Bool.not_eq_true',
    Bool.not_eq_false] at hstate hstill
  subst hstill
  exact .put hr (.revalidated hstate.1 hstate.2 rfl (mem_singleton.mpr rfl))
    (by simp [journal,isDispatch])

theorem redeem_acts (now : Nat) : Acts b (.redeem request now) (b.redeem request now).2 := by
  rw [redeem]
  split
  · exact .of_calm (.refl b)
  next i r hfind =>
  obtain ⟨hr,rfl⟩ := find_some hfind
  split
  · exact .of_calm (.refl b)
  next hguard =>
  simp only [Bool.or_eq_true,decide_eq_true_eq,not_or,not_not,ge_iff_le,Nat.not_le] at hguard
  exact .put hr (.redeemed hguard.1.1.1 rfl hguard.1.2) (by simp [journal,isDispatch])

end

theorem consumed_acts (hr : b.requests[i]? = some r) (hstate : r.state = .consuming) (ok : Bool)
    (now : Nat) :
    Acts b (.journaled r.id .consumed ok now)
      ((b.put i { r with journaling := none }).consumed i { r with journaling := none } ok now)
    := by
  have hsame : r.Same { r with journaling := none } := ⟨rfl,rfl,rfl,id⟩
  rw [consumed]
  split
  · have hfail := (fail_leaves _ (some .failed)).calm hr hsame rfl
    rw [← put_put b i { r with journaling := none }] at hfail
    exact .of_calm hfail
  next hok =>
  split
  · have hfail := ((fail_leaves _ none).journal .failed
      "owner lost or deadline passed before dispatch" now).calm hr hsame rfl
    rw [← put_put b i { r with journaling := none }] at hfail
    exact .of_calm hfail
  next hlive =>
  simp only [Bool.not_eq_true',Bool.not_eq_false] at hok
  simp only [Bool.or_eq_true,Bool.not_eq_true',decide_eq_true_eq,not_or,Bool.not_eq_false] at hlive
  rw [put_put]
  have hlt : i < b.requests.length := (List.getElem?_eq_some_iff.mp hr).1
  refine ⟨forall₂_set (fun q => .ends (.refl q)) hr (.ends (.inr ⟨⟨rfl,rfl,rfl,id⟩,rfl⟩)),rfl,
    fun id x op hd => ?_⟩
  cases mem_singleton.mp hd
  exact ⟨r,_,mem_of_getElem? hr,rfl,rfl,rfl,hstate,hlive.1,⟨now,by rw [hok]⟩,mem_set hlt _,rfl,rfl,
    rfl⟩

theorem journaled_acts (b : Broker) (hb : b.Sound) (request : RequestId) (event : Event) (ok : Bool)
    (now : Nat) :
    Acts b (.journaled request event ok now) (b.journaled request event ok now) := by
  rw [journaled]
  split
  · exact .of_calm (.refl b)
  next i r hfind =>
  obtain ⟨hr,rfl⟩ := find_some hfind
  split
  · exact .of_calm (.refl b)
  next hevent =>
  have hcleared : Acts b (.journaled r.id event ok now)
      (b.put i { r with journaling := none }, []) := .put hr (.cleared r) .nil
  have hrefuse : ∀ (event : Event) (reason : String), Acts b (.journaled r.id event ok now)
      ((b.put i { r with journaling := none }).decline i reason now) := fun event reason =>
    .of_calm (put_declineAs_calm hr { r with journaling := none } ⟨rfl,rfl,rfl,id⟩
      .declined rfl reason now)
  rw [not_not] at hevent
  dsimp only
  split
  · next hstate =>
    split
    · exact hrefuse _ _
    next hok =>
    split
    · exact hrefuse _ _
    rw [put_put]
    simp only [Bool.not_eq_true',Bool.not_eq_false] at hok
    subst hok
    exact .put hr (.recorded hstate rfl) .nil
  · next hstate =>
    split
    · exact hrefuse _ _
    next hok =>
    split
    · exact hrefuse _ _
    rw [put_put]
    simp only [Bool.not_eq_true',Bool.not_eq_false] at hok
    subst hok
    exact .put hr (.granted hstate hevent rfl) (by simp [isDispatch])
  · next hstate => exact consumed_acts hr hstate ok now
  · rw [put_put]
    exact .of_calm ((endDecline_leaves { r with journaling := none }).calm hr ⟨rfl,rfl,rfl,id⟩
      (State.past_of_terminal (hb r (mem_of_getElem? hr))))
  all_goals
    first
      | exact hcleared
      | split
        · exact ⟨hcleared.requests,hcleared.next,hcleared.dispatch⟩
        · exact hcleared

/-! ### The loss of an executor -/

/-- A request of the executor that is being consumed loses its operation; one that is not consumed
yet ends. -/
def Lost (executor : ExecutorId) (q q' : Request) : Prop :=
  Ends q q' ∨ q.executor = executor ∧ q.state = .consuming ∧ q' = { q with operation := 0 }

variable {executor : ExecutorId}

theorem Lost.same (h : Lost executor q q') : q.Same q' := by
  rcases h with h | ⟨-,-,rfl⟩
  · exact h.same
  · exact ⟨rfl,rfl,rfl,id⟩

theorem Lost.trans (h : Lost executor q₁ q₂) (h' : Lost executor q₂ q₃) : Lost executor q₁ q₃ := by
  rcases h with h | ⟨hx,hstate,rfl⟩
  · rcases h with rfl | ⟨hsame,hpast⟩
    · exact h'
    rcases h' with h' | ⟨-,hstate,-⟩
    · exact .inl (.trans (.inr ⟨hsame,hpast⟩) h')
    · rw [hstate] at hpast
      cases hpast
  · rcases h' with (rfl | ⟨hsame,hpast⟩) | ⟨-,-,rfl⟩
    · exact .inr ⟨hx,hstate,rfl⟩
    · exact .inl (.inr ⟨⟨hsame.id,hsame.connection,hsame.executor,hsame.ending⟩,hpast⟩)
    · exact .inr ⟨hx,hstate,rfl⟩

instance {executor : ExecutorId} : Std.Refl (Lost executor) := ⟨fun q => Or.inl (.refl q)⟩

instance {executor : ExecutorId} : IsTrans Request (Lost executor) := ⟨fun _ _ _ => .trans⟩

theorem executorLostOne_lost (b : Broker) (id : RequestId) (executor : ExecutorId) (now : Nat)
    (hx : ∀ q ∈ b.requests, q.id = id → q.executor = executor) :
    Through (Lost executor) b (b.executorLostOne id now) := by
  have hcalm : ∀ {out : Out}, Calm b out → Through (Lost executor) b out := fun h =>
    ⟨h.requests.imp fun _ _ => .inl,h.next,h.harmless⟩
  rw [executorLostOne]
  split
  · exact hcalm (.refl b)
  next i r hfind =>
  obtain ⟨hr,hid⟩ := find_some hfind
  split
  · next hstate =>
    -- The outcome of what was dispatched is unknown.
    have hfirst : Calm b (b.put i { r with operation := 0 }, []) :=
      .put hr ⟨rfl,rfl,rfl,fun h => h⟩ (by rw [hstate]; rfl) .nil
    exact hcalm (hfirst.trans (executed_calm _ id .unknown now))
  split
  · next hstate =>
    refine ⟨forall₂_set (fun q => .inl (.refl q)) hr (.inr ⟨?_,hstate,rfl⟩),rfl,.nil⟩
    exact hx r (mem_of_getElem? hr) hid
  split
  · exact hcalm (put_declineAs_calm hr { r with operation := 0 } ⟨rfl,rfl,rfl,fun h => h⟩
      .declined rfl _ _)
  next hconsumed hconsuming hun =>
  refine hcalm (.put hr ⟨rfl,rfl,rfl,fun h => h⟩ ?_ .nil)
  cases hst : r.state <;> rw [hst] at hconsumed hconsuming hun <;>
    first | rfl | exact absurd rfl hconsumed | exact absurd rfl hconsuming | exact absurd rfl hun

theorem executorLost_acts (b : Broker) (hids : (b.requests.map Request.id).Nodup)
    (executor : ExecutorId) (now : Nat) :
    Acts b (.executorLost executor now) (b.executorLost executor now) := by
  have hloop : Through (Lost executor) b (b.executorLost executor now) := by
    refine .each (f := fun b id => b.executorLostOne id now) fun id hid out h =>
      executorLostOne_lost out.1 id executor now ?_
    rintro q' hq' rfl
    obtain ⟨q,hq,hlost⟩ := of_mem_forall₂ h.requests hq'
    obtain ⟨q₀,hq₀,hid⟩ := mem_map.mp hid
    obtain ⟨hq₀,hguard⟩ := mem_filter.mp hq₀
    rw [Bool.and_eq_true,beq_iff_eq] at hguard
    rw [hlost.same.executor,← inj_on_of_nodup_map hids hq₀ hq (hid.trans hlost.same.id)]
    exact hguard.1
  refine .of_through hloop fun q q' h => ?_
  rcases h with h | ⟨hx,hstate,rfl⟩
  · exact .ends h
  · exact .lost hstate (by rw [hx])

/-! ### Requests that come and go -/

/-- A new request is being prepared, for a connection whose scope admits it, or is out of the way
at once. -/
theorem ask_requests (b : Broker) (connection : ConnectionId) (asked : Asked) (now : Nat) :
    let out := (b.ask connection asked now).2
    Harmless out.2 ∧
    (out.1.requests = b.requests ∧ out.1.nextRequest = b.nextRequest ∨
      ∃ q, out.1.requests = b.requests ++ [q] ∧ out.1.nextRequest = b.nextRequest + 1 ∧
        q.id = b.nextRequest ∧ q.ending.terminal ∧
        (q.state.past ∨ b.blocked = false ∧
          q = newRequest b.nextRequest connection asked now ∧ .prepare b.nextRequest ∈ out.2 ∧
          ∃ owner, b.connection connection = some owner ∧ owner.scope.admits asked)) := by
  rw [ask]
  split
  · exact ⟨.nil,.inl ⟨rfl,rfl⟩⟩
  next owner howner =>
  split
  · exact ⟨.nil,.inl ⟨rfl,rfl⟩⟩
  dsimp only
  split
  · next reason _ =>
    let b₁ := modifyConnection { b with
        nextRequest := b.nextRequest + 1
        requests := b.requests ++ [newRequest b.nextRequest connection asked now] } connection
      fun c => { c with request := some b.nextRequest }
    have hreq : b₁.requests = b.requests ++ [newRequest b.nextRequest connection asked now] := rfl
    have hlen : b₁.requests.length - 1 = b.requests.length := by
      rw [hreq,length_append,length_singleton,Nat.add_sub_cancel]
    have hlast : b₁.requests[b₁.requests.length - 1]?
        = some (newRequest b.nextRequest connection asked now) := by
      rw [hlen,hreq,List.getElem?_append_right (Nat.le_refl _),Nat.sub_self]
      rfl
    obtain ⟨q,hq,hsame,hpast,hnext,hes⟩ := declineAs_spec hlast .declined rfl reason now
    refine ⟨hes,.inr ⟨q,?_,hnext,hsame.id,hsame.ending rfl,.inl hpast⟩⟩
    refine hq.trans ?_
    rw [hlen,hreq,set_append_right _ _ (Nat.le_refl _),Nat.sub_self]
    rfl
  · next hadm =>
    rw [unadmitted] at hadm
    simp only [ite_eq_iff,reduceCtorEq,and_false,false_or] at hadm
    obtain ⟨-,hscope,-,-,hblocked,-⟩ := hadm
    exact ⟨by simp [isDispatch],.inr ⟨_,rfl,rfl,rfl,rfl,.inr
      ⟨Bool.eq_false_iff.mpr hblocked,rfl,mem_singleton.mpr rfl,owner,howner,
        by simpa using hscope⟩⟩⟩

theorem settle_requests (b : Broker) :
    b.settle.requests.Sublist b.requests ∧ b.settle.nextRequest = b.nextRequest := by
  have hfold : ∀ (l : List Request) (b' : Broker),
      b'.requests.Sublist b.requests ∧ b'.nextRequest = b.nextRequest →
      let res := l.foldl (fun b r => b.remove r.id r.connection) b'
      res.requests.Sublist b.requests ∧ res.nextRequest = b.nextRequest := by
    intro l
    induction l with
    | nil => exact fun b' h => h
    | cons r l ih => exact fun b' h => ih _ ⟨filter_sublist.trans h.1,h.2⟩
  exact hfold _ b ⟨List.Sublist.refl _,rfl⟩

end Broker

/-! ### All calls -/

def Fresh (b : Broker) (c : Call) (es : List Effect) (q : Request) : Prop :=
  q.state.past = true ∨ ∃ connection asked now owner, c = .ask connection asked now ∧
    q = Broker.newRequest b.nextRequest connection asked now ∧ .prepare b.nextRequest ∈ es ∧
    b.connection connection = some owner ∧ owner.scope.admits asked = true

/-- What any call does: a request after it has moved, or is new, and what stands behind a
dispatch. -/
structure Follows (b : Broker) (c : Call) (out : Out) : Prop where
  requests : ∀ q' ∈ out.1.requests, (∃ q ∈ b.requests, Move c out.2 q q') ∨
    q'.id = b.nextRequest ∧ q'.ending.terminal = true ∧ Fresh b c out.2 q'
  ids : (out.1.requests.map Request.id).Nodup
  lt : ∀ q' ∈ out.1.requests, q'.id < out.1.nextRequest
  next : b.nextRequest ≤ out.1.nextRequest
  dispatch : Dispatches b c out

theorem Acts.follows (h : Acts b c out) (hids : (b.requests.map Request.id).Nodup)
    (hlt : ∀ q ∈ b.requests, q.id < b.nextRequest) : Follows b c out := by
  have hmap : out.1.requests.map Request.id = b.requests.map Request.id := by
    refine ext_getElem (by simp [h.requests.length_eq]) fun i hi hi' => ?_
    rw [length_map] at hi hi'
    rw [getElem_map,getElem_map]
    exact (h.requests.get hi' hi).id
  refine ⟨fun q' hq' => .inl (of_mem_forall₂ h.requests hq'),hmap ▸ hids,fun q' hq' => ?_,
    Nat.le_of_eq h.next.symm,h.dispatch⟩
  obtain ⟨q,hq,hm⟩ := of_mem_forall₂ h.requests hq'
  rw [hm.id,h.next]
  exact hlt q hq

section

variable (hids : (b.requests.map Request.id).Nodup) (hlt : ∀ q ∈ b.requests, q.id < b.nextRequest)
include hids hlt

theorem Follows.of_sublist (hsub : out.1.requests.Sublist b.requests)
    (hnext : out.1.nextRequest = b.nextRequest) (hes : Harmless out.2) : Follows b c out :=
  ⟨fun q hq => .inl ⟨q,hsub.subset hq,.ends (.refl q)⟩,hids.sublist (hsub.map _),
    fun q hq => Nat.lt_of_lt_of_eq (hlt q (hsub.subset hq)) hnext.symm,Nat.le_of_eq hnext.symm,
    .of_harmless hes⟩

theorem Broker.ask_follows (connection : ConnectionId) (asked : Asked) (now : Nat) :
    Follows b (.ask connection asked now) (b.ask connection asked now).2 := by
  obtain ⟨hes,hreq⟩ := ask_requests b connection asked now
  generalize (b.ask connection asked now).2 = out at hes hreq ⊢
  rcases hreq with ⟨hreq,hnext⟩ | ⟨q₀,hreq,hnext,hid,hending,hfresh⟩
  · exact .of_sublist hids hlt (hreq ▸ .refl _) hnext hes
  have hcases : ∀ q ∈ out.1.requests, q ∈ b.requests ∨ q = q₀ := fun q hq => by
    rw [hreq] at hq
    simpa using hq
  refine ⟨fun q hq => ?_,?_,fun q hq => ?_,?_,.of_harmless hes⟩
  · rcases hcases q hq with hq | rfl
    · exact .inl ⟨q,hq,.ends (.refl q)⟩
    · refine .inr ⟨hid,hending,hfresh.imp_right ?_⟩
      rintro ⟨-,hnew,hprep,owner,howner,hscope⟩
      exact ⟨connection,asked,now,owner,rfl,hnew,hprep,howner,hscope⟩
  · rw [hreq,map_append,nodup_append]
    refine ⟨hids,nodup_singleton _,fun id hmem id' hmem' => ?_⟩
    obtain ⟨q,hq,rfl⟩ := mem_map.mp hmem
    rw [map_singleton,mem_singleton] at hmem'
    rw [hmem',hid]
    exact Nat.ne_of_lt (hlt q hq)
  · rw [hnext]
    rcases hcases q hq with hq | rfl
    · exact Nat.lt_succ_of_lt (hlt q hq)
    · exact hid ▸ Nat.lt_succ_self _
  · exact hnext ▸ Nat.le_succ _

end

theorem Broker.call_follows (hb : b.Sound) (hids : (b.requests.map Request.id).Nodup)
    (hlt : ∀ q ∈ b.requests, q.id < b.nextRequest) (c : Call) : Follows b c (b.call c) := by
  have hacts : ∀ {out : Out}, Acts b c out → Follows b c out := fun h => h.follows hids hlt
  have hcalm : ∀ {out : Out}, Calm b out → Follows b c out := fun h => hacts (.of_calm h)
  cases c with
  | openConnection component scope launch =>
    refine hcalm ?_
    rw [call,openConnection]
    split
    · next heq =>
      split at heq
      · cases heq
      · cases heq
        exact (Calm.refl _).of_eq rfl rfl
    · exact .refl b
  | ask connection asked now => exact ask_follows hids hlt connection asked now
  | bindExecutor request executor => exact hacts (bindExecutor_acts b request executor)
  | prepared request executor answer now =>
    exact hacts (prepared_acts b request executor answer now)
  | journaled request event ok now => exact hacts (journaled_acts b hb request event ok now)
  | attention session now => exact hacts (attention_acts b session now)
  | approve session now => exact hacts (approve_acts b session now)
  | revalidated request still now => exact hacts (revalidated_acts b request still now)
  | refuse session reason now => exact hcalm (refuse_calm b session reason now)
  | cancel connection now => exact hcalm (lose_calm b connection _ now)
  | closed connection now | ownerDied connection now | observerFailed connection now =>
    exact hcalm ((lose_calm _ connection _ now).of_eq rfl rfl)
  | settle => exact .of_sublist hids hlt (settle_requests b).1 (settle_requests b).2 .nil
  | redeem request now => exact hacts (redeem_acts b request now)
  | executed request outcome now => exact hcalm (executed_calm b request outcome now)
  | executorLost executor now => exact hacts (executorLost_acts b hids executor now)
  | setPath present now =>
    refine hcalm ?_
    rw [call,setPath]
    split
    · split
      · exact (refuse_calm _ _ _ now).of_eq rfl rfl
      · exact (Calm.refl _).of_eq rfl rfl
    · exact (Calm.refl _).of_eq rfl rfl
  | recovered => exact hcalm ((Calm.refl _).of_eq rfl rfl)
  | tick now => exact hcalm (tick_calm b now hb)

end LiberSystem.Admin
