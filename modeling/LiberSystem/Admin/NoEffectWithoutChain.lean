import LiberSystem.Admin.BrokerMoves
import LiberSystem.Lib.InOrder
import LiberSystem.Lib.Runs

/-!
# No administrative effect without the whole chain

A request that is not out of the way has behind it, in the history of calls, the steps that lead to
its state, in their order. A dispatch is asked for from the last of these states only.
-/

namespace LiberSystem.Admin

open List Request

/-! ### Histories -/

/-- A call as it happened. -/
structure Step where
  before : Broker
  call : Call
  effects : List Effect
  after : Broker

structure World where
  broker : Broker
  history : List Step

namespace World

def new (epoch : Nat) : World := ⟨.new epoch,[]⟩

def step (w : World) (c : Call) : Option World :=
  let out := w.broker.call c
  some ⟨out.1,w.history ++ [⟨w.broker,c,out.2,out.1⟩]⟩

end World

def Call.settles (r : RequestId) : Call → Bool
  | .bindExecutor request _ => request == r
  | .prepared request _ _ _ => request == r
  | _ => false

/-- An executor is bound to a request once at most, and before its preparation is answered. -/
def World.bindsOnce (w : World) : Call → Bool
  | .bindExecutor r _ => w.history.all fun s => !s.call.settles r
  | _ => true

/-! ### The chain -/

def Broker.stateOf (b : Broker) (r : RequestId) : Option State :=
  (b.requests.find? fun q => q.id == r).map Request.state

def Step.Takes (s : Step) (r : RequestId) (old new : State) : Prop :=
  s.before.stateOf r = some old ∧ s.after.stateOf r = some new

/-- What was asked, answered and shown for a request, and when. -/
structure Terms where
  connection : ConnectionId
  asked : Asked
  operation : Nat
  recorded : Nat
  session : Nat
  approved : Nat
  granted : Nat
  redeemed : Nat

section Links

variable (r : RequestId)

def Asks (connection : ConnectionId) (asked : Asked) (s : Step) : Prop :=
  (∃ now, s.call = .ask connection asked now) ∧ .prepare r ∈ s.effects ∧
    s.after.stateOf r = some .preparing ∧
    ∃ owner, s.before.connection connection = some owner ∧ owner.scope.admits asked = true

def Answers (asked : Asked) (operation : Nat) (s : Step) : Prop :=
  (∃ x d encoded now, s.call = .prepared r x (.ok (d, encoded, operation)) now ∧
    checkPrepared asked d encoded = .ok ()) ∧ s.Takes r .preparing .prepared

variable (now : Nat) (s : Step)

def Records : Prop :=
  s.call = .journaled r .requested true now ∧ s.Takes r .prepared .awaitingAttention

def Shows (session : Nat) (s : Step) : Prop :=
  (∃ now, s.call = .attention session now) ∧ .show (some r) session ∈ s.effects ∧
    s.Takes r .awaitingAttention .awaitingDecision

def Approves (session now : Nat) (s : Step) : Prop :=
  s.call = .approve session now ∧ s.Takes r .awaitingDecision .approving

def Revalidates : Prop :=
  (∃ now, s.call = .revalidated r true now) ∧ .journal r .granted "" ∈ s.effects

def Grants : Prop :=
  s.call = .journaled r .granted true now ∧ s.Takes r .approving .granted

def Redeems : Prop :=
  s.call = .redeem r now ∧ s.Takes r .granted .consuming

/-- All that stands before the consumption record. -/
def chain (v : Terms) : List (Step → Prop) :=
  [Asks r v.connection v.asked,Answers r v.asked v.operation,Records r v.recorded,Shows r v.session,
    Approves r v.session v.approved,Revalidates r,Grants r v.granted,Redeems r v.redeemed]

def Binds (executor : ExecutorId) (s : Step) : Prop := s.call = .bindExecutor r executor

end Links

def Loses (executor : ExecutorId) (s : Step) : Prop := ∃ now, s.call = .executorLost executor now

theorem deadline_le (now ticks : Nat) : deadline now ticks ≤ now + ticks := by
  rw [deadline]
  exact Nat.mod_le _ _

/-! ### How far a request is -/

variable {h : List Step} {s : Step} {q q' : Request} {n m : Nat} {v : Terms}

/-- How many links of the chain a request has behind it. -/
def Request.progress (q : Request) : Nat :=
  match q.state with
  | .preparing => 1
  | .prepared => 2
  | .awaitingAttention => 3
  | .awaitingDecision => 4
  | .approving => if q.journaling = some .granted then 6 else 5
  | .granted => 7
  | .consuming => 8
  | _ => 0

/-- The first `n` links are in the history, and the request carries their terms. -/
structure Along (h : List Step) (q : Request) (n : Nat) (v : Terms) : Prop where
  order : InOrder ((chain q.id v).take n) h
  connection : v.connection = q.connection
  asked : v.asked = q.asked
  operation : 2 ≤ n → v.operation = q.operation ∨
    n = 8 ∧ q.operation = 0 ∧ InOrder (chain q.id v ++ [Loses q.executor]) h
  confirm : 3 ≤ n → q.confirmBy ≤ v.recorded + CONFIRM_TICKS
  session : 4 ≤ n → v.session = q.session
  approved : 5 ≤ n → v.approved < v.recorded + CONFIRM_TICKS
  grant : 7 ≤ n → q.grantBy ≤ v.granted + GRANT_TICKS
  redeemed : 8 ≤ n → v.redeemed < v.granted + GRANT_TICKS

namespace Along

variable (ha : Along h q n v)
include ha

theorem mono (s : Step) : Along (h ++ [s]) q n v :=
  { ha with
    order := ha.order.mono _
    operation := fun hn => (ha.operation hn).imp id fun ⟨h8,h0,hin⟩ => ⟨h8,h0,hin.mono _⟩ }

theorem le (hmn : m ≤ n) (hn : n ≤ 7) : Along h q m v where
  order := by
    have hsplit := take_append_drop m ((chain q.id v).take n)
    rw [take_take,Nat.min_eq_left hmn] at hsplit
    exact InOrder.left (hsplit ▸ ha.order)
  connection := ha.connection
  asked := ha.asked
  operation hm := .inl ((ha.operation (Nat.le_trans hm hmn)).resolve_right fun h8 => by omega)
  confirm hm := ha.confirm (Nat.le_trans hm hmn)
  session hm := ha.session (Nat.le_trans hm hmn)
  approved hm := ha.approved (Nat.le_trans hm hmn)
  grant hm := ha.grant (Nat.le_trans hm hmn)
  redeemed hm := ha.redeemed (Nat.le_trans hm hmn)

theorem operation_on (hn : 2 ≤ n) (h8 : n ≠ 8) {P : Prop} (_ : 2 ≤ m) :
    v.operation = q.operation ∨ P :=
  .inl ((ha.operation hn).resolve_right fun hlost => h8 hlost.1)

end Along

/-- A request is out of the way, or it has behind it what its state says. The record of an approval
is awaited in one state only. -/
def Good (h : List Step) (q : Request) : Prop :=
  q.state.past = true ∨
    (q.journaling = some .granted → q.state = .approving) ∧ ∃ v, Along h q q.progress v

theorem Good.along {st : State} (hg : Good h q) (hst : q.state = st)
    (hpast : st.past = false) (hn : q.progress = n) :
    (q.journaling = some .granted → q.state = .approving) ∧ ∃ v, Along h q n v :=
  hn ▸ hg.resolve_left fun hp => by rw [hst,hpast] at hp; cases hp

theorem Good.of_progress (hj : q.journaling = some .granted → q.state = .approving)
    (hn : q.progress = n) (ha : Along h q n v) : Good h q :=
  .inr ⟨hj,v,hn ▸ ha⟩

theorem Good.mono (hg : Good h q) (s : Step) : Good (h ++ [s]) q :=
  hg.imp id fun ⟨hj,v,ha⟩ => ⟨hj,v,ha.mono s⟩

theorem Request.progress_cleared (q : Request) :
    { q with journaling := none }.progress = q.progress ∨
      { q with journaling := none }.progress = 5 ∧ q.progress = 6 := by
  cases hst : q.state <;> simp only [progress,hst,true_or]
  by_cases hj : q.journaling = some .granted
  · rw [if_pos hj]
    exact .inr ⟨rfl,rfl⟩
  · rw [if_neg hj]
    exact .inl rfl

/-- One call keeps a request on its way, or takes it one link further. -/
theorem Good.move (hg : Good h q) (hm : Move s.call s.effects q q')
    (hb : s.before.stateOf q.id = some q.state) (ha : s.after.stateOf q.id = some q'.state)
    (hbind : ∀ x, s.call = .bindExecutor q.id x → ∀ t ∈ h, t.call.settles q.id = false) :
    Good (h ++ [s]) q' := by
  cases hm with
  | ends hends =>
    rcases hends with rfl | ⟨-,hpast⟩
    · exact hg.mono s
    · exact .inl hpast
  | cleared =>
    refine hg.imp (fun hp => hp) fun ⟨_,v,hv⟩ => ⟨(fun hj => by cases hj),v,?_⟩
    have hv : Along (h ++ [s]) q (progress { q with journaling := none }) v := by
      rcases q.progress_cleared with heq | ⟨h5,h6⟩
      · rw [heq]
        exact hv.mono s
      · exact (hv.mono s).le (by omega) (by omega)
    exact ⟨hv.order,hv.connection,hv.asked,hv.operation,hv.confirm,hv.session,hv.approved,hv.grant,
      hv.redeemed⟩
  | bound x hc =>
    refine hg.imp (fun hp => hp) fun ⟨hj,v,hv⟩ => ⟨hj,v,?_⟩
    have hone : q.progress ≤ 1 := by
      by_contra hn
      -- Past its preparation a request has an answer behind it.
      have hlink : Answers q.id v.asked v.operation ∈ (chain q.id v).take q.progress := by
        obtain ⟨k,hk⟩ := Nat.exists_eq_add_of_le' (Nat.lt_of_not_le hn)
        rw [hk]
        exact mem_cons_of_mem _ mem_cons_self
      obtain ⟨t,ht,⟨y,d,encoded,now,hcall,-⟩,-⟩ := hv.order.exists_of_mem hlink
      have hno := hbind x hc t ht
      rw [hcall,Call.settles,beq_self_eq_true] at hno
      cases hno
    have hv := hv.mono s
    refine ⟨hv.order,hv.connection,hv.asked,fun hn => ?_,hv.confirm,hv.session,hv.approved,hv.grant,
      hv.redeemed⟩
    change 2 ≤ q.progress at hn
    omega
  | @prepared x d encoded operation now by_ hst hc hcheck =>
    obtain ⟨hj,v,hv⟩ := hg.along (n := 1) hst rfl (by rw [progress,hst])
    have hlink : Answers q.id v.asked operation s :=
      ⟨⟨x,d,encoded,now,hc,hv.asked ▸ hcheck⟩,hst ▸ hb,ha⟩
    refine .of_progress (n := 2) (v := { v with operation := operation })
      (fun hj => by cases hj) rfl
      ⟨hv.order.snoc hlink,hv.connection,hv.asked,fun _ => .inl rfl,?_,?_,?_,?_,?_⟩
    all_goals exact fun hn => absurd hn (by decide)
  | @recorded now hst hc =>
    obtain ⟨hj,v,hv⟩ := hg.along (n := 2) hst rfl (by rw [progress,hst])
    have hlink : Records q.id now s := ⟨hc,hst ▸ hb,ha⟩
    refine .of_progress (n := 3) (v := { v with recorded := now }) (fun hj => by cases hj) rfl
      ⟨hv.order.snoc hlink,hv.connection,hv.asked,
        hv.operation_on (by decide) (by decide),fun _ => deadline_le _ _,?_,?_,?_,
        ?_⟩
    all_goals exact fun hn => absurd hn (by decide)
  | @shown session now hst hc hshow =>
    obtain ⟨hj,v,hv⟩ := hg.along (n := 3) hst rfl (by rw [progress,hst])
    have hlink : Shows q.id session s := ⟨⟨now,hc⟩,hshow,hst ▸ hb,ha⟩
    refine .of_progress (n := 4) (v := { v with session := session })
      (fun hj' => absurd (hst.symm.trans (hj hj')) (by decide)) rfl
      ⟨hv.order.snoc hlink,hv.connection,hv.asked,
        hv.operation_on (by decide) (by decide),
        fun _ => hv.confirm (by decide),fun _ => rfl,?_,?_,?_⟩
    all_goals exact fun hn => absurd hn (by decide)
  | @approved now by_ hst hc hby =>
    obtain ⟨hj,v,hv⟩ := hg.along (n := 4) hst rfl (by rw [progress,hst])
    have hlink : Approves q.id v.session now s := by
      rw [hv.session (by decide)]
      exact ⟨hc,hst ▸ hb,ha⟩
    have hlt : now < v.recorded + CONFIRM_TICKS := Nat.lt_of_lt_of_le hby (hv.confirm (by decide))
    have hnone : q.journaling ≠ some .granted := fun hj' =>
      absurd (hst.symm.trans (hj hj')) (by decide)
    refine .of_progress (v := { v with approved := now }) (fun _ => rfl)
      (if_neg hnone) ⟨hv.order.snoc hlink,hv.connection,hv.asked,
        hv.operation_on (by decide) (by decide),fun _ => hv.confirm (by decide),
        fun _ => hv.session (by decide),fun _ => hlt,?_,?_⟩
    all_goals exact fun hn => absurd hn (by decide)
  | @revalidated now by_ hst hre hc hjournal =>
    obtain ⟨hj,v,hv⟩ := hg.along hst rfl rfl
    have hsix : q.progress ≤ 6 ∧ 5 ≤ q.progress := by
      simp only [progress,hst]
      split <;> decide
    have hv := hv.le hsix.2 (by omega)
    have hlink : Revalidates q.id s := ⟨⟨now,hc⟩,hjournal⟩
    have hprogress : progress { q with
        revalidating := false, journaling := some .granted, exchangeBy := by_ } = 6 := by
      rw [progress,hst]
      rfl
    refine .of_progress (fun _ => hst) hprogress ⟨hv.order.snoc hlink,hv.connection,hv.asked,
        hv.operation_on (by decide) (by decide),fun _ => hv.confirm (by decide),
        fun _ => hv.session (by decide),fun _ => hv.approved (by decide),?_,?_⟩
    all_goals exact fun hn => absurd hn (by decide)
  | @granted now hst hj hc =>
    obtain ⟨-,v,hv⟩ := hg.along (n := 6) hst rfl (by rw [progress,hst]; exact if_pos hj)
    have hlink : Grants q.id now s := ⟨hc,hst ▸ hb,ha⟩
    refine .of_progress (n := 7) (v := { v with granted := now }) (fun hj => by cases hj) rfl
      ⟨hv.order.snoc hlink,hv.connection,hv.asked,
        hv.operation_on (by decide) (by decide),fun _ => hv.confirm (by decide),
        fun _ => hv.session (by decide),fun _ => hv.approved (by decide),fun _ => deadline_le _ _,
        fun hn => absurd hn (by decide)⟩
  | @redeemed now by_ hst hc hby =>
    obtain ⟨hj,v,hv⟩ := hg.along (n := 7) hst rfl (by rw [progress,hst])
    have hlink : Redeems q.id now s := ⟨hc,hst ▸ hb,ha⟩
    refine .of_progress (v := { v with redeemed := now }) (fun hj => by cases hj) rfl
      ⟨hv.order.snoc hlink,hv.connection,hv.asked,
        hv.operation_on (by decide) (by decide),fun _ => hv.confirm (by decide),
        fun _ => hv.session (by decide),fun _ => hv.approved (by decide),
        fun _ => hv.grant (by decide),fun _ => ?_⟩
    exact Nat.lt_of_lt_of_le hby (hv.grant (by decide))
  | @lost now hst hc =>
    have h8 : q.progress = 8 := by rw [progress,hst]
    obtain ⟨hj,v,hv⟩ := hg.along hst rfl h8
    have hlink : Loses q.executor s := ⟨now,hc⟩
    have h8' : progress { q with operation := 0 } = 8 := h8
    refine .of_progress (v := v) hj h8' ?_
    have hlost := hv.order.snoc hlink
    exact ⟨hv.order.mono _,hv.connection,hv.asked,fun _ => .inr ⟨rfl,rfl,hlost⟩,hv.confirm,
      hv.session,hv.approved,hv.grant,hv.redeemed⟩

/-! ### The executor of a request -/

variable {es : List Effect} {c : Call}

theorem Move.keeps (hm : Move c es q q') (hpast : q'.state.past = false) :
    q.state.past = false ∧ q'.connection = q.connection ∧ q'.asked = q.asked ∧
      (q'.executor = q.executor ∨ ∃ x, c = .bindExecutor q.id x) := by
  cases hm with
  | ends hends =>
    rcases hends with rfl | ⟨-,hp⟩
    · exact ⟨hpast,rfl,rfl,.inl rfl⟩
    · rw [hpast] at hp
      cases hp
  | bound x hc => exact ⟨hpast,rfl,rfl,.inr ⟨x,hc⟩⟩
  | cleared => exact ⟨hpast,rfl,rfl,.inl rfl⟩
  | _ hst => exact ⟨by rw [hst]; rfl,rfl,rfl,.inl rfl⟩

/-- A request is out of the way, or its executor is the one that was bound to it since it was asked
for, and zero if there is none. -/
def Bound (h : List Step) (q : Request) : Prop :=
  q.state.past = true ∨
    (q.executor = 0 ∨ InOrder [Asks q.id q.connection q.asked,Binds q.id q.executor] h) ∧
      ∀ x, InOrder [Asks q.id q.connection q.asked,Binds q.id x] h → q.executor = x

theorem Good.asks (hg : Good h q) (hpast : q.state.past = false) :
    InOrder [Asks q.id q.connection q.asked] h := by
  obtain ⟨-,v,hv⟩ := hg.along rfl hpast rfl
  obtain ⟨n,hn⟩ : ∃ n, q.progress = n + 1 := by
    refine Nat.exists_eq_add_one.mpr ?_
    cases hst : q.state with
    | approving =>
      simp only [hst,progress]
      split <;> decide
    | _ => simp_all [progress,State.past,State.terminal]
  have horder := hv.order
  rw [hn] at horder
  rw [← hv.connection,← hv.asked]
  exact InOrder.left horder

theorem Bound.move (hbound : Bound h q) (hg : Good h q) (hm : Move s.call s.effects q q')
    (hset : ∀ x, s.call = .bindExecutor q.id x → q'.executor = x)
    (hbind : ∀ x, s.call = .bindExecutor q.id x → ∀ t ∈ h, t.call.settles q.id = false) :
    Bound (h ++ [s]) q' := by
  by_cases hp : q'.state.past
  · exact .inl hp
  rw [Bool.not_eq_true] at hp
  obtain ⟨hpast,hconn,hasked,hexec⟩ := hm.keeps hp
  obtain ⟨hone,hall⟩ := hbound.resolve_left (by rw [hpast]; decide)
  refine .inr ?_
  rw [hm.id,hconn,hasked]
  by_cases hc : ∃ x, s.call = .bindExecutor q.id x
  · obtain ⟨x,hc⟩ := hc
    rw [hset x hc]
    refine ⟨.inr ((hg.asks hpast).snoc hc),fun y hy => ?_⟩
    have hy : InOrder ([Asks q.id q.connection q.asked] ++ [Binds q.id y]) (h ++ [s]) := hy
    rcases hy.of_snoc with hy | ⟨-,hy⟩
    · -- It would have been bound before.
      obtain ⟨t,ht,hcall⟩ := hy.exists_of_mem (mem_append_right _ mem_cons_self)
      have hno := hbind x hc t ht
      rw [show t.call = .bindExecutor q.id y from hcall,Call.settles,beq_self_eq_true] at hno
      cases hno
    · cases hc.symm.trans hy
      rfl
  · rw [hexec.resolve_right hc]
    refine ⟨hone.imp (fun h0 => h0) fun hin => hin.mono _,fun y hy => ?_⟩
    have hy : InOrder ([Asks q.id q.connection q.asked] ++ [Binds q.id y]) (h ++ [s]) := hy
    rcases hy.of_snoc with hy | ⟨-,hy⟩
    · exact hall y hy
    · exact absurd ⟨y,hy⟩ hc

/-! ### Requests by their numbers -/

namespace Broker

variable {b : Broker} {c : Call} {out : Out} {r : RequestId}

theorem stateOf_eq (hids : (b.requests.map Request.id).Nodup) (hq : q ∈ b.requests) :
    b.stateOf q.id = some q.state := by
  cases hfind : b.requests.find? fun q' => q'.id == q.id with
  | none => exact absurd (beq_self_eq_true q.id) (List.find?_eq_none.mp hfind q hq)
  | some q' =>
    have hid := List.find?_some hfind
    simp only [beq_iff_eq] at hid
    rw [stateOf,hfind,← inj_on_of_nodup_map hids (mem_of_find?_eq_some hfind) hq hid]
    rfl

variable {st : State}

theorem exists_of_stateOf (h : b.stateOf r = some st) :
    ∃ q ∈ b.requests, q.id = r ∧ q.state = st := by
  obtain ⟨q,hfind,hst⟩ := Option.map_eq_some_iff.mp h
  have hid := List.find?_some hfind
  simp only [beq_iff_eq] at hid
  exact ⟨q,mem_of_find?_eq_some hfind,hid,hst⟩

theorem bindExecutor_executor (hids : (b.requests.map Request.id).Nodup) {x : ExecutorId}
    (hq : q ∈ (b.bindExecutor r x).requests) (hid : q.id = r) : q.executor = x := by
  rw [bindExecutor] at hq
  split at hq
  · next hnone =>
    cases hpos : b.position r with
    | none =>
      have hno := List.findIdx?_eq_none_iff.mp hpos q hq
      rw [hid,beq_self_eq_true] at hno
      cases hno
    | some i =>
      obtain ⟨hlt,-,-⟩ := List.findIdx?_eq_some_iff_getElem.mp hpos
      rw [find,hpos,Option.bind_some,List.getElem?_eq_getElem hlt] at hnone
      cases hnone
  next i q₀ hfind =>
  obtain ⟨hq₀,hid₀⟩ := find_some hfind
  obtain ⟨hi,hget⟩ := List.getElem?_eq_some_iff.mp hq₀
  obtain ⟨j,hj,rfl⟩ := getElem_of_mem hq
  change j < (b.requests.set i _).length at hj
  rw [length_set] at hj
  simp only [put,getElem_set] at hid ⊢
  split
  · rfl
  next hne =>
  rw [if_neg hne] at hid
  have hi' : i < (b.requests.map Request.id).length := by rwa [length_map]
  have hj' : j < (b.requests.map Request.id).length := by rwa [length_map]
  have heq : (b.requests.map Request.id)[i] = (b.requests.map Request.id)[j] := by
    rw [getElem_map,getElem_map,hget,hid,hid₀]
  exact absurd (hids.getElem_inj_iff.mp heq) hne

def Gone (b : Broker) (r : RequestId) : Prop :=
  r < b.nextRequest ∧ ∀ q ∈ b.requests, q.id = r → q.state.past = true

theorem Gone.of_stateOf (hids : (b.requests.map Request.id).Nodup)
    (hlt : ∀ q ∈ b.requests, q.id < b.nextRequest) (h : b.stateOf r = some st)
    (hpast : st.past) : b.Gone r := by
  obtain ⟨q₀,hq₀,rfl,rfl⟩ := exists_of_stateOf h
  refine ⟨hlt q₀ hq₀,fun q hq hid => ?_⟩
  rw [inj_on_of_nodup_map hids hq hq₀ hid]
  exact hpast

theorem Gone.follows (h : b.Gone r) (hf : Follows b c out) : out.1.Gone r := by
  refine ⟨Nat.lt_of_lt_of_le h.1 hf.next,fun q' hq' hid => ?_⟩
  rcases hf.requests q' hq' with ⟨q,hq,hm⟩ | ⟨hnew,-⟩
  · by_contra hpast
    obtain ⟨hno,-⟩ := hm.keeps (Bool.eq_false_iff.mpr hpast)
    rw [h.2 q hq (hm.id.symm.trans hid)] at hno
    cases hno
  · exact absurd (hnew.symm.trans hid) (Nat.ne_of_gt h.1)

theorem Gone.not_dispatch (h : b.Gone r) (hf : Follows b c out) (x : ExecutorId) (op : Nat) :
    .dispatch r x op ∉ out.2 := by
  intro hd
  obtain ⟨q,q',hq,hid,-,-,hst,-⟩ := hf.dispatch r x op hd
  have hpast := h.2 q hq hid
  rw [hst] at hpast
  cases hpast

end Broker

/-! ### Histories of dispatches -/

def Effect.dispatches (r : RequestId) : Effect → Bool
  | .dispatch request _ _ => request == r
  | _ => false

def dispatches (h : List Step) (r : RequestId) : Nat :=
  (h.flatMap Step.effects).countP (Effect.dispatches r)

theorem dispatches_snoc (h : List Step) (s : Step) (r : RequestId) :
    dispatches (h ++ [s]) r = dispatches h r + s.effects.countP (Effect.dispatches r) := by
  rw [dispatches,flatMap_append,countP_append,flatMap_singleton]
  rfl

theorem countP_dispatches_eq_zero {r : RequestId}
    (hno : ∀ x op, .dispatch r x op ∉ es) : es.countP (Effect.dispatches r) = 0 := by
  refine countP_eq_zero.mpr fun e he hd => ?_
  cases e with
  | dispatch request x op =>
    cases beq_iff_eq.mp hd
    exact hno x op he
  | _ => cases hd

/-- What stands before a dispatch. -/
def Justified (pre : List Step) (s : Step) (r : RequestId) (x : ExecutorId) (op : Nat) : Prop :=
  ∃ v : Terms, InOrder (chain r v) pre ∧ v.approved < v.recorded + CONFIRM_TICKS ∧
    v.redeemed < v.granted + GRANT_TICKS ∧ (∃ now, s.call = .journaled r .consumed true now) ∧
    (∃ owner, s.before.connection v.connection = some owner ∧ owner.opened = true ∧
      owner.ownerAlive = true) ∧
    (x = 0 ∨ InOrder [Asks r v.connection v.asked,Binds r x] pre) ∧
    (∀ y, InOrder [Asks r v.connection v.asked,Binds r y] pre → x = y) ∧
    (op = v.operation ∨ op = 0 ∧ InOrder (chain r v ++ [Loses x]) pre)

theorem justified_of_good (hg : Good h q) (hbound : Bound h q) (hst : q.state = .consuming)
    (hcall : ∃ now, s.call = .journaled q.id .consumed true now)
    (hlive : s.before.live q.connection) :
    Justified h s q.id q.executor q.operation := by
  have hpast : q.state.past = false := by rw [hst]; rfl
  obtain ⟨-,v,hv⟩ := hg.along rfl hpast rfl
  obtain ⟨hone,hall⟩ := hbound.resolve_left (by rw [hpast]; decide)
  rw [show q.progress = 8 by rw [progress,hst]] at hv
  rw [← hv.connection,← hv.asked] at hone hall
  refine ⟨v,hv.order,hv.approved (by decide),hv.redeemed (by decide),hcall,?_,hone,hall,?_⟩
  · rw [Broker.live,← hv.connection,Option.any_eq_true] at hlive
    obtain ⟨owner,howner,hlive⟩ := hlive
    rw [Connection.live,Bool.and_eq_true] at hlive
    exact ⟨owner,howner,hlive⟩
  · rcases hv.operation (by decide) with heq | ⟨-,h0,hlost⟩
    · exact .inl heq.symm
    · exact .inr ⟨h0,hlost⟩

structure World.Inv (w : World) : Prop where
  sound : w.broker.Sound
  ids : (w.broker.requests.map Request.id).Nodup
  lt : ∀ q ∈ w.broker.requests, q.id < w.broker.nextRequest
  known : ∀ s ∈ w.history, ∀ r st, s.after.stateOf r = some st → r < w.broker.nextRequest
  good : ∀ q ∈ w.broker.requests, Good w.history q
  bound : ∀ q ∈ w.broker.requests, Bound w.history q
  once : ∀ r, dispatches w.history r = 0 ∨ dispatches w.history r = 1 ∧ w.broker.Gone r
  ended : ∀ pre s post, w.history = pre ++ s :: post → ∀ r st, s.after.stateOf r = some st →
    st.past = true → w.broker.Gone r ∧ ∀ t ∈ post, ∀ x op, .dispatch r x op ∉ t.effects
  justified : ∀ pre s post, w.history = pre ++ s :: post → ∀ r x op,
    .dispatch r x op ∈ s.effects → Justified pre s r x op

namespace World

variable {w w' : World}

theorem inv_new (epoch : Nat) : (new epoch).Inv where
  sound _ hq := (not_mem_nil hq).elim
  ids := nodup_nil
  lt _ hq := (not_mem_nil hq).elim
  known _ hs := (not_mem_nil hs).elim
  good _ hq := (not_mem_nil hq).elim
  bound _ hq := (not_mem_nil hq).elim
  once _ := .inl rfl
  ended pre _ _ heq := by simp [new] at heq
  justified pre _ _ heq := by simp [new] at heq

theorem Inv.fresh (hw : w.Inv) (hfresh : Fresh w.broker c (w.broker.call c).2 q)
    (hst : (w.broker.call c).1.stateOf q.id = some q.state) :
    Good (w.history ++ [⟨w.broker,c,(w.broker.call c).2,(w.broker.call c).1⟩]) q ∧
      Bound (w.history ++ [⟨w.broker,c,(w.broker.call c).2,(w.broker.call c).1⟩]) q := by
  rcases hfresh with hpast | ⟨connection,asked,now,owner,hc,hnew,hprep,howner,hscope⟩
  · exact ⟨.inl hpast,.inl hpast⟩
  rw [hnew] at hst ⊢
  have hlink : Asks w.broker.nextRequest connection asked
      ⟨w.broker,c,(w.broker.call c).2,(w.broker.call c).1⟩ :=
    ⟨⟨now,hc⟩,hprep,hst,owner,howner,hscope⟩
  refine ⟨?_,.inr ⟨.inl rfl,fun x hx => ?_⟩⟩
  · refine .of_progress (n := 1) (v := ⟨connection,asked,0,0,0,0,0,0⟩)
      (fun hj => by cases hj) rfl ⟨InOrder.single _ hlink,rfl,rfl,?_,?_,?_,?_,?_,?_⟩
    all_goals exact fun hn => absurd hn (by decide)
  have hx : InOrder ([Asks w.broker.nextRequest connection asked] ++ [Binds w.broker.nextRequest x])
      (w.history ++ [⟨w.broker,c,(w.broker.call c).2,(w.broker.call c).1⟩]) := hx
  rcases hx.of_snoc with hx | ⟨-,hx⟩
  · -- The number has not been given before.
    obtain ⟨t,ht,-,-,hknown,-⟩ := hx.exists_of_mem mem_cons_self
    exact absurd (hw.known t ht _ _ hknown) (Nat.lt_irrefl _)
  · cases hc.symm.trans hx

theorem Inv.step (hw : w.Inv) (hok : w.bindsOnce c) (hstep : w.step c = some w') : w'.Inv := by
  cases hstep
  have hf := Broker.call_follows hw.sound hw.ids hw.lt c
  have hbefore : ∀ q ∈ w.broker.requests, w.broker.stateOf q.id = some q.state :=
    fun q hq => Broker.stateOf_eq hw.ids hq
  have hafter : ∀ q ∈ (w.broker.call c).1.requests,
      (w.broker.call c).1.stateOf q.id = some q.state := fun q hq => Broker.stateOf_eq hf.ids hq
  have hbind : ∀ r x, c = .bindExecutor r x → ∀ t ∈ w.history, t.call.settles r = false := by
    rintro r x rfl t ht
    rw [bindsOnce,all_eq_true] at hok
    exact Bool.not_eq_true' _ ▸ hok t ht
  have hset : ∀ q' ∈ (w.broker.call c).1.requests, ∀ x, c = .bindExecutor q'.id x →
      q'.executor = x := by
    intro q' hq' x hc
    rw [hc] at hq'
    exact Broker.bindExecutor_executor hw.ids hq' rfl
  have hgone : ∀ {r st}, (w.broker.call c).1.stateOf r = some st → st.past →
      (w.broker.call c).1.Gone r := fun hst hpast => .of_stateOf hf.ids hf.lt hst hpast
  refine ⟨fun q' hq' => ?_,hf.ids,hf.lt,fun s hs r st hst => ?_,fun q' hq' => ?_,fun q' hq' => ?_,
    fun r => ?_,fun pre s post heq r st hst hpast => ?_,fun pre s post heq r x op hd => ?_⟩
  · rcases hf.requests q' hq' with ⟨q,hq,hm⟩ | ⟨-,hending,-⟩
    · exact hm.ending (hw.sound q hq)
    · exact hending
  · rcases mem_append.mp hs with hs | hs
    · exact Nat.lt_of_lt_of_le (hw.known s hs r st hst) hf.next
    · cases mem_singleton.mp hs
      obtain ⟨q,hq,rfl,-⟩ := Broker.exists_of_stateOf hst
      exact hf.lt q hq
  · rcases hf.requests q' hq' with ⟨q,hq,hm⟩ | ⟨-,-,hfresh⟩
    · exact (hw.good q hq).move hm (hbefore q hq) (hm.id ▸ hafter q' hq') (hbind q.id)
    · exact (hw.fresh hfresh (hafter q' hq')).1
  · rcases hf.requests q' hq' with ⟨q,hq,hm⟩ | ⟨-,-,hfresh⟩
    · exact (hw.bound q hq).move (hw.good q hq) hm (hm.id ▸ hset q' hq') (hbind q.id)
    · exact (hw.fresh hfresh (hafter q' hq')).2
  · rw [dispatches_snoc]
    by_cases hd : ∃ x op, .dispatch r x op ∈ (w.broker.call c).2
    · obtain ⟨x,op,hd⟩ := hd
      obtain ⟨q,q',hq,rfl,-,-,hst,-,-,hq',hid',hst',hes⟩ := hf.dispatch r x op hd
      have hzero : dispatches w.history q.id = 0 := by
        refine (hw.once q.id).resolve_right fun ⟨_,hgone⟩ => ?_
        have hpast := hgone.2 q hq rfl
        rw [hst] at hpast
        cases hpast
      refine .inr ⟨?_,hgone (hid' ▸ hafter q' hq') (by rw [hst']; rfl)⟩
      rw [hzero,hes,countP_singleton,Effect.dispatches,beq_self_eq_true]
      rfl
    · rw [countP_dispatches_eq_zero fun x op h => hd ⟨x,op,h⟩]
      exact (hw.once r).imp (fun h0 => h0) fun ⟨h1,hgone⟩ => ⟨h1,hgone.follows hf⟩
  · rcases split_snoc heq with ⟨-,rfl,rfl⟩ | ⟨post',rfl,hold⟩
    · exact ⟨hgone hst hpast,fun t ht => (not_mem_nil ht).elim⟩
    obtain ⟨hgone,hno⟩ := hw.ended pre s post' hold r st hst hpast
    refine ⟨hgone.follows hf,fun t ht x op => ?_⟩
    rcases mem_append.mp ht with ht | ht
    · exact hno t ht x op
    · cases mem_singleton.mp ht
      exact hgone.not_dispatch hf x op
  · rcases split_snoc heq with ⟨rfl,rfl,rfl⟩ | ⟨post',rfl,hold⟩
    · obtain ⟨q,q',hq,rfl,rfl,rfl,hst,hlive,hcall,-⟩ := hf.dispatch r x op hd
      exact justified_of_good (hw.good q hq) (hw.bound q hq) hst hcall hlive
    · exact hw.justified pre s post' hold r x op hd

def rebootCalls : List Call :=
  [.setPath true 0,.openConnection "console" ⟨[.bmcChassisControl],"bmc"⟩ 4,
    .ask 1 ⟨.bmcChassisControl,"bmc0",[3],0,"reboot"⟩ 10,.bindExecutor 1 7,
    .prepared 1 7 (.ok (⟨1,.bmcChassisControl,"bmc",2,"bmc0",5,[3],0,
      List.replicate 32 0⟩, 200, 9)) 11,.journaled 1 .requested true 12,.attention 6 13,
    .approve 6 14,.revalidated 1 true 15,.journaled 1 .granted true 16,.redeem 1 17,
    .journaled 1 .consumed true 18]

end World

end LiberSystem.Admin
