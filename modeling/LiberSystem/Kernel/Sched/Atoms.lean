import LiberSystem.Kernel.Sched.Waiting

/-!
# What an operation makes true, it wakes for

The atomic facts that readiness and the parks of a process are made of, each with the object that is
to be woken when it becomes true.
-/

namespace LiberSystem.Sched

open List Function Shared Channel

open LiberSystem (Endpoint QueueEvent Channel)

variable {D : Type} {lay : Layout} {Q : Quota D} {ω ω' : Shared D} {op : Op} {ws : List Wake}
  {a : Atom} {p : Koid}

/-- How a member of a group has ended. -/
inductive Ending where
  | dropped
  | killed
  | exited

/-- A process that has terminated before does not end once more when it is dropped. -/
def Ending.Of (process : Process) : Ending → Prop
  | .dropped => process.gone = true ∧ process.isTerminated = false
  | .killed => process.killed = true
  | .exited => process.exited = true

inductive Atom where
  | nonempty (k : Koid)
  | peerClosed (k : Koid)
  | room (k : Koid)
  | signaled (k : Koid)
  | killed (p : Koid)
  | exited (p : Koid)
  | unstopped (p : Koid)
  | unfrozen (p : Koid)
  /-- The members of the group have ended, each in this way. -/
  | finished (g : Koid) (ending : Koid → Ending)

namespace Atom

def src : Atom → Koid
  | .nonempty k | .peerClosed k | .room k | .signaled k | .killed k | .exited k | .unstopped k
  | .unfrozen k | .finished k _ => k

def Holds (lay : Layout) (ω : Shared D) : Atom → Prop
  | .nonempty k => (ω.endpoints k).channel.inbox ≠ []
  | .peerClosed k =>
    (ω.endpoints k).alive = true ∧ (ω.endpoints (lay.peer k)).alive = false
  | .room k =>
    (ω.endpoints k).alive = true ∧ (ω.endpoints (lay.peer k)).channel.depth <
      (ω.endpoints (lay.peer k)).channel.limit.val
  | .signaled k => ω.signaled k = true
  | .killed p => (ω.processes p).killed = true
  | .exited p => (ω.processes p).exited = true
  | .unstopped p => (ω.processes p).stopped = false
  | .unfrozen p => (ω.processes p).frozen = false
  | .finished g ending =>
    ω.groups g = .alive ∧ ∀ p ∈ lay.members g, (ending p).Of (ω.processes p)

end Atom

/-- The wakes that an event at the endpoint `k` comes with. -/
def EndpointWakes (lay : Layout) (ω : Shared D) (k : Koid) (ws : List Wake) : QueueEvent → Prop
  | .accept _ | .putBack _ => Wake.object k ∈ ws
  | .deliver _ | .commit _ =>
    (ω.endpoints k).channel.depth ≥ (ω.endpoints k).channel.limit.val →
      (ω.endpoints (lay.peer k)).alive = true → Wake.object (lay.peer k) ∈ ws
  | .close _ => (ω.endpoints (lay.peer k)).alive = true → Wake.object (lay.peer k) ∈ ws
  | .take _ => True
  | .discard _ => False

/-- An operation on endpoints: one event at one endpoint, or nothing. -/
inductive EndpointStep (lay : Layout) (ω : Shared D) : Shared D → List Wake → Prop where
  | event (accounts : D) (ev : QueueEvent) {k : Koid} {e : Endpoint} {ws : List Wake} :
      (ω.endpoints k).alive = true → Endpoint.Move ev (ω.endpoints k) e →
      EndpointWakes lay ω k ws ev →
      EndpointStep lay ω ({ ω with accounts := accounts }.setEndpoint k e) ws
  | nothing (accounts : D) : EndpointStep lay ω { ω with accounts := accounts } []

def Op.onEndpoint : Op → Bool
  | .send _ _ _ _ _ _ | .recv _ | .recvIdentified _ _ _ _ | .returnToHead _ _
  | .commitDelivery _ _ | .close _ => true
  | _ => false

/-- At every endpoint that exists the depth is within the limit. -/
def Shared.EndpointsInv (ω : Shared D) : Prop :=
  ∀ k, (ω.endpoints k).alive = true → (ω.endpoints k).Inv

theorem endpointStep_of_perform (hinv : ω.EndpointsInv) (hop : op.onEndpoint)
    (h : ω.perform lay Q op = some (ω', ws)) : EndpointStep lay ω ω' ws := by
  cases op with
  | send k id bytes caps sender ring =>
    dsimp only [perform] at h
    split at h
    · next ch accounts hsend =>
      cases h
      obtain ⟨p,sent,hup,hroom,rfl,hpaid⟩ := sendInner_spec hsend
      unfold upgrade at hup
      split at hup
      · next halive =>
        cases hup
        refine .event _ (.accept sent) halive ?_ mem_cons_self
        obtain ⟨-,rfl,-⟩ | ⟨d,-,-,rfl⟩ := hpaid
        · exact .accept hroom rfl rfl
        · exact .accept hroom rfl rfl
      · cases hup
    · cases h
      exact .nothing _
  | recv k =>
    dsimp only [perform] at h
    split at h
    · next halive =>
      simp only [recv] at h
      cases hin : (ω.endpoints k).channel.inbox with
      | nil =>
        rw [hin] at h
        cases h
        exact .nothing ω.accounts
      | cons msg rest =>
        rw [hin] at h
        cases h
        refine .event _ (.deliver msg) halive (.deliver hin (msg.releaseQueueCharge_core _ _))
          fun hfull hpeer => ?_
        simp [hfull,hpeer]
    · cases h
  | recvIdentified k id bytesCap capSlots =>
    dsimp only [perform] at h
    split at h
    · next halive =>
      split at h
      · next msg ch hrecv =>
        cases h
        obtain ⟨head,rest,hin,rfl,rfl⟩ := recvIdentified_ok hrecv
        exact .event ω.accounts (.take head) halive (.take hin) trivial
      · cases h
        exact .nothing ω.accounts
    · cases h
  | returnToHead k n =>
    dsimp only [perform] at h
    split at h
    · next halive =>
      obtain ⟨msg,hmsg,heq⟩ := Option.map_eq_some_iff.mp h
      cases heq
      exact .event ω.accounts (.putBack msg) halive (.putBack hmsg) mem_cons_self
    · cases h
  | commitDelivery k n =>
    dsimp only [perform] at h
    split at h
    · next halive =>
      obtain ⟨msg,hmsg,heq⟩ := Option.map_eq_some_iff.mp h
      cases heq
      have hslot := (hinv k halive).reserved msg (mem_of_getElem? hmsg)
      refine .event _ (.commit msg) halive ?_ fun hfull hpeer => ?_
      · rw [commitDelivery_channel]
        exact .commit hmsg (commitDelivery_core _ _ _ _ _)
      · unfold depth at hfull
        simp [commitDelivery,hslot,hfull,hpeer]
    · cases h
  | close k =>
    dsimp only [perform] at h
    split at h
    · next halive =>
      cases h
      refine .event _ (.close _) halive.1 (.close halive.2) fun hpeer => ?_
      simp [hpeer]
    · cases h
  | _ => cases hop

section

variable {k : Koid} {e : Endpoint} {ev : QueueEvent}

section

variable (hmove : Endpoint.Move ev (ω.endpoints k) e) (hwakes : EndpointWakes lay ω k ws ev)
include hmove hwakes

theorem nonempty_of_move (h : e.channel.inbox ≠ []) :
    (ω.endpoints k).channel.inbox ≠ [] ∨ Wake.object k ∈ ws := by
  cases hmove with
  | accept | putBack => exact .inr hwakes
  | deliver hin | take hin => exact .inl (by simp [hin])
  | commit => exact .inl h
  | discard => exact hwakes.elim
  | close => exact absurd rfl h

theorem closed_of_move (h : e.alive = false) : (ω.endpoints k).alive = false ∨
      ((ω.endpoints (lay.peer k)).alive → Wake.object (lay.peer k) ∈ ws) := by
  cases hmove with
  | close => exact .inr hwakes
  | _ => exact .inl h

end

section

variable (hinv : (ω.endpoints k).Inv) (hmove : Endpoint.Move ev (ω.endpoints k) e)
  (hwakes : EndpointWakes lay ω k ws ev)
include hinv hmove hwakes

theorem room_of_move (h : e.channel.depth < e.channel.limit.val) :
    (ω.endpoints k).channel.depth < (ω.endpoints k).channel.limit.val ∨
      ((ω.endpoints (lay.peer k)).alive → Wake.object (lay.peer k) ∈ ws) := by
  rcases Nat.lt_or_ge (ω.endpoints k).channel.depth (ω.endpoints k).channel.limit.val
    with hroom | hfull
  · exact .inl hroom
  cases hmove with
  | accept hroom => exact .inl hroom
  | deliver | commit => exact .inr (hwakes hfull)
  | close => exact .inr hwakes
  | discard => exact hwakes.elim
  | take hin =>
    -- the message that is taken keeps its slot
    have hlt := hinv.inFlight_lt
    have hadd := fetchAdd_of_lt (by omega : (ω.endpoints k).channel.inFlight + 1 < 2 ^ 64)
    simp only [depth,hadd] at h hfull
    rw [hin,length_cons] at hfull
    omega
  | putBack hmsg =>
    have hsub := hinv.fetchSub hmsg
    have hlen := Endpoint.length_of_taken hmsg
    have hcount := hinv.inFlight
    simp only [depth,returnToHead,hsub,length_cons] at h hfull
    omega

theorem inv_of_move (halive : e.alive) : e.Inv := by
  refine hinv.move ?_ hmove
  cases hmove with
  | close => cases halive
  | discard => exact hwakes.elim
  | _ => trivial

end

end

namespace EndpointStep

variable (h : EndpointStep lay ω ω' ws) (hinv : ω.EndpointsInv)
include h hinv

theorem inv : ω'.EndpointsInv := by
  cases h with
  | nothing accounts => exact hinv
  | @event accounts ev k e _ halive hmove hwakes =>
    intro k' hk'
    dsimp only [setEndpoint] at hk' ⊢
    by_cases hk : k' = k
    · subst hk
      rw [update_self] at hk' ⊢
      exact inv_of_move (hinv k' halive) hmove hwakes hk'
    · rw [update_of_ne hk] at hk' ⊢
      exact hinv k' hk'

theorem becomes (ha : a.Holds lay ω') : a.Holds lay ω ∨ Wake.object a.src ∈ ws := by
  cases h with
  | nothing accounts => exact .inl ha
  | @event accounts ev k e _ halive hmove hwakes =>
    have halive_of k' (hk' : (Function.update ω.endpoints k e k').alive) :
        (ω.endpoints k').alive := by
      rcases eq_or_ne k' k with rfl | hk
      · exact halive
      · rwa [update_of_ne hk] at hk'
    cases a with
    | nonempty k' =>
      dsimp only [Atom.Holds,setEndpoint,Atom.src] at ha ⊢
      rcases eq_or_ne k' k with rfl | hk
      · rw [update_self] at ha
        exact nonempty_of_move hmove hwakes ha
      · rw [update_of_ne hk] at ha
        exact .inl ha
    | peerClosed k' =>
      obtain ⟨hk',hclosed⟩ := ha
      dsimp only [Atom.Holds,setEndpoint,Atom.src] at hk' hclosed ⊢
      have hwas := halive_of k' hk'
      rcases eq_or_ne (lay.peer k') k with rfl | hk
      · rw [update_self] at hclosed
        refine (closed_of_move hmove hwakes hclosed).imp (fun hdead => ⟨hwas,hdead⟩) fun hwake => ?_
        rw [lay.peer_peer] at hwake
        exact hwake hwas
      · rw [update_of_ne hk] at hclosed
        exact .inl ⟨hwas,hclosed⟩
    | room k' =>
      obtain ⟨hk',hroom⟩ := ha
      dsimp only [Atom.Holds,setEndpoint,Atom.src] at hk' hroom ⊢
      have hwas := halive_of k' hk'
      rcases eq_or_ne (lay.peer k') k with rfl | hk
      · rw [update_self] at hroom
        refine (room_of_move (hinv _ halive) hmove hwakes hroom).imp (fun h => ⟨hwas,h⟩)
          fun hwake => ?_
        rw [lay.peer_peer] at hwake
        exact hwake hwas
      · rw [update_of_ne hk] at hroom
        exact .inl ⟨hwas,hroom⟩
    | _ => exact .inl ha

end EndpointStep

def Shared.WakesGroups (lay : Layout) (ω : Shared D) (p : Koid) (ws : List Wake) : Prop :=
  ∀ g, ω.groups g = .alive → p ∈ lay.members g → Wake.object g ∈ ws

/-- Each group that exists is known to its members. -/
def Shared.GroupsInv (lay : Layout) (ω : Shared D) : Prop :=
  ∀ g, ω.groups g = .alive → ∀ p ∈ lay.members g, g ∈ (ω.processes p).groups

def Shared.liveGroups (ω : Shared D) (p : Koid) : List Koid :=
  (ω.processes p).groups.filter fun g => ω.groups g = .alive

/-- The array of `record_in_groups` has room for the live groups of a process whose end it
records. -/
def roomForGroups (ω : Shared D) : Op → Bool
  | .terminate p _ | .markExited p | .dropProcess p =>
    decide ((ω.liveGroups p).length ≤ MAX_GROUP_MEMBERS)
  | _ => true

theorem wakesGroups_of_room (hinv : ω.GroupsInv lay)
    (hroom : (ω.liveGroups p).length ≤ MAX_GROUP_MEMBERS) :
    ω.WakesGroups lay p (ω.recordInGroups p) := by
  intro g halive hmem
  unfold recordInGroups
  rw [take_of_length_le (by exact hroom)]
  exact mem_map_of_mem (mem_filter.mpr ⟨hinv g halive p hmem,decide_eq_true halive⟩)

def Op.onSet : Op → Bool
  | .add _ _ _ _ | .addObserver _ _ | .remove _ _ | .removeObserver _ | .dropSet _
  | .dropObserver _ => true
  | _ => false

theorem same_of_perform (hop : op.onSet) (h : ω.perform lay Q op = some (ω', ws)) :
    ω'.endpoints = ω.endpoints ∧ ω'.signaled = ω.signaled ∧ ω'.processes = ω.processes ∧
      ω'.groups = ω.groups := by
  cases op <;> cases hop
  all_goals
    dsimp only [perform] at h
    repeat' split at h
    all_goals cases h <;> exact ⟨rfl,rfl,rfl,rfl⟩

namespace Atom

variable {a : Atom}

/-- What an operation has to meet so that the atom's wake is sent. -/
def Covered (lay : Layout) (ω : Shared D) (op : Op) : Atom → Prop
  | .finished g _ => ω.GroupsInv lay ∧ roomForGroups ω op = true ∧ op ≠ .createGroup g
  | _ => True

def Of (lay : Layout) (p : Koid) : Atom → Prop
  | .killed p' | .exited p' | .unstopped p' | .unfrozen p' => p' = p
  | .finished g _ => p ∈ lay.members g
  | _ => False

variable {process : Process}

section

variable (ha : a.Holds lay (ω.setProcess p process))
include ha

theorem Holds.of_setProcess : a.Holds lay ω ∨ a.Of lay p := by
  cases a with
  | finished g ending =>
    by_cases hp : p ∈ lay.members g
    · exact .inr hp
    · refine .inl ⟨ha.1,fun p' hp' => ?_⟩
      have hne : p' ≠ p := fun heq => hp (heq ▸ hp')
      simpa only [setProcess,update_of_ne hne] using ha.2 p' hp'
  | killed p' | exited p' | unstopped p' | unfrozen p' =>
    rcases eq_or_ne p' p with rfl | hp
    · exact .inr rfl
    · simp only [Holds,setProcess,update_of_ne hp] at ha
      exact .inl ha
  | _ => exact .inl ha

theorem Holds.of_process (hkilled : process.killed → (ω.processes p).killed ∨ Wake.object p ∈ ws)
    (hexited : process.exited → (ω.processes p).exited ∨ Wake.object p ∈ ws)
    (hstopped : process.stopped = false → (ω.processes p).stopped = false ∨ Wake.object p ∈ ws)
    (hfrozen : process.frozen = false → (ω.processes p).frozen = false ∨ Wake.object p ∈ ws)
    (hended : ∀ ending : Ending, ending.Of process → (∃ g ending, a = .finished g ending) →
      ending.Of (ω.processes p) ∨ ω.WakesGroups lay p ws) :
    a.Holds lay ω ∨ Wake.object a.src ∈ ws := by
  obtain hwas | hof := ha.of_setProcess
  · exact .inl hwas
  have hself : (ω.setProcess p process).processes p = process := update_self ..
  cases a with
  | killed p' =>
    obtain rfl : p' = p := hof
    exact hkilled (hself ▸ ha)
  | exited p' =>
    obtain rfl : p' = p := hof
    exact hexited (hself ▸ ha)
  | unstopped p' =>
    obtain rfl : p' = p := hof
    exact hstopped (hself ▸ ha)
  | unfrozen p' =>
    obtain rfl : p' = p := hof
    exact hfrozen (hself ▸ ha)
  | finished g ending =>
    obtain ⟨halive,hall⟩ := ha
    have hp := hall p hof
    rw [hself] at hp
    refine (hended _ hp ⟨g,ending,rfl⟩).imp (fun hwas => ⟨halive,fun p' hp' => ?_⟩)
      fun hw => hw g halive hof
    rcases eq_or_ne p' p with rfl | hne
    · exact hwas
    · simpa only [setProcess,update_of_ne hne] using hall p' hp'
  | _ => exact hof.elim

end

theorem Holds.of_joinGroup {g : Koid} (hne : ∀ ending, a ≠ .finished g ending)
    (ha : a.Holds lay (ω.joinGroup lay g)) : a.Holds lay ω := by
  have hflags p : ∀ {α : Type} (f : Process → α)
      (_ : ∀ process groups, f { process with groups := groups } = f process),
      f ((ω.joinGroup lay g).processes p) = f (ω.processes p) := by
    intro α f hf
    dsimp only [joinGroup]
    split
    · exact hf _ _
    · rfl
  cases a with
  | killed p => exact (hflags p Process.killed fun _ _ => rfl).symm.trans ha
  | exited p => exact (hflags p Process.exited fun _ _ => rfl).symm.trans ha
  | unstopped p => exact (hflags p Process.stopped fun _ _ => rfl).symm.trans ha
  | unfrozen p => exact (hflags p Process.frozen fun _ _ => rfl).symm.trans ha
  | finished g' ending =>
    have hg : g' ≠ g := fun h => hne ending (h ▸ rfl)
    obtain ⟨halive,hall⟩ := ha
    simp only [joinGroup,update_of_ne hg] at halive
    refine ⟨halive,fun p hp => ?_⟩
    have hof := hall p hp
    rwa [hflags p (fun process => (ending p).Of process) fun _ _ => by cases ending p <;> rfl]
      at hof
  | _ => exact ha

end Atom

theorem Shared.EndpointsInv.perform (hinv : ω.EndpointsInv)
    (h : ω.perform lay Q op = some (ω', ws)) : ω'.EndpointsInv := by
  by_cases hend : op.onEndpoint
  · exact (endpointStep_of_perform hinv hend h).inv hinv
  by_cases hset : op.onSet
  · obtain ⟨hsame,-⟩ := same_of_perform hset h
    unfold Shared.EndpointsInv
    rw [hsame]
    exact hinv
  cases op with
  | createGroup g | dropGroup g =>
    dsimp only [perform] at h
    split at h <;> cases h
    exact hinv
  | _ => first | exact absurd rfl hend | exact absurd rfl hset | cases h; exact hinv

/-- What an operation makes true, it wakes for. -/
theorem becomes_of_perform (hinv : ω.EndpointsInv)
    (h : ω.perform lay Q op = some (ω', ws)) (hcovered : a.Covered lay ω op)
    (ha : a.Holds lay ω') : a.Holds lay ω ∨ Wake.object a.src ∈ ws := by
  by_cases hend : op.onEndpoint
  · exact (endpointStep_of_perform hinv hend h).becomes hinv ha
  by_cases hset : op.onSet
  · obtain ⟨hendpoints,hsignaled,hprocesses,hgroups⟩ := same_of_perform hset h
    left
    cases a <;> simpa only [Atom.Holds,hendpoints,hsignaled,hprocesses,hgroups] using ha
  have hgroups p (hop : roomForGroups ω op → (ω.liveGroups p).length ≤ MAX_GROUP_MEMBERS) :
      (∃ g ending, a = .finished g ending) → ω.WakesGroups lay p (ω.recordInGroups p) := by
    rintro ⟨g,ending,rfl⟩
    exact wakesGroups_of_room hcovered.1 (hop hcovered.2.1)
  cases op with
  | signal k =>
    cases h
    cases a with
    | signaled k' =>
      rcases eq_or_ne k' k with rfl | hk
      · exact .inr mem_cons_self
      · simp only [Atom.Holds,update_of_ne hk] at ha
        exact .inl ha
    | _ => exact .inl ha
  | terminate p signal =>
    cases h
    refine ha.of_process (fun _ => .inr (by simp)) .inl .inl .inl fun _ _ hended => .inr ?_
    exact fun g halive hmem =>
      mem_append_left _ (hgroups p of_decide_eq_true hended g halive hmem)
  | markExited p =>
    cases h
    refine ha.of_process .inl (fun _ => .inr (by simp)) .inl .inl fun _ _ hended => .inr ?_
    exact fun g halive hmem =>
      mem_append_left _ (hgroups p of_decide_eq_true hended g halive hmem)
  | dropProcess p =>
    cases h
    refine ha.of_process .inl .inl .inl .inl fun ending hof hended => ?_
    cases hterminated : (ω.processes p).isTerminated with
    | false => exact .inr (hgroups p of_decide_eq_true hended)
    | true =>
      cases ending with
      | dropped =>
        rw [show (ω.processes p).isTerminated = false from hof.2] at hterminated
        cases hterminated
      | killed | exited => exact .inl hof
  | sigStop p =>
    cases h
    refine ha.of_process .inl .inl (fun h => by cases h) .inl fun ending hof _ => .inl ?_
    cases ending <;> exact hof
  | sigCont p =>
    cases h
    refine ha.of_process .inl .inl (fun _ => .inr mem_cons_self) .inl fun ending hof _ => .inl ?_
    cases ending <;> exact hof
  | freeze p =>
    cases h
    refine ha.of_process .inl .inl .inl (fun h => by cases h) fun ending hof _ => .inl ?_
    cases ending <;> exact hof
  | thaw p =>
    cases h
    refine ha.of_process .inl .inl .inl (fun _ => .inr mem_cons_self) fun ending hof _ => .inl ?_
    cases ending <;> exact hof
  | createGroup g =>
    dsimp only [perform] at h
    split at h
    · cases h
      refine .inl (ha.of_joinGroup ?_)
      rintro ending rfl
      exact hcovered.2.2 rfl
    · cases h
  | dropGroup g =>
    dsimp only [perform] at h
    split at h
    · cases h
      cases a with
      | finished g' ending =>
        obtain ⟨halive,hall⟩ := ha
        dsimp only at halive
        rcases eq_or_ne g' g with rfl | hg
        · rw [update_self] at halive
          cases halive
        · rw [update_of_ne hg] at halive
          exact .inl ⟨halive,hall⟩
      | _ => exact .inl ha
    · cases h
  | _ => first | exact absurd rfl hend | exact absurd rfl hset

end LiberSystem.Sched
