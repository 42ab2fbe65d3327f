import LiberSystem.Dma.Attribution

/-!
# Runs of bindings and faults

In a run in which every revoked endpoint is cut off, each drained record is charged to the binding
that raised it.
-/

namespace LiberSystem.Dma

open Proc

inductive BindingCall where
  | createDomain (base len : ℕ) (reserved : List Reserved) (generation : Generation)
  | attach (domain : DomainId) (endpoint : EndpointId)
  | revokeEndpoint (domain : DomainId) (endpoint : EndpointId)
  | destroyDomain (domain : DomainId)
  | drainFaultsDuring (room : ℕ) (teardown : Teardown)

namespace BindingCall

def run : BindingCall → IommuM (List FaultEvent)
  | createDomain base len reserved generation => do
    let _ ← Dma.createDomain base len reserved generation
    pure []
  | attach domain endpoint => do
    Dma.attach domain endpoint
    pure []
  | revokeEndpoint domain endpoint => do
    let _ ← Dma.revokeEndpoint domain endpoint
    pure []
  | destroyDomain domain => do
    Dma.destroyDomain domain
    pure []
  | drainFaultsDuring room teardown => Dma.drainFaultsDuring room teardown

def Allowed (s : Iommu) : BindingCall → Prop
  | revokeEndpoint d e => ∀ d', e ∈ s.endpoints d' → d' = d
  | _ => True

end BindingCall

structure Bus where
  iommu : Iommu
  transport : Transport

namespace Bus

variable {cuts : Bool} {b b' b₀ b₁ b₂ : Bus} {c : BindingCall}
  {r : Except Fault (List FaultEvent)} {made : DomainId → Generation}

def Does (cuts : Bool) (b : Bus) (c : BindingCall) (r : Except Fault (List FaultEvent))
    (b' : Bus) : Prop :=
  c.Allowed b.iommu ∧ Interact.Leads (Dma.transport cuts) (exec c.run b.iommu) b.transport
    (r.mapError Halt.fault, b'.iommu) b'.transport

inductive Step (cuts : Bool) : Bus → Bus → Prop where
  | call {b b' : Bus} (c : BindingCall) (r : Except Fault (List FaultEvent)) :
      b.Does cuts c r b' → Step cuts b b'
  | raise {b : Bus} {t : Transport} : b.transport.Raises t → Step cuts b ⟨b.iommu,t⟩

abbrev Runs (cuts : Bool) : Bus → Bus → Prop := Relation.ReflTransGen (Step cuts)

def Start (b : Bus) : Prop :=
  (∃ capacity, b.iommu = Iommu.new capacity) ∧ (∀ e, b.transport.attached e = none) ∧
    b.transport.created = ∅ ∧ ∀ r ∈ b.transport.records, r.raisedUnder = none

def Outcome (made : DomainId → Generation) (b : Bus) (c : BindingCall)
    (r : Except Fault (List FaultEvent)) (b' : Bus) : Prop :=
  Attributed made b.transport b'.iommu b'.transport ∧ ∀ room teardown events,
    c = .drainFaultsDuring room teardown → r = .ok events →
      Drained made b.iommu b.transport events b'.iommu b'.transport

theorem Does.outcome (hd : b.Does true c r b') (ha : Attributes made b.iommu b.transport) :
    Outcome made b c r b' := by
  obtain ⟨hallowed,hleads⟩ := hd
  -- a call other than a drain
  have hplain : ∀ {m : IommuM (List FaultEvent)},
      wp (Dma.transport true) anyway m (fun _ s' t' => Attributed made b.transport s' t')
        (FailsAttributed made b.transport) b.iommu b.transport →
      Interact.Leads (Dma.transport true) (exec m b.iommu) b.transport
        (r.mapError Halt.fault, b'.iommu) b'.transport →
      Attributed made b.transport b'.iommu b'.transport := by
    intro m hspec hl
    have hend := hspec.leads hl
    cases r with
    | error reason => exact hend.resolve_left fun h => by cases h
    | ok events => exact hend
  cases c with
  | createDomain =>
    exact ⟨hplain (wp_bind.mpr (createDomain_attributes ha)) hleads,fun _ _ _ h => by cases h⟩
  | attach =>
    exact ⟨hplain (wp_bind.mpr (attach_attributes ha)) hleads,fun _ _ _ h => by cases h⟩
  | revokeEndpoint =>
    exact ⟨hplain (wp_bind.mpr (revokeEndpoint_attributes ha hallowed)) hleads,
      fun _ _ _ h => by cases h⟩
  | destroyDomain =>
    exact ⟨hplain (wp_bind.mpr (destroyDomain_attributes ha)) hleads,fun _ _ _ h => by cases h⟩
  | drainFaultsDuring room teardown =>
    have hend := (drainFaultsDuring_attributes teardown ha room).leads hleads
    cases r with
    | error reason => exact ⟨hend.resolve_left fun h => (by cases h),fun _ _ _ _ h => by cases h⟩
    | ok events =>
      refine ⟨hend.attributed,fun _ _ _ _ h => ?_⟩
      cases h
      exact hend

theorem Step.keeps (hstep : Step true b b') (ha : Attributes made b.iommu b.transport) :
    Attributed made b.transport b'.iommu b'.transport := by
  cases hstep with
  | call c r hd => exact (hd.outcome ha).1
  | raise hr =>
    have hq := queues_of_raises (.single hr)
    exact (ha.queues hq).attributed_of_queues hq

theorem Runs.keeps (hr : Runs true b b') (ha : Attributes made b.iommu b.transport) :
    ∃ made', (∀ d ∈ b.transport.created, made' d = made d) ∧
      b.transport.created ⊆ b'.transport.created ∧ Attributes made' b'.iommu b'.transport := by
  induction hr with
  | refl => exact ⟨made,fun _ _ => rfl,subset_rfl,ha⟩
  | tail _ hstep ih =>
    obtain ⟨made₁,hagree₁,hsub₁,ha₁⟩ := ih
    obtain ⟨⟨made₂,hagree₂,ha₂⟩,hsub₂,-⟩ := hstep.keeps ha₁
    exact ⟨made₂,fun d hd => (hagree₂ d (hsub₁ hd)).trans (hagree₁ d hd),hsub₁.trans hsub₂,ha₂⟩

theorem Start.attributes (hstart : b.Start) : Attributes (fun _ => 0) b.iommu b.transport := by
  obtain ⟨⟨capacity,hnew⟩,hatt,hcreated,hold⟩ := hstart
  rw [hnew]
  constructor
  · intro d hd
    rw [hcreated] at hd
    exact absurd hd (Set.notMem_empty d)
  · intro d g hg
    cases hg
  · intro e d hd
    rw [hatt] at hd
    cases hd
  · intro e d g hp
    cases hp
  · intro _ r hr d hd
    rw [hold r hr] at hd
    cases hd
  · exact Nat.zero_le _

/-- Each event that is returned is that of the record it was read from, and is charged to the
domain and generation it was raised under, where the generation of a domain is that of any
earlier state of the run in which the domain exists. -/
def ChargedRight (earlier b' : Bus) (events : List FaultEvent) : Prop :=
  List.Forall₂ (fun event r => event.endpoint = r.endpoint ∧ event.address = r.address ∧
    event.access = r.access ∧ event.reason = r.reason ∧ ∀ d, r.raisedUnder = some d →
      event.domain = d ∧ ∀ state, earlier.iommu.domains.get? d = some state →
        event.generation = state.generation) events b'.transport.popped

/-- Faults are charged to the binding that raised them, if every revoked endpoint is cut off:
after a run to `b₁` and on to `b₂`, at most eight tails are kept; an endpoint becomes attached to a
domain only when no record of an earlier binding of it is queued; and as long as attribution
is complete, the events that a drain returns are charged to the bindings they were raised
under, and are what the log records. -/
theorem faults_charged_when_cut (hstart : b₀.Start) (h₁ : Runs true b₀ b₁) (h₂ : Runs true b₁ b₂) :
    b₂.iommu.detached.length ≤ 8 ∧
    (∀ c r b', b₂.Does true c r b' → ∀ e d, b'.transport.attached e = some d →
      b₂.transport.attached e ≠ some d →
        ∀ record ∈ b₂.transport.records, record.endpoint = e → record.raisedUnder = none) ∧
    (b₂.iommu.attributionIsComplete = true → ∀ room teardown events b',
      b₂.Does true (.drainFaultsDuring room teardown) (.ok events) b' →
        b'.iommu.faults = events.foldl FaultLog.record b₂.iommu.faults ∧
          ChargedRight b₁ b' events) := by
  obtain ⟨made₁,-,-,ha₁⟩ := h₁.keeps hstart.attributes
  obtain ⟨made₂,hagree,hsub,ha₂⟩ := h₂.keeps ha₁
  refine ⟨ha₂.few,fun c r b' hd e d hatt hne => ?_,fun hcomplete room teardown events b' hd => ?_⟩
  · exact ((hd.outcome ha₂).1.attached e d hatt).resolve_left hne
  have hdrained := (hd.outcome ha₂).2 room teardown events rfl rfl
  refine ⟨hdrained.recorded,(hdrained.charged ((Bool.not_eq_true' _).mp hcomplete)).imp ?_⟩
  rintro event record ⟨hend,haddress,haccess,hreason,hcharged⟩
  refine ⟨hend,haddress,haccess,hreason,fun d hunder => ?_⟩
  obtain ⟨hdomain,hgen⟩ := hcharged d hunder
  refine ⟨hdomain,fun state hstate => ?_⟩
  obtain ⟨hc,hmade⟩ := ha₁.known d state.generation (by rw [Iommu.generation,hstate]; rfl)
  rw [hgen,hagree d hc,hmade]

theorem request {α : Type} {t t'' : Transport} {q : Request} {a : α}
    {next : q.Answer → Interact Request Request.Answer α} (ans : q.Answer) (t' : Transport)
    (he : t.effect cuts q ans t') (hl : Interact.Leads (Dma.transport cuts) (next ans) t' a t'') :
    Interact.Leads (Dma.transport cuts) (.ask q next) t a t'' :=
  .ask ⟨t,.refl,he⟩ hl

variable {s : Iommu} {d : DomainId}

theorem Runs.call {s' : Iommu} {t t' : Transport} (hr : Runs cuts b ⟨s,t⟩) (c : BindingCall)
    (r : Except Fault (List FaultEvent)) (ha : c.Allowed s)
    (hl : Interact.Leads (Dma.transport cuts) (exec c.run s) t (r.mapError Halt.fault, s') t') :
    Does cuts ⟨s,t⟩ c r ⟨s',t'⟩ ∧ Runs cuts b ⟨s',t'⟩ :=
  ⟨⟨ha,hl⟩,hr.tail (.call c r ⟨ha,hl⟩)⟩

theorem Runs.raise {t t' : Transport} (hr : Runs cuts b ⟨s,t⟩) (ht : t.Raises t') :
    Runs cuts b ⟨s,t'⟩ :=
  hr.tail (.raise ht)

theorem Runs.again (_ : Runs cuts b b') : Runs cuts b' b' := .refl

theorem allowed_of_entries {e : EndpointId}
    (h : ∀ entry ∈ s.domains.entries, e ∈ entry.2.endpoints → entry.1 = d) :
    (BindingCall.revokeEndpoint d e).Allowed s := by
  intro d' hd'
  obtain ⟨state,hstate,hmem⟩ := Iommu.mem_endpoints hd'
  exact h (d', state) (OrdMap.get?_eq_some.mp hstate) hmem

theorem ChargedRight.single {earlier : Bus} {events : List FaultEvent} {record : Record}
    {state : DomainState} (h : ChargedRight earlier b' events)
    (hpopped : b'.transport.popped = [record]) (hd : record.raisedUnder = some d)
    (hstate : earlier.iommu.domains.get? d = some state) :
    ∀ event ∈ events, event.domain = d ∧ event.generation = state.generation := by
  rw [ChargedRight,hpopped] at h
  obtain ⟨event,rest,⟨-,-,-,-,hcharged⟩,hrest,rfl⟩ := List.forall₂_cons_right_iff.mp h
  obtain rfl := List.forall₂_nil_right_iff.mp hrest
  intro event' hmem
  obtain rfl := List.mem_singleton.mp hmem
  exact ⟨(hcharged d hd).1,(hcharged d hd).2 state hstate⟩

def idle : Bus := ⟨Iommu.new 4,⟨[],fun _ => none,false,[],∅⟩⟩

theorem start_idle : idle.Start := ⟨⟨4,rfl⟩,fun _ => rfl,rfl,fun _ h => by cases h⟩

/-- The transport with the endpoint 9 attached to the domain 1. -/
def oneAttached : Transport := Transport.attach { idle.transport with created := insert 1 ∅ } 1 9

def runs_oneAttached (cuts : Bool) : { s // Runs cuts idle ⟨s,oneAttached⟩ } :=
  let t : Transport := { idle.transport with created := insert 1 ∅ }
  have hidle : Runs cuts idle ⟨idle.iommu,idle.transport⟩ := .refl
  have hcreate := hidle.call (.createDomain 2 6 [] 5) (.ok []) trivial
    (request (.ok 1) t ⟨by decide,Set.notMem_empty 1,rfl⟩ (.done _ _))
  have hattach := hcreate.2.call (.attach 1 9) (.ok []) trivial
    (request true t rfl (request (.ok ()) oneAttached rfl (.done _ _)))
  ⟨_,hattach.2⟩

/-- An endpoint is attached, faults and is revoked; its record is drained afterwards. -/
theorem faults_charged_when_cut_revoked : ∃ b₀ b₁ b₂ b' : Bus, ∃ events,
    b₀.Start ∧ Runs true b₀ b₁ ∧ Runs true b₁ b₂ ∧
    b₂.Does true (.drainFaultsDuring 4 none) (.ok events) b' ∧
    b₂.transport.attached 9 = none ∧ b'.transport.popped.length = 1 ∧
    ∀ event ∈ events, event.domain = 1 ∧ event.generation = 5 := by
  let record : Record := ⟨9,none,.write,.notMapped,some 1⟩
  let t₃ : Transport := { oneAttached with queue := [some record] }
  let t₄ : Transport := t₃.cut 1 9
  let t₅ : Transport := { t₄ with queue := [], sawEmpty := true, popped := [record] }
  have hattach := (runs_oneAttached true).2
  have hraise := hattach.again.raise (.record oneAttached 9 none .write .notMapped)
  have hrevoke := hraise.call (.revokeEndpoint 1 9) (.ok []) (allowed_of_entries (by decide))
    (request (.ok ()) t₃ rfl (request (.ok ()) t₄ rfl (.done _ _)))
  have hdrain := hrevoke.2.call (.drainFaultsDuring 4 none) (.ok _) trivial
    (request [t₄.report record] t₅ ⟨[some record],[],rfl,by decide,rfl,true,fun _ => rfl,rfl⟩
      (request true t₅ ⟨fun _ => rfl,rfl⟩ (.done _ _)))
  have hall := (faults_charged_when_cut start_idle hattach hrevoke.2).2.2 rfl 4 none
  exact ⟨_,_,_,_,_,start_idle,hattach,hrevoke.2,hdrain.1,rfl,rfl,
    (hall _ _ hdrain.1).2.single rfl rfl rfl⟩

/-- A detach that fails without effect: the endpoint is out of the ledger and still attached. Its
tail is drained, it raises a fault under its old domain, and it is attached to another one
before that record is drained, to which the record is then charged. -/
theorem faults_charged_to_next : ∃ b₀ b₁ b₂ b₃ b₄ : Bus, ∃ record events,
    b₀.Start ∧ Runs false b₀ b₁ ∧ b₁.Does false (.createDomain 2 6 [] 6) (.ok []) b₂ ∧
    b₂.Does false (.attach 2 9) (.ok []) b₃ ∧
    b₃.Does false (.drainFaultsDuring 4 none) (.ok events) b₄ ∧
    (∀ b ∈ [b₁,b₂,b₃], b.iommu.attributionIsComplete = true) ∧
    b₁.transport.queue = [some record] ∧ b₄.transport.popped = [record] ∧
    record.raisedUnder = some 1 ∧ events.map (fun event => (event.domain, event.generation)) =
      [(2, 6)] := by
  let t₃ : Transport := { oneAttached with sawEmpty := true }
  let record : Record := ⟨9,none,.write,.notMapped,some 1⟩
  let t₄ : Transport := { t₃ with queue := [some record] }
  let t₅ : Transport := { t₄ with created := insert 2 t₄.created }
  let t₆ : Transport := t₅.attach 2 9
  let t₇ : Transport := { t₆ with queue := [], sawEmpty := false, popped := [record] }
  have hfresh : 2 ∉ t₄.created := by
    rintro (h | h)
    · cases h
    · exact h
  have hrevoke := (runs_oneAttached false).2.call (.revokeEndpoint 1 9) (.ok [])
    (allowed_of_entries (by decide)) (request (.ok ()) oneAttached rfl
      (request (.error .unconfirmed) oneAttached (.inr ⟨rfl,rfl⟩) (.done _ _)))
  have hdrain := hrevoke.2.call (.drainFaultsDuring 4 none) (.ok []) trivial
    (request [] t₃ ⟨[],[],rfl,by decide,rfl,true,fun _ => rfl,rfl⟩
      (request true t₃ ⟨fun _ => rfl,rfl⟩ (.done _ _)))
  have hraise := hdrain.2.raise (.record t₃ 9 none .write .notMapped)
  have hcreate' := hraise.call (.createDomain 2 6 [] 6) (.ok []) trivial
    (request (.ok 2) t₅ ⟨by decide,hfresh,rfl⟩ (.done _ _))
  have hattach' := hcreate'.2.call (.attach 2 9) (.ok []) trivial
    (request true t₅ rfl (request (.ok ()) t₆ rfl (.done _ _)))
  have hdrain' := hattach'.2.call (.drainFaultsDuring 4 none) (.ok _) trivial
    (request [t₆.report record] t₇
      ⟨[some record],[],rfl,by decide,rfl,false,(fun h => by cases h),rfl⟩
      (request false t₇ ⟨fun h => (by cases h),rfl⟩ (.done _ _)))
  refine ⟨_,_,_,_,_,record,_,start_idle,hraise,hcreate'.1,hattach'.1,hdrain'.1,?_,rfl,rfl,rfl,
    rfl⟩
  intro b hb
  simp only [List.mem_cons,List.not_mem_nil,or_false] at hb
  rcases hb with rfl | rfl | rfl <;> rfl

end Bus

end LiberSystem.Dma
