import Mathlib.Data.List.ReduceOption
import LiberSystem.Dma.Iommu

/-!
# Faults and the bindings that raised them

The transport behind the backend is a queue of fault records. A record names an endpoint and no
binding; what binding raised it is a ghost of the model (`raisedUnder`).
-/

namespace LiberSystem.Dma

open List Option Function Iommu OrdMap

open Proc

/-! ### The transport -/

structure Record where
  endpoint : EndpointId
  address : Option DmaAddress
  access : Access
  reason : Fault
  /-- The domain the endpoint was attached to. -/
  raisedUnder : Option DomainId

structure Transport where
  /-- Oldest first; `none` is a record that cannot be decoded. -/
  queue : List (Option Record)
  attached : EndpointId → Option DomainId
  /-- The last drain saw the queue empty. -/
  sawEmpty : Bool
  popped : List Record
  created : Set DomainId

namespace Transport

variable (t : Transport)

def records : List Record := t.queue.reduceOption

inductive Raises : Transport → Transport → Prop where
  | record (t : Transport) (endpoint : EndpointId) (address : Option DmaAddress)
      (access : Access) (reason : Fault) :
      Raises t { t with
        queue := t.queue ++ [some ⟨endpoint,address,access,reason,t.attached endpoint⟩] }
  | malformed (t : Transport) : Raises t { t with queue := t.queue ++ [none] }

def report (r : Record) : FaultEvent :=
  ⟨r.endpoint,(t.attached r.endpoint).getD 0,0,r.address,r.access,r.reason⟩

variable (d : DomainId) (e : EndpointId)

def attach : Transport :=
  { t with attached := update t.attached e (some d) }

@[simp] theorem attached_attach : (t.attach d e).attached e = some d := by
  simp only [attach,update_self]

theorem attached_attach_of_ne {e e' : EndpointId} (h : e' ≠ e) :
    (t.attach d e).attached e' = t.attached e' :=
  update_of_ne h _ _

def cut : Transport :=
  { t with attached := fun e' => if e' = e ∧ t.attached e' = some d then none else t.attached e' }

/-- A domain with an id that was not handed out before. Zero stands for no domain. -/
def Creates (id : DomainId) (t' : Transport) : Prop :=
  id ≠ 0 ∧ id ∉ t.created ∧ t' = { t with created := insert id t.created }

/-- What a request does, by its answer. With `cuts`, a detach cuts the endpoint off even if it
fails. -/
def effect (cuts : Bool) (t : Transport) : (r : Request) → r.Answer → Transport → Prop
  | .domainCreate, .ok id, t' => t.Creates id t'
  | .domainCreate, .error _, t' => t' = t ∨ ∃ id, t.Creates id t'
  | .domainDestroy d, .ok (), t' =>
      t' = { t with attached := fun e => if t.attached e = some d then none else t.attached e }
  | .domainDestroy d, .error _, t' => ∃ attached : EndpointId → Option DomainId,
      (∀ e, attached e = t.attached e ∨ t.attached e = some d ∧ attached e = none) ∧
        t' = { t with attached := attached }
  | .attach d e, .ok (), t' => t' = t.attach d e
  | .attach d e, .error .unconfirmed, t' => t' = t ∨ t' = t.attach d e
  | .attach _ _, .error _, t' => t' = t
  | .detach d e, .ok (), t' => t' = t.cut d e
  | .detach d e, .error _, t' => t' = t.cut d e ∨ cuts = false ∧ t' = t
  | .drainFaults room, events, t' => ∃ front rest, t.queue = front ++ rest ∧
      front.reduceOption.length ≤ room ∧ events = front.reduceOption.map t.report ∧
      ∃ sawEmpty, (sawEmpty = true → rest = []) ∧
        t' = { t with queue := rest, sawEmpty := sawEmpty, popped := front.reduceOption }
  | .transportWasEmptied, emptied, t' => (emptied = true → t.sawEmpty = true) ∧ t' = t
  | .map .., _, t' | .unmap .., _, t' | .invalidate _, _, t' | .tryReserve, _, t' => t' = t

end Transport

/-- Any transport in which devices raise faults between requests. -/
def transport (cuts : Bool) : Environment Request Request.Answer Transport :=
  fun t r ans t' => ∃ raised, Relation.ReflTransGen Transport.Raises t raised ∧
    raised.effect cuts r ans t'

/-! ### What the ledger knows of bindings -/

namespace Iommu

def endpoints (s : Iommu) (d : DomainId) : List EndpointId :=
  ((s.domains.get? d).map DomainState.endpoints).getD []

def generation (s : Iommu) (d : DomainId) : Option Generation :=
  (s.domains.get? d).map DomainState.generation

end Iommu

/-- The ended binding of an endpoint whose faults may still be queued. -/
def pendingIn (tails : List DetachedTail) (e : EndpointId) : Option (DomainId × Generation) :=
  (tails.find? fun tail => !tail.drained && tail.endpoint == e).map fun tail =>
    (tail.domain, tail.generation)

def Iommu.pending (s : Iommu) (e : EndpointId) : Option (DomainId × Generation) :=
  pendingIn s.detached e

variable {s s' : Iommu} {t t' : Transport} {d : DomainId} {e : EndpointId} {cuts : Bool}
  {made made' : DomainId → Generation} {tails : List DetachedTail}

variable {f : DomainState → DomainState} {state : DomainState} {g : Generation} {t'' : Transport}

theorem Iommu.endpoints_setDomain {d' : DomainId} : (s.setDomain d f).endpoints d' = if d' = d then
      ((s.domains.get? d).map fun state => (f state).endpoints).getD [] else s.endpoints d' := by
  rw [endpoints,setDomain,get?_modify]
  split
  · rw [Option.map_map]
    rfl
  · rfl

theorem Iommu.endpoints_of_get? (h : s.domains.get? d = some state) :
    s.endpoints d = state.endpoints := by
  rw [endpoints,h]
  rfl

theorem Iommu.mem_endpoints (h : e ∈ s.endpoints d) :
    ∃ state, s.domains.get? d = some state ∧ e ∈ state.endpoints := by
  rw [endpoints] at h
  cases hstate : s.domains.get? d with
  | none =>
    rw [hstate] at h
    cases h
  | some state => exact ⟨state,rfl,endpoints_of_get? hstate ▸ h⟩

theorem Iommu.generation_setDomain (hf : ∀ state, (f state).generation = state.generation)
    (d' : DomainId) : (s.setDomain d f).generation d' = s.generation d' := by
  rw [generation,setDomain,get?_modify]
  split
  · next heq =>
    rw [generation,heq,Option.map_map]
    congr 1
    funext state
    exact hf state
  · rfl

/-! ### Tails of ended bindings -/

@[simp] theorem pendingIn_nil : pendingIn [] e = none := rfl

theorem pendingIn_cons (tail : DetachedTail) : pendingIn (tail :: tails) e =
    if tail.drained = false ∧ tail.endpoint = e then some (tail.domain, tail.generation)
    else pendingIn tails e := by
  rw [pendingIn,find?_cons]
  split
  · next h =>
    simp only [Bool.and_eq_true,Bool.not_eq_true',beq_iff_eq] at h
    rw [if_pos h,map_some]
  · next h =>
    rw [if_neg,pendingIn]
    rintro ⟨hdrained,hend⟩
    simp [hdrained,hend] at h

theorem pendingIn_append (xs ys : List DetachedTail) :
    pendingIn (xs ++ ys) e = (pendingIn xs e).or (pendingIn ys e) := by
  rw [pendingIn,find?_append,map_or]
  rfl

theorem pendingIn_drained {tail : DetachedTail} (h : tail.drained) :
    pendingIn (tail :: tails) e = pendingIn tails e := by
  rw [pendingIn_cons,if_neg fun hc => Bool.false_ne_true (hc.1.symm.trans h)]

theorem pendingIn_map_drained :
    pendingIn (tails.map fun tail => { tail with drained := true }) e = none := by
  induction tails with
  | nil => rfl
  | cons tail rest ih => rw [map_cons,pendingIn_drained rfl,ih]

theorem pendingIn_eq_none : pendingIn tails e = none ↔
    tails.any (fun tail => tail.endpoint == e && !tail.drained) = false := by
  rw [pendingIn,Option.map_eq_none_iff,List.find?_eq_none,List.any_eq_false]
  refine forall₂_congr fun tail _ => ?_
  rw [Bool.and_comm]

theorem split_of_findIdx? {α : Type} {p : α → Bool} {l : List α} {i : ℕ}
    (h : l.findIdx? p = some i) : ∃ xs a ys, l = xs ++ a :: ys ∧ p a ∧ xs.length = i ∧
      ∀ b ∈ xs, p b = false := by
  obtain ⟨hi,hp,hbefore⟩ := findIdx?_eq_some_iff_getElem.mp h
  refine ⟨l.take i,l[i],l.drop (i + 1),?_,hp,?_,fun b hb => ?_⟩
  · rw [getElem_cons_drop,take_append_drop]
  · rw [length_take,Nat.min_eq_left hi.le]
  obtain ⟨j,hj,rfl⟩ := mem_iff_getElem.mp hb
  rw [length_take] at hj
  rw [getElem_take]
  exact Bool.eq_false_iff.mpr (hbefore j (by omega))

theorem makeRoom_spec (fuel : ℕ) (tails : List DetachedTail) (hfuel : tails.length ≤ fuel + 7) :
    (∀ e, pendingIn (makeRoom fuel tails).1 e = pendingIn tails e) ∧
      (makeRoom fuel tails).1.length ≤ tails.length ∧
      ((makeRoom fuel tails).2 → (makeRoom fuel tails).1.length < mostDetachedTails) := by
  induction fuel generalizing tails with
  | zero =>
    refine ⟨fun _ => rfl,le_rfl,fun _ => ?_⟩
    exact Nat.lt_succ_of_le hfuel
  | succ fuel ih =>
    rw [makeRoom]
    split
    · split
      · exact ⟨fun _ => rfl,le_rfl,fun h => by cases h⟩
      next i hi =>
      obtain ⟨xs,tail,ys,rfl,hdrained,rfl,-⟩ := split_of_findIdx? hi
      have herase : (xs ++ tail :: ys).eraseIdx xs.length = xs ++ ys := by
        rw [eraseIdx_append_of_length_le le_rfl,Nat.sub_self,eraseIdx_cons_zero]
      rw [herase]
      have hlen : (xs ++ ys).length + 1 = (xs ++ tail :: ys).length := by simp; omega
      obtain ⟨hpending,hshort,hroom⟩ := ih (xs ++ ys) (by omega)
      refine ⟨fun e => ?_,by omega,hroom⟩
      rw [hpending,pendingIn_append,pendingIn_append,pendingIn_drained hdrained]
    · next hlt => exact ⟨fun _ => rfl,le_rfl,fun _ => not_le.mp hlt⟩

/-- A binding that ends is remembered, unless one of its endpoint is already, or there is no room
and attribution is lost. -/
theorem rememberDetachedTail_spec (hfew : s.detached.length ≤ mostDetachedTails) :
    (s.rememberDetachedTail e d g).domains = s.domains ∧
    (s.rememberDetachedTail e d g).detached.length ≤ mostDetachedTails ∧
    ((s.pending e ≠ none ∧ s.rememberDetachedTail e d g = s) ∨
      (s.pending e = none ∧ (s.rememberDetachedTail e d g).attributionLost ∧
        ∀ e', (s.rememberDetachedTail e d g).pending e' = s.pending e') ∨
      (s.pending e = none ∧ (s.rememberDetachedTail e d g).attributionLost = s.attributionLost ∧
        ∀ e', (s.rememberDetachedTail e d g).pending e' =
          if e' = e then some (d, g) else s.pending e')) := by
  rw [rememberDetachedTail]
  split
  · next hany =>
    refine ⟨rfl,hfew,.inl ⟨fun hnone => ?_,rfl⟩⟩
    rw [pendingIn_eq_none.mp hnone] at hany
    cases hany
  next hany =>
  have hnone : s.pending e = none := pendingIn_eq_none.mpr (Bool.eq_false_iff.mpr hany)
  split
  · -- a drained record of the endpoint is used again
    next i hi =>
    obtain ⟨xs,tail,ys,hsplit,hp,rfl,-⟩ := split_of_findIdx? hi
    simp only [Bool.and_eq_true,beq_iff_eq] at hp
    refine ⟨rfl,by rw [length_set]; exact hfew,.inr (.inr ⟨hnone,rfl,fun e' => ?_⟩)⟩
    have hset : s.detached.set xs.length ⟨e,d,g,0,false⟩ = xs ++ ⟨e,d,g,0,false⟩ :: ys := by
      rw [hsplit,set_append_right _ _ le_rfl,Nat.sub_self,set_cons_zero]
    have hold : ∀ e', s.pending e' = (pendingIn xs e').or (pendingIn ys e') := fun e' => by
      rw [pending,hsplit,pendingIn_append,pendingIn_drained hp.2]
    have hnone' := hnone
    rw [hold,or_eq_none_iff] at hnone'
    rw [pending,hset,pendingIn_append,pendingIn_cons]
    by_cases heq : e' = e
    · rw [if_pos heq,if_pos ⟨rfl,heq.symm⟩,heq,hnone'.1,none_or]
    · rw [if_neg heq,if_neg fun h => heq h.2.symm,hold]
  · obtain ⟨hpending,hshort,hroom⟩ := makeRoom_spec s.detached.length s.detached (by omega)
    split
    · next tails heq =>
      rw [heq] at hpending hshort
      exact ⟨rfl,hshort.trans hfew,.inr (.inl ⟨hnone,rfl,hpending⟩)⟩
    next tails heq =>
    rw [heq] at hpending hshort hroom
    refine ⟨rfl,?_,.inr (.inr ⟨hnone,rfl,fun e' => ?_⟩)⟩
    · rw [length_append]
      exact hroom rfl
    rw [pending,pendingIn_append,hpending,pendingIn_cons]
    change (s.pending e').or _ = _
    by_cases heq : e' = e
    · rw [if_pos heq,if_pos ⟨rfl,heq.symm⟩,heq,hnone,none_or]
    · rw [if_neg heq,if_neg fun h => heq h.2.symm,pendingIn_nil,or_none]

/-! ### The ledger and the queue -/

/-- The binding that the ledger would charge a record of the endpoint to is of this domain. -/
def Charged (s : Iommu) (t : Transport) (e : EndpointId) (d : DomainId) : Prop :=
  match s.pending e with
  | some binding => binding.1 = d
  | none => t.attached e = some d

/-- The ledger knows the binding of every queued record. `made` are the generations of the
domains created so far. -/
structure Attributes (made : DomainId → Generation) (s : Iommu) (t : Transport) : Prop where
  nonzero : ∀ d ∈ t.created, d ≠ 0
  known : ∀ d g, s.generation d = some g → d ∈ t.created ∧ made d = g
  home : ∀ e d, t.attached e = some d → e ∈ s.endpoints d
  ended : ∀ e d g, s.pending e = some (d, g) → d ∈ t.created ∧ made d = g ∧
    ∀ d', e ∉ s.endpoints d'
  queued : s.attributionLost = false → ∀ r ∈ t.records, ∀ d, r.raisedUnder = some d →
    Charged s t r.endpoint d
  few : s.detached.length ≤ mostDetachedTails

/-- Only records were added, each under the attachment of its endpoint. -/
structure Queues (t t' : Transport) : Prop where
  attached : t'.attached = t.attached
  created : t'.created = t.created
  sawEmpty : t'.sawEmpty = t.sawEmpty
  popped : t'.popped = t.popped
  queue : ∃ new, t'.queue = t.queue ++ new ∧
    ∀ r ∈ new.reduceOption, r.raisedUnder = t.attached r.endpoint

theorem Queues.refl (t : Transport) : Queues t t :=
  ⟨rfl,rfl,rfl,rfl,[],(append_nil _).symm,fun _ h => absurd h not_mem_nil⟩

theorem Queues.trans (h₁ : Queues t t') (h₂ : Queues t' t'') : Queues t t'' := by
  obtain ⟨new₁,hq₁,hr₁⟩ := h₁.queue
  obtain ⟨new₂,hq₂,hr₂⟩ := h₂.queue
  refine ⟨h₂.attached.trans h₁.attached,h₂.created.trans h₁.created,h₂.sawEmpty.trans h₁.sawEmpty,
    h₂.popped.trans h₁.popped,new₁ ++ new₂,by rw [hq₂,hq₁,append_assoc],fun r hr => ?_⟩
  rw [reduceOption_append,mem_append] at hr
  rcases hr with hr | hr
  · exact hr₁ r hr
  · rw [hr₂ r hr,h₁.attached]

theorem queues_of_raises (h : Relation.ReflTransGen Transport.Raises t t') : Queues t t' := by
  induction h with
  | refl => exact Queues.refl t
  | tail _ hr ih =>
    refine ih.trans ?_
    cases hr with
    | record e address access reason =>
      refine ⟨rfl,rfl,rfl,rfl,_,rfl,fun r hr => ?_⟩
      obtain rfl := mem_singleton.mp hr
      rfl
    | malformed => exact ⟨rfl,rfl,rfl,rfl,[none],rfl,fun _ h => absurd h not_mem_nil⟩

namespace Attributes

variable (ha : Attributes made s t)
include ha

theorem queues (hq : Queues t t') : Attributes made s t' := by
  obtain ⟨new,hqueue,hnew⟩ := hq.queue
  refine ⟨hq.created ▸ ha.nonzero,hq.created ▸ ha.known,hq.attached ▸ ha.home,hq.created ▸ ha.ended,
    fun hlost r hr d hd => ?_,ha.few⟩
  have hcharged : Charged s t r.endpoint d := by
    rw [Transport.records,hqueue,reduceOption_append,mem_append] at hr
    rcases hr with hr | hr
    · exact ha.queued hlost r hr d hd
    have hatt : t.attached r.endpoint = some d := (hnew r hr).symm.trans hd
    rw [Charged]
    split
    · next binding hp =>
      exact absurd (ha.home _ _ hatt) ((ha.ended _ _ _ hp).2.2 d)
    · exact hatt
  rwa [Charged,hq.attached]

theorem mono (hgen : ∀ d g, s'.generation d = some g → s.generation d = some g)
    (hends : ∀ d, s'.endpoints d = s.endpoints d) (htails : ∀ e, s'.pending e = s.pending e)
    (hlost : s'.attributionLost = s.attributionLost)
    (hfew : s'.detached.length ≤ mostDetachedTails) (hatt : t'.attached = t.attached)
    (hcreated : t'.created = t.created) (hrecords : t'.records ⊆ t.records) :
    Attributes made s' t' := by
  refine ⟨hcreated ▸ ha.nonzero,fun d g hg => ?_,fun e d hd => ?_,fun e d g hp => ?_,
    fun hl r hr d hd => ?_,hfew⟩
  · rw [hcreated]
    exact ha.known d g (hgen d g hg)
  · rw [hends]
    exact ha.home e d (hatt ▸ hd)
  · obtain ⟨hc,hmade,hno⟩ := ha.ended e d g (htails e ▸ hp)
    exact ⟨hcreated ▸ hc,hmade,fun d' => hends d' ▸ hno d'⟩
  · rw [Charged,htails,hatt]
    exact ha.queued (hlost ▸ hl) r (hrecords hr) d hd

end Attributes

/-- What a call leaves of it: the generations known before are unchanged, and an endpoint is
attached to another domain only when no record of an earlier binding of it is queued. -/
structure Attributed (made : DomainId → Generation) (t : Transport) (s' : Iommu)
    (t' : Transport) : Prop where
  attributes : ∃ made', (∀ d ∈ t.created, made' d = made d) ∧ Attributes made' s' t'
  created : t.created ⊆ t'.created
  attached : ∀ e d, t'.attached e = some d → t.attached e = some d ∨
    ∀ r ∈ t.records, r.endpoint = e → r.raisedUnder = none

theorem Attributes.attributed (ha : Attributes made s' t') (hc : t'.created = t.created)
    (hatt : ∀ e d, t'.attached e = some d → t.attached e = some d) : Attributed made t s' t' :=
  ⟨⟨made,fun _ _ => rfl,ha⟩,hc.ge,fun e d h => .inl (hatt e d h)⟩

theorem Attributes.attributed_of_queues (ha : Attributes made s' t') (hq : Queues t t') :
    Attributed made t s' t' :=
  ha.attributed hq.created fun _ _ h => hq.attached ▸ h

def FailsAttributed (made : DomainId → Generation) (t : Transport) (e : Halt) (s' : Iommu)
    (t' : Transport) : Prop :=
  e = .panic ∨ Attributed made t s' t'

theorem Queues.records_subset (hq : Queues t t') : t.records ⊆ t'.records := by
  obtain ⟨new,hqueue,-⟩ := hq.queue
  rw [Transport.records,Transport.records,hqueue,reduceOption_append]
  exact subset_append_left _ _

theorem Attributed.of_queues (hq : Queues t t')
    (h : Attributed made t' s' t'') : Attributed made t s' t'' := by
  obtain ⟨⟨made',hagree,ha⟩,hsub,hatt⟩ := h
  rw [hq.created] at hagree hsub
  refine ⟨⟨made',hagree,ha⟩,hsub,fun e d hd => ?_⟩
  rcases hatt e d hd with h | h
  · exact .inl (hq.attached ▸ h)
  · exact .inr fun r hr => h r (hq.records_subset hr)

/-! ### Requests -/

def Request.quiet : Request → Bool
  | .map .. | .unmap .. | .invalidate _ | .tryReserve => true
  | _ => false

theorem queues_of_quiet {r : Request} {ans : r.Answer} (hr : r.quiet)
    (he : transport cuts t r ans t') : Queues t t' := by
  obtain ⟨raised,hraised,heff⟩ := he
  cases r
  case map | unmap | invalidate | tryReserve =>
    rw [show t' = raised from heff]
    exact queues_of_raises hraised
  all_goals cases hr

/-! ### Domains -/

section

variable (ha : Attributes made s t)
include ha

theorem Attributes.create (hc : t.Creates d t') :
    Attributes (update made d g) s t' ∧ ∀ d' ∈ t.created, update made d g d' = made d' := by
  obtain ⟨hzero,hfresh,rfl⟩ := hc
  have hsame : ∀ d' ∈ t.created, update made d g d' = made d' := by
    intro d' hd'
    have hne : d' ≠ d := fun heq => hfresh (heq ▸ hd')
    exact update_of_ne hne g made
  refine ⟨⟨?_,fun d' g' hg => ?_,ha.home,fun e d' g' hp => ?_,ha.queued,ha.few⟩,hsame⟩
  · rintro d' (rfl | hd')
    · exact hzero
    · exact ha.nonzero d' hd'
  · obtain ⟨hc,hmade⟩ := ha.known d' g' hg
    exact ⟨Set.mem_insert_of_mem d hc,(hsame d' hc).trans hmade⟩
  · obtain ⟨hc,hmade,hends⟩ := ha.ended e d' g' hp
    exact ⟨Set.mem_insert_of_mem d hc,(hsame d' hc).trans hmade,hends⟩

theorem Attributes.insertDomain (hc : d ∈ t.created) (hgen : made d = state.generation)
    (hempty : state.endpoints = []) (hfresh : s.domains.get? d = none) :
    Attributes made { s with domains := s.domains.insert d state } t := by
  have hends : ∀ d', ({ s with domains := s.domains.insert d state } : Iommu).endpoints d' =
      s.endpoints d' := fun d' => by
    rw [endpoints,get?_insert]
    split
    · next heq => rw [heq,endpoints,hfresh,map_some,hempty]; rfl
    · rfl
  refine ⟨ha.nonzero,fun d' g' hg => ?_,fun e d' hatt => ?_,fun e d' g' hp => ?_,ha.queued,ha.few⟩
  · rw [generation,get?_insert] at hg
    split at hg
    · next heq =>
      cases hg
      exact heq ▸ ⟨hc,hgen⟩
    · exact ha.known d' g' hg
  · rw [hends]
    exact ha.home e d' hatt
  · obtain ⟨hc',hmade,hno⟩ := ha.ended e d' g' hp
    exact ⟨hc',hmade,fun d'' => hends d'' ▸ hno d''⟩

theorem createDomain_attributes {base len : ℕ} {reserved : List Reserved} :
    wp (transport cuts) anyway (createDomain base len reserved g)
      (fun _ s' t' => Attributed made t s' t') (FailsAttributed made t) s t := by
  simp only [createDomain,wp_bind]
  refine wp_request fun ans t' he => ?_
  obtain ⟨raised,hraised,heff⟩ := he
  have hq := queues_of_raises hraised
  have ha₁ := ha.queues hq
  have hcreate : ∀ d, raised.Creates d t' → Attributes (update made d g) s t' ∧
      ∀ s', Attributes (update made d g) s' t' → Attributed made t s' t' := by
    intro d hc
    obtain ⟨ha₂,hagree⟩ := ha₁.create hc (g := g)
    obtain ⟨-,-,rfl⟩ := hc
    refine ⟨ha₂,fun s' ha' => Attributed.of_queues hq ⟨⟨_,hagree,ha'⟩,?_,?_⟩⟩
    · exact Set.subset_insert d _
    · exact fun e d' h => .inl h
  rcases ans with reason | d
  · rcases heff with rfl | ⟨d,hc⟩
    · exact .inr (ha₁.attributed_of_queues hq)
    · exact .inr ((hcreate d hc).2 s (hcreate d hc).1)
  have hnone : s.domains.get? d = none := eq_none_iff_forall_ne_some.mpr fun state hstate =>
    heff.2.1 (ha₁.known d state.generation (by rw [generation,hstate]; rfl)).1
  obtain ⟨ha₂,hdone⟩ := hcreate d heff
  refine hdone _ (ha₂.insertDomain ?_ (update_self d g made) rfl hnone)
  rw [heff.2.2]
  exact Set.mem_insert d _

theorem destroyDomain_attributes :
    wp (transport cuts) anyway (destroyDomain d)
      (fun _ s' t' => Attributed made t s' t') (FailsAttributed made t) s t := by
  have hsame : Attributed made t s t := ha.attributed_of_queues (Queues.refl t)
  simp only [destroyDomain,wp_bind,wp_get,wp_ensure]
  refine wp_orThrow (fun state hstate => ?_) fun _ => .inr hsame
  split
  · next hempty =>
    have hends : s.endpoints d = [] := by
      rw [endpoints_of_get? hstate,isEmpty_iff.mp hempty]
    split
    · refine wp_request fun ans t' he => ?_
      obtain ⟨raised,hraised,heff⟩ := he
      have hq := queues_of_raises hraised
      have ha₁ := ha.queues hq
      -- no endpoint is attached to it, so that the request changes nothing
      have hnone : ∀ e, raised.attached e ≠ some d := by
        intro e hatt
        have hmem := ha₁.home e d hatt
        rw [hends] at hmem
        cases hmem
      rcases ans with reason | _
      · obtain ⟨attached,hatt,rfl⟩ := heff
        obtain rfl : attached = raised.attached := by
          funext e
          exact (hatt e).resolve_right fun h => hnone e h.1
        exact .inr (ha₁.attributed_of_queues hq)
      obtain rfl := heff
      have hsame : (fun e => if raised.attached e = some d then none else raised.attached e) =
          raised.attached := by
        funext e
        exact if_neg (hnone e)
      rw [hsame]
      refine Attributes.attributed_of_queues (ha₁.mono (fun d' g hg => ?_) (fun d' => ?_)
        (fun _ => rfl) rfl ha.few rfl rfl (List.Subset.refl _)) hq
      · rw [generation,get?_erase] at hg
        split at hg
        · cases hg
        · exact hg
      · rw [endpoints,get?_erase]
        split
        · next heq => rw [heq,hends]; rfl
        · rfl
    · exact .inr hsame
  · exact .inr hsame

end

/-! ### Binding an endpoint -/

theorem mayAttach_eq_true (h : s.mayAttach e) :
    s.attributionLost = false ∧ s.pending e = none ∧ ∀ d, e ∉ s.endpoints d := by
  simp only [mayAttach,Bool.not_eq_true',Bool.or_eq_false_iff] at h
  obtain ⟨⟨hlost,htails⟩,hends⟩ := h
  refine ⟨hlost,pendingIn_eq_none.mpr htails,fun d hd => ?_⟩
  obtain ⟨state,hstate,hmem⟩ := mem_endpoints hd
  have hno := any_eq_false.mp hends state (mem_values.mpr ⟨d,hstate⟩)
  exact hno (contains_iff_mem.mpr hmem)

namespace Attributes

variable (ha : Attributes made s t) (hmay : s.mayAttach e)
include ha hmay

theorem unbound : t.attached e = none ∧ ∀ r ∈ t.records, r.endpoint = e → r.raisedUnder = none := by
  obtain ⟨hlost,hpending,hends⟩ := mayAttach_eq_true hmay
  have hatt : t.attached e = none := eq_none_iff_forall_ne_some.mpr fun d hd =>
    hends d (ha.home e d hd)
  refine ⟨hatt,?_⟩
  rintro r hr rfl
  refine eq_none_iff_forall_ne_some.mpr fun d hd => ?_
  have hcharged := ha.queued hlost r hr d hd
  rw [Charged,hpending,hatt] at hcharged
  cases hcharged

theorem bind {state : DomainState}
    (hstate : s.domains.get? d = some state) {f : DomainState → DomainState}
    (hf : ∀ state, (f state).endpoints = state.endpoints ++ [e])
    (hg : ∀ state, (f state).generation = state.generation) (ht : t' = t ∨ t' = t.attach d e) :
    Attributes made (s.setDomain d f) t' := by
  obtain ⟨hlost,hpending,-⟩ := mayAttach_eq_true hmay
  obtain ⟨hnone,hstale⟩ := ha.unbound hmay
  have hends : ∀ d', (s.setDomain d f).endpoints d' =
      if d' = d then s.endpoints d ++ [e] else s.endpoints d' := fun d' => by
    rw [endpoints_setDomain,hstate,map_some,hf,getD_some,endpoints_of_get? hstate]
  have hother : ∀ e', e' ≠ e → t'.attached e' = t.attached e' := by
    intro e' hne
    rcases ht with rfl | rfl
    · rfl
    · exact t.attached_attach_of_ne d hne
  have hqueue : t'.created = t.created ∧ t'.records = t.records := by
    rcases ht with rfl | rfl <;> exact ⟨rfl,rfl⟩
  refine ⟨hqueue.1 ▸ ha.nonzero,fun d' g hg' => ?_,fun e' d' hatt => ?_,fun e' d' g hp => ?_,
    fun _ r hr d' hd' => ?_,ha.few⟩
  · rw [generation_setDomain hg] at hg'
    rw [hqueue.1]
    exact ha.known d' g hg'
  · rw [hends]
    by_cases heq : e' = e
    · subst heq
      rcases ht with rfl | rfl
      · rw [hnone] at hatt
        cases hatt
      · rw [Transport.attached_attach] at hatt
        rw [if_pos (some.inj hatt).symm]
        exact mem_append_right _ mem_cons_self
    · have hmem := ha.home e' d' (hother e' heq ▸ hatt)
      split
      · next hd => exact mem_append_left _ (hd ▸ hmem)
      · exact hmem
  · obtain ⟨hc,hmade,hno⟩ := ha.ended e' d' g hp
    refine ⟨hqueue.1 ▸ hc,hmade,fun d'' => ?_⟩
    rw [hends]
    split
    · intro hmem
      rcases mem_append.mp hmem with hmem | hmem
      · exact hno d hmem
      obtain rfl := mem_singleton.mp hmem
      change s.pending e' = _ at hp
      rw [hpending] at hp
      cases hp
    · exact hno d''
  · rw [hqueue.2] at hr
    have hne : r.endpoint ≠ e := by
      intro heq
      rw [hstale r hr heq] at hd'
      cases hd'
    have hcharged := ha.queued hlost r hr d' hd'
    rw [Charged,← hother _ hne] at hcharged
    exact hcharged

end Attributes

theorem attach_attributes (ha : Attributes made s t) :
    wp (transport cuts) anyway (attach d e)
      (fun _ s' t' => Attributed made t s' t') (FailsAttributed made t) s t := by
  have hsame : Attributed made t s t := ha.attributed_of_queues (Queues.refl t)
  simp only [attach,wp_bind,wp_get,wp_ensure]
  split
  · next hmay =>
    refine wp_orThrow (fun state hstate => ?_) fun _ => .inr hsame
    refine wp_request fun room t₁ he₁ => ?_
    have hq₁ := queues_of_quiet rfl he₁
    have ha₁ := ha.queues hq₁
    split
    · refine wp_request fun ans t' he => ?_
      obtain ⟨raised,hraised,heff⟩ := he
      have hq₂ := queues_of_raises hraised
      have ha₂ := ha₁.queues hq₂
      have hq := hq₁.trans hq₂
      have hbind : (t' = raised ∨ t' = raised.attach d e) → ∀ s', Attributes made s' t' →
          Attributed made t s' t' := by
        intro ht s' ha'
        refine Attributed.of_queues hq ⟨⟨made,fun _ _ => rfl,ha'⟩,?_,fun e' d' hatt => ?_⟩
        · rcases ht with rfl | rfl <;> exact subset_rfl
        by_cases heq : e' = e
        · exact .inr (heq ▸ (ha₂.unbound hmay).2)
        refine .inl ?_
        rcases ht with rfl | rfl
        · exact hatt
        · rwa [raised.attached_attach_of_ne d heq] at hatt
      rcases ans with reason | _
      · cases reason
        case unconfirmed =>
          exact .inr (hbind heff _ (ha₂.bind hmay hstate (fun _ => rfl) (fun _ => rfl) heff))
        all_goals
          obtain rfl := heff
          exact .inr (ha₂.attributed_of_queues hq)
      · refine hbind (.inr heff) _ ?_
        exact ha₂.bind hmay hstate (fun _ => rfl) (fun _ => rfl) (.inr heff)
    · exact .inr (ha₁.attributed_of_queues hq₁)
  · exact .inr hsame

/-! ### Revoking an endpoint -/

/-- Nothing that the ledger knows of bindings is changed. -/
structure SameBindings (s s' : Iommu) : Prop where
  generation : ∀ d, s'.generation d = s.generation d
  endpoints : ∀ d, s'.endpoints d = s.endpoints d
  pending : ∀ e, s'.pending e = s.pending e
  lost : s'.attributionLost = s.attributionLost
  tails : s'.detached.length = s.detached.length

theorem SameBindings.refl (s : Iommu) : SameBindings s s :=
  ⟨fun _ => rfl,fun _ => rfl,fun _ => rfl,rfl,rfl⟩

theorem SameBindings.trans {s'' : Iommu} (h₁ : SameBindings s s') (h₂ : SameBindings s' s'') :
    SameBindings s s'' :=
  ⟨fun d => (h₂.generation d).trans (h₁.generation d),
    fun d => (h₂.endpoints d).trans (h₁.endpoints d),fun e => (h₂.pending e).trans (h₁.pending e),
    h₂.lost.trans h₁.lost,h₂.tails.trans h₁.tails⟩

theorem sameBindings_setDomain (hends : ∀ state, (f state).endpoints = state.endpoints)
    (hg : ∀ state, (f state).generation = state.generation) : SameBindings s (s.setDomain d f) := by
  refine ⟨generation_setDomain hg,fun d' => ?_,fun _ => rfl,rfl,rfl⟩
  rw [endpoints_setDomain]
  split
  · next heq => simp only [hends,heq,endpoints]
  · rfl

theorem sameBindings_setSpace {space : IovaSpace} : SameBindings s (s.setSpace d space) :=
  sameBindings_setDomain (fun _ => rfl) fun _ => rfl

theorem sameBindings_setMapping {id : MappingId} {f : Mapping → Mapping} :
    SameBindings s (s.setMapping id f) :=
  ⟨fun _ => rfl,fun _ => rfl,fun _ => rfl,rfl,rfl⟩

theorem unmapEach_queues {ids : List MappingId} :
    wp (transport cuts) anyway (unmapEach ids) (fun _ s' t' => s' = s ∧ Queues t t')
      (fun e _ _ => e = .panic) s t := by
  induction ids generalizing t with
  | nil => exact ⟨rfl,Queues.refl t⟩
  | cons id rest ih =>
    simp only [unmapEach,wp_bind,wp_get,wp_pure]
    refine wp_orThrow (fun m hm => ?_) fun _ => rfl
    refine wp_request fun ans t₁ he => ?_
    have hq := queues_of_quiet rfl he
    exact ih.mono (fun _ s' t' hr => ⟨hr.1,hq.trans hr.2⟩) fun _ _ _ hr => hr

theorem settleEach_sameBindings {gone : Bool} {us : List (MappingId × Bool)} :
    wp (transport cuts) anyway (settleEach d gone us)
      (fun _ s' t' => SameBindings s s' ∧ t' = t) (fun e _ _ => e = .panic) s t := by
  induction us generalizing s with
  | nil => exact ⟨SameBindings.refl s,rfl⟩
  | cons u rest ih =>
    simp only [settleEach,wp_bind,wp_get,wp_modify]
    refine wp_orThrow (fun m hm => ?_) fun _ => rfl
    refine wp_orThrow (fun state hstate => ?_) fun _ => rfl
    split
    · simp only [wp_bind,wp_modify,wp_pure]
      exact ih.mono (fun _ s' t' hr =>
        ⟨(sameBindings_setMapping.trans sameBindings_setSpace).trans hr.1,hr.2⟩)
        fun _ _ _ hr => hr
    · simp only [wp_bind,wp_pure]
      exact ih.mono (fun _ s' t' hr => ⟨sameBindings_setMapping.trans hr.1,hr.2⟩) fun _ _ _ hr => hr

namespace Attributes

theorem unbind (ha : Attributes made s t) (hown : ∀ d', e ∈ s.endpoints d' → d' = d)
    (hstate : s.domains.get? d = some state) (hsame : SameBindings (s.setDomain d f) s')
    (hf : ∀ state, (f state).endpoints = state.endpoints.filter fun e' => e' != e)
    (hg : ∀ state, (f state).generation = state.generation) :
    Attributes made (s'.rememberDetachedTail e d state.generation) (t.cut d e) := by
  have hpending : ∀ e', s'.pending e' = s.pending e' := hsame.pending
  have hlost : s'.attributionLost = s.attributionLost := hsame.lost
  obtain ⟨hdomains,hfew,hcase⟩ := rememberDetachedTail_spec (hsame.tails.le.trans ha.few)
  generalize s'.rememberDetachedTail e d state.generation = s'' at *
  have hgens' : ∀ d', s''.generation d' = s.generation d' := fun d' => by
    rw [generation,hdomains]
    exact (hsame.generation d').trans (generation_setDomain hg d')
  have hends' : ∀ e' d', e' ∈ s''.endpoints d' ↔ e' ≠ e ∧ e' ∈ s.endpoints d' := by
    intro e' d'
    have heq : s''.endpoints d' = s'.endpoints d' := by
      rw [endpoints,hdomains]
      rfl
    rw [heq,hsame.endpoints,endpoints_setDomain]
    split
    · next hd => simp [hd,hstate,hf,endpoints_of_get? hstate,and_comm]
    next hd =>
    refine ⟨fun hmem => ⟨?_,hmem⟩,fun h => h.2⟩
    rintro rfl
    exact hd (hown d' hmem)
  -- cut off from its own domain, the endpoint is attached to none
  have hcut : (t.cut d e).attached e = none := by
    rw [Transport.cut]
    dsimp only
    split
    · rfl
    · next hno =>
      refine eq_none_iff_forall_ne_some.mpr fun d' hd' => ?_
      exact hno ⟨rfl,(hown d' (ha.home e d' hd')) ▸ hd'⟩
  have hother : ∀ e', e' ≠ e → (t.cut d e).attached e' = t.attached e' :=
    fun e' hne => if_neg fun h => hne h.1
  have hhome : ∀ e' d', (t.cut d e).attached e' = some d' → e' ∈ s''.endpoints d' := by
    intro e' d' hatt
    by_cases heq : e' = e
    · rw [heq,hcut] at hatt
      cases hatt
    · rw [hother e' heq] at hatt
      exact (hends' e' d').mpr ⟨heq,ha.home e' d' hatt⟩
  have hknown : ∀ d' g', s''.generation d' = some g' → d' ∈ t.created ∧ made d' = g' :=
    fun d' g' hg' => ha.known d' g' (hgens' d' ▸ hg')
  have hended : ∀ e' d' g', s.pending e' = some (d', g') → d' ∈ t.created ∧ made d' = g' ∧
      ∀ d'', e' ∉ s''.endpoints d'' := by
    intro e' d' g' hp
    obtain ⟨hc,hmade,hno⟩ := ha.ended e' d' g' hp
    exact ⟨hc,hmade,fun d'' hmem => hno d'' ((hends' e' d'').mp hmem).2⟩
  have hcharge : ∀ e' d', e' ≠ e → s''.pending e' = s.pending e' → Charged s t e' d' →
      Charged s'' (t.cut d e) e' d' := by
    intro e' d' hne hp hc
    rwa [Charged,hp,hother e' hne]
  rcases hcase with ⟨hsome,rfl⟩ | ⟨-,hlost',hpend⟩ | ⟨hnone,hlost',hpend⟩
  · -- an earlier binding of the endpoint is pending still: this one has raised nothing
    refine ⟨ha.nonzero,hknown,hhome,fun e' d' g' hp => hended e' d' g' (hpending e' ▸ hp),
      fun hl r hr d' hd' => ?_,hfew⟩
    have hc := ha.queued (hlost ▸ hl) r hr d' hd'
    by_cases heq : r.endpoint = e
    · rw [hpending] at hsome
      obtain ⟨binding,hb⟩ := ne_none_iff_exists'.mp hsome
      rw [Charged,heq,hb] at hc
      rw [Charged,heq,hpending,hb]
      exact hc
    · exact hcharge r.endpoint d' heq (hpending _) hc
  · refine ⟨ha.nonzero,hknown,hhome,fun e' d' g' hp => ?_,fun hl => ?_,hfew⟩
    · exact hended e' d' g' (hpending e' ▸ hpend e' ▸ hp)
    · rw [hlost'] at hl
      cases hl
  · refine ⟨ha.nonzero,hknown,hhome,fun e' d' g' hp => ?_,fun hl r hr d' hd' => ?_,hfew⟩
    · rw [hpend] at hp
      split at hp
      · next heq =>
        cases hp
        obtain ⟨hc,hmade⟩ := ha.known d _ (by rw [generation,hstate]; rfl)
        exact ⟨hc,hmade,fun d'' hmem => ((hends' e' d'').mp hmem).1 heq⟩
      · exact hended e' d' g' (hpending e' ▸ hp)
    · have hc := ha.queued (hlost ▸ hlost' ▸ hl) r hr d' hd'
      by_cases heq : r.endpoint = e
      · -- what it has raised, it has raised under its own domain
        rw [Charged,heq,← hpending,hnone] at hc
        rw [Charged,heq,hpend,if_pos rfl]
        exact (hown d' (ha.home e d' hc)).symm
      · refine hcharge r.endpoint d' heq ?_ hc
        rw [hpend,if_neg heq,hpending]

end Attributes

theorem revokeEndpoint_attributes (ha : Attributes made s t)
    (hown : ∀ d', e ∈ s.endpoints d' → d' = d) :
    wp (transport true) anyway (revokeEndpoint d e)
      (fun _ s' t' => Attributed made t s' t') (FailsAttributed made t) s t := by
  simp only [revokeEndpoint,wp_bind,wp_get,wp_modify,wp_pure]
  refine unmapEach_queues.mono (fun us s₁ t₁ hr => ?_) fun _ _ _ hr => .inl hr
  obtain ⟨rfl,hq₁⟩ := hr
  refine wp_request fun invalidated t₂ he₂ => ?_
  have hq₂ := hq₁.trans (queues_of_quiet rfl he₂)
  refine wp_request fun detached t' he => ?_
  obtain ⟨raised,hraised,heff⟩ := he
  have hq := hq₂.trans (queues_of_raises hraised)
  have ha₁ := ha.queues hq
  obtain rfl : t' = raised.cut d e := by
    rcases detached with _ | _
    · exact heff.resolve_right fun h => by cases h.1
    · exact heff
  have hdone : ∀ s', Attributes made s' (raised.cut d e) →
      Attributed made t s' (raised.cut d e) := by
    refine fun s' ha' => Attributed.of_queues hq (ha'.attributed rfl fun e' d' hatt => ?_)
    rw [Transport.cut] at hatt
    dsimp only at hatt
    split at hatt
    · cases hatt
    · exact hatt
  refine wp_orThrow (fun state hstate => ?_) fun hnone => .inr (hdone s₁ ?_)
  · refine settleEach_sameBindings.mono (fun all s₂ t₂ hr => ?_) fun _ _ _ hr => .inl hr
    obtain ⟨hsame,rfl⟩ := hr
    exact hdone _ (ha₁.unbind hown hstate hsame (fun _ => rfl) fun _ => rfl)
  · -- there is no such domain, and nothing to cut
    have hempty : s₁.endpoints d = [] := by
      rw [endpoints,hnone]
      rfl
    have hatt : (raised.cut d e).attached = raised.attached := by
      funext e'
      refine if_neg fun h => ?_
      have hmem := ha₁.home e' d h.2
      rw [hempty] at hmem
      cases hmem
    exact ha₁.mono (fun _ _ h => h) (fun _ => rfl) (fun _ => rfl) rfl ha₁.few hatt rfl
      (List.Subset.refl _)

/-! ### Draining -/

section Draining

variable (teardown : Teardown) (event : FaultEvent)

/-- The binding that an event is charged to. -/
def Iommu.chargedTo (s : Iommu) (teardown : Teardown)
    (event : FaultEvent) : FaultEvent :=
  match s.pending event.endpoint with
  | some (d, g) => { event with domain := d, generation := g }
  | none => s.resolve teardown event

theorem stamp_eq : s.stamp event = match s.generation event.domain with
      | some g => { event with generation := g }
      | none => event := by
  rw [stamp,generation]
  cases s.domains.get? event.domain <;> rfl

theorem SameBindings.chargedTo (h : SameBindings s s') :
    s'.chargedTo teardown event = s.chargedTo teardown event := by
  have hstamp : s'.stamp event = s.stamp event := by rw [stamp_eq,stamp_eq,h.generation]
  simp only [Iommu.chargedTo,h.pending,Iommu.resolve,hstamp]

theorem chargedTo_same : (s.chargedTo teardown event).endpoint = event.endpoint ∧
      (s.chargedTo teardown event).address = event.address ∧
      (s.chargedTo teardown event).access = event.access ∧
      (s.chargedTo teardown event).reason = event.reason := by
  have hstamp : (s.stamp event).endpoint = event.endpoint ∧
      (s.stamp event).address = event.address ∧ (s.stamp event).access = event.access ∧
      (s.stamp event).reason = event.reason := by
    rw [stamp_eq]
    split <;> exact ⟨rfl,rfl,rfl,rfl⟩
  rw [chargedTo]
  split
  · exact ⟨rfl,rfl,rfl,rfl⟩
  cases teardown with
  | none => exact hstamp
  | some known =>
    simp only [resolve]
    split <;> exact hstamp

theorem attribute_spec : (s.attribute teardown event).1 = s.chargedTo teardown event ∧
      SameBindings s (s.attribute teardown event).2 ∧
      (s.attribute teardown event).2.faults = s.faults.record (s.chargedTo teardown event) := by
  rw [Iommu.attribute]
  split
  · next i hi =>
    obtain ⟨xs,tail,ys,hsplit,hp,rfl,hbefore⟩ := split_of_findIdx? hi
    have hget : s.detached.getD xs.length ⟨0,0,0,0,true⟩ = tail := by
      rw [hsplit,getD_eq_getElem?_getD,getElem?_append_right le_rfl,Nat.sub_self]
      rfl
    have hset : ∀ a, s.detached.set xs.length a = xs ++ a :: ys := fun a => by
      rw [hsplit,set_append_right _ _ le_rfl,Nat.sub_self,set_cons_zero]
    have hpending : s.pending event.endpoint = some (tail.domain, tail.generation) := by
      have hxs : pendingIn xs event.endpoint = none := by
        rw [pendingIn,map_eq_none_iff,find?_eq_none]
        exact fun b hb => Bool.eq_false_iff.mp (hbefore b hb)
      simp only [Bool.and_eq_true,Bool.not_eq_true',beq_iff_eq] at hp
      rw [pending,hsplit,pendingIn_append,hxs,none_or,pendingIn_cons,if_pos hp]
    have hcharged : s.chargedTo teardown event =
        { event with domain := tail.domain, generation := tail.generation } := by
      rw [chargedTo,hpending]
    rw [hget,hcharged]
    refine ⟨rfl,⟨fun _ => rfl,fun _ => rfl,fun e => ?_,rfl,length_set⟩,rfl⟩
    change pendingIn (s.detached.set xs.length _) e = pendingIn s.detached e
    rw [hset,hsplit,pendingIn_append,pendingIn_append,pendingIn_cons,pendingIn_cons]
  · next hnone =>
    have hpending : s.pending event.endpoint = none := by
      rw [pending,pendingIn,map_eq_none_iff,find?_eq_none]
      intro tail htail
      exact Bool.eq_false_iff.mp (findIdx?_eq_none_iff.mp hnone tail htail)
    rw [chargedTo,hpending]
    obtain ⟨hgen,hends,hpend,hlost,htails⟩ := sameBindings_setDomain
      (f := fun state => { state with faults := saturatingAdd state.faults 1 })
      (fun _ => rfl) fun _ => rfl
    exact ⟨rfl,⟨hgen,hends,hpend,hlost,htails⟩,rfl⟩

theorem attributeAll_spec (events : List FaultEvent) :
    (s.attributeAll teardown events).1 = events.map (s.chargedTo teardown) ∧
      SameBindings s (s.attributeAll teardown events).2 ∧
      (s.attributeAll teardown events).2.faults =
        (events.map (s.chargedTo teardown)).foldl FaultLog.record s.faults := by
  induction events generalizing s with
  | nil => exact ⟨rfl,SameBindings.refl s,rfl⟩
  | cons event rest ih =>
    obtain ⟨hevent,hsame,hlog⟩ := attribute_spec teardown event
    obtain ⟨hevents,hsame',hlog'⟩ := ih
    have hmap : rest.map ((s.attribute teardown event).2.chargedTo teardown) =
        rest.map (s.chargedTo teardown) :=
      map_congr_left fun ev _ => hsame.chargedTo teardown ev
    rw [hmap] at hevents hlog'
    rw [attributeAll]
    refine ⟨?_,hsame.trans hsame',?_⟩
    · dsimp only
      rw [hevent,hevents,map_cons]
    · rw [hlog',hlog,map_cons,foldl_cons]

theorem Attributes.chargedTo (ha : Attributes made s t) (hlost : s.attributionLost = false)
    {r : Record} (hr : r ∈ t.records) (hd : r.raisedUnder = some d) :
    s.chargedTo teardown (t.report r) = { t.report r with domain := d, generation := made d } := by
  have hcharged := ha.queued hlost r hr d hd
  rw [Charged] at hcharged
  rw [Iommu.chargedTo]
  have hend : (t.report r).endpoint = r.endpoint := rfl
  rw [hend]
  split at hcharged
  · next binding hp =>
    obtain ⟨d',g⟩ := binding
    obtain rfl : d' = d := hcharged
    rw [hp,(ha.ended _ _ _ hp).2.1]
    rfl
  next hp =>
  rw [hp]
  have hdomain : (t.report r).domain = d := by rw [Transport.report,hcharged]; rfl
  obtain ⟨state,hstate,-⟩ := mem_endpoints (ha.home _ _ hcharged)
  have hg : s.generation d = some state.generation := by rw [Iommu.generation,hstate]; rfl
  obtain ⟨hc,hmade⟩ := ha.known d _ hg
  have hstamp : s.stamp (t.report r) = { t.report r with domain := d, generation := made d } := by
    rw [stamp_eq,hdomain,hg,hmade,← hdomain]
  simp only [Iommu.resolve,hstamp]
  cases teardown with
  | none => rfl
  | some known => exact if_neg fun h => ha.nonzero d hc h.2

/-- The transport is drained: what is queued since is charged to attachments. -/
theorem Attributes.dry (ha : Attributes made s t)
    (hnew : ∀ r ∈ t.records, r.raisedUnder = t.attached r.endpoint) :
    Attributes made { s with
      detached := s.detached.map fun tail => { tail with drained := true }
      attributionLost := false } t := by
  refine ⟨ha.nonzero,ha.known,ha.home,fun e d g hp => ?_,fun _ r hr d hd => ?_,?_⟩
  · cases hp.symm.trans pendingIn_map_drained
  · rw [Charged,pending,pendingIn_map_drained]
    exact (hnew r hr).symm.trans hd
  · rw [length_map]
    exact ha.few

structure Drained (made : DomainId → Generation) (s : Iommu) (t : Transport)
    (events : List FaultEvent) (s' : Iommu) (t' : Transport) : Prop where
  attributed : Attributed made t s' t'
  recorded : s'.faults = events.foldl FaultLog.record s.faults
  charged : s.attributionLost = false → List.Forall₂ (fun event r =>
    event.endpoint = r.endpoint ∧ event.address = r.address ∧ event.access = r.access ∧
      event.reason = r.reason ∧ ∀ d, r.raisedUnder = some d →
        event.domain = d ∧ event.generation = made d) events t'.popped

theorem drainFaultsDuring_attributes (ha : Attributes made s t) (room : ℕ) :
    wp (transport cuts) anyway (drainFaultsDuring room teardown)
      (Drained made s t) (FailsAttributed made t) s t := by
  simp only [drainFaultsDuring,wp_bind,wp_get,wp_set,wp_ite,wp_modify,wp_pure]
  refine wp_request fun events t₁ he₁ => ?_
  obtain ⟨raised,hraised,front,rest,hqueue,-,rfl,sawEmpty,hempty,rfl⟩ := he₁
  have hq := queues_of_raises hraised
  have ha₁ := ha.queues hq
  obtain ⟨hevents,hsame,hlog⟩ := attributeAll_spec teardown (front.reduceOption.map raised.report)
  have hrecords : raised.records = front.reduceOption ++ rest.reduceOption := by
    rw [Transport.records,hqueue,reduceOption_append]
  refine wp_request fun emptied t₂ he₂ => ?_
  obtain ⟨raised₂,hraised₂,hsaw,rfl⟩ := he₂
  have hq₂ := queues_of_raises hraised₂
  -- the records that are left, and those raised since
  have ha₂ : Attributes made
      (s.attributeAll teardown (front.reduceOption.map raised.report)).2 t₂ := by
    refine Attributes.queues ?_ hq₂
    refine ha₁.mono (fun d g h => hsame.generation d ▸ h) hsame.endpoints hsame.pending hsame.lost
      (hsame.tails ▸ ha.few) rfl rfl ?_
    rw [hrecords]
    exact subset_append_right _ _
  have hdone : ∀ s', Attributes made s' t₂ →
      s'.faults = (s.attributeAll teardown (front.reduceOption.map raised.report)).2.faults →
      Drained made s t (s.attributeAll teardown (front.reduceOption.map raised.report)).1 s'
        t₂ := by
    refine fun s' ha' hfaults => ⟨Attributed.of_queues hq (ha'.attributed hq₂.created
      fun e d h => hq₂.attached ▸ h),hfaults.trans (hlog.trans (hevents ▸ rfl)),fun hlost => ?_⟩
    rw [hevents,hq₂.popped,List.map_map,List.forall₂_map_left_iff,List.forall₂_same]
    intro r hr
    obtain ⟨hend,haddress,haccess,hreason⟩ := chargedTo_same teardown (raised.report r)
    refine ⟨hend,haddress,haccess,hreason,fun d hd => ?_⟩
    have hmem : r ∈ raised.records := hrecords ▸ mem_append_left _ hr
    rw [comp_apply,ha₁.chargedTo teardown hlost hmem hd]
    exact ⟨rfl,rfl⟩
  split
  · next hdry =>
    -- the queue was seen empty: what is in it now was raised since
    obtain ⟨new,hnewq,hnew⟩ := hq₂.queue
    have hrest : rest = [] := hempty (hq₂.sawEmpty.symm.trans (hsaw hdry))
    refine hdone _ (ha₂.dry fun r hr => ?_) rfl
    rw [Transport.records,hnewq,hrest,nil_append] at hr
    rw [hq₂.attached]
    exact hnew r hr
  · exact hdone _ ha₂ rfl

end Draining

end LiberSystem.Dma
