import LiberSystem.Dma.Iova
import LiberSystem.Lib.Interact

/-!
# Domains, mappings and faults of an IOMMU

The kernel's ledger over the hardware, which is reached only by requests to a backend. Left out
are planning and bouncing, `translate`, the replay after a reset and the counters for reports.
-/

namespace LiberSystem.Dma

open Proc

inductive Direction where
  | toDevice
  | fromDevice
  | bidirectional
  deriving DecidableEq, Repr

inductive Access where
  | read
  | write
  deriving DecidableEq, Repr

structure FaultEvent where
  endpoint : EndpointId
  domain : DomainId
  generation : Generation
  address : Option DmaAddress
  access : Access
  reason : Fault
  deriving DecidableEq, Repr

/-- Where a mapping is in its life. -/
inductive MappingState where
  | live
  /-- No new submissions; the translation is not yet known to be gone. -/
  | closing
  /-- Unmapped and invalidated, both confirmed. -/
  | released
  /-- Nobody knows whether the device can still reach it. -/
  | quarantined
  deriving DecidableEq, Repr

structure Mapping where
  id : MappingId
  domain : DomainId
  iova : DmaAddress
  physical : ℕ
  len : ℕ
  direction : Direction
  generation : Generation
  state : MappingState
  retainOnRetire : Bool
  deriving DecidableEq, Repr

/-- What a completed close permits the caller to do with the frames. -/
inductive Release where
  | framesReusable
  | quarantined
  deriving DecidableEq, Repr

structure DomainState where
  space : IovaSpace
  generation : Generation
  endpoints : List EndpointId
  attachedConfirmed : Bool
  faults : ℕ

/-- The most recent faults, and how many there were. -/
structure FaultLog where
  recent : List FaultEvent
  capacity : ℕ
  total : ℕ
  dropped : ℕ
  deriving DecidableEq, Repr

def FaultLog.new (capacity : ℕ) : FaultLog := ⟨[],capacity,0,0⟩

def FaultLog.record (log : FaultLog) (event : FaultEvent) : FaultLog :=
  let log := { log with total := log.total + 1 }
  if log.capacity = 0 then { log with dropped := log.dropped + 1 }
  else if log.recent.length ≥ log.capacity then
    { log with recent := log.recent.drop 1 ++ [event], dropped := log.dropped + 1 }
  else { log with recent := log.recent ++ [event] }

/-- A binding that is gone and whose faults may not be. -/
structure DetachedTail where
  endpoint : EndpointId
  domain : DomainId
  generation : Generation
  faults : ℕ
  drained : Bool
  deriving DecidableEq, Repr

def mostDetachedTails : ℕ := 8

structure Iommu where
  domains : OrdMap DomainId DomainState
  mappings : OrdMap MappingId Mapping
  nextMapping : ℕ
  faults : FaultLog
  detached : List DetachedTail
  attributionLost : Bool
  tailsOverflowed : ℕ

def Iommu.new (faultCapacity : ℕ) : Iommu :=
  ⟨.empty,.empty,1,FaultLog.new faultCapacity,[],false,0⟩

inductive Request where
  | domainCreate
  | domainDestroy (domain : DomainId)
  | attach (domain : DomainId) (endpoint : EndpointId)
  | detach (domain : DomainId) (endpoint : EndpointId)
  | map (domain : DomainId) (iova : DmaAddress) (physical len : ℕ) (direction : Direction)
  | unmap (domain : DomainId) (iova : DmaAddress) (len : ℕ)
  | invalidate (domain : DomainId)
  | drainFaults (room : ℕ)
  | transportWasEmptied
  /-- Room for one more element of a vector, asked of the allocator. -/
  | tryReserve

def Request.Answer : Request → Type
  | domainCreate => Except Fault DomainId
  | drainFaults _ => List FaultEvent
  | transportWasEmptied => Bool
  | tryReserve => Bool
  | _ => Except Fault Unit

abbrev IommuM (α : Type) := Proc Request Request.Answer Iommu Halt α

namespace Backend

def domainCreate : IommuM (Except Fault DomainId) := call Request.domainCreate

def domainDestroy (domain : DomainId) : IommuM (Except Fault Unit) :=
  call (Request.domainDestroy domain)

def attach (domain : DomainId) (endpoint : EndpointId) : IommuM (Except Fault Unit) :=
  call (Request.attach domain endpoint)

def detach (domain : DomainId) (endpoint : EndpointId) : IommuM (Except Fault Unit) :=
  call (Request.detach domain endpoint)

def map (domain : DomainId) (iova : DmaAddress) (physical len : ℕ) (direction : Direction) :
    IommuM (Except Fault Unit) :=
  call (Request.map domain iova physical len direction)

def unmap (domain : DomainId) (iova : DmaAddress) (len : ℕ) : IommuM (Except Fault Unit) :=
  call (Request.unmap domain iova len)

def invalidate (domain : DomainId) : IommuM (Except Fault Unit) :=
  call (Request.invalidate domain)

def drainFaults (room : ℕ) : IommuM (List FaultEvent) := call (Request.drainFaults room)

def transportWasEmptied : IommuM Bool := call Request.transportWasEmptied

def tryReserve : IommuM Bool := call Request.tryReserve

end Backend

namespace Iommu

variable (s : Iommu)

def setDomain (domain : DomainId) (f : DomainState → DomainState) : Iommu :=
  { s with domains := s.domains.modify domain f }

def setSpace (domain : DomainId) (space : IovaSpace) : Iommu :=
  s.setDomain domain fun state => { state with space := space }

def setMapping (id : MappingId) (f : Mapping → Mapping) : Iommu :=
  { s with mappings := s.mappings.modify id f }

def addMapping (m : MappingId → Mapping) : Iommu :=
  { s with
    mappings := s.mappings.insert s.nextMapping (m s.nextMapping)
    nextMapping := s.nextMapping + 1 }

end Iommu

def createDomain (base len : ℕ) (reserved : List Reserved) (generation : Generation) :
    IommuM DomainId := do
  match ← Backend.domainCreate with
  | .error reason => throw (.fault reason)
  | .ok id =>
    modify fun s => { s with
      domains := s.domains.insert id ⟨IovaSpace.new base len reserved,generation,[],false,0⟩ }
    pure id

def Iommu.mayAttach (s : Iommu) (endpoint : EndpointId) : Bool :=
  !(s.attributionLost || s.detached.any (fun tail => tail.endpoint == endpoint && !tail.drained) ||
    s.domains.values.any fun state => state.endpoints.contains endpoint)

def attach (domain : DomainId) (endpoint : EndpointId) : IommuM Unit := do
  ensure ((← get).mayAttach endpoint) (.fault .unconfirmed)
  let _ ← orThrow ((← get).domains.get? domain) (.fault .unknownEndpoint)
  ensure (← Backend.tryReserve) (.fault .noSpace)
  match ← Backend.attach domain endpoint with
  | .ok () =>
    modify fun s => s.setDomain domain fun state =>
      { state with endpoints := state.endpoints ++ [endpoint], attachedConfirmed := true }
  | .error .unconfirmed =>
    -- the request may have attached hardware: keep ownership without authorizing DMA
    modify fun s => s.setDomain domain fun state =>
      { state with endpoints := state.endpoints ++ [endpoint], attachedConfirmed := false }
    throw (.fault .unconfirmed)
  | .error reason => throw (.fault reason)

variable (domain : DomainId)

def mapFailed (iova : DmaAddress) (physical len : ℕ)
    (direction : Direction) (generation : Generation) (reason : Fault) : IommuM Fault := do
  let state ← orThrow ((← get).domains.get? domain) .panic
  if reason = .unconfirmed then
    match state.space.quarantine iova with
    | .error _ => throw .panic
    | .ok space =>
      modify fun s => (s.setSpace domain space).addMapping fun id =>
        ⟨id,domain,iova,physical,len,direction,generation,.quarantined,false⟩
      pure reason
  else
    match state.space.release iova with
    | .error _ => pure reason
    | .ok space =>
      modify fun s => s.setSpace domain space
      pure reason

/-- The part that `map` and `map_identity` share: ask the backend for a range that the
domain's space has handed out. -/
def mapTaken (iova : DmaAddress) (physical len : ℕ)
    (direction : Direction) (generation : Generation) : IommuM MappingId := do
  match ← Backend.map domain iova physical len direction with
  | .ok () =>
    let id := (← get).nextMapping
    modify fun s => s.addMapping fun id =>
      ⟨id,domain,iova,physical,len,direction,generation,.live,false⟩
    pure id
  | .error reason =>
    throw (.fault (← mapFailed domain iova physical len direction generation reason))

def map (physical len : ℕ) (direction : Direction)
    (requirements : Requirements) : IommuM MappingId := do
  ensure (len ≠ 0) (.fault .malformed)
  let state ← orThrow ((← get).domains.get? domain) (.fault .unknownEndpoint)
  let (iova, space) ← fromExcept (state.space.allocate len requirements.alignment)
  modify fun s => s.setSpace domain space
  -- the address the device will name has to be one the device can name
  if requirements.permits iova len = false then
    match space.release iova with
    | .error _ => throw (.fault .outOfRange)
    | .ok space =>
      modify fun s => s.setSpace domain space
      throw (.fault .outOfRange)
  else mapTaken domain iova physical len direction state.generation

def mapIdentity (address len : ℕ) (direction : Direction) : IommuM MappingId := do
  ensure (len ≠ 0) (.fault .malformed)
  let state ← orThrow ((← get).domains.get? domain) (.fault .unknownEndpoint)
  let (iova, space) ← fromExcept (state.space.takeExact address len)
  modify fun s => s.setSpace domain space
  mapTaken domain iova address len direction state.generation

variable (id : MappingId)

def beginClose : IommuM Unit := do
  let mapping ← orThrow ((← get).mappings.get? id) (.fault .notMapped)
  ensure (mapping.state = .live) (.fault .notMapped)
  modify fun s => s.setMapping id fun m => { m with state := .closing }

/-- The end of a close: with both steps confirmed the address goes back and the row is
released, otherwise both are quarantined. -/
def settleClose (mapping : Mapping) (confirmed : Bool) : IommuM Release := do
  let state ← orThrow ((← get).domains.get? mapping.domain) (.fault .unknownEndpoint)
  let space ← fromExcept ((if confirmed then state.space.release mapping.iova
    else state.space.quarantine mapping.iova).mapError .fault)
  modify fun s => (s.setMapping id fun m => { m with
    state := if confirmed then .released else .quarantined }).setSpace mapping.domain space
  pure (if confirmed then .framesReusable else .quarantined)

/-- Unmap, then invalidate, then, and only then, hand the address back. Either step
failing quarantines both the address and the frames. -/
def finishClose : IommuM Release := do
  let mapping ← orThrow ((← get).mappings.get? id) (.fault .notMapped)
  ensure (mapping.state = .closing) (.fault .notMapped)
  let unmapped ← Backend.unmap mapping.domain mapping.iova mapping.len
  let invalidated ← if unmapped.isOk then Backend.invalidate mapping.domain
    else pure (.error .unconfirmed)
  settleClose id mapping (unmapped.isOk && invalidated.isOk)

def close : IommuM Release := do
  let mapping ← orThrow ((← get).mappings.get? id) (.fault .notMapped)
  match mapping.state with
  | .released => pure .framesReusable
  | .quarantined => pure .quarantined
  | .live => do
    beginClose id
    finishClose id
  | .closing => finishClose id

def retainMapping : IommuM Unit := do
  let _ ← orThrow ((← get).mappings.get? id) (.fault .notMapped)
  modify fun s => s.setMapping id fun m => { m with retainOnRetire := true }

def releaseMapping : IommuM Release := do
  let released ← close id
  if released = .framesReusable then
    modify fun s => { s with mappings := s.mappings.erase id }
  pure released

def destroyDomain : IommuM Unit := do
  let state ← orThrow ((← get).domains.get? domain) (.fault .unknownEndpoint)
  ensure (state.endpoints.isEmpty) (.fault .unconfirmed)
  ensure ((← get).mappings.values.any (fun m => m.domain == domain && m.state == .quarantined) =
    false) (.fault .unconfirmed)
  match ← Backend.domainDestroy domain with
  | .error reason => throw (.fault reason)
  | .ok () =>
    modify fun s => { s with
      mappings := s.mappings.retain fun m => m.domain != domain || m.retainOnRetire
      domains := s.domains.erase domain }

def Iommu.liveMappings (s : Iommu) (domain : DomainId) : List MappingId :=
  (s.mappings.values.filter fun m =>
    m.domain == domain && (m.state == .live || m.state == .closing)).map Mapping.id

def unmapEach : List MappingId → IommuM (List (MappingId × Bool))
  | [] => pure []
  | id :: rest => do
    let mapping ← orThrow ((← get).mappings.get? id) .panic
    let unmapped ← Backend.unmap mapping.domain mapping.iova mapping.len
    pure ((id, unmapped.isOk) :: (← unmapEach rest))

def settleEach (domain : DomainId) (endpointGone : Bool) :
    List (MappingId × Bool) → IommuM Bool
  | [] => pure true
  | (id, unmapOk) :: rest => do
    let confirmed := unmapOk && endpointGone
    let mapping ← orThrow ((← get).mappings.get? id) .panic
    let state ← orThrow ((← get).domains.get? domain) .panic
    modify fun s => s.setMapping id fun m =>
      { m with state := if confirmed then .released else .quarantined }
    match if confirmed then state.space.release mapping.iova
        else state.space.quarantine mapping.iova with
    | .ok space => modify fun s => s.setSpace domain space
    | .error _ => pure ()
    return (← settleEach domain endpointGone rest) && confirmed

def makeRoom : ℕ → List DetachedTail → List DetachedTail × Bool
  | 0, tails => (tails, true)
  | fuel + 1, tails =>
    if tails.length ≥ mostDetachedTails then
      match tails.findIdx? DetachedTail.drained with
      | none => (tails, false)
      | some at' => makeRoom fuel (tails.eraseIdx at')
    else (tails, true)

/-- Keep what an ending binding was, so that a fault it queued cannot be charged to the
next one. -/
def Iommu.rememberDetachedTail (s : Iommu) (endpoint : EndpointId) (domain : DomainId)
    (generation : Generation) : Iommu :=
  if s.detached.any fun tail => tail.endpoint == endpoint && !tail.drained then s
  else match s.detached.findIdx? fun tail => tail.endpoint == endpoint && tail.drained with
    | some at' => { s with detached := s.detached.set at' ⟨endpoint,domain,generation,0,false⟩ }
    | none => match makeRoom s.detached.length s.detached with
      | (tails, false) =>
        { s with detached := tails, attributionLost := true,
                 tailsOverflowed := saturatingAdd s.tailsOverflowed 1 }
      | (tails, true) =>
        { s with detached := tails ++ [⟨endpoint,domain,generation,0,false⟩] }

/-- The endpoint goes away: every translation of the domain comes down first, then the
endpoint leaves, and what did not confirm is quarantined. -/
def revokeEndpoint (endpoint : EndpointId) : IommuM Release := do
  let unmapped ← unmapEach ((← get).liveMappings domain)
  let invalidated ← Backend.invalidate domain
  let detached ← Backend.detach domain endpoint
  let endpointGone := invalidated.isOk && detached.isOk
  let state ← orThrow ((← get).domains.get? domain) (.fault .unknownEndpoint)
  modify fun s => s.setDomain domain fun state =>
    let endpoints := state.endpoints.filter fun e => e != endpoint
    { state with endpoints, attachedConfirmed := !endpoints.isEmpty && state.attachedConfirmed }
  -- an earlier failed map or close remains quarantined even if nothing is left to visit
  let clean := !(← get).mappings.values.any fun m =>
    m.domain == domain && m.state == .quarantined
  let everyOne ← settleEach domain endpointGone unmapped
  modify fun s => s.rememberDetachedTail endpoint domain state.generation
  pure (if clean ∧ everyOne ∧ endpointGone then .framesReusable else .quarantined)

def Iommu.stamp (s : Iommu) (event : FaultEvent) : FaultEvent :=
  match s.domains.get? event.domain with
  | some state => { event with generation := state.generation }
  | none => event

/-- The endpoint that is being torn down, with the domain that it was in. -/
abbrev Teardown := Option (EndpointId × DomainId × Generation)

/-- The binding of an event whose endpoint has no undrained tail: the domain the backend
resolved, or what a caller that is tearing the endpoint down still knows. -/
def Iommu.resolve (teardown : Teardown) (s : Iommu) (event : FaultEvent) : FaultEvent :=
  let event := s.stamp event
  match teardown with
  | some (endpoint, domain, generation) =>
    if event.endpoint = endpoint ∧ event.domain = 0 then { event with domain, generation }
    else event
  | none => event

def Iommu.attribute (teardown : Teardown) (s : Iommu) (event : FaultEvent) : FaultEvent × Iommu :=
  match s.detached.findIdx? fun tail => !tail.drained && tail.endpoint == event.endpoint with
  | some at' =>
    let tail := s.detached.getD at' ⟨0,0,0,0,true⟩
    let event := { event with domain := tail.domain, generation := tail.generation }
    (event, { s with
      detached := s.detached.set at' { tail with faults := saturatingAdd tail.faults 1 }
      faults := s.faults.record event })
  | none =>
    let event := s.resolve teardown event
    (event, { s.setDomain event.domain (fun state =>
      { state with faults := saturatingAdd state.faults 1 }) with
      faults := s.faults.record event })

def Iommu.attributeAll (teardown : Teardown) (s : Iommu) :
    List FaultEvent → List FaultEvent × Iommu
  | [] => ([], s)
  | event :: rest =>
    let (charged, s) := s.attribute teardown event
    let (others, s) := s.attributeAll teardown rest
    (charged :: others, s)

def drainFaultsDuring (room : ℕ) (teardown : Teardown) :
    IommuM (List FaultEvent) := do
  let events ← Backend.drainFaults room
  let (charged, s) := (← get).attributeAll teardown events
  set s
  -- the tail is over when the transport runs dry, and only the backend can say that
  if ← Backend.transportWasEmptied then
    modify fun s => { s with
      detached := s.detached.map fun tail => { tail with drained := true }
      attributionLost := false }
  pure charged

def Iommu.attributionIsComplete (s : Iommu) : Bool := !s.attributionLost

end LiberSystem.Dma
