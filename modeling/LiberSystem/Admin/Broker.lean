import LiberSystem.Admin.Descriptor

/-!
# The broker of administrative operations

The state machine of `services/logic/src/admin_broker.rs`. Every answer comes back through a call
that looks whether the request is still where the answer expects it. Requests are numbered without a
bound; deadlines wrap at 64 bits.
-/

namespace LiberSystem.Admin

def MAX_CONNECTIONS : Nat := 16
def CONFIRM_TICKS : Nat := 6000
def GRANT_TICKS : Nat := 3000
def EXCHANGE_TICKS : Nat := 500

@[irreducible] def deadline (now ticks : Nat) : Nat := (now + ticks) % 2 ^ 64

abbrev ConnectionId := Nat
abbrev RequestId := Nat
abbrev ExecutorId := Nat

structure Scope where
  actions : List Action
  targetPrefix : String

def Scope.admits (scope : Scope) (asked : Asked) : Bool :=
  scope.actions.contains asked.action &&
    scope.targetPrefix.toList.isPrefixOf asked.target.toList

structure Connection where
  id : ConnectionId
  component : String
  scope : Scope
  launch : Nat
  opened : Bool
  ownerAlive : Bool
  request : Option RequestId

def Connection.live (c : Connection) : Bool := c.opened && c.ownerAlive

inductive State where
  | preparing
  | prepared
  | awaitingAttention
  | awaitingDecision
  | approving
  | granted
  | consuming
  | consumed
  | completed
  | failed
  | outcomeUnknown
  | declining
  | declined
  | expired
  | cancelled
  deriving DecidableEq

namespace State

def terminal : State → Bool
  | .completed | .failed | .outcomeUnknown | .declined | .expired | .cancelled => true
  | _ => false

def unconsumed : State → Bool
  | .preparing | .prepared | .awaitingAttention | .awaitingDecision | .approving | .granted => true
  | _ => false

def confirming : State → Bool
  | .preparing | .prepared | .awaitingAttention | .awaitingDecision | .approving => true
  | _ => false

end State

inductive Event where
  | requested
  | granted
  | declined
  | consumed
  | completed
  | failed
  | outcomeUnknown
  deriving DecidableEq

inductive Outcome where
  | completed
  | failed
  | unknown
  deriving DecidableEq

def Outcome.state : Outcome → State
  | .completed => .completed
  | .failed => .failed
  | .unknown => .outcomeUnknown

def Outcome.event : Outcome → Event
  | .completed => .completed
  | .failed => .failed
  | .unknown => .outcomeUnknown

structure Request where
  id : RequestId
  connection : ConnectionId
  state : State
  asked : Asked
  descriptor : Option Descriptor
  executor : ExecutorId
  operation : Nat
  confirmBy : Nat
  grantBy : Nat
  exchangeBy : Nat
  session : Nat
  /-- The record whose acknowledgment is awaited. -/
  journaling : Option Event
  reason : String
  ending : State
  answered : Bool
  dispatched : Bool
  redeeming : Bool
  revalidating : Bool

inductive Effect where
  | prepare (request : RequestId)
  | revalidate (request : RequestId) (executor : ExecutorId) (operation : Nat)
  | journal (request : RequestId) (event : Event) (reason : String)
  | show (request : Option RequestId) (session : Nat)
  | hide
  | answer (connection : ConnectionId) (request : RequestId) (granted : Bool)
  | dispatch (request : RequestId) (executor : ExecutorId) (operation : Nat)
  | release (request : RequestId) (executor : ExecutorId) (operation : Nat)
  | closeGrant (request : RequestId)
  | redeemed (request : RequestId) (outcome : Option Outcome)
  deriving DecidableEq

inductive Refusal where
  | exhausted
  | notFound
  deriving DecidableEq

structure Broker where
  epoch : Nat
  connections : List Connection
  requests : List Request
  nextConnection : ConnectionId
  nextRequest : RequestId
  /-- The protected screen shows this request, under this session. -/
  showing : Option (Option RequestId × Nat)
  blocked : Bool
  path : Bool

abbrev Out := Broker × List Effect

namespace Broker

def new (epoch : Nat) : Broker where
  epoch := epoch
  connections := []
  requests := []
  nextConnection := 1
  nextRequest := 1
  showing := none
  blocked := false
  path := false

variable (b : Broker)

def connection (id : ConnectionId) : Option Connection :=
  b.connections.find? fun c => c.id == id

variable (id : RequestId)

def position : Option Nat :=
  b.requests.findIdx? fun r => r.id == id

def modifyConnection (id : ConnectionId) (f : Connection → Connection) : Broker :=
  { b with connections := b.connections.modify (b.connections.findIdx fun c => c.id == id) f }

def live (b : Broker) (id : ConnectionId) : Bool := (b.connection id).any Connection.live

def put (i : Nat) (r : Request) : Broker := { b with requests := b.requests.set i r }

def openConnection (component : String) (scope : Scope) (launch : Nat) :
    Except Refusal (ConnectionId × Broker) :=
  if b.connections.length ≥ MAX_CONNECTIONS then .error .exhausted
  else
    let id := b.nextConnection
    .ok (id, { b with
      nextConnection := max ((id + 1) % 2 ^ 32) 1
      connections := b.connections ++ [⟨id,component,scope,launch,true,true,none⟩] })

def journal (r : Request) (event : Event) (reason : String) (now : Nat) : Request × List Effect :=
  ({ r with journaling := some event, exchangeBy := deadline now EXCHANGE_TICKS },
    [.journal r.id event reason])

variable (r : Request)

def releasePrepared : Request × List Effect :=
  if r.operation ≠ 0 then
    ({ r with operation := 0 }, [.release r.id r.executor r.operation])
  else (r, [])

variable (request : RequestId)

def hideIfShowing : Out :=
  match b.showing with
  | some (some shown, _) =>
    if shown = request then ({ b with showing := none }, [.hide]) else (b, [])
  | _ => (b, [])

def declineAs (i : Nat) (ending : State) (reason : String) (now : Nat) : Out :=
  match b.requests[i]? with
  | none => (b, [])
  | some r =>
    if r.state.terminal || r.state = .declining then (b, [])
    else
      let (b, hidden) := b.hideIfShowing r.id
      let (r, released) := releasePrepared { r with ending := ending }
      let closed := if r.state = .granted then [Effect.closeGrant r.id] else []
      let (r, recorded) :=
        journal { r with state := .declining, reason := reason } .declined reason now
      (b.put i r, hidden ++ released ++ closed ++ recorded)

def decline (i : Nat) (reason : String) (now : Nat) : Out :=
  b.declineAs i .declined reason now

def answerDeclined : Request × List Effect :=
  if r.answered then (r, [])
  else ({ r with answered := true }, [.answer r.connection r.id false])

def endDecline : Request × List Effect := answerDeclined { r with state := r.ending }

def fail (outcome : Option Outcome) : Request × List Effect :=
  let (r, released) := releasePrepared { r with state := .failed, redeeming := false }
  (r, released ++ [.redeemed r.id outcome,.closeGrant r.id])

def lapse (now : Nat) : Request × List Effect :=
  let (r, released) := releasePrepared { r with state := .expired }
  let (r, recorded) := journal r .declined "the grant expired unused" now
  (r, released ++ [.closeGrant r.id] ++ recorded)

def unadmitted (asked : Asked) (live scopeOk : Bool) : Option String :=
  if !live then some "requester lost"
  else if !scopeOk then some "outside the connection's scope"
  else if (checkAsked asked).toOption.isNone then some "request past its bounds"
  else if !b.path then some "no trusted display and keyboard"
  else if b.blocked then some "an outcome is unrecorded"
  else if b.requests.any fun other => other.id != id && other.state.confirming then
    some "another request holds the confirmation"
  else none

def newRequest (connection : ConnectionId) (asked : Asked) (now : Nat) : Request where
  id := id
  connection := connection
  state := .preparing
  asked := asked
  descriptor := none
  executor := 0
  operation := 0
  confirmBy := 0
  grantBy := 0
  exchangeBy := deadline now EXCHANGE_TICKS
  session := 0
  journaling := none
  reason := ""
  ending := .declined
  answered := false
  dispatched := false
  redeeming := false
  revalidating := false

variable (connection : ConnectionId)

def ask (asked : Asked) (now : Nat) : Option RequestId × Out :=
  match b.connection connection with
  | none => (none, b, [])
  | some owner =>
    if owner.request.isSome then (none, b, [])
    else
      let id := b.nextRequest
      let b := { b with
        nextRequest := b.nextRequest + 1
        requests := b.requests ++ [newRequest id connection asked now] }
      let b := b.modifyConnection connection fun c => { c with request := some id }
      match b.unadmitted id asked owner.live (owner.scope.admits asked) with
      | some reason => (some id, b.decline (b.requests.length - 1) reason now)
      | none => (some id, b, [.prepare id])

def find : Option (Nat × Request) :=
  (b.position id).bind fun i => (b.requests[i]?).map fun r => (i, r)

def bindExecutor (executor : ExecutorId) : Broker :=
  match b.find request with
  | none => b
  | some (i, r) => b.put i { r with executor := executor }

def prepared (b : Broker) (request : RequestId) (executor : ExecutorId)
    (answer : Except String (Descriptor × Nat × Nat)) (now : Nat) : Out :=
  match b.find request, answer with
  | none, .ok (_, _, operation) => (b, [.release request executor operation])
  | none, .error _ => (b, [])
  | some (i, r), answer =>
    if r.state ≠ .preparing then
      match answer with
      | .ok (_, _, operation) => (b, [.release request r.executor operation])
      | .error _ => (b, [])
    else
      match answer with
      | .ok (prepared, encoded, operation) =>
        match checkPrepared r.asked prepared encoded with
        | .error _ =>
          let (b, declined) := (b.put i { r with operation := 0 }).decline i
            "the executor prepared something else" now
          (b, .release request r.executor operation :: declined)
        | .ok () =>
          let (r, recorded) := journal
            { r with operation := operation, descriptor := some prepared, state := .prepared }
            .requested "" now
          (b.put i r, recorded)
      | .error reason => b.decline i reason now

def consumed (b : Broker) (i : Nat) (r : Request) (ok : Bool) (now : Nat) : Out :=
  if !ok then
    let (r, failed) := fail r (some .failed)
    (b.put i r, failed)
  else if !b.live r.connection || now ≥ r.grantBy then
    let (r, failed) := fail r none
    let (r, recorded) := journal r .failed "owner lost or deadline passed before dispatch" now
    (b.put i r, failed ++ recorded)
  else
    (b.put i { r with state := .consumed, dispatched := true, operation := 0 },
      [.dispatch r.id r.executor r.operation])

def journaled (event : Event) (ok : Bool) (now : Nat) : Out :=
  match b.find request with
  | none => (b, [])
  | some (i, r) =>
    if r.journaling ≠ some event then (b, [])
    else
      let r := { r with journaling := none }
      let b := b.put i r
      match r.state, event with
      | .prepared, .requested =>
        if !ok then b.decline i "the request could not be recorded" now
        else if !b.live r.connection then b.decline i "requester lost" now
        else
          (b.put i { r with
            state := .awaitingAttention, confirmBy := deadline now CONFIRM_TICKS }, [])
      | .approving, .granted =>
        if !ok then b.decline i "the approval could not be recorded" now
        else if !b.live r.connection then b.decline i "requester lost" now
        else
          (b.put i { r with
              state := .granted, grantBy := deadline now GRANT_TICKS, answered := true },
            [.answer r.connection request true])
      | .consuming, .consumed => b.consumed i r ok now
      | .declining, .declined =>
        let (r, answered) := endDecline r
        (b.put i r, answered)
      | .completed, _ | .failed, _ | .outcomeUnknown, _ =>
        if !ok then ({ b with blocked := true }, []) else (b, [])
      | _, _ => (b, [])

def attention (session now : Nat) : Out :=
  if b.showing.isSome then (b, [])
  else
    match b.requests.findIdx? fun r =>
      r.state = .awaitingAttention && b.live r.connection && now < r.confirmBy with
    | none => ({ b with showing := some (none, session) }, [.show none session])
    | some i =>
      match b.requests[i]? with
      | none => (b, [])
      | some r =>
        ({ b.put i { r with state := .awaitingDecision, session := session } with
          showing := some (some r.id, session) }, [.show (some r.id) session])

def approve (session now : Nat) : Out :=
  match b.showing with
  | none => (b, [])
  | some (shown, showing) =>
    if showing ≠ session then (b, [])
    else
      let b := { b with showing := none }
      match shown.bind b.find with
      | none => (b, [.hide])
      | some (i, r) =>
        if r.state ≠ .awaitingDecision || r.session ≠ session then (b, [.hide])
        else
          let refused (reason : String) : Out :=
            let (b, declined) := b.decline i reason now
            (b, .hide :: declined)
          if !b.live r.connection then refused "requester lost"
          else if now ≥ r.confirmBy then refused "the confirmation expired"
          else if b.blocked then refused "an outcome is unrecorded"
          else
            (b.put i { r with
                state := .approving, revalidating := true
                exchangeBy := deadline now EXCHANGE_TICKS },
              [.hide,.revalidate r.id r.executor r.operation])

def revalidated (still : Bool) (now : Nat) : Out :=
  match b.find request with
  | none => (b, [])
  | some (i, r) =>
    if r.state ≠ .approving || !r.revalidating then (b, [])
    else
      let r := { r with revalidating := false }
      let b := b.put i r
      if !still then b.decline i "the target changed after it was prepared" now
      else if !b.live r.connection then b.decline i "requester lost" now
      else
        let (r, recorded) := journal r .granted "" now
        (b.put i r, recorded)

def refuse (session : Nat) (reason : String) (now : Nat) : Out :=
  match b.showing with
  | none => (b, [])
  | some (shown, showing) =>
    if showing ≠ session then (b, [])
    else
      let b := { b with showing := none }
      match shown.bind b.position with
      | none => (b, [.hide])
      | some i =>
        let (b, declined) := b.decline i reason now
        (b, .hide :: declined)

def lose (reason : String) (now : Nat) : Out :=
  match ((b.connection connection).bind Connection.request).bind b.find with
  | none => (b, [])
  | some (i, r) =>
    if r.state.unconsumed then b.declineAs i .cancelled reason now else (b, [])

def cancel (now : Nat) : Out :=
  b.lose connection "cancelled by the requester" now

def closed (b : Broker) (connection : ConnectionId) (now : Nat) : Out :=
  (b.modifyConnection connection fun c => { c with opened := false }).lose connection
    "requester connection closed" now

def ownerDied (now : Nat) : Out :=
  (b.modifyConnection connection fun c => { c with ownerAlive := false }).lose connection
    "requester task ended" now

def observerFailed (now : Nat) : Out :=
  (b.modifyConnection connection fun c => { c with ownerAlive := false }).lose connection
    "the requester could not be observed" now

def finished : Bool :=
  r.state.terminal && r.answered && r.journaling.isNone && !r.redeeming

def remove (connection : ConnectionId) : Broker :=
  let b := { b with requests := b.requests.filter fun r => r.id != id }
  b.modifyConnection connection fun c =>
    if c.request = some id then { c with request := none } else c

def settle : Broker :=
  let b := (b.requests.filter finished).foldl (fun b r => b.remove r.id r.connection) b
  { b with
    connections := b.connections.filter fun c =>
      c.opened || b.requests.any fun r => r.connection == c.id }

def redeem (now : Nat) : Bool × Out :=
  match b.find request with
  | none => (false, b, [])
  | some (i, r) =>
    if r.state ≠ .granted || !b.live r.connection || now ≥ r.grantBy || b.blocked then
      (false, b, [])
    else
      let (r, recorded) :=
        journal { r with state := .consuming, redeeming := true } .consumed "" now
      (true, b.put i r, recorded)

def executed (outcome : Outcome) (now : Nat) : Out :=
  match b.find request with
  | none => (b, [])
  | some (i, r) =>
    if r.state ≠ .consumed then (b, [])
    else
      let (r, recorded) :=
        journal { r with state := outcome.state, redeeming := false } outcome.event "" now
      (b.put i r, [.redeemed request (some outcome),.closeGrant request] ++ recorded)

def executorLostOne (now : Nat) : Out :=
  match b.find id with
  | none => (b, [])
  | some (i, r) =>
    let b := b.put i { r with operation := 0 }
    if r.state = .consumed then b.executed id .unknown now
    else if r.state = .consuming then (b, [])
    else if r.state.unconsumed then b.decline i "the executor went away" now
    else (b, [])

def each {α : Type} (f : Broker → α → Out) (b : Broker) (l : List α) : Out :=
  l.foldl (fun out a => let (b, effects) := f out.1 a; (b, out.2 ++ effects)) (b, [])

def executorLost (executor : ExecutorId) (now : Nat) : Out :=
  let ids := (b.requests.filter fun r => r.executor == executor && !r.state.terminal).map Request.id
  each (fun b id => b.executorLostOne id now) b ids

def setPath (present : Bool) (now : Nat) : Out :=
  let b := { b with path := present }
  match b.showing with
  | some (_, session) =>
    if !present then b.refuse session "the trusted display or keyboard was lost" now else (b, [])
  | none => (b, [])

def recovered : Broker := { b with blocked := false }

def tickOne (i : Nat) (now : Nat) : Out :=
  match b.requests[i]? with
  | none => (b, [])
  | some r =>
    match r.state with
    | .preparing | .prepared | .approving =>
      if now ≥ r.exchangeBy then
        (b.put i { r with journaling := none, revalidating := false }).decline i
          "a local exchange did not answer" now
      else (b, [])
    | .consuming =>
      if now ≥ r.exchangeBy then
        let (r, failed) := fail { r with journaling := none } (some .failed)
        (b.put i r, failed)
      else (b, [])
    | .declining =>
      if now ≥ r.exchangeBy then
        let (r, answered) := endDecline { r with journaling := none }
        (b.put i r, answered)
      else (b, [])
    | .awaitingAttention | .awaitingDecision =>
      if now ≥ r.confirmBy then b.declineAs i .expired "the confirmation expired" now else (b, [])
    | .granted =>
      if now ≥ r.grantBy then
        let (r, lapsed) := lapse r now
        (b.put i r, lapsed)
      else (b, [])
    | _ => (b, [])

def tick (b : Broker) (now : Nat) : Out :=
  let (b, effects) := each (fun b i => b.tickOne i now) b (List.range b.requests.length)
  -- The record of a request that is over gets its time too.
  ({ b with
    requests := b.requests.map fun r =>
      if r.state.terminal && r.journaling.isSome && now ≥ r.exchangeBy then
        { r with journaling := none } else r }, effects)

end Broker

inductive Call where
  | openConnection (component : String) (scope : Scope) (launch : Nat)
  | ask (connection : ConnectionId) (asked : Asked) (now : Nat)
  | bindExecutor (request : RequestId) (executor : ExecutorId)
  | prepared (request : RequestId) (executor : ExecutorId)
      (answer : Except String (Descriptor × Nat × Nat)) (now : Nat)
  | journaled (request : RequestId) (event : Event) (ok : Bool) (now : Nat)
  | attention (session now : Nat)
  | approve (session now : Nat)
  | revalidated (request : RequestId) (still : Bool) (now : Nat)
  | refuse (session : Nat) (reason : String) (now : Nat)
  | cancel (connection : ConnectionId) (now : Nat)
  | closed (connection : ConnectionId) (now : Nat)
  | ownerDied (connection : ConnectionId) (now : Nat)
  | observerFailed (connection : ConnectionId) (now : Nat)
  | settle
  | redeem (request : RequestId) (now : Nat)
  | executed (request : RequestId) (outcome : Outcome) (now : Nat)
  | executorLost (executor : ExecutorId) (now : Nat)
  | setPath (present : Bool) (now : Nat)
  | recovered
  | tick (now : Nat)

def Broker.call (b : Broker) : Call → Out
  | .openConnection component scope launch =>
    match b.openConnection component scope launch with
    | .ok (_, b) => (b, [])
    | .error _ => (b, [])
  | .ask connection asked now => (b.ask connection asked now).2
  | .bindExecutor request executor => (b.bindExecutor request executor, [])
  | .prepared request executor answer now => b.prepared request executor answer now
  | .journaled request event ok now => b.journaled request event ok now
  | .attention session now => b.attention session now
  | .approve session now => b.approve session now
  | .revalidated request still now => b.revalidated request still now
  | .refuse session reason now => b.refuse session reason now
  | .cancel connection now => b.cancel connection now
  | .closed connection now => b.closed connection now
  | .ownerDied connection now => b.ownerDied connection now
  | .observerFailed connection now => b.observerFailed connection now
  | .settle => (b.settle, [])
  | .redeem request now => (b.redeem request now).2
  | .executed request outcome now => b.executed request outcome now
  | .executorLost executor now => b.executorLost executor now
  | .setPath present now => b.setPath present now
  | .recovered => (b.recovered, [])
  | .tick now => b.tick now

end LiberSystem.Admin
