import LiberSystem.Kernel.Object.Channel

/-!
# The four sends and the two receives

The calls of `syscall/mod.rs` that move capabilities between processes, one step for each section
under a lock. Faults of user memory and the heap's answers are in the `Env` of a step. What a send
names, and what each handle held when it was taken, are ghosts of a thread.
-/

namespace LiberSystem

inductive SysError where
  | noMemory
  | badHandle
  | accessDenied
  | invalid
  | notMapped
  | wouldBlock
  | peerClosed
  | resourceExhausted
  deriving DecidableEq, Repr

def MAX_MESSAGE_BYTES : Nat := 1024 * 1024

def MAX_MESSAGE_CAPS : Nat := 4

def usizeMax : Nat := 2 ^ 64 - 1

def HandleError.code : HandleError → SysError
  | .accessDenied => .accessDenied
  | _ => .badHandle

/-- A send whose arguments have been checked. `masks` are those of an attenuating send.
`batch` tells the sends of several capabilities from those of one. -/
structure SendCall where
  ch : Handle
  bytes : List UInt8
  handles : List Handle
  masks : Option (List Rights)
  batch : Bool
  deriving DecidableEq, Repr

inductive SendArgs where
  | send (ch : Handle) (bytes : List UInt8) (xfer : Handle)
  | sendAttenuated (ch : Handle) (bytes : List UInt8) (transfer : Handle × BitVec 32)
  | sendCaps (ch : Handle) (bytes : List UInt8) (handles : List Handle)
  | sendCapsAttenuated (ch : Handle) (bytes : List UInt8) (transfers : List (Handle × BitVec 32))
  deriving DecidableEq, Repr

variable (ch : Handle) (bytes : List UInt8)

def sysChannelSend (xfer : Handle) : Except SysError SendCall :=
  if bytes.length > MAX_MESSAGE_BYTES then .error .invalid
  else .ok ⟨ch,bytes,if xfer.raw ≠ 0 then [xfer] else [],none,false⟩

def sysChannelSendAttenuated (transfer : Handle × BitVec 32) : Except SysError SendCall :=
  if bytes.length > MAX_MESSAGE_BYTES then .error .invalid
  else if transfer.1.raw = 0 then .error .invalid
  else .ok ⟨ch,bytes,[transfer.1],some [Rights.fromBits transfer.2],false⟩

def sysChannelSendCaps (handles : List Handle) : Except SysError SendCall :=
  if bytes.length > MAX_MESSAGE_BYTES then .error .invalid
  else if handles.length = 0 ∨ handles.length > MAX_MESSAGE_CAPS then .error .invalid
  else .ok ⟨ch,bytes,handles,none,true⟩

def sysChannelSendCapsAttenuated
    (transfers : List (Handle × BitVec 32)) : Except SysError SendCall :=
  if bytes.length > MAX_MESSAGE_BYTES then .error .invalid
  else if transfers.length = 0 ∨ transfers.length > MAX_MESSAGE_CAPS then .error .invalid
  else if transfers.any fun transfer => transfer.1.raw == 0 then .error .invalid
  else .ok ⟨ch,bytes,transfers.map Prod.fst,
    some (transfers.map fun transfer => Rights.fromBits transfer.2),true⟩

namespace SendArgs

def check : SendArgs → Except SysError SendCall
  | .send ch bytes xfer => sysChannelSend ch bytes xfer
  | .sendAttenuated ch bytes transfer => sysChannelSendAttenuated ch bytes transfer
  | .sendCaps ch bytes handles => sysChannelSendCaps ch bytes handles
  | .sendCapsAttenuated ch bytes transfers => sysChannelSendCapsAttenuated ch bytes transfers

def named : SendArgs → List Handle
  | .send _ _ xfer => if xfer.raw ≠ 0 then [xfer] else []
  | .sendAttenuated _ _ transfer => [transfer.1]
  | .sendCaps _ _ handles => handles
  | .sendCapsAttenuated _ _ transfers => transfers.map Prod.fst

end SendArgs

def hasRepeat : List Handle → Bool
  | [] => false
  | h :: rest => rest.contains h || hasRepeat rest

/-- A receive. It refuses a message of more than `refuseAbove` bytes, installs at most
`installMax` capabilities, and answers with at most `bytesCap` bytes. -/
structure RecvCall where
  ch : Handle
  bytesCap : Nat
  refuseAbove : Nat
  installMax : Nat
  single : Bool
  deriving DecidableEq, Repr

def sysChannelRecvCaps (bytesCap : Nat) : RecvCall :=
  ⟨ch,bytesCap,bytesCap,MAX_MESSAGE_CAPS,false⟩

/-- `sys_channel_recv`. `wantsHandle`: the out pointer for a handle is not null. -/
def sysChannelRecv (bytesCap : Nat) (wantsHandle : Bool) : RecvCall :=
  ⟨ch,bytesCap,usizeMax,if wantsHandle then 1 else 0,true⟩

def ATTEMPTS : Nat := 8

namespace HandleTable

variable {D : Type} (Q : Quota D) (objs : Objects) (room : Nat → Bool)

def restoreAll : List (Handle × Capability) → HandleTable → D → HandleTable × D
  | [], t, ds => (t, ds)
  | (handle, cap) :: rest, t, ds =>
    let r := t.restoreTaken Q room handle cap ds
    restoreAll rest r.1 r.2

/-- Take every capability, or put back what was `taken` and take none. -/
def takeAll : List Handle → List (Handle × Capability) → HandleTable → D →
    Except HandleError (List (Handle × Capability)) × HandleTable × D
  | [], taken, t, ds => (.ok taken, t, ds)
  | handle :: rest, taken, t, ds =>
    match t.takeForTransfer objs handle Rights.transfer with
    | (.ok cap, t') => takeAll rest (taken ++ [(handle, cap)]) t' ds
    | (.error err, t') =>
      let r := restoreAll Q room taken t' ds
      (.error err, r.1, r.2)

def commitAll : List Handle → HandleTable → D → HandleTable × D
  | [], t, ds => (t, ds)
  | handle :: rest, t, ds =>
    let r := t.commitTaken Q handle ds
    commitAll rest r.1 r.2

def installAll : List Capability → HandleTable → D → List Handle × HandleTable × D
  | [], t, ds => ([], t, ds)
  | cap :: rest, t, ds =>
    let r := t.insertReserved Q room cap ds
    let r' := installAll rest r.2.1 r.2.2
    (r.1 :: r'.1, r'.2)

def closeHandles : List Handle → HandleTable → D → HandleTable × D
  | [], t, ds => (t, ds)
  | handle :: rest, t, ds =>
    let r := t.close Q objs handle ds
    closeHandles rest r.2.1 r.2.2

end HandleTable

/-- What a send has taken. An attenuating send keeps the originals, and what travels are
the copies. -/
structure Batch where
  handles : List Handle
  kept : Option (List Capability)
  caps : List Capability
  deriving DecidableEq, Repr

def SendCall.batchOf (call : SendCall) (taken : List (Handle × Capability)) : Batch where
  handles := taken.map Prod.fst
  kept := call.masks.map fun _ => taken.map Prod.snd
  caps :=
    match call.masks with
    | none => taken.map Prod.snd
    | some masks => List.zipWith (fun entry mask => Capability.attenuated entry.2 mask) taken masks

def Batch.entries (batch : Batch) (returned : List Capability) : List (Handle × Capability) :=
  batch.handles.zip (batch.kept.getD returned)

/-- Where a thread is. A name of a step is what the thread does next. -/
inductive Phase (κ : Type) where
  | idle
  | send (args : SendArgs)
  | take (call : SendCall) (k : κ)
  | deliver (call : SendCall) (k : κ) (batch : Batch)
  | commit (handles : List Handle) (kept : List Capability)
  | restore (err : SysError) (entries : List (Handle × Capability))
  | recv (call : RecvCall)
  | peek (call : RecvCall) (k : κ) (again : Nat)
  | reserve (call : RecvCall) (k : κ) (again id caps : Nat)
  | receive (call : RecvCall) (k : κ) (again id reserved : Nat)
  | release (call : RecvCall) (k : κ) (again reserved : Nat) (refusal : RecvRefusal)
  | copyOut (call : RecvCall) (k : κ) (msg : Message)
  | giveUp (call : RecvCall) (k : κ) (msg : Message) (err : SysError)
  | putBack (k : κ) (msg : Message) (err : SysError)
  | settle (call : RecvCall) (k : κ) (msg : Message)
  | install (call : RecvCall) (bytes : Nat) (caps : List Capability)
  | report (bytes : Nat) (handles : List Handle)
  | unwind (handles : List Handle) (err : SysError)
  /-- The kernel has taken a capability out of a table for itself. -/
  | hold (cap : Capability)
  | done (result : Except SysError Nat)
  deriving DecidableEq

namespace Phase

variable {κ : Type}

def sends : Phase κ → Bool
  | .send _ | .take _ _ | .deliver _ _ _ | .commit _ _ | .restore _ _ => true
  | _ => false

def endpoint : Phase κ → Option κ
  | .take _ k | .deliver _ k _ | .peek _ k _ | .reserve _ k _ _ _ | .receive _ k _ _ _
  | .release _ k _ _ _ | .copyOut _ k _ | .giveUp _ k _ _ | .putBack k _ _ | .settle _ k _ =>
    some k
  | _ => none

end Phase

structure Thread (κ : Type) where
  phase : Phase κ
  /-- Ghost: the handles that its send names. -/
  asked : List Handle
  /-- Ghost: what they held. -/
  named : List (Handle × Option Capability)

structure Env where
  /-- The caller's memory, or the heap, fails the step with this error. -/
  fault : Option SysError
  ring : Bool
  room : Nat → Bool
  bookRoom : Bool

/-- What does not change: the processes of the threads, the endpoints of the objects and
the pairs of endpoints. -/
structure Wiring (π τ κ : Type) where
  process : τ → π
  domain : τ → DomainId
  endpoint : Koid → κ
  peer : κ → κ

/-- All processes, threads and endpoints. `mints` is a log. -/
structure World (D π τ κ : Type) where
  domains : D
  objs : Objects
  tables : π → HandleTable
  channels : κ → Channel
  alive : κ → Bool
  threads : τ → Thread κ
  nextId : Nat
  mints : List (Koid × Rights)

inductive Act (π τ κ : Type) where
  | send (i : τ) (args : SendArgs)
  | recv (i : τ) (call : RecvCall)
  | advance (i : τ) (env : Env)
  | retire (i : τ)
  | take (i : τ) (h : Handle) (rights : Rights)
  | mint (p : π) (object : Koid) (rights : Rights) (limited : Bool) (room : Nat → Bool)
  | duplicate (p : π) (h : Handle) (rights : Rights) (room : Nat → Bool)
  | close (p : π) (h : Handle)
  | closeAll (p : π)
  | revoke (object : Koid)
  | closeEndpoint (k : κ)

namespace World

variable {D π τ κ : Type} [DecidableEq π] [DecidableEq τ] [DecidableEq κ] [Fintype τ]

def snapshot (t : HandleTable) (handles : List Handle) : List (Handle × Option Capability) :=
  handles.map fun h => (h, (t.capOf h).toOption)

variable (s : World D π τ κ)

def goto (i : τ) (phase : Phase κ) : World D π τ κ :=
  { s with threads := Function.update s.threads i { s.threads i with phase := phase } }

def start (i : τ) (args : SendArgs) : World D π τ κ :=
  let th := { s.threads i with phase := .send args, asked := args.named }
  { s with threads := Function.update s.threads i th }

def note (i : τ) (t : HandleTable) : World D π τ κ :=
  let th := s.threads i
  { s with threads := Function.update s.threads i { th with named := snapshot t th.asked } }

def setTable (p : π) (r : HandleTable × D) : World D π τ κ :=
  { s with tables := Function.update s.tables p r.1, domains := r.2 }

def setChannel (k : κ) (ch : Channel) : World D π τ κ :=
  { s with channels := Function.update s.channels k ch }

def sendError (batch : Bool) : ChannelError → SysError
  | .peerClosed => .peerClosed
  | .full => .wouldBlock
  | .empty => if batch then .wouldBlock else .invalid

def recvError : ChannelError → SysError
  | .peerClosed => .peerClosed
  | _ => .wouldBlock

variable (M : Wiring π τ κ) (Q : Quota D)

def advance (s : World D π τ κ) (i : τ) (env : Env) : Option (World D π τ κ) :=
  let p := M.process i
  let t := s.tables p
  let ended err := s.goto i (.done (.error err))
  match (s.threads i).phase with
  | .idle | .done _ => none
  | .send args =>
    let noted := s.note i t
    -- The calls read the caller's memory before the lookup, after it, or both: a fault
    -- ends this step or the next.
    match args.check with
    | .error err => some (noted.goto i (.done (.error err)))
    | .ok call =>
      match env.fault with
      | some err => some (noted.goto i (.done (.error err)))
      | none =>
        match t.lookupTyped s.objs call.ch .channel Rights.send with
        | .error err => some (noted.goto i (.done (.error err.code)))
        | .ok object => some (noted.goto i (.take call (M.endpoint object)))
  | .take call k =>
    let noted := s.note i t
    match env.fault with
    | some err => some (noted.goto i (.done (.error err)))
    | none =>
      -- A single send names one handle and has nothing to compare it with.
      if call.batch && hasRepeat call.handles then
        some (noted.goto i (.done (.error .invalid)))
      else
        match t.takeAll Q s.objs env.room call.handles [] s.domains with
        | (.ok taken, r) =>
          some ((noted.setTable p r).goto i (.deliver call k (call.batchOf taken)))
        | (.error err, r) => some ((noted.setTable p r).goto i (.done (.error err.code)))
  | .deliver call k batch =>
    let dst := M.peer k
    -- The message has its identity before the channel is asked.
    let msg := Message.new s.nextId call.bytes batch.caps
    let s := { s with nextId := (s.nextId + 1) % 2 ^ 64 }
    match Channel.sendInner Q env.ring msg (some (M.domain i))
        (if s.alive dst then some (s.channels dst) else none) s.domains with
    | (.ok ch, ds) =>
      some (({ s with domains := ds }.setChannel dst ch).goto i
        (.commit batch.handles (batch.kept.getD [])))
    | (.error (err, returned), ds) =>
      -- An attenuating send drops what came back and restores the originals it kept.
      some ({ s with domains := ds }.goto i
        (.restore (sendError call.batch err) (batch.entries returned)))
  | .commit handles _ =>
    some ((s.setTable p (t.commitAll Q handles s.domains)).goto i (.done (.ok 0)))
  | .restore err entries =>
    some ((s.setTable p (t.restoreAll Q env.room entries s.domains)).goto i (.done (.error err)))
  | .recv call =>
    match env.fault with
    | some err => some (ended err)
    | none =>
      match t.lookupTyped s.objs call.ch .channel Rights.receive with
      | .error err => some (ended err.code)
      | .ok object => some (s.goto i (.peek call (M.endpoint object) (ATTEMPTS - 1)))
  | .peek call k again =>
    match (s.channels k).peekIdentified (!s.alive (M.peer k)) with
    | .error err => some (ended (recvError err))
    | .ok (id, bytes, caps) =>
      if bytes > call.refuseAbove then some (ended .invalid)
      else some (s.goto i (.reserve call k again id caps))
  | .reserve call k again id caps =>
    let reserved := min caps call.installMax
    match t.reserve Q env.room env.bookRoom reserved s.domains with
    | (true, r) => some ((s.setTable p r).goto i (.receive call k again id reserved))
    | (false, r) => some ((s.setTable p r).goto i (.done (.error .resourceExhausted)))
  | .receive call k again id reserved =>
    match (s.channels k).recvIdentified (!s.alive (M.peer k)) id call.refuseAbove
        MAX_MESSAGE_CAPS with
    | .ok (msg, ch) => some ((s.setChannel k ch).goto i (.copyOut call k msg))
    | .error refusal => some (s.goto i (.release call k again reserved refusal))
  | .release call k again reserved refusal =>
    let s := s.setTable p (t.releaseReservation Q reserved s.domains)
    match refusal with
    | .superseded =>
      match again with
      | again + 1 => some (s.goto i (.peek call k again))
      | 0 => some (s.goto i (.done (.error .wouldBlock)))
    | .tooLarge | .tooManyCaps => some (s.goto i (.done (.error .invalid)))
    | .gone err => some (s.goto i (.done (.error (recvError err))))
  | .copyOut call k msg =>
    match env.fault with
    | some err => some (s.goto i (.giveUp call k msg err))
    | none => some (s.goto i (.settle call k msg))
  | .giveUp call k msg err =>
    -- The table's lock is released before the message goes back, so this is two steps.
    let given := min msg.caps.length call.installMax
    some ((s.setTable p (t.releaseReservation Q given s.domains)).goto i (.putBack k msg err))
  | .putBack k msg err =>
    some ((s.setChannel k ((s.channels k).returnToHead msg)).goto i (.done (.error err)))
  | .settle call k msg =>
    let r := (s.channels k).commitDelivery Q (!s.alive (M.peer k)) msg s.domains
    some (({ s with domains := r.2.2 }.setChannel k r.2.1).goto i
      (.install call (min msg.bytes.length call.bytesCap) r.1.1.caps))
  | .install call bytes caps =>
    -- What the caller has no room for is dropped with the message.
    let r := t.installAll Q env.room (caps.take call.installMax) s.domains
    let handles := if call.single then r.1.filter fun h => h.raw != 0 else r.1
    some ((s.setTable p r.2).goto i (.report bytes handles))
  | .report bytes handles =>
    match env.fault with
    | some err => some (s.goto i (.unwind handles err))
    | none => some (s.goto i (.done (.ok bytes)))
  | .unwind handles err =>
    some ((s.setTable p (t.closeHandles Q s.objs handles s.domains)).goto i (.done (.error err)))
  -- The capability is dropped.
  | .hold _ => some (s.goto i .idle)

/-- A step of the system. An endpoint closes when no call holds it. -/
def step (s : World D π τ κ) : Act π τ κ → Option (World D π τ κ)
  | .send i args =>
    match (s.threads i).phase with
    | .idle => some (s.start i args)
    | _ => none
  | .recv i call =>
    match (s.threads i).phase with
    | .idle => some (s.goto i (.recv call))
    | _ => none
  | .advance i env => s.advance M Q i env
  | .retire i =>
    match (s.threads i).phase with
    | .done _ => some (s.goto i .idle)
    | _ => none
  | .take i h rights =>
    match (s.threads i).phase with
    | .idle =>
      match (s.tables (M.process i)).take Q s.objs h rights s.domains with
      | (.ok cap, r) => some ((s.setTable (M.process i) r).goto i (.hold cap))
      | (.error _, r) => some (s.setTable (M.process i) r)
    | _ => none
  | .mint p object rights limited room =>
    let t := s.tables p
    let r :=
      if limited then (t.tryInsert Q room (Capability.new s.objs object rights) s.domains).2
      else (t.insertObject Q s.objs room object rights s.domains).2
    some { s.setTable p r with mints := (object, rights) :: s.mints }
  | .duplicate p h rights room =>
    some (s.setTable p ((s.tables p).duplicate Q s.objs room h rights s.domains).2)
  | .close p h => some (s.setTable p ((s.tables p).close Q s.objs h s.domains).2)
  | .closeAll p => some (s.setTable p ((s.tables p).closeAll Q s.domains))
  | .revoke object => some { s with objs := s.objs.revoke object }
  | .closeEndpoint k =>
    if ∀ i, (s.threads i).phase.endpoint ≠ some k then
      some { s with
             domains := Channel.drainInbox Q (s.channels k).inbox s.domains
             channels := Function.update s.channels k { s.channels k with inbox := [] }
             alive := Function.update s.alive k false }
    else none

end World

end LiberSystem
