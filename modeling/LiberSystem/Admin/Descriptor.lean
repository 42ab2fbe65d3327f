import Mathlib.Algebra.GroupWithZero.Nat
import Mathlib.Data.List.Basic

/-!
# What a person is asked to confirm

The checks of `services/logic/src/admin_descriptor.rs`: the bounds of a request, and an executor's
answer against the request. The texts that are shown are left out; whether parameters can be put
into words is part of the bounds.
-/

namespace LiberSystem.Admin

def VERSION : Nat := 1
def MAX_LABEL : Nat := 128
def MAX_DESCRIPTOR : Nat := 4096
def MAX_PARAMETERS : Nat := 256
def MAX_NAME : Nat := 64
def DIGEST : Nat := 32
def MAX_UPLOAD : Nat := 2 ^ 20
def MAX_UPLOAD_NAME : Nat := 200

inductive Action where
  | firmwareDownload
  | probeWrite
  | bmcSelClear
  | bmcChassisControl
  | firmwareUpload
  deriving DecidableEq

structure Asked where
  action : Action
  target : String
  parameters : List UInt8
  payloadLength : Nat
  label : String
  deriving DecidableEq

/-- The operation as the executor froze it. -/
structure Descriptor where
  version : Nat
  action : Action
  executor : String
  executorEpoch : Nat
  target : String
  targetGeneration : Nat
  parameters : List UInt8
  payloadLength : Nat
  payloadDigest : List UInt8
  deriving DecidableEq

inductive Fault where
  | bounds
  | mismatch
  | malformed
  | unrenderable
  deriving DecidableEq

def operation (action : Action) (parameters : List UInt8) : Except Fault Unit :=
  match action with
  | .firmwareDownload | .probeWrite => .ok ()
  | .bmcSelClear => if parameters.length = 2 then .ok () else .error .unrenderable
  | .firmwareUpload =>
    if parameters.length < 4 then .error .unrenderable
    else
      let bound := (parameters.take 4).foldr (fun b n => b.toNat + 256 * n) 0
      let name := parameters.drop 4
      if !(ByteArray.mk name.toArray).validateUTF8 then .error .unrenderable
      else if bound = 0 ∨ bound > MAX_UPLOAD ∨ name.isEmpty ∨ name.length > MAX_UPLOAD_NAME then
        .error .unrenderable
      else .ok ()
  | .bmcChassisControl =>
    if parameters ∈ [[0],[2],[3],[5]] then .ok () else .error .unrenderable

def checkAsked (asked : Asked) : Except Fault Unit :=
  if asked.label.utf8ByteSize > MAX_LABEL ∨ asked.parameters.length > MAX_PARAMETERS ∨
      asked.target.utf8ByteSize > MAX_NAME ∨ asked.target.isEmpty then .error .bounds
  else operation asked.action asked.parameters

def checkPrepared (asked : Asked) (descriptor : Descriptor) (encoded : Nat) : Except Fault Unit :=
  if encoded > MAX_DESCRIPTOR then .error .bounds
  else if descriptor.version ≠ VERSION ∨ descriptor.payloadDigest.length ≠ DIGEST ∨
      descriptor.executor.isEmpty ∨ descriptor.target.isEmpty ∨
      descriptor.executor.utf8ByteSize > MAX_NAME ∨ descriptor.target.utf8ByteSize > MAX_NAME then
    .error .malformed
  else if descriptor.action ≠ asked.action ∨ descriptor.parameters ≠ asked.parameters ∨
      descriptor.payloadLength ≠ asked.payloadLength then .error .mismatch
  else .ok ()

end LiberSystem.Admin
