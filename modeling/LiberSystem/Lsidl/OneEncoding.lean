import LiberSystem.Lsidl.RoundTrip

/-!
# One encoding per value

A reader skips the four bytes that stand for a handle without looking at them. Apart from these, a
message that is read is the message that is written of its value.
-/

namespace LiberSystem.Lsidl

open List

open Wire Reader

variable {σ : Schema} {t : Ty} {bytes : List UInt8} {handles : Handles} {v : Val}

theorem encodeMessage_of_decodeMessage {left : Handles}
    (h : decodeMessage σ t bytes handles = .ok (some v, left)) :
    bytes.length = v.marks.length ∧
      encodeMessage σ t v = some (cleared v.marks bytes, handles) := by
  obtain ⟨hread,-⟩ := decodeMessage_eq_some_iff.mp h
  have hold : ∀ bs, Grammar.read.placeholder bs → bs.length = 4 ∧ (False → bs = toLe 4 0) :=
    fun bs hlen => ⟨hlen,False.elim⟩
  have hzero : Grammar.written.placeholder (toLe 4 0) := rfl
  obtain ⟨hlen,hwritten,-⟩ := hread.respelled hold hzero fun h => by cases h
  exact ⟨hlen,encodeMessage_eq_some_iff.mpr hwritten⟩

theorem getElem?_cleared {marks : List Bool} {i : ℕ} (h : marks[i]? = some false) :
    (cleared marks bytes)[i]? = bytes[i]? := by
  rw [cleared,getElem?_zipWith,h]
  cases bytes[i]? <;> rfl

/-- Two messages of one value have the same handles, and the same bytes but for the four that stand
for each handle of the value. With these at zero a message is what is written of the value. -/
theorem one_encoding_but_for_handles (σ : Schema) (t : Ty) : ∀ bytes₁ handles₁ bytes₂ handles₂ v
      left₁ left₂, decodeMessage σ t bytes₁ handles₁ = .ok (some v, left₁) →
    decodeMessage σ t bytes₂ handles₂ = .ok (some v, left₂) →
    handles₁ = handles₂ ∧ bytes₁.length = bytes₂.length ∧
      (∀ i : ℕ, v.marks[i]? = some false → bytes₁[i]? = bytes₂[i]?) ∧
      encodeMessage σ t v = some (cleared v.marks bytes₁, handles₁) := by
  intro bytes₁ handles₁ bytes₂ handles₂ v left₁ left₂ h₁ h₂
  obtain ⟨hlen₁,hencode₁⟩ := encodeMessage_of_decodeMessage h₁
  obtain ⟨hlen₂,hencode₂⟩ := encodeMessage_of_decodeMessage h₂
  obtain ⟨hbytes,hhandles⟩ := Prod.mk.inj (Option.some.inj (hencode₁.symm.trans hencode₂))
  refine ⟨hhandles,hlen₁.trans hlen₂.symm,fun i hi => ?_,hencode₁⟩
  rw [← getElem?_cleared hi,hbytes,getElem?_cleared hi]

/-- A record with one handle. -/
def dirVal : Val := .record [.handle 7,.none,.record [.string "a",.list []]]

def dirHandles : Handles := ⟨[7],by decide⟩

theorem decodeMessage_dirVal :
    decodeMessage dirSchema (.named "dir") [0,0,0,0,0,1,0,97,0,0] dirHandles
      = .ok (some dirVal, .new) ∧
    decodeMessage dirSchema (.named "dir") [9,8,7,6,0,1,0,97,0,0] dirHandles
      = .ok (some dirVal, .new) := ⟨rfl,rfl⟩

theorem one_encoding_but_for_handles_dir :
    decodeMessage dirSchema (.named "dir") [9,8,7,6,0,1,0,97,0,0] dirHandles
      = .ok (some dirVal, .new) ∧
    encodeMessage dirSchema (.named "dir") dirVal
      = some (cleared dirVal.marks [9,8,7,6,0,1,0,97,0,0], dirHandles) :=
  ⟨decodeMessage_dirVal.2,(one_encoding_but_for_handles dirSchema (.named "dir") _ _ _ _ _ _ _
    decodeMessage_dirVal.2 decodeMessage_dirVal.1).2.2.2⟩

/-- A record with a handle is read whatever the bytes that stand for the handle are. -/
theorem handle_has_two_encodings : dirSchema.CapsFit ∧
    ∃ v bytes₁ bytes₂ handles, bytes₁ ≠ bytes₂ ∧
      decodeMessage dirSchema (.named "dir") bytes₁ handles = .ok (some v, .new) ∧
      decodeMessage dirSchema (.named "dir") bytes₂ handles = .ok (some v, .new) ∧
      encodeMessage dirSchema (.named "dir") v = some (bytes₁, handles) :=
  ⟨capsFit_dirSchema,_,_,_,_,by decide,decodeMessage_dirVal.1,decodeMessage_dirVal.2,rfl⟩

end LiberSystem.Lsidl
