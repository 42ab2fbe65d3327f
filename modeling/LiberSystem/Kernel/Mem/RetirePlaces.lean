import LiberSystem.Kernel.Mem.Retire
import LiberSystem.Lib.Custody

/-!
# Where a retired frame is

From the call that retires it until it is handed to the allocator, a frame is in one place: in the
hands of a call, in the quarantine, or recorded.
-/

namespace LiberSystem.Shootdown

open List Option Shootdown.World

def After.frames : After → List Frame
  | .done => []
  | .retry frame rest unqueued => frame :: (rest ++ unqueued)

def Next.frames : Next → List Frame
  | .done | .drain => []
  | .fill rest unqueued => rest ++ unqueued
  | .take _ after => after.frames

def Purpose.frames : Purpose → List Frame
  | .large frames => frames
  | .single frame rest unqueued => frame :: (rest ++ unqueued)
  | .batch unqueued _ => unqueued
  | .drain after => after.frames

def Pc.frames : Pc → List Frame
  | .idle => []
  | .fill rest unqueued => rest ++ unqueued
  | .retry frame rest unqueued => frame :: (rest ++ unqueued)
  | .shoot _ purpose => purpose.frames
  | .free frames next | .record frames next => frames ++ next.frames
  | .drain after | .take _ after => after.frames

@[simp]
theorem After.frames_pc (after : After) : after.pc.frames = after.frames := by
  cases after <;> rfl

@[simp]
theorem Next.frames_pc (next : Next) : next.pc.frames = next.frames := by
  cases next <;> rfl

@[simp]
theorem Purpose.frames_resume (complete : Bool) (since : Nat) (purpose : Purpose) :
    (purpose.resume complete since).frames = purpose.frames := by
  cases purpose with
  | large frames => cases complete <;> exact append_nil frames
  | single frame rest unqueued => cases complete <;> rfl
  | batch unqueued full => cases complete <;> cases full <;> exact append_nil unqueued
  | drain after =>
    cases complete with
    | false => exact after.frames_pc
    | true => rfl

@[simp]
theorem Machine.frames_enterShootdown (M : Machine) (clock : Nat) (purpose : Purpose) :
    (M.enterShootdown clock purpose).frames = purpose.frames := by
  unfold Machine.enterShootdown
  split
  · exact purpose.frames_resume true clock
  · split
    · exact purpose.frames_resume false clock
    · rfl

theorem Machine.frames_finish (M : Machine) (clock : Nat) (unqueued : List Frame) (full : Bool) :
    (M.finish clock unqueued full).frames = unqueued := by
  unfold Machine.finish
  split
  · next hnil =>
    rw [isEmpty_iff.mp hnil]
    split <;> rfl
  · rw [M.frames_enterShootdown]
    rfl

namespace World

variable {M : Machine} {s s' : World} {t : ThreadId} {e : Event}

def held (s : World) : Place → List Frame
  | .outside => []
  | .call t => (s.pcs t).frames
  | .quarantine => s.quarantine
  | .retired => s.retired

abbrev Placed (s : World) : Prop := InPlace s.held s.place .outside

theorem setPc_self (s : World) (t : ThreadId) (pc : Pc) : (s.setPc t pc).pcs t = pc := by
  dsimp only [setPc]
  rw [Function.update_self]

theorem setPc_of_ne (s : World) {u : ThreadId} (pc : Pc) (h : u ≠ t) :
    (s.setPc t pc).pcs u = s.pcs u := by
  dsimp only [setPc]
  rw [Function.update_of_ne h]

section

variable (h : s.Placed)
include h

theorem Placed.give (moved kept : List Frame) (dest : Place)
    (hperm : (s.pcs t).frames.Perm (moved ++ kept)) (hpcs : ∀ u ≠ t, s'.pcs u = s.pcs u)
    (hpc : (s'.pcs t).frames = kept)
    (hplace : ∀ f, s'.place f = if f ∈ moved then dest else s.place f)
    (hdest : ∀ u, dest ≠ .call u)
    (hqueue : s'.quarantine = s.quarantine ++ if dest = .quarantine then moved else [])
    (hretired : s'.retired = (if dest = .retired then moved else []) ++ s.retired) : s'.Placed := by
  have hnodup : (moved ++ kept).Nodup := hperm.nodup_iff.mp (h.nodup (.call t) nofun)
  refine InPlace.move h (.call t) dest (hdest t).symm (nodup_append.mp hnodup).1 (fun f hf => ?_)
    hplace (fun _ => ?_) (fun hout => ?_) fun p hp hd => ?_
  · exact (h.mem (.call t) nofun f).mp (hperm.mem_iff.mpr (mem_append_left _ hf))
  · rw [held,held,hpc]
    exact hperm
  · cases dest with
    | outside => exact absurd rfl hout
    | call u => exact absurd rfl (hdest u)
    | quarantine =>
      rw [held,held,hqueue,if_pos rfl]
      exact perm_append_comm
    | retired => exact .of_eq hretired
  · cases p with
    | outside => rfl
    | call u => exact congrArg Pc.frames (hpcs u fun hu => hp (hu ▸ rfl))
    | quarantine =>
      rw [if_neg hd.symm,append_nil] at hqueue
      exact hqueue
    | retired =>
      rw [if_neg hd.symm] at hretired
      exact hretired

theorem Placed.receive (moved : List Frame) (src : Place) (hsrc : ∀ f ∈ moved, s.place f = src)
    (hmoved : moved.Nodup) (hpcs : ∀ u ≠ t, s'.pcs u = s.pcs u)
    (hpc : (s'.pcs t).frames.Perm (moved ++ (s.pcs t).frames))
    (hplace : ∀ f, s'.place f = if f ∈ moved then .call t else s.place f)
    (hother : ∀ u, src ≠ .call u) (hretired : src ≠ .retired) (hretired' : s'.retired = s.retired)
    (hqueue : s.quarantine = s'.quarantine ++ if src = .quarantine then moved else []) :
    s'.Placed := by
  refine InPlace.move h src (.call t) (hother t) hmoved hsrc hplace (fun hout => ?_) (fun _ => hpc)
    fun p hp hd => ?_
  · cases src with
    | outside => exact absurd rfl hout
    | call u => exact absurd rfl (hother u)
    | quarantine =>
      rw [held,held,hqueue,if_pos rfl]
      exact perm_append_comm
    | retired => exact absurd rfl hretired
  · cases p with
    | outside => rfl
    | call u => exact congrArg Pc.frames (hpcs u fun hu => hd (hu ▸ rfl))
    | quarantine =>
      rw [if_neg hp.symm,append_nil] at hqueue
      exact hqueue.symm
    | retired => exact hretired'

theorem Placed.setPc {pc : Pc} (hperm : (s.pcs t).frames.Perm pc.frames) :
    (s.setPc t pc).Placed := by
  refine h.give [] pc.frames .outside hperm (fun u hu => s.setPc_of_ne pc hu) ?_
    (fun f => ?_) (by simp) ?_ (by simp [World.setPc])
  · rw [setPc_self]
  · simp [World.setPc]
  · simp [World.setPc]

theorem Placed.fill {rest unqueued : List Frame}
    (hperm : (s.pcs t).frames.Perm (rest ++ unqueued)) : (s.fill M t rest unqueued).Placed := by
  generalize hroom : QUARANTINE_CAPACITY - s.quarantine.length = room
  have hpc : ((s.fill M t rest unqueued).pcs t).frames = rest.drop room ++ unqueued := by
    unfold World.fill
    rw [hroom,setPc_self]
    split
    · next hnil =>
      rw [M.frames_finish,hnil]
      rfl
    · next frame rest' hcons =>
      rw [hcons]
      rfl
  refine h.give (rest.take room) (rest.drop room ++ unqueued) .quarantine ?_ (fun u hu => ?_)
    hpc (fun f => ?_) (by simp) ?_ rfl
  · rwa [← append_assoc,take_append_drop]
  · exact setPc_of_ne _ _ hu
  · rw [← hroom]
    rfl
  · rw [if_pos rfl,← hroom]
    rfl

theorem Placed.retry {frame : Frame} {rest unqueued : List Frame}
    (hpc : s.pcs t = .retry frame rest unqueued) : (s.retry M t frame rest unqueued).Placed := by
  have hframes : (s.pcs t).frames = frame :: (rest ++ unqueued) := by
    rw [hpc]
    rfl
  unfold World.retry
  split
  · exact h.fill (.of_eq hframes)
  split
  · refine h.fill (hframes ▸ ?_)
    rw [← append_assoc]
    exact (perm_append_singleton frame (rest ++ unqueued)).symm
  · refine h.setPc (.of_eq ?_)
    rw [hframes,M.frames_enterShootdown]
    rfl

theorem Placed.take {since : Nat} {after : After} (hpc : s.pcs t = .take since after) :
    (s.take t since after).Placed := by
  have hsplit : s.quarantine.take (s.quarantine.length - DRAIN_BATCH) ++ s.batch
      = s.quarantine := take_append_drop _ s.quarantine
  refine h.receive s.batch .quarantine (fun f hf => ?_) ?_ (fun u hu => setPc_of_ne _ _ hu) ?_
    (fun _ => rfl) (by simp) (by simp) rfl ?_
  · exact (h.mem .quarantine nofun f).mp (mem_of_mem_drop hf)
  · have hnodup : s.quarantine.Nodup := h.nodup .quarantine nofun
    rw [← hsplit] at hnodup
    exact (nodup_append.mp hnodup).2.1
  · unfold World.take
    rw [setPc_self,hpc]
    split
    · next hnil =>
      rw [isEmpty_iff.mp hnil,after.frames_pc]
      exact .refl _
    · exact .refl _
  · exact hsplit.symm

theorem Placed.go {timeout : Bool} (hstep : s.go M t timeout (s.pcs t) = some s') : s'.Placed := by
  generalize hpc : s.pcs t = pc at hstep
  cases pc with
  | idle =>
    cases hstep
  | fill rest unqueued =>
    cases hstep
    exact h.fill (.of_eq (congrArg Pc.frames hpc))
  | retry frame rest unqueued =>
    cases hstep
    exact h.retry hpc
  | shoot stage purpose =>
    simp only [World.go,map_eq_some_iff,Prod.exists] at hstep
    obtain ⟨tlb,out,-,rfl⟩ := hstep
    have hset : ∀ pc, pc.frames = purpose.frames → (s.setPc t pc).Placed :=
      fun pc heq => h.setPc (.of_eq ((congrArg Pc.frames hpc).trans heq.symm))
    refine hset _ ?_
    cases out with
    | go stage => rfl
    | returned complete generation => exact purpose.frames_resume complete _
  | free frames next | record frames next =>
    cases frames with
    | nil =>
      cases hstep
      exact h.setPc (.of_eq ((congrArg Pc.frames hpc).trans next.frames_pc.symm))
    | cons frame rest =>
      cases hstep
      refine h.give [frame] (rest ++ next.frames) _ (.of_eq (congrArg Pc.frames hpc))
        (fun u hu => setPc_of_ne _ _ hu) ?_ (fun _ => rfl) (by simp) (append_nil _).symm rfl
      change ((World.setPc _ t _).pcs t).frames = _
      rw [setPc_self]
      rfl
  | drain after =>
    cases hstep
    refine h.setPc (.of_eq ?_)
    rw [hpc]
    split
    · exact after.frames_pc.symm
    · rw [M.frames_enterShootdown]
      rfl
  | take since after =>
    cases hstep
    exact h.take hpc

theorem Placed.step (hstep : step M s e = some s') : s'.Placed := by
  cases e with
  | retire t frames =>
    simp only [step,ite_none_right_eq_some,some.injEq] at hstep
    obtain ⟨⟨hidle,hnodup,hout⟩,rfl⟩ := hstep
    have hpc : s.pcs t = .idle := by
      unfold idle at hidle
      split at hidle
      · next hpc => exact hpc
      · cases hidle
    refine h.receive frames .outside hout hnodup (fun u hu => setPc_of_ne _ _ hu) ?_
      (fun _ => rfl) (by simp) (by simp) rfl ?_
    · unfold retire
      rw [setPc_self,hpc]
      split
      · next hnil =>
        rw [isEmpty_iff.mp hnil]
        exact .refl _
      · split
        · rw [M.frames_enterShootdown]
          exact .of_eq (append_nil frames).symm
        · exact .refl _
    · rw [if_neg (by simp),append_nil]
      rfl
  | drain t =>
    simp only [step,ite_none_right_eq_some,some.injEq] at hstep
    obtain ⟨hidle,rfl⟩ := hstep
    refine h.setPc (.of_eq ?_)
    unfold idle at hidle
    split at hidle
    · next hpc =>
      rw [hpc]
      rfl
    · cases hidle
  | go t timeout => exact h.go hstep
  | flush c =>
    cases hstep
    exact h
  | look i c | serve i =>
    simp only [step,map_eq_some_iff] at hstep
    obtain ⟨tlb,-,rfl⟩ := hstep
    exact h

end

theorem placed_new : new.Placed := by
  constructor <;> rintro (_ | _ | _ | _) hout <;> simp_all [new,held,Pc.frames]

end World

end LiberSystem.Shootdown
