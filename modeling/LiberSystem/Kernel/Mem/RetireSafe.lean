import LiberSystem.Kernel.Mem.RetirePlaces

/-!
# No frame is reused while a core can translate to it

A drain frees what others have queued as well: also what was queued after its shootdown began, and
what its own core can still translate to.
-/

namespace LiberSystem.Shootdown

open List Option Shootdown.World

def Pc.freeing : Pc → Option Frame
  | .free (frame :: _) _ => some frame
  | _ => none

namespace World

variable (M : Machine) (s : World) (t : ThreadId)

/-- No core can translate to the frame: every one but that which unmapped it has flushed since. -/
def Safe (f : Frame) : Prop :=
  ∀ c < M.cpus, c ≠ s.unmapper f → s.unmapped f ≤ s.tlb.flushed c

/-- Every core but that of `t` has flushed since the clock was at `since`. -/
def Flushed (since : Nat) : Prop :=
  ∀ c < M.cpus, c ≠ M.core t → since ≤ s.tlb.flushed c

def Own (frames : List Frame) : Prop :=
  ∀ f ∈ frames, s.unmapper f = M.core t

def NextOk (next : Next) : Prop :=
  s.Own M t next.frames ∧ match next with
    | .take since _ => s.Flushed M t since
    | _ => True

/-- What a thread knows of the frames it has. -/
def PcOk : Pc → Prop
  | .idle => True
  | .fill rest unqueued => s.Own M t (rest ++ unqueued)
  | .retry frame rest unqueued => s.Own M t (frame :: (rest ++ unqueued))
  | .shoot stage purpose => s.tlb.StageOk M.cpus (M.core t) stage ∧ s.Own M t purpose.frames ∧
      ∀ g, stage.generation = some g → ∀ f ∈ purpose.frames, s.unmapped f ≤ s.tlb.began g
  | .free frames next => (∀ f ∈ frames, s.Safe M f) ∧ s.NextOk M t next
  | .record frames next => s.Own M t frames ∧ s.NextOk M t next
  | .drain after => s.Own M t after.frames
  | .take since after => s.Flushed M t since ∧ s.Own M t after.frames

variable {M s t} {s' : World} {e : Event} {pc : Pc}

theorem PcOk.mono (h : s.PcOk M t pc) (hle : s.tlb.Le s'.tlb)
    (hsame : ∀ f ∈ pc.frames, s'.unmapped f = s.unmapped f ∧ s'.unmapper f = s.unmapper f) :
    s'.PcOk M t pc := by
  have hown : ∀ frames, (∀ f ∈ frames, f ∈ pc.frames) → s.Own M t frames → s'.Own M t frames := by
    intro frames hsub hown f hf
    rw [(hsame f (hsub f hf)).2]
    exact hown f hf
  have hflushed : ∀ since, s.Flushed M t since → s'.Flushed M t since :=
    fun since h c hc hne => Nat.le_trans (h c hc hne) (hle.flushed c)
  have hnext : ∀ next : Next, (∀ f ∈ next.frames, f ∈ pc.frames) → s.NextOk M t next →
      s'.NextOk M t next := by
    intro next hsub h
    refine ⟨hown _ hsub h.1,?_⟩
    cases next with
    | take since after => exact hflushed since h.2
    | done | fill rest unqueued | drain => trivial
  cases pc with
  | idle => trivial
  | fill rest unqueued | retry frame rest unqueued | drain after => exact hown _ (fun _ hf => hf) h
  | shoot stage purpose =>
    refine ⟨h.1.le hle,hown _ (fun _ hf => hf) h.2.1,fun g hg f hf => ?_⟩
    rw [(hsame f hf).1,hle.began g (h.1.generation_le hg)]
    exact h.2.2 g hg f hf
  | free frames next =>
    refine ⟨fun f hf c hc hne => ?_,hnext next (fun f hf => mem_append_right _ hf) h.2⟩
    obtain ⟨hunmapped,hunmapper⟩ := hsame f (mem_append_left _ hf)
    rw [hunmapped]
    rw [hunmapper] at hne
    exact Nat.le_trans (h.1 f hf c hc hne) (hle.flushed c)
  | record frames next =>
    exact ⟨hown _ (fun f hf => mem_append_left _ hf) h.1,
      hnext next (fun f hf => mem_append_right _ hf) h.2⟩
  | take since after => exact ⟨hflushed since h.1,hown _ (fun _ hf => hf) h.2⟩

variable {after : After} {purpose : Purpose} {since : Nat} {unqueued rest : List Frame}
  {timeout : Bool}

theorem pcOk_after (h : s.Own M t after.frames) : s.PcOk M t after.pc := by
  cases after with
  | done => trivial
  | retry frame rest unqueued => exact h

theorem NextOk.pcOk {next : Next} (h : s.NextOk M t next) : s.PcOk M t next.pc := by
  cases next with
  | done => trivial
  | fill rest unqueued | drain => exact h.1
  | take since after => exact ⟨h.2,h.1⟩

theorem pcOk_resume {complete : Bool} (hown : s.Own M t purpose.frames)
    (hcomplete : complete → s.Flushed M t since ∧ ∀ f ∈ purpose.frames, s.unmapped f ≤ since) :
    s.PcOk M t (purpose.resume complete since) := by
  have hsafe : complete → ∀ f ∈ purpose.frames, s.Safe M f := by
    intro hc f hf c hcpu hne
    rw [hown f hf] at hne
    exact Nat.le_trans ((hcomplete hc).2 f hf) ((hcomplete hc).1 c hcpu hne)
  have hnone : s.Own M t [] := fun f hf => (by cases hf)
  cases purpose with
  | large frames =>
    cases complete with
    | false =>
      change s.Own M t (frames ++ [])
      rw [append_nil]
      exact hown
    | true => exact ⟨hsafe rfl,hnone,trivial⟩
  | single frame rest unqueued =>
    have hrest : s.Own M t (rest ++ unqueued) := fun f hf => hown f (mem_cons_of_mem frame hf)
    have hframe := hown frame mem_cons_self
    cases complete with
    | false => exact ⟨by simpa [Own] using hframe,hrest,trivial⟩
    | true =>
      exact ⟨by simpa using hsafe rfl frame mem_cons_self,hrest,trivial⟩
  | batch unqueued full =>
    cases complete with
    | false =>
      refine ⟨hown,?_⟩
      cases full <;> exact ⟨hnone,trivial⟩
    | true => exact ⟨hsafe rfl,hnone,trivial⟩
  | drain after =>
    cases complete with
    | false => exact pcOk_after hown
    | true => exact ⟨(hcomplete rfl).1,hown⟩

theorem pcOk_enterShootdown (hle : ∀ f, s.unmapped f ≤ s.tlb.clock)
    (hown : s.Own M t purpose.frames) : s.PcOk M t (M.enterShootdown s.tlb.clock purpose) := by
  unfold Machine.enterShootdown
  split
  · next hone =>
    -- There is no other core.
    refine pcOk_resume hown fun _ => ⟨fun c hc hne => ?_,fun f _ => hle f⟩
    have hc0 : c = 0 := Nat.lt_one_iff.mp (Nat.lt_of_lt_of_le hc hone)
    have hcore : M.core t = 0 := Nat.lt_one_iff.mp (Nat.lt_of_lt_of_le (M.core_lt t) hone)
    exact absurd (hc0.trans hcore.symm) hne
  · split
    · exact pcOk_resume hown fun hc => (by cases hc)
    · exact ⟨trivial,hown,fun g hg => (by cases hg)⟩

/-- The clocks of the frames. -/
structure Sound (M : Machine) (s : World) : Prop where
  placed : s.Placed
  tlb : s.tlb.Ok
  unmapped_le : ∀ f, s.unmapped f ≤ s.tlb.clock
  pcs : ∀ t, s.PcOk M t (s.pcs t)

section

variable (h : s.Sound M)
include h

theorem Sound.finish (hown : s.Own M t unqueued)
    (full : Bool) : s.PcOk M t (M.finish s.tlb.clock unqueued full) := by
  unfold Machine.finish
  split
  · split
    · exact fun f hf => (by cases hf)
    · trivial
  · exact pcOk_enterShootdown h.unmapped_le hown

theorem Sound.of_pc (hplaced : s'.Placed) (htlb : s'.tlb = s.tlb)
    (hunmapped : s'.unmapped = s.unmapped) (hunmapper : s'.unmapper = s.unmapper)
    (hpcs : ∀ u ≠ t, s'.pcs u = s.pcs u) (hpc : s.PcOk M t (s'.pcs t)) : s'.Sound M := by
  have hmono : ∀ u pc, s.PcOk M u pc → s'.PcOk M u pc := by
    intro u pc hok
    refine hok.mono (htlb ▸ .refl s.tlb) fun f _ => ?_
    rw [hunmapped,hunmapper]
    exact ⟨rfl,rfl⟩
  refine ⟨hplaced,htlb ▸ h.tlb,?_,fun u => ?_⟩
  · rw [htlb,hunmapped]
    exact h.unmapped_le
  by_cases hu : u = t
  · rw [hu]
    exact hmono t _ hpc
  · rw [hpcs u hu]
    exact hmono u _ (h.pcs u)

theorem Sound.setPc (hplaced : (s.setPc t pc).Placed) (hpc : s.PcOk M t pc) :
    (s.setPc t pc).Sound M := by
  refine h.of_pc hplaced rfl rfl rfl (fun u hu => s.setPc_of_ne pc hu) ?_
  rw [setPc_self]
  exact hpc

theorem Sound.fill (hplaced : (s.fill M t rest unqueued).Placed)
    (hown : s.Own M t (rest ++ unqueued)) : (s.fill M t rest unqueued).Sound M := by
  refine h.of_pc hplaced rfl rfl rfl (fun u hu => setPc_of_ne _ _ hu) ?_
  unfold World.fill
  rw [setPc_self]
  split
  · exact h.finish (fun f hf => hown f (mem_append_right rest hf)) _
  next frame rest' hcons =>
  intro f hf
  refine hown f ?_
  rw [← take_append_drop (QUARANTINE_CAPACITY - s.quarantine.length) rest,hcons,append_assoc]
  exact mem_append_right _ hf

theorem Sound.retry {frame : Frame} (hplaced : (s.retry M t frame rest unqueued).Placed)
    (hown : s.Own M t (frame :: (rest ++ unqueued))) :
    (s.retry M t frame rest unqueued).Sound M := by
  unfold World.retry at hplaced ⊢
  split
  · next hroom =>
    rw [if_pos hroom] at hplaced
    exact h.fill hplaced hown
  next hroom =>
  rw [if_neg hroom] at hplaced
  split
  · next hsmall =>
    rw [if_pos hsmall] at hplaced
    refine h.fill hplaced fun f hf => hown f ?_
    simp only [mem_append,mem_cons,not_mem_nil,or_false] at hf ⊢
    rcases hf with hf | hf | hf
    · exact .inr (.inl hf)
    · exact .inr (.inr hf)
    · exact .inl hf
  · next hsmall =>
    rw [if_neg hsmall] at hplaced
    exact h.setPc hplaced (pcOk_enterShootdown h.unmapped_le hown)

end

/-- Every frame of a batch was unmapped before the drain's shootdown of the other cores began. A
core that this does not speak of has unmapped the frame itself, or has flushed since. -/
def batchCovered (M : Machine) (s : World) (t : ThreadId) (since : Nat) : Bool :=
  s.batch.all fun f => decide (∀ c < M.cpus, c ≠ s.unmapper f →
    (c ≠ M.core t ∧ s.unmapped f ≤ since) ∨ s.unmapped f ≤ s.tlb.flushed c)

/-- A drain takes only what its shootdown covers and its own core cannot translate to. -/
def orderly (M : Machine) (s : World) : Event → Bool
  | .go t _ =>
    match s.pcs t with
    | .take since _ => s.batchCovered M t since
    | _ => true
  | _ => true

section

variable (h : s.Sound M)
include h

theorem Sound.take (hplaced : (s.take t since after).Placed)
    (hok : s.PcOk M t (.take since after)) (hcovered : s.batchCovered M t since) :
    (s.take t since after).Sound M := by
  refine h.of_pc hplaced rfl rfl rfl (fun u hu => setPc_of_ne _ _ hu) ?_
  unfold World.take
  rw [setPc_self]
  split
  · exact pcOk_after hok.2
  refine ⟨fun f hf c hc hne => ?_,hok.2,hok.1⟩
  rcases of_decide_eq_true (all_eq_true.mp hcovered f hf) c hc hne with ⟨hcore,hsince⟩ | hflushed
  · exact Nat.le_trans hsince (hok.1 c hc hcore)
  · exact hflushed

theorem Sound.shoot {stage : Stage} (hpc : s.pcs t = .shoot stage purpose)
    (hplaced : s'.Placed)
    (hstep : s.go M t timeout (.shoot stage purpose) = some s') : s'.Sound M := by
  simp only [go,map_eq_some_iff,Prod.exists] at hstep
  obtain ⟨tlb,out,hshoot,rfl⟩ := hstep
  have hok := h.pcs t
  rw [hpc] at hok
  obtain ⟨hstage,hown,hbegan⟩ := hok
  obtain ⟨htlb,hle,hout⟩ := h.tlb.shoot hstage hshoot
  refine ⟨hplaced,htlb,fun f => Nat.le_trans (h.unmapped_le f) hle.clock,fun u => ?_⟩
  by_cases hu : u = t
  · subst hu
    rw [setPc_self]
    cases out with
    | go stage' =>
      refine ⟨hout.1,hown,fun g hg f hf => ?_⟩
      rcases hout.2 g hg with hold | hnow
      · rw [hle.began g (hstage.generation_le hold)]
        exact hbegan g hold f hf
      · rw [hnow]
        exact h.unmapped_le f
    | returned complete generation =>
      dsimp only at hout
      subst hout
      have hsame : tlb.began generation = s.tlb.began generation := hle.began generation hstage.1
      refine pcOk_resume hown fun hcomplete => ⟨fun c hc hne => ?_,fun f hf => ?_⟩
      · rw [hsame]
        exact Nat.le_trans (hstage.2 hcomplete c hc hne) (hle.flushed c)
      · rw [hsame]
        exact hbegan generation rfl f hf
  · rw [setPc_of_ne _ _ hu]
    exact (h.pcs u).mono hle fun _ _ => ⟨rfl,rfl⟩

theorem Sound.go (hok : s.orderly M (.go t timeout))
    (hstep : s.go M t timeout (s.pcs t) = some s') : s'.Sound M := by
  have hplaced := h.placed.go hstep
  have hpcOk := h.pcs t
  dsimp only [orderly] at hok
  generalize hpc : s.pcs t = pc at hstep hpcOk hok
  cases pc with
  | idle =>
    cases hstep
  | fill rest unqueued =>
    cases hstep
    exact h.fill hplaced hpcOk
  | retry frame rest unqueued =>
    cases hstep
    exact h.retry hplaced hpcOk
  | shoot stage purpose =>
    exact h.shoot hpc hplaced hstep
  | free frames next | record frames next =>
    cases frames with
    | nil =>
      cases hstep
      exact h.setPc hplaced hpcOk.2.pcOk
    | cons frame rest =>
      cases hstep
      refine h.of_pc hplaced rfl rfl rfl (fun u hu => setPc_of_ne _ _ hu) ?_
      rw [setPc_self]
      exact ⟨fun f hf => hpcOk.1 f (mem_cons_of_mem frame hf),hpcOk.2⟩
  | drain after =>
    cases hstep
    refine h.setPc hplaced ?_
    split
    · exact pcOk_after hpcOk
    · exact pcOk_enterShootdown h.unmapped_le hpcOk
  | take since after =>
    cases hstep
    exact h.take hplaced hpcOk hok

theorem Sound.tlb_le {tlb : Tlb} (hok : tlb.Ok) (hle : s.tlb.Le tlb) :
    ({ s with tlb := tlb }).Sound M where
  placed := h.placed
  tlb := hok
  unmapped_le f := Nat.le_trans (h.unmapped_le f) hle.clock
  pcs u := (h.pcs u).mono hle fun _ _ => ⟨rfl,rfl⟩

theorem Sound.retire {frames : List Frame} (hout : ∀ f ∈ frames, s.place f = .outside)
    (hplaced : (s.retire M t frames).Placed) : (s.retire M t frames).Sound M := by
  obtain ⟨htlb,hle⟩ := h.tlb.tick
  have hunmapped : ∀ f, (s.retire M t frames).unmapped f
      = if f ∈ frames then s.tlb.clock + 1 else s.unmapped f := fun _ => rfl
  have hunmapper : ∀ f, (s.retire M t frames).unmapper f
      = if f ∈ frames then M.core t else s.unmapper f := fun _ => rfl
  have hown : (s.retire M t frames).Own M t frames := by
    intro f hf
    rw [hunmapper f,if_pos hf]
  have hle_clock : ∀ f, (s.retire M t frames).unmapped f ≤ s.tlb.clock + 1 := by
    intro f
    rw [hunmapped f]
    split
    · exact Nat.le_refl _
    · exact Nat.le_succ_of_le (h.unmapped_le f)
  refine ⟨hplaced,htlb,hle_clock,fun u => ?_⟩
  by_cases hu : u = t
  · subst hu
    unfold retire
    rw [setPc_self]
    split
    · trivial
    split
    · exact pcOk_enterShootdown hle_clock hown
    · change Own M (s.retire M u frames) u (frames ++ [])
      rw [append_nil]
      exact hown
  · have hpcs : (s.retire M t frames).pcs u = s.pcs u := setPc_of_ne _ _ hu
    rw [hpcs]
    refine (h.pcs u).mono hle fun f hf => ?_
    have hnot : f ∉ frames := by
      intro hmem
      have := (h.placed.mem (.call u) nofun f).mp hf
      rw [hout f hmem] at this
      cases this
    rw [hunmapped f,hunmapper f,if_neg hnot,if_neg hnot]
    exact ⟨rfl,rfl⟩

theorem Sound.step (hok : s.orderly M e) (hstep : step M s e = some s') : s'.Sound M := by
  have hplaced := h.placed.step hstep
  cases e with
  | retire t frames =>
    simp only [step,ite_none_right_eq_some,Option.some.injEq] at hstep
    obtain ⟨⟨-,-,hout⟩,rfl⟩ := hstep
    exact h.retire hout hplaced
  | drain t =>
    simp only [step,ite_none_right_eq_some,Option.some.injEq] at hstep
    obtain ⟨-,rfl⟩ := hstep
    exact h.setPc hplaced fun f hf => (by cases hf)
  | go t timeout => exact h.go hok hstep
  | flush c =>
    cases hstep
    obtain ⟨htlb,hle⟩ := h.tlb.flushLocal c
    exact h.tlb_le htlb hle
  | look i c =>
    simp only [step,map_eq_some_iff] at hstep
    obtain ⟨tlb,hlook,rfl⟩ := hstep
    obtain ⟨htlb,hle⟩ := h.tlb.look hlook
    exact h.tlb_le htlb hle
  | serve i =>
    simp only [step,map_eq_some_iff] at hstep
    obtain ⟨tlb,hserve,rfl⟩ := hstep
    obtain ⟨htlb,hle⟩ := h.tlb.serve hserve
    exact h.tlb_le htlb hle

end

theorem sound_new (M : Machine) : new.Sound M :=
  ⟨placed_new,Tlb.ok_new,fun _ => Nat.le_refl _,fun _ => trivial⟩

/-- As long as a drain takes only what its shootdown covers, a frame that is about to be handed to
the allocator is one that no core can translate to. And in any case a frame that has been retired
and not been handed back is in the quarantine, recorded, or in the hands of a call. -/
theorem retired_frames_safe (M : Machine) (s : World) :
    (Reaches (step M) (fun s e => s.orderly M e = true) new s →
      ∀ t frame, (s.pcs t).freeing = some frame →
        ∀ c < M.cpus, c ≠ s.unmapper frame → s.unmapped frame ≤ s.tlb.flushed c) ∧
    (Reaches (step M) (fun _ _ => True) new s → ∀ f, s.place f ≠ .outside →
      f ∈ s.quarantine ∨ f ∈ s.retired ∨ ∃ t, f ∈ (s.pcs t).frames) := by
  refine ⟨fun h t frame hfreeing => ?_,fun h f hf => ?_⟩
  · have hs : s.Sound M := h.invariant (sound_new M) fun _ _ _ hs hok hstep => hs.step hok hstep
    have hok := hs.pcs t
    unfold Pc.freeing at hfreeing
    split at hfreeing
    · next rest next hpc =>
      cases hfreeing
      rw [hpc] at hok
      exact hok.1 frame mem_cons_self
    · cases hfreeing
  · have hs : s.Placed := h.invariant placed_new fun _ _ _ hs _ hstep => hs.step hstep
    cases hplace : s.place f with
    | outside => exact absurd hplace hf
    | call t => exact .inr (.inr ⟨t,(hs.mem (.call t) nofun f).mpr hplace⟩)
    | quarantine => exact .inl ((hs.mem .quarantine nofun f).mpr hplace)
    | retired => exact .inr (.inl ((hs.mem .retired nofun f).mpr hplace))

def threeCores : Machine where
  cpus := 3
  core t := t % 3
  core_lt t := Nat.mod_lt t (by decide)

def draining : List Event :=
  [.drain 0] ++ List.replicate 7 (.go 0 false) ++
    [.look 0 1,.serve 0,.serve 0,.look 1 2,.serve 1,.serve 1]

/-- A thread drains a queue with a frame of its own core and one of another core, after its own
core has flushed. -/
theorem retired_frames_safe_drain :
    (∃ s, Reaches (step threeCores) (fun s e => s.orderly threeCores e = true) new s ∧
      (s.pcs 0).freeing = some 10 ∧ s.unmapped 10 = 1 ∧ 1 ≤ s.tlb.flushed 2) ∧
    ∃ s, Reaches (step threeCores) (fun s e => s.orderly threeCores e = true) new s ∧
      (s.pcs 0).freeing = some 20 ∧ s.unmapped 20 = 2 ∧ s.unmapper 20 = 1 ∧
      2 ≤ s.tlb.flushed 0 ∧ 2 ≤ s.tlb.flushed 2 := by
  let queued : List Event :=
    [.retire 0 [10],.go 0 false,.retire 1 [20],.go 1 false,.flush 0] ++ draining
  constructor
  · refine exists_reaches_imp
      (P := fun s => (s.pcs 0).freeing = some 10 ∧ s.unmapped 10 = 1 ∧ s.unmapper 10 = 0)
      (queued ++ List.replicate 3 (.go 0 false))
      (by decide +kernel) fun s hrun ⟨hfreeing,hunmapped,hunmapper⟩ => ?_
    have hsafe := (retired_frames_safe threeCores s).1 hrun 0 10 hfreeing 2 (by decide)
      (by rw [hunmapper]; decide)
    exact ⟨hfreeing,hunmapped,hunmapped ▸ hsafe⟩
  · refine exists_reaches_imp
      (P := fun s => (s.pcs 0).freeing = some 20 ∧ s.unmapped 20 = 2 ∧ s.unmapper 20 = 1)
      (queued ++ List.replicate 4 (.go 0 false))
      (by decide +kernel) fun s hrun ⟨hfreeing,hunmapped,hunmapper⟩ => ?_
    have hsafe := (retired_frames_safe threeCores s).1 hrun 0 20 hfreeing
    rw [hunmapped,hunmapper] at hsafe
    exact ⟨hfreeing,hunmapped,hunmapper,hsafe 0 (by decide) (by decide),
      hsafe 2 (by decide) (by decide)⟩

/-- A frame is queued after the other cores have answered the drain's shootdown and before the
drain takes the queue: it is freed, and the third core has not flushed since. And a frame that
another core has unmapped is freed by a core that has not flushed since, with no race at all. -/
theorem stale_frame_freed :
    (∃ s, Reaches (step threeCores) (fun _ _ => True) new s ∧ (s.pcs 0).freeing = some 20 ∧
      s.unmapper 20 = 1 ∧ s.tlb.flushed 2 < s.unmapped 20) ∧
    ∃ s, Reaches (step threeCores) (fun _ _ => True) new s ∧ (s.pcs 0).freeing = some 20 ∧
      s.unmapper 20 = 1 ∧ s.tlb.flushed 0 < s.unmapped 20 := by
  constructor
  · exact exists_reaches ([.retire 0 [10],.go 0 false] ++ draining ++
      [.retire 1 [20],.go 1 false] ++ List.replicate 4 (.go 0 false)) (by decide +kernel)
  · exact exists_reaches ([.retire 1 [20],.go 1 false] ++ draining ++
      List.replicate 3 (.go 0 false)) (by decide +kernel)

end World

end LiberSystem.Shootdown
