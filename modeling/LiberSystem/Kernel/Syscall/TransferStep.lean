import LiberSystem.Kernel.Object.ChannelRun
import LiberSystem.Kernel.Syscall.TransferBatch

/-!
# One step of a send or of a receive

`Advanced` says, once for all phases, what a step does to one table, one thread and one endpoint,
and where the step refuses a send, to the handles that the send names.
-/

namespace LiberSystem

open Function Multiset List Channel Capability

def Channel.queued (ch : Channel) : Multiset Capability :=
  (ch.inbox.flatMap Message.caps : List Capability)

/-! ### What a thread has in hand -/

namespace Phase

variable {κ : Type}

/-- The capabilities in the hands of a thread that bear authority. While a send is in
progress an original and the copy that travels for it are one. -/
def counted : Phase κ → List Capability
  | .deliver _ _ batch => batch.kept.getD batch.caps
  | .restore _ entries => entries.map Prod.snd
  | .copyOut _ _ msg | .giveUp _ _ msg _ | .putBack _ msg _ | .settle _ _ msg => msg.caps
  | .install _ _ caps => caps
  | .hold cap => [cap]
  | _ => []

/-- All capabilities in the hands of a thread: originals, the copies that travel for
them, and the originals of a message that was delivered. -/
def held : Phase κ → List Capability
  | .deliver _ _ batch => batch.kept.getD [] ++ batch.caps
  | .commit _ kept => kept
  | phase => phase.counted

def taken : Phase κ → List Handle
  | .deliver _ _ batch => batch.handles
  | .commit handles _ => handles
  | .restore _ entries => entries.map Prod.fst
  | _ => []

variable {phase : Phase κ}

variable (h : phase.sends = false)
include h

theorem held_of_not_sends : phase.held = phase.counted := by
  cases phase <;> first | rfl | cases h

theorem taken_of_not_sends : phase.taken = [] := by
  cases phase <;> first | rfl | cases h

end Phase

/-- A send in progress has in hand what the handles held that it was asked to send. -/
def Thread.Wf {κ : Type} (th : Thread κ) : Prop :=
  match th.phase with
  | .send args => th.asked = args.named
  | .take call _ => th.asked = call.handles
  | .deliver call _ batch => ∃ all : List (Handle × Capability), batch = call.batchOf all ∧
      th.asked = all.map Prod.fst ∧ th.named = all.map fun e => (e.1, some e.2)
  | .restore _ entries =>
      th.asked = entries.map Prod.fst ∧ th.named = entries.map fun e => (e.1, some e.2)
  | _ => True

theorem Thread.wf_of_not_sends {κ : Type} {th : Thread κ} (h : th.phase.sends = false) : th.Wf := by
  unfold Wf
  cases hph : th.phase <;> first | trivial | (rw [hph] at h; cases h)

theorem Thread.Wf.deliver {κ : Type} {th : Thread κ} {call : SendCall} {k : κ} {batch : Batch}
    (h : th.Wf) (hph : th.phase = .deliver call k batch) :
    ∃ all : List (Handle × Capability), batch = call.batchOf all ∧
      th.asked = all.map Prod.fst ∧ th.named = all.map fun e => (e.1, some e.2) := by
  unfold Wf at h
  rw [hph] at h
  exact h

variable {call : SendCall} {cap : Capability} {args : SendArgs} {all : List (Handle × Capability)}
  {ch : Channel}

theorem SendArgs.named_of_check (h : args.check = .ok call) : args.named = call.handles := by
  cases args with
  | send ch bytes xfer =>
    simp only [check,sysChannelSend] at h
    split at h <;> cases h
    rfl
  | sendAttenuated | sendCaps | sendCapsAttenuated =>
    simp only [check,sysChannelSendAttenuated,sysChannelSendCaps,sysChannelSendCapsAttenuated] at h
    split_ifs at h
    cases h
    rfl

namespace SendCall

variable (call : SendCall) (all : List (Handle × Capability))

theorem batchOf_kept : (call.batchOf all).kept.getD (call.batchOf all).caps = all.map Prod.snd := by
  unfold batchOf
  cases call.masks <;> rfl

theorem batchOf_entries : (call.batchOf all).entries (call.batchOf all).caps = all := by
  unfold Batch.entries
  rw [batchOf_kept]
  exact (zip_of_prod rfl rfl).symm

theorem zipWith_attenuated_objects : ∀ (all : List (Handle × Capability)) (masks : List Rights),
    ((zipWith (fun e mask => attenuated e.2 mask) all masks).map
      object).Sublist ((all.map Prod.snd).map object)
  | [], _ => List.Sublist.refl _
  | _ :: _, [] => nil_sublist _
  | _ :: rest, _ :: masks => (zipWith_attenuated_objects rest masks).cons_cons _

theorem batchOf_objects : ((call.batchOf all).caps.map object).Sublist
    ((all.map Prod.snd).map object) := by
  unfold batchOf
  cases call.masks with
  | none => exact List.Sublist.refl _
  | some masks => exact zipWith_attenuated_objects all masks

end SendCall

theorem Batch.mem_of_entries {batch : Batch} (h : cap ∈ (batch.entries batch.caps).map Prod.snd) :
    cap ∈ batch.kept.getD [] ++ batch.caps := by
  obtain ⟨e,he,rfl⟩ := mem_map.mp h
  have hmem := (of_mem_zip he).2
  cases hk : batch.kept with
  | none =>
    rw [hk] at hmem
    exact hmem
  | some kept =>
    rw [hk] at hmem
    exact mem_append_left _ hmem

def Capability.DerivesFrom (cap origin : Capability) : Prop :=
  cap = origin ∨ ∃ mask, cap = origin.attenuated mask

theorem SendCall.batchOf_derives
    (h : cap ∈ (call.batchOf all).kept.getD [] ++ (call.batchOf all).caps) :
    ∃ origin ∈ all.map Prod.snd, cap.DerivesFrom origin := by
  unfold batchOf at h
  cases hm : call.masks with
  | none =>
    rw [hm] at h
    exact ⟨cap,by simpa using h,.inl rfl⟩
  | some masks =>
    rw [hm] at h
    rcases mem_append.mp h with h | h
    · exact ⟨cap,h,.inl rfl⟩
    have h : cap ∈ zipWith (fun e mask => attenuated e.2 mask) all masks := h
    rw [← map_uncurry_zip_eq_zipWith] at h
    obtain ⟨⟨e,mask⟩,hmem,rfl⟩ := mem_map.mp h
    exact ⟨e.2,mem_map_of_mem (of_mem_zip hmem).1,.inr ⟨mask,rfl⟩⟩

/-! ### What a step does -/

def stock (t : HandleTable) (hand : List Capability) (ch : Channel) : Multiset Capability :=
  t.caps + (hand : Multiset Capability) + ch.queued

theorem stock_le {t t' : HandleTable} {hand hand' : List Capability}
    (h : t'.caps + (hand' : Multiset Capability) ≤ t.caps + hand) :
    stock t' hand' ch ≤ stock t hand ch :=
  Multiset.add_le_add_right h

structure Advanced {κ : Type} (room : Nat → Bool) (t t' : HandleTable) (th th' : Thread κ)
    (ch ch' : Channel) : Prop where
  objects : th.Wf → (stock t' th'.phase.counted ch').map Capability.object ≤
    (stock t th.phase.counted ch).map Capability.object
  derives : ∀ cap ∈ stock t' th'.phase.held ch', ∃ origin ∈ stock t th.phase.held ch,
    cap.DerivesFrom origin
  wf : th.Wf → th'.Wf
  owned : th.Wf → RoomBounded room → ∀ {rest : Multiset Handle},
    TableInv t ((th.phase.taken : Multiset Handle) + rest) →
    TableInv t' ((th'.phase.taken : Multiset Handle) + rest)
  refused : th.Wf → RoomBounded room → ∀ {rest : Multiset Handle},
    TableInv t ((th.phase.taken : Multiset Handle) + rest) → t.closed = false →
    th.phase.sends = true → ∀ {err : SysError}, th'.phase = .done (.error err) →
    th'.named = World.snapshot t' th'.asked

namespace Advanced

variable {κ : Type} {room : Nat → Bool} {t t' : HandleTable} {th th' : Thread κ}
  {ch ch' : Channel}

theorem derives_of_le {m m' : Multiset Capability} (h : m' ≤ m) :
    ∀ cap ∈ m', ∃ origin ∈ m, cap.DerivesFrom origin :=
  fun cap hcap => ⟨cap,mem_of_le h hcap,.inl rfl⟩

section Receive

variable {phase : Phase κ} (hph : th.phase = phase) (hs : phase.sends = false)
  (hs' : th'.phase.sends = false)

include hph hs hs'

theorem of_receive (hle : stock t' th'.phase.counted ch' ≤ stock t phase.counted ch)
    (hinv : RoomBounded room → ∀ {rest : Multiset Handle}, TableInv t rest → TableInv t' rest) :
    Advanced room t t' th th' ch ch' := by
  subst hph
  refine ⟨fun _ => map_le_map hle,?_,fun _ => Thread.wf_of_not_sends hs',fun _ hroom rest h => ?_,
    fun _ _ _ _ _ hsend => ?_⟩
  · rw [Phase.held_of_not_sends hs,Phase.held_of_not_sends hs']
    exact derives_of_le hle
  · rw [Phase.taken_of_not_sends hs] at h
    rw [Phase.taken_of_not_sends hs']
    exact hinv hroom h
  · rw [hs] at hsend
    cases hsend

theorem of_receive_quiet (hle : th'.phase.counted.Sublist phase.counted) :
    Advanced room t t th th' ch ch :=
  of_receive hph hs hs'
    (stock_le (Multiset.add_le_add_left (Multiset.coe_le.mpr hle.subperm))) fun _ _ h => h

theorem of_receive_table
    (hle : t'.caps + (th'.phase.counted : Multiset Capability) ≤ t.caps + phase.counted)
    (hinv : RoomBounded room → ∀ {rest : Multiset Handle}, TableInv t rest → TableInv t' rest) :
    Advanced room t t' th th' ch ch :=
  of_receive hph hs hs' (stock_le hle) hinv

theorem of_receive_channel (heq : (th'.phase.counted : Multiset Capability) + ch'.queued =
    (phase.counted : Multiset Capability) + ch.queued) : Advanced room t t th th' ch ch' := by
  refine of_receive hph hs hs' (le_of_eq ?_) fun _ _ h => h
  unfold stock
  rw [add_assoc,add_assoc,heq]

end Receive

theorem of_started (hs : th.phase.sends = false) (hph' : th'.phase = .send args)
    (hasked : th'.asked = args.named) : Advanced room t t th th' ch ch where
  objects _ := by
    rw [hph']
    exact map_le_map (stock_le (Multiset.add_le_add_left (zero_le _)))
  derives := by
    rw [hph']
    exact derives_of_le (stock_le (Multiset.add_le_add_left (zero_le _)))
  wf _ := by
    unfold Thread.Wf
    rw [hph']
    exact hasked
  owned _ _ rest h := by
    rw [Phase.taken_of_not_sends hs] at h
    rw [hph']
    exact h
  refused _ _ _ _ _ hsend := by
    rw [hs] at hsend
    cases hsend

theorem of_noted (hold : th.phase.held = []) (hold' : th'.phase.held = [])
    (hcount : th.phase.counted = []) (hcount' : th'.phase.counted = [])
    (htaken : th.phase.taken = []) (htaken' : th'.phase.taken = [])
    (hwf : th.Wf → th'.Wf) (hnamed : th'.named = World.snapshot t th'.asked)
    (hcaps : t'.caps ≤ t.caps)
    (hinv : RoomBounded room → ∀ {rest : Multiset Handle}, TableInv t rest →
      TableInv t' rest ∧ (t.closed = false → ∀ k, t'.capOf k = t.capOf k)) :
    Advanced room t t' th th' ch ch where
  objects _ := by
    rw [hcount,hcount']
    exact map_le_map (stock_le (Multiset.add_le_add_right hcaps))
  derives := by
    rw [hold,hold']
    exact derives_of_le (stock_le (Multiset.add_le_add_right hcaps))
  wf := hwf
  owned _ hroom rest h := by
    rw [htaken,coe_nil,zero_add] at h
    rw [htaken',coe_nil,zero_add]
    exact (hinv hroom h).1
  refused _ hroom rest h hopen _ _ _ := by
    rw [hnamed]
    unfold World.snapshot
    simp only [(hinv hroom h).2 hopen]

variable {call : SendCall} {k : κ} {batch : Batch} {err : SysError} {D : Type}

theorem of_taken
    (hold : th.phase.held = []) (hcount : th.phase.counted = []) (htaken : th.phase.taken = [])
    (hph' : th'.phase = .deliver call k (call.batchOf all))
    (hnamed : th.Wf → th'.asked = all.map Prod.fst ∧ th'.named = all.map fun e => (e.1, some e.2))
    (hcaps : t'.caps + (all.map Prod.snd : List Capability) = t.caps)
    (hinv : RoomBounded room → ∀ {rest : Multiset Handle}, TableInv t rest →
      TableInv t' ((all.map Prod.fst : List Handle) + rest)) :
    Advanced room t t' th th' ch ch where
  objects _ := by
    have hcount' : th'.phase.counted = all.map Prod.snd := by
      rw [hph']
      exact call.batchOf_kept all
    rw [hcount,hcount']
    unfold stock
    rw [hcaps,coe_nil,add_zero]
  derives cap hcap := by
    rw [hold]
    rw [hph'] at hcap
    unfold stock at hcap ⊢
    rw [coe_nil,add_zero,← hcaps]
    rcases mem_add.mp hcap with hcap | hcap
    · rcases mem_add.mp hcap with hcap | hcap
      · exact ⟨cap,by simp [hcap],.inl rfl⟩
      · obtain ⟨origin,hmem,hder⟩ := SendCall.batchOf_derives (mem_coe.mp hcap)
        refine ⟨origin,?_,hder⟩
        exact mem_add.mpr (.inl (mem_add.mpr (.inr (mem_coe.mpr hmem))))
    · exact ⟨cap,mem_add.mpr (.inr hcap),.inl rfl⟩
  wf hwf := by
    unfold Thread.Wf
    rw [hph']
    exact ⟨all,rfl,hnamed hwf⟩
  owned _ hroom rest h := by
    rw [htaken,coe_nil,zero_add] at h
    rw [hph']
    exact hinv hroom h
  refused _ _ _ _ _ _ _ hdone := by
    rw [hph'] at hdone
    cases hdone

theorem of_delivered (hph : th.phase = .deliver call k batch)
    (hph' : th'.phase = .commit batch.handles (batch.kept.getD []))
    (hqueued : ch'.queued = ch.queued + (batch.caps : Multiset Capability)) :
    Advanced room t t th th' ch ch' where
  objects hwf := by
    obtain ⟨all,rfl,-⟩ := hwf.deliver hph
    have hcount : th.phase.counted = all.map Prod.snd := by
      rw [hph]
      exact call.batchOf_kept all
    -- the originals stop counting when their copies are in the queue
    have hcount' : th'.phase.counted = [] := by rw [hph']; rfl
    rw [hcount,hcount']
    unfold stock
    rw [hqueued,coe_nil,add_zero,add_comm ch.queued,← add_assoc]
    simp only [map_add,map_coe]
    exact Multiset.add_le_add_right (Multiset.add_le_add_left
      (coe_le.mpr (call.batchOf_objects all).subperm))
  derives := by
    refine derives_of_le (le_of_eq ?_)
    have hheld : th.phase.held = batch.kept.getD [] ++ batch.caps := by rw [hph]; rfl
    have hheld' : th'.phase.held = batch.kept.getD [] := by rw [hph']; rfl
    rw [hheld,hheld']
    unfold stock
    rw [hqueued,← coe_add]
    ac_rfl
  wf _ := by
    unfold Thread.Wf
    rw [hph']
    trivial
  owned _ _ rest h := by
    rw [hph] at h
    rw [hph']
    exact h
  refused _ _ _ _ _ _ _ hdone := by
    rw [hph'] at hdone
    cases hdone

theorem of_undelivered (hph : th.phase = .deliver call k batch) :
    Advanced room t t th { th with phase := .restore err (batch.entries batch.caps) } ch ch where
  objects hwf := by
    obtain ⟨all,rfl,-⟩ := hwf.deliver hph
    have hcount : th.phase.counted = all.map Prod.snd := by
      rw [hph]
      exact call.batchOf_kept all
    rw [hcount,SendCall.batchOf_entries]
    exact le_refl _
  derives cap hcap := by
    refine ⟨cap,?_,.inl rfl⟩
    rw [hph]
    unfold stock at hcap ⊢
    rw [mem_add,mem_add] at hcap ⊢
    -- an attenuating send drops the copies, and what goes back was kept
    refine hcap.imp_left (Or.imp_right fun hmem => ?_)
    exact mem_coe.mpr (Batch.mem_of_entries (mem_coe.mp hmem))
  wf hwf := by
    obtain ⟨all,rfl,hasked⟩ := hwf.deliver hph
    rw [SendCall.batchOf_entries]
    exact hasked
  owned hwf _ rest h := by
    rw [hph] at h
    obtain ⟨all,rfl,-⟩ := hwf.deliver hph
    change TableInv t ((((call.batchOf all).entries (call.batchOf all).caps).map Prod.fst :
      List Handle) + rest)
    rw [SendCall.batchOf_entries]
    exact h
  refused _ _ _ _ _ _ _ hdone := by cases hdone

theorem of_committed (Q : Quota D) (ds : D) {handles : List Handle}
    {kept : List Capability} {result : Nat} (hph : th.phase = .commit handles kept) :
    Advanced room t (t.commitAll Q handles ds).1 th { th with phase := .done (.ok result) }
      ch ch where
  objects _ := by
    rw [hph]
    exact map_le_map (stock_le (Multiset.add_le_add_right (t.commitAll_spec Q handles ds).1))
  derives := by
    exact derives_of_le (stock_le (add_le_add (t.commitAll_spec Q handles ds).1 (zero_le _)))
  wf _ := trivial
  owned _ _ rest h := by
    rw [hph] at h
    refine (zero_add rest).symm ▸ ?_
    exact (t.commitAll_spec Q handles ds).2 h
  refused _ _ _ _ _ _ _ hdone := by cases hdone

theorem of_restored (Q : Quota D) (ds : D)
    {entries : List (Handle × Capability)} (hph : th.phase = .restore err entries) :
    Advanced room t (t.restoreAll Q room entries ds).1 th { th with phase := .done (.error err) }
      ch ch := by
  obtain ⟨hcaps,hkeep⟩ := t.restoreAll_spec Q room entries ds
  refine ⟨fun _ => ?_,?_,fun _ => trivial,fun _ hroom rest h => ?_,
    fun hwf hroom rest h hopen _ _ _ => ?_⟩
  · rw [hph]
    exact map_le_map (stock_le ((add_zero _).le.trans hcaps))
  · rw [hph]
    exact derives_of_le (stock_le ((add_zero _).le.trans hcaps))
  · rw [hph] at h
    refine (zero_add rest).symm ▸ ?_
    exact (hkeep hroom h).1
  unfold Thread.Wf at hwf
  rw [hph] at hwf h
  obtain ⟨hasked,hnamed⟩ := hwf
  rw [hasked,hnamed]
  unfold World.snapshot
  rw [List.map_map]
  refine map_congr_left fun entry hmem => ?_
  rw [comp_apply,((hkeep hroom h).2 hopen).1 entry hmem]
  rfl

end Advanced

/-! ### The phases -/

namespace World

variable {D π τ κ : Type} [DecidableEq π] [DecidableEq τ] [DecidableEq κ]
  (M : Wiring π τ κ)

def become (s : World D π τ κ) (i : τ) (ds : D) (id : Nat) (t : HandleTable) (th : Thread κ)
    (k : κ) (ch : Channel) : World D π τ κ :=
  { s with
    domains := ds
    nextId := id
    tables := update s.tables (M.process i) t
    threads := update s.threads i th
    channels := update s.channels k ch }

def Stepped (room : Nat → Bool) (i : τ) (s s' : World D π τ κ) : Prop :=
  ∃ ds id t th k ch, s' = s.become M i ds id t th k ch ∧
    Advanced room (s.tables (M.process i)) t (s.threads i) th (s.channels k) ch

variable {M} {Q : Quota D} {s s' : World D π τ κ} {i : τ} {room : Nat → Bool}

variable {phase : Phase κ} {r : HandleTable × D} {k : κ} {call : RecvCall} {handles : List Handle}
  {err : SysError} {again bytes id : Nat} {msg : Message}

theorem stepped_goto
    (h : ∀ ch, Advanced room (s.tables (M.process i)) (s.tables (M.process i)) (s.threads i)
      { s.threads i with phase := phase } ch ch) : Stepped M room i s (s.goto i phase) := by
  refine ⟨s.domains,s.nextId,_,_,M.endpoint 0,s.channels (M.endpoint 0),?_,h _⟩
  simp only [become,goto,update_eq_self]

theorem stepped_note
    (h : ∀ ch, Advanced room (s.tables (M.process i)) (s.tables (M.process i)) (s.threads i)
      ⟨phase,(s.threads i).asked,snapshot (s.tables (M.process i)) (s.threads i).asked⟩ ch ch) :
    Stepped M room i s ((s.note i (s.tables (M.process i))).goto i phase) := by
  refine ⟨s.domains,s.nextId,_,_,M.endpoint 0,s.channels (M.endpoint 0),?_,h _⟩
  simp only [become,goto,note,update_eq_self,update_self,update_idem]

theorem stepped_table (h : ∀ ch, Advanced room (s.tables (M.process i)) r.1 (s.threads i)
      { s.threads i with phase := phase } ch ch) :
    Stepped M room i s ((s.setTable (M.process i) r).goto i phase) := by
  refine ⟨r.2,s.nextId,r.1,_,M.endpoint 0,s.channels (M.endpoint 0),?_,h _⟩
  simp only [become,goto,setTable,update_eq_self]

theorem stepped_table_note (h : ∀ ch, Advanced room (s.tables (M.process i)) r.1 (s.threads i)
      ⟨phase,(s.threads i).asked,snapshot (s.tables (M.process i)) (s.threads i).asked⟩ ch ch) :
    Stepped M room i s
      (((s.note i (s.tables (M.process i))).setTable (M.process i) r).goto i phase) := by
  refine ⟨r.2,s.nextId,r.1,_,M.endpoint 0,s.channels (M.endpoint 0),?_,h _⟩
  simp only [become,goto,note,setTable,update_eq_self,update_self,update_idem]

theorem stepped_channel {ds : D}
    (h : Advanced room (s.tables (M.process i)) (s.tables (M.process i)) (s.threads i)
      { s.threads i with phase := phase } (s.channels k) ch) :
    Stepped M room i s (({ s with domains := ds, nextId := id }.setChannel k ch).goto i phase) := by
  refine ⟨ds,id,_,_,k,ch,?_,h⟩
  simp only [become,goto,setChannel,update_eq_self]

variable {old : Phase κ}

section

variable (hph : (s.threads i).phase = old) (hs : old.sends = false) (hs' : phase.sends = false)
include hph hs hs'

theorem stepped_quiet (hle : phase.counted.Sublist old.counted) :
    Stepped M room i s (s.goto i phase) :=
  stepped_goto fun _ => .of_receive_quiet hph hs hs' hle

theorem stepped_unreserved {count : Nat} (hcount : phase.counted = old.counted) :
    Stepped M room i s ((s.setTable (M.process i)
      ((s.tables (M.process i)).releaseReservation Q count s.domains)).goto i phase) := by
  have hg := (s.tables (M.process i)).releaseReservation_gains Q room s.domains count
  refine stepped_table fun ch => .of_receive_table hph hs hs' ?_ hg.2
  rw [hcount]
  exact Multiset.add_le_add_right hg.le

end

variable {env : Env} (h : s.advance M Q i env = some s')

include h

theorem stepped_send (hph : (s.threads i).phase = .send args) : Stepped M env.room i s s' := by
  have hnoted : ∀ phase : Phase κ, phase.held = [] → phase.counted = [] → phase.taken = [] →
      ((s.threads i).Wf → Thread.Wf ⟨phase,(s.threads i).asked,
        snapshot (s.tables (M.process i)) (s.threads i).asked⟩) →
      Stepped M env.room i s ((s.note i (s.tables (M.process i))).goto i phase) := by
    intro phase hheld hcounted htaken hwf
    refine stepped_note fun ch => ?_
    exact .of_noted (by rw [hph]; rfl) hheld (by rw [hph]; rfl) hcounted (by rw [hph]; rfl) htaken
      hwf rfl (le_refl _) fun _ _ hinv => ⟨hinv,fun _ _ => rfl⟩
  simp only [advance,hph] at h
  split at h
  · cases h
    exact hnoted _ rfl rfl rfl fun _ => trivial
  next call hcheck =>
  split at h
  · cases h
    exact hnoted _ rfl rfl rfl fun _ => trivial
  split at h
  · cases h
    exact hnoted _ rfl rfl rfl fun _ => trivial
  cases h
  refine hnoted _ rfl rfl rfl fun hwf => ?_
  unfold Thread.Wf at hwf
  rw [hph] at hwf
  exact hwf.trans (SendArgs.named_of_check hcheck)

theorem stepped_take {call : SendCall} (hph : (s.threads i).phase = .take call k) :
    Stepped M env.room i s s' := by
  have hheld : (s.threads i).phase.held = [] := by rw [hph]; rfl
  have hcounted : (s.threads i).phase.counted = [] := by rw [hph]; rfl
  have htaken : (s.threads i).phase.taken = [] := by rw [hph]; rfl
  have hrefuse : ∀ err : SysError, Stepped M env.room i s
      ((s.note i (s.tables (M.process i))).goto i (.done (.error err))) := by
    intro err
    refine stepped_note fun ch => ?_
    exact .of_noted hheld rfl hcounted rfl htaken rfl (fun _ => trivial) rfl (le_refl _)
      fun _ _ hinv => ⟨hinv,fun _ _ => rfl⟩
  simp only [advance,hph] at h
  split at h
  · cases h
    exact hrefuse _
  split at h
  · cases h
    exact hrefuse _
  have hspec := HandleTable.takeAll_spec Q s.objs env.room call.handles []
    (s.tables (M.process i)) s.domains
  split at h
  · next all r hall =>
    cases h
    rw [hall] at hspec
    obtain ⟨⟨new,rfl,hfst,hcap⟩,hcaps,hkeep⟩ := hspec
    -- what was noted before the take is what was taken
    refine stepped_table_note fun ch => .of_taken hheld hcounted htaken rfl (fun hwf => ?_) ?_
      fun _ rest hinv => ?_
    · unfold Thread.Wf at hwf
      rw [hph] at hwf
      have hasked : (s.threads i).asked = all.map Prod.fst := hwf.trans hfst.symm
      refine ⟨hasked,?_⟩
      unfold snapshot
      rw [hasked,List.map_map]
      refine map_congr_left fun e he => ?_
      rw [comp_apply,hcap e he]
      rfl
    · exact hcaps.trans (add_zero _)
    · exact hkeep (by rwa [map_nil,coe_nil,zero_add])
  · next err r hall =>
    cases h
    rw [hall] at hspec
    refine stepped_table_note fun ch => ?_
    refine .of_noted hheld rfl hcounted rfl htaken rfl (fun _ => trivial) rfl ?_
      fun hroom rest hinv => ?_
    · exact hspec.1.trans (add_zero _).le
    · obtain ⟨hkeep,hsame⟩ := hspec.2 hroom (by rwa [map_nil,coe_nil,zero_add])
      exact ⟨hkeep,fun hopen k => (hsame hopen).2 k (not_mem_nil)⟩

theorem stepped_deliver {call : SendCall} {batch : Batch}
    (hph : (s.threads i).phase = .deliver call k batch) : Stepped M env.room i s s' := by
  simp only [advance,hph] at h
  split at h
  · next ch ds hsend =>
    cases h
    obtain ⟨p,sent,hpeer,-,rfl,hsent⟩ := sendInner_spec hsend
    -- an endpoint that is gone accepts nothing
    have hp : p = s.channels (M.peer k) := by
      split at hpeer <;> cases hpeer
      rfl
    have hcaps : sent.caps = batch.caps := by
      rcases hsent with ⟨-,rfl,-⟩ | ⟨d,-,-,rfl⟩ <;> rfl
    refine stepped_channel (.of_delivered hph rfl ?_)
    rw [hp]
    unfold queued
    rw [flatMap_append,flatMap_singleton,hcaps,coe_add]
  · next err returned ds hsend =>
    cases h
    obtain ⟨hret,-⟩ := sendInner_spec hsend
    have hret : returned = batch.caps := hret
    rw [hret]
    refine ⟨ds,(s.nextId + 1) % 2 ^ 64,s.tables (M.process i),
      { s.threads i with phase := .restore (sendError call.batch err) (batch.entries batch.caps) },
      k,s.channels k,?_,.of_undelivered hph⟩
    simp only [become,goto,update_eq_self]

theorem stepped_reserve {caps : Nat}
    (hph : (s.threads i).phase = .reserve call k again id caps) : Stepped M env.room i s s' := by
  have hg := (s.tables (M.process i)).reserve_gains Q env.room s.domains env.bookRoom
    (min caps call.installMax)
  have hadv : ∀ (phase : Phase κ) (ch : Channel), phase.sends = false → phase.counted = [] →
      Advanced env.room (s.tables (M.process i))
        ((s.tables (M.process i)).reserve Q env.room env.bookRoom (min caps call.installMax)
          s.domains).2.1 (s.threads i) { s.threads i with phase := phase } ch ch := by
    intro phase ch hs' hcount'
    refine .of_receive_table hph rfl hs' ?_ hg.2
    rw [hcount']
    exact Multiset.add_le_add_right hg.le
  simp only [advance,hph] at h
  split at h
  · next r hr =>
    cases h
    rw [hr] at hadv
    exact stepped_table fun ch => hadv _ ch rfl rfl
  · next r hr =>
    cases h
    rw [hr] at hadv
    exact stepped_table fun ch => hadv _ ch rfl rfl

theorem stepped_receive {reserved : Nat}
    (hph : (s.threads i).phase = .receive call k again id reserved) :
    Stepped M env.room i s s' := by
  simp only [advance,hph] at h
  split at h
  · next msg ch hrecv =>
    cases h
    obtain ⟨head,rest,hin,rfl,rfl⟩ := recvIdentified_ok hrecv
    refine stepped_channel (.of_receive_channel hph rfl rfl ?_)
    unfold queued
    rw [hin,flatMap_cons,← coe_add]
    exact (zero_add _).symm
  · cases h
    exact stepped_quiet hph rfl rfl (nil_sublist _)

theorem stepped_putBack (hph : (s.threads i).phase = .putBack k msg err) :
    Stepped M env.room i s s' := by
  simp only [advance,hph] at h
  cases h
  refine stepped_channel (.of_receive_channel hph rfl rfl ?_)
  unfold queued returnToHead
  exact zero_add _

theorem stepped_settle (hph : (s.threads i).phase = .settle call k msg) :
    Stepped M env.room i s s' := by
  have hcaps := congrArg Message.caps (commitDelivery_core Q msg (s.channels k)
    s.domains (!s.alive (M.peer k)))
  simp only [advance,hph] at h
  cases h
  refine stepped_channel (.of_receive_channel hph rfl rfl ?_)
  rw [commitDelivery_channel]
  exact congrArg (fun caps : List Capability => caps + (s.channels k).queued) hcaps

theorem stepped_install {caps : List Capability}
    (hph : (s.threads i).phase = .install call bytes caps) : Stepped M env.room i s s' := by
  simp only [advance,hph] at h
  cases h
  have hg := HandleTable.installAll_gains Q env.room (caps.take call.installMax)
    (s.tables (M.process i)) s.domains
  refine stepped_table fun ch => .of_receive_table hph rfl rfl ?_ hg.2
  refine (add_zero _).le.trans (hg.1.trans ?_)
  exact Multiset.add_le_add_left (Multiset.coe_le.mpr (take_sublist _ caps).subperm)

theorem stepped_unwind (hph : (s.threads i).phase = .unwind handles err) :
    Stepped M env.room i s s' := by
  simp only [advance,hph] at h
  cases h
  have hg := HandleTable.closeHandles_gains Q s.objs env.room handles (s.tables (M.process i))
    s.domains
  exact stepped_table fun ch =>
    .of_receive_table hph rfl rfl (Multiset.add_le_add_right hg.le) hg.2

theorem stepped_advance : Stepped M env.room i s s' := by
  cases hph : (s.threads i).phase with
  | idle | done => simp only [advance,hph,reduceCtorEq] at h
  | send args => exact stepped_send h hph
  | take call k => exact stepped_take h hph
  | deliver call k batch => exact stepped_deliver h hph
  | commit handles kept =>
    simp only [advance,hph] at h
    cases h
    exact stepped_table fun ch => .of_committed Q s.domains hph
  | restore err entries =>
    simp only [advance,hph] at h
    cases h
    exact stepped_table fun ch => .of_restored Q s.domains hph
  | recv | peek | report | hold =>
    simp only [advance,hph] at h
    repeat' split at h
    all_goals
      cases h
      exact stepped_quiet hph rfl rfl (nil_sublist _)
  | copyOut =>
    simp only [advance,hph] at h
    split at h
    all_goals
      cases h
      exact stepped_quiet hph rfl rfl (.refl _)
  | release | giveUp =>
    simp only [advance,hph] at h
    repeat' split at h
    all_goals
      cases h
      exact stepped_unreserved hph rfl rfl rfl
  | reserve call k again id caps => exact stepped_reserve h hph
  | receive call k again id reserved => exact stepped_receive h hph
  | putBack k msg err => exact stepped_putBack h hph
  | settle call k msg => exact stepped_settle h hph
  | install call bytes caps => exact stepped_install h hph
  | unwind handles err => exact stepped_unwind h hph

end World

end LiberSystem
