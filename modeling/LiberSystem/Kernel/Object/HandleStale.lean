import LiberSystem.Kernel.Object.HandleRun

/-!
# Stale handles

The table never issues a dead handle again as long as every slot it reuses has moved to a new
generation first.
-/

namespace LiberSystem

open List

namespace HandleTable

variable {room : Nat → Bool} {e : Event} {t t' : HandleTable} {taken : Multiset Handle}

theorem Move.length_le (hm : Move room e t t') : t.slots.length ≤ t'.slots.length := by
  cases hm with
  | closeAll => rw [length_swept]
  | _ => simp [recycle]

variable {i : Nat} {h : Handle} {cap : Capability} {slot : Slot} {refused : List Nat}

theorem Move.generation_le (hinv : TableInv t taken) (hm : Move room e t t')
    (hi : i < t.slots.length) : (t.slotAt i).generation ≤ (t'.slotAt i).generation := by
  have hset : ∀ {k : Nat} {slot : Slot} {u : HandleTable}, u.slots = t.slots.set k slot →
      (t.slotAt k).generation ≤ slot.generation →
      (t.slotAt i).generation ≤ (u.slotAt i).generation := by
    intro k slot u hu hgen
    rcases slotAt_of_set_or hu i with h | ⟨rfl,h⟩
    · rw [h]
    · rwa [h]
  have hrecycle : ∀ {k : Nat} {slot : Slot}, k < t.slots.length →
      slot.generation = (t.slotAt k).generation →
      (t.slotAt i).generation ≤ ((t.recycle slot k).slotAt i).generation := by
    intro k slot hk hgen
    have hslots : (t.recycle slot k).slots = t.slots.set k (retireOrRecycle slot t.free k).1 := rfl
    have hmax := ((hinv.slot k).generation hk).2
    obtain ⟨hup,-⟩ | ⟨-,hup,-⟩ := retireOrRecycle_cases slot t.free
      (hk.trans_le hinv.length_le) (hgen ▸ hmax)
    all_goals exact hset hslots (by omega)
  have happend : ∀ {slot : Slot} {u : HandleTable}, u.slots = t.slots ++ [slot] →
      (t.slotAt i).generation ≤ (u.slotAt i).generation := by
    intro slot u hu
    rw [slotAt_of_append hu,if_neg (by omega)]
  cases hm with
  | installFree cap hf | installBooked cap hc hb | reserve hc | restore cap hc hk
  | discard hc hk => exact hset rfl (le_rfl)
  | installFresh cap hf hr | bookFresh hf hr => exact happend rfl
  | bookFree hf | unbook hb | forget hc hb => exact le_rfl
  | remove hc => exact hrecycle (capOf_eq_ok_iff.mp hc).1 rfl
  | resolve hk => exact hrecycle hk rfl
  | closeAll =>
    rw [slotAt_swept hi]
    unfold closeSlot
    split
    · exact le_rfl
    split
    · split
      · exact Nat.le_succ _
      · exact ((hinv.slot i).generation hi).2
    · exact le_rfl

theorem Covered.index_lt (hinv : TableInv t taken) (hmem : h ∈ taken)
    (hres : (t.slotAt i).reserved = false) : h.index < t.slots.length ∧ i ≠ h.index := by
  obtain ⟨hi,hr,-⟩ := hinv.taken_slot hmem
  refine ⟨hi,?_⟩
  rintro rfl
  rw [hres] at hr
  cases hr

theorem ne_of_capOf (hc : t.capOf h = .ok cap)
    (hcap : (t.slotAt i).cap = none) : h.index < t.slots.length ∧ i ≠ h.index := by
  obtain ⟨hk,-,hc⟩ := capOf_eq_ok_iff.mp hc
  refine ⟨hk,?_⟩
  rintro rfl
  rw [hcap] at hc
  cases hc

/-- What a move can do to a slot that is empty and not reserved: fill it, if it
stands on the list that the move reads, or leave it as it is. -/
theorem Move.idle_slot (hinv : TableInv t taken) (hm : Move room e t t')
    (hcov : e.Covered taken) (hi : i < t.slots.length)
    (hcap : (t.slotAt i).cap = none) (hres : (t.slotAt i).reserved = false) :
    t'.slotAt i = t.slotAt i ∨
    (∃ cap, e = .install (Handle.new (t.slotAt i).generation i) cap ∧ t.free.head? = some i) ∨
    (∃ cap, e = .installBooked (Handle.new (t.slotAt i).generation i) cap ∧ i ∈ t.booked ∧
      t.closed = false) := by
  cases hm with
  | @installFree _ index free cap hf =>
    by_cases hne : i = index
    · subst hne
      exact .inr (.inl ⟨cap,rfl,by rw [hf]; rfl⟩)
    · exact .inl (slotAt_of_set_ne rfl hne)
  | installFresh cap hf hr | bookFresh hf hr =>
    exact .inl (by rw [slotAt_of_append rfl,if_neg (by omega)])
  | @installBooked _ index booked cap hc hb =>
    by_cases hne : i = index
    · subst hne
      exact .inr (.inr ⟨cap,rfl,by rw [hb]; exact mem_cons_self,hc⟩)
    · exact .inl (slotAt_of_set_ne rfl hne)
  | bookFree hf | unbook hb | forget hc hb => exact .inl rfl
  | remove hc | reserve hc => exact .inl (slotAt_of_set_ne rfl (ne_of_capOf hc hcap).2)
  | resolve hk | restore cap hc hk | discard hc hk =>
    exact .inl (slotAt_of_set_ne rfl (Covered.index_lt hinv hcov hres).2)
  | closeAll =>
    refine .inl ?_
    rw [slotAt_swept hi]
    unfold closeSlot
    rw [hcap]
    split <;> rfl

theorem mem_free_recycle {k : Nat} (hk : k < 2 ^ 32) (hne : i ≠ k)
    (hmem : i ∈ (t.recycle slot k).free) : i ∈ t.free := by
  unfold recycle retireOrRecycle at hmem
  grind

theorem Move.retired_slot (hinv : TableInv t taken) (hm : Move room e t t')
    (hcov : e.Covered taken) (hroom : RoomBounded room) (hi : i < t.slots.length)
    (hcap : (t.slotAt i).cap = none) (hres : (t.slotAt i).reserved = false)
    (hgen : (t.slotAt i).generation = u32Max) (hfree : i ∉ t.free) (hbooked : i ∉ t.booked) :
    i ∉ t'.free ∧ i ∉ t'.booked := by
  cases hm with
  | installFree cap hf => exact ⟨fun h => hfree (hf ▸ mem_cons_of_mem _ h),hbooked⟩
  | installFresh cap hf hr | reserve hc | restore cap hc hk | discard hc hk =>
    exact ⟨hfree,hbooked⟩
  | installBooked cap hc hb | forget hc hb =>
    exact ⟨hfree,fun h => hbooked (hb ▸ mem_cons_of_mem _ h)⟩
  | bookFree hf =>
    rw [hf,mem_cons,not_or] at hfree
    exact ⟨hfree.2,fun h => (mem_cons.mp h).elim hfree.1 hbooked⟩
  | bookFresh hf hr =>
    have hlt : t.slots.length < 2 ^ 32 := hroom.length_lt hr
    refine ⟨hfree,fun h => ?_⟩
    rcases mem_cons.mp h with heq | h
    · omega
    · exact hbooked h
  | unbook hb =>
    rw [hb,mem_cons,not_or] at hbooked
    exact ⟨fun h => (mem_cons.mp h).elim hbooked.1 hfree,hbooked.2⟩
  | @remove _ h _ hc =>
    exact ⟨fun hmem => hfree (mem_free_recycle h.index_lt (ne_of_capOf hc hcap).2 hmem),hbooked⟩
  | @resolve _ h hk =>
    exact ⟨fun hmem => hfree (mem_free_recycle h.index_lt (Covered.index_lt hinv hcov hres).2 hmem),
      hbooked⟩
  | closeAll =>
    refine ⟨?_,hbooked⟩
    have hcount := count_free_swept hinv.length_le hi
    unfold closeSlot at hcount
    rw [hcap,hgen] at hcount
    have hzero : t.swept.free.count i = 0 := by
      rw [hcount]
      split <;> simp
    exact count_eq_zero.mp hzero

/-- A handle that can only come back through one of the slots of `refused`: its slot
has moved on, or it is retired, or it is empty at the handle's own generation. -/
def Dead (t : HandleTable) (refused : List Nat) (h : Handle) : Prop :=
  h.index < t.slots.length ∧
    (h.generation < (t.slotAt h.index).generation ∨
      (h.generation = (t.slotAt h.index).generation ∧ (t.slotAt h.index).cap = none ∧
        (t.slotAt h.index).reserved = false ∧
        (h.index ∈ refused ∨
          (t.slotAt h.index).generation = u32Max ∧ h.index ∉ t.free ∧ h.index ∉ t.booked)))

theorem Dead.capOf_eq (hd : Dead t refused h) : t.capOf h = .error .badHandle := by
  obtain ⟨hi,hstate⟩ := hd
  unfold capOf
  rw [getElem?_eq_slotAt hi]
  dsimp only
  rcases hstate with hlt | ⟨heq,hcap,-,-⟩
  · rw [if_pos (by simp only [bne_iff_ne]; omega)]
  · rw [heq,hcap,bne_self_eq_false,if_neg Bool.false_ne_true]

theorem dead_of_recycle (hinv : TableInv t taken) (refused : List Nat)
    (hi : h.index < t.slots.length) (hgen : slot.generation = h.generation)
    (hsame : slot.generation = (t.slotAt h.index).generation)
    (hcap : slot.cap = none) (hres : slot.reserved = false) (hfree : t.free.count h.index = 0)
    (hbooked : t.booked.count h.index = 0) : Dead (t.recycle slot h.index) refused h := by
  have hmax := ((hinv.slot h.index).generation hi).2
  have hcase := retireOrRecycle_cases slot t.free h.index_lt (hsame ▸ hmax)
  have hslot := slotAt_recycle hi slot h.index
  rw [if_pos rfl] at hslot
  refine ⟨by simpa [recycle] using hi,?_⟩
  rw [hslot]
  rcases hcase with ⟨hup,-⟩ | ⟨hlast,hnew,hlist⟩
  · exact .inl (hgen ▸ hup)
  refine .inr ⟨by omega,by simpa using hcap,by simpa using hres,.inr ⟨hnew,?_,?_⟩⟩
  · change h.index ∉ (retireOrRecycle slot t.free h.index).2
    rw [hlist]
    exact count_eq_zero.mp hfree
  · exact count_eq_zero.mp hbooked

theorem mem_handlesFrom {slots : List Slot} (hmem : h ∈ handlesFrom i slots) :
    ∃ j slot, slots[j]? = some slot ∧ slot.cap.isSome ∧ h = Handle.new slot.generation (i + j) := by
  induction slots generalizing i with
  | nil => cases hmem
  | cons slot rest ih =>
    unfold handlesFrom at hmem
    have hcases : (slot.cap.isSome ∧ h = Handle.new slot.generation i) ∨
        h ∈ handlesFrom (i + 1) rest := by
      split at hmem
      · next hc => exact (mem_cons.mp hmem).imp (fun hh => ⟨hc,hh⟩) id
      · exact .inr hmem
    rcases hcases with ⟨hc,hh⟩ | hm
    · exact ⟨0,slot,rfl,hc,hh⟩
    · obtain ⟨j,slot',hj,hc,hh⟩ := ih hm
      exact ⟨j + 1,slot',hj,hc,by rw [hh,Nat.add_right_comm,Nat.add_assoc]⟩

section

variable (hinv : TableInv t taken)
include hinv

theorem capOf_of_mem_liveHandles (hmem : h ∈ t.liveHandles) : ∃ cap, t.capOf h = .ok cap := by
  obtain ⟨j,slot,hj,hc,hh⟩ := mem_handlesFrom hmem
  obtain ⟨hlt,hslot⟩ := slotAt_of_getElem? hj
  rw [Nat.zero_add] at hh
  have hgen := (hinv.slot j).generation hlt
  rw [hslot] at hgen
  have hg : slot.generation < 2 ^ 32 := hgen.2.trans_lt (by decide)
  have hi : j < 2 ^ 32 := hlt.trans_le hinv.length_le
  obtain ⟨cap,hcap⟩ := Option.isSome_iff_exists.mp hc
  refine ⟨cap,capOf_eq_ok_iff.mpr ?_⟩
  rw [hh,Handle.index_new hg hi,Handle.generation_new hg hi,hslot]
  exact ⟨hlt,rfl,hcap⟩

theorem dead_of_discard (refused : List Nat) (hmem : h ∈ taken)
    (hs : t'.slots = t.slots.set h.index { t.slotAt h.index with reserved := false }) :
    Dead t' (h.index :: refused) h := by
  obtain ⟨hi,hres,hcap,-⟩ := hinv.taken_slot hmem
  have hslot := slotAt_of_set hs hi h.index
  rw [if_pos rfl] at hslot
  refine ⟨by rw [hs,length_set]; exact hi,.inr ?_⟩
  rw [hslot]
  exact ⟨(hinv.generation_of_taken hmem).symm,hcap,rfl,.inl mem_cons_self⟩

theorem dead_of_sweep (refused : List Nat) (hc : t.capOf h = .ok cap) : Dead t.swept refused h := by
  obtain ⟨hi,hgen,hcap⟩ := capOf_eq_ok_iff.mp hc
  obtain ⟨-,hres,hfree,hbooked⟩ := (hinv.slot h.index).of_cap hcap
  have hmax := ((hinv.slot h.index).generation hi).2
  have hslot := slotAt_swept hi
  have hcount := count_free_swept hinv.length_le hi
  have hheld : ((t.slotAt h.index).reserved || t.booked.contains (h.index % 2 ^ 32)) ≠ true := by
    rw [hres,Nat.mod_eq_of_lt h.index_lt,Bool.false_or,ne_eq,contains_iff_mem]
    exact count_eq_zero.mp hbooked
  have hsome : (t.slotAt h.index).cap.isSome := by rw [hcap]; rfl
  refine ⟨by rw [length_swept]; exact hi,?_⟩
  unfold closeSlot at hslot hcount
  rw [if_neg hheld,if_pos hsome] at hslot hcount
  by_cases hlast : (t.slotAt h.index).generation + 1 ≤ u32Max
  · rw [if_pos hlast] at hslot
    rw [hslot]
    exact .inl (by rw [← hgen]; exact Nat.lt_succ_self _)
  rw [if_neg hlast] at hslot hcount
  rw [hslot]
  refine .inr ⟨?_,rfl,hres,.inr ⟨rfl,?_,?_⟩⟩
  · change h.generation = u32Max
    omega
  · exact count_eq_zero.mp hcount
  · exact count_eq_zero.mp hbooked

theorem Move.dead_of_event (hm : Move room e t t') (hcov : e.Covered taken) (refused : List Nat)
    (hmem : h ∈ e.dead) : Dead t' (e.refusedAfter refused) h := by
  cases hm with
  | remove hc =>
    obtain rfl := mem_singleton.mp hmem
    obtain ⟨hi,hgen,hcap⟩ := capOf_eq_ok_iff.mp hc
    obtain ⟨-,hres,hfree,hbooked⟩ := (hinv.slot _).of_cap hcap
    exact dead_of_recycle hinv _ hi hgen rfl rfl hres hfree hbooked
  | resolve hi =>
    obtain rfl := mem_singleton.mp hmem
    obtain ⟨hres,-,-⟩ := hinv.of_taken hcov
    obtain ⟨-,hcap,hfree,hbooked⟩ := (hinv.slot _).of_reserved hres
    exact dead_of_recycle hinv _ hi (hinv.generation_of_taken hcov) rfl hcap rfl hfree hbooked
  | discard hc hi =>
    obtain rfl := mem_singleton.mp hmem
    exact dead_of_discard hinv refused hcov rfl
  | closeAll =>
    obtain ⟨cap,hc⟩ := capOf_of_mem_liveHandles hinv hmem
    exact dead_of_sweep hinv refused hc
  | _ => cases hmem

theorem Move.discard_slot (hm : Move room (.discard h) t t') (hmem : h ∈ taken) :
    h.index < t'.slots.length ∧ t'.closed ∧
      (t'.slotAt h.index).cap = none ∧ (t'.slotAt h.index).reserved = false := by
  obtain ⟨-,-,hcap,-⟩ := hinv.taken_slot hmem
  cases hm with
  | discard hc hi =>
    refine ⟨by simpa using hi,hc,?_⟩
    rw [slotAt_of_set rfl hi,if_pos rfl]
    exact ⟨hcap,rfl⟩

end

theorem Event.mem_refusedAfter (hmem : i ∈ e.refusedAfter refused) :
    i ∈ refused ∨ ∃ h : Handle, e = .discard h ∧ i = h.index := by
  cases e with
  | discard h => exact (mem_cons.mp hmem).symm.imp id fun hi => ⟨h,rfl,hi⟩
  | _ => exact .inl hmem

end HandleTable

namespace TableState

open HandleTable (Event Move Dead)

/-- What a run knows of the handles that are gone and of the slots that a closed
table refused to restore. -/
structure GoneInv (s : TableState) : Prop where
  gone : ∀ h ∈ s.gone, Dead s.table s.refused h
  refused : ∀ i ∈ s.refused, i < s.table.slots.length ∧ s.table.closed = true ∧
    (s.table.slotAt i).cap = none ∧ (s.table.slotAt i).reserved = false

variable {room : Nat → Bool} {s s' : TableState} {h : Handle} {cap : Capability} {t : HandleTable}

/-- A move keeps `GoneInv` unless it installs into a refused slot. -/
theorem GoneInv.move (hroom : RoomBounded room) {e : Event} (hi : s.Inv) (hg : s.GoneInv)
    (hm : StateMove room e s s')
    (hnext : ∀ h cap, e = .install h cap → ∀ i, s.table.free.head? = some i → i ∉ s.refused) :
    s'.GoneInv := by
  obtain ⟨hmove,hcov,heq⟩ := hm
  have hclosed : s.table.closed → s'.table.closed := by
    intro hc
    rw [hmove.closed_eq,hc,Bool.true_or]
  have hsub : ∀ {i}, i ∈ s.refused → i ∈ e.refusedAfter s.refused := by
    intro i hmem
    cases e with
    | discard h => exact mem_cons_of_mem _ hmem
    | _ => exact hmem
  -- An empty slot at a dead handle's generation is left alone.
  have hidle : ∀ {i}, i < s.table.slots.length → (s.table.slotAt i).cap = none →
      (s.table.slotAt i).reserved = false →
      (i ∈ s.refused ∨ i ∉ s.table.free ∧ i ∉ s.table.booked) →
      s'.table.slotAt i = s.table.slotAt i := by
    intro i hlt hcap hres hwhere
    rcases hmove.idle_slot hi.table hcov hlt hcap hres with
      hsame | ⟨cap,rfl,hhead⟩ | ⟨cap,rfl,hmem,hopen⟩
    · exact hsame
    · rcases hwhere with href | ⟨hfree,-⟩
      · exact absurd href (hnext _ _ rfl i hhead)
      · exact absurd (mem_of_head? hhead) hfree
    · rcases hwhere with href | ⟨-,hbooked⟩
      · rw [(hg.refused i href).2.1] at hopen
        cases hopen
      · exact absurd hmem hbooked
  rw [heq]
  refine ⟨fun h hmem => ?_,fun i hmem => ?_⟩
  · rcases mem_append.mp hmem with hnew | hold
    · exact hmove.dead_of_event hi.table hcov s.refused hnew
    suffices hdead : Dead s'.table (e.refusedAfter s.refused) h from hdead
    obtain ⟨hlt,hcase⟩ := hg.gone h hold
    refine ⟨hlt.trans_le hmove.length_le,?_⟩
    rcases hcase with hgen | ⟨hgen,hcap,hres,hwhere⟩
    · exact .inl (hgen.trans_le (hmove.generation_le hi.table hlt))
    have hsame := hidle hlt hcap hres (hwhere.imp id And.right)
    rw [hsame]
    refine .inr ⟨hgen,hcap,hres,hwhere.imp hsub ?_⟩
    rintro ⟨hmax,hfree,hbooked⟩
    exact ⟨hmax,hmove.retired_slot hi.table hcov hroom hlt hcap hres hmax hfree hbooked⟩
  · rcases Event.mem_refusedAfter hmem with hold | ⟨h,rfl,rfl⟩
    · obtain ⟨hlt,hc,hcap,hres⟩ := hg.refused i hold
      refine ⟨hlt.trans_le hmove.length_le,hclosed hc,?_⟩
      change (s'.table.slotAt i).cap = none ∧ (s'.table.slotAt i).reserved = false
      rw [hidle hlt hcap hres (.inl hold)]
      exact ⟨hcap,hres⟩
    · exact hmove.discard_slot hi.table hcov

/-- The heap gives the table no slot beyond `2 ^ 32`, and a capability is not
inserted while the next free slot is one that a closed table refused to restore. -/
def NextUnrefused {D : Type} (s : TableState) (c : TableCall D) : Prop :=
  RoomBounded c.room ∧
    (c.op.inserts = true → ∀ i, s.table.free.head? = some i → i ∉ s.refused)

theorem GoneInv.step {D : Type} {Q : Quota D} {c : TableCall D} (hi : s.Inv)
    (hg : s.GoneInv) (hok : NextUnrefused s c) (hs : s.step Q c = some s') : s'.GoneInv := by
  obtain ⟨⟨r,s'',ds'⟩,hx,rfl⟩ := Option.map_eq_some_iff.mp hs
  cases (exec_done hi hx).made with
  | install hins hm _ =>
    exact hg.move hok.1 hi ⟨hm,trivial,rfl⟩ fun _ _ _ => hok.2 hins
  | installBooked hm _ =>
    exact hg.move hok.1 hi ⟨hm,trivial,rfl⟩ fun _ _ he => nomatch he
  | quiet htr hes =>
    refine (htr.invariant (P := fun s => s.Inv ∧ s.GoneInv) ⟨hi,hg⟩ ?_).2
    rintro e u v he ⟨hiu,hgu⟩ hm
    refine ⟨hiu.move hok.1 hm,hgu.move hok.1 hiu hm ?_⟩
    rintro h cap rfl
    exact nomatch hes _ he

theorem GoneInv.not_mem_of_listed (hi : s.Inv) (hg : s.GoneInv) {i : Nat}
    (hlisted : i ∈ s.table.free ++ s.table.booked) (href : i ∉ s.refused) :
    Handle.new (s.table.slotAt i).generation i ∉ s.gone := by
  intro hmem
  have hlt := hi.table.lists.2 i hlisted
  have hgen := ((hi.table.slot i).generation hlt).2
  have hg32 : (s.table.slotAt i).generation < 2 ^ 32 := hgen.trans_lt (by decide)
  have hi32 : i < 2 ^ 32 := hlt.trans_le hi.table.length_le
  obtain ⟨-,hcase⟩ := hg.gone _ hmem
  rw [Handle.index_new hg32 hi32,Handle.generation_new hg32 hi32] at hcase
  rcases hcase with hlt | ⟨-,-,-,hr | ⟨-,hfree,hbooked⟩⟩
  · omega
  · exact href hr
  · exact (mem_append.mp hlisted).elim hfree hbooked

theorem GoneInv.not_mem_of_install (hroom : RoomBounded room) (hi : s.Inv)
    (hg : s.GoneInv) (hm : Move room (.install h cap) s.table t)
    (hnext : ∀ i, s.table.free.head? = some i → i ∉ s.refused) : h ∉ s.gone := by
  generalize he : Event.install h cap = e at hm
  cases hm with
  | @installFree _ index free cap hf =>
    obtain ⟨rfl,-⟩ := Event.install.inj he
    have hhead : s.table.free.head? = some index := by rw [hf]; rfl
    refine hg.not_mem_of_listed hi ?_ (hnext index hhead)
    exact mem_append_left _ (mem_of_head? hhead)
  | installFresh cap hf hr =>
    obtain ⟨rfl,-⟩ := Event.install.inj he
    have hlt := hroom.length_lt hr
    intro hmem
    have hin := (hg.gone _ hmem).1
    rw [Nat.mod_eq_of_lt hlt,Handle.index_new (by decide) hlt] at hin
    omega
  | _ => cases he

theorem GoneInv.not_mem_of_installBooked (hi : s.Inv) (hg : s.GoneInv)
    (hm : Move room (.installBooked h cap) s.table t) : h ∉ s.gone := by
  generalize he : Event.installBooked h cap = e at hm
  cases hm with
  | @installBooked _ index booked cap hopen hb =>
    obtain ⟨rfl,-⟩ := Event.installBooked.inj he
    refine hg.not_mem_of_listed hi ?_ fun href => ?_
    · rw [hb]
      exact mem_append_right _ mem_cons_self
    · rw [(hg.refused index href).2.1] at hopen
      cases hopen
  | _ => cases he

/-- In every run that meets `NextUnrefused`, and at every point of it, the handles
that are gone resolve to nothing, and no call that meets it returns one of them. -/
theorem gone_handles_stay_dead {D : Type} (Q : Quota D) (domain : Option DomainId)
    (s : TableState) (hrun : Reaches (step Q) NextUnrefused (new domain) s) :
    (∀ h ∈ s.gone, s.table.capOf h = .error .badHandle) ∧
      ∀ (c : TableCall D) (h : Handle) (s' : TableState) (ds' : D), NextUnrefused s c →
        s.exec Q c.objs c.room c.domains c.op = some (some h, s', ds') → h ∉ s.gone := by
  obtain ⟨hi,hg⟩ : s.Inv ∧ s.GoneInv := by
    refine hrun.invariant (P := fun s => s.Inv ∧ s.GoneInv) ⟨Inv.new domain,?_⟩ ?_
    · exact ⟨fun h hmem => (nomatch hmem),fun i hmem => (nomatch hmem)⟩
    · rintro u c v ⟨hiu,hgu⟩ hok hs
      exact ⟨hiu.step hok.1 hs,hgu.step hiu hok hs⟩
  refine ⟨fun h hmem => (hg.gone h hmem).capOf_eq,?_⟩
  intro c h s' ds' hok hx
  have hmade := (exec_done hi hx).made
  generalize hr : some h = r at hmade
  cases hmade with
  | install hins hm hk =>
    obtain rfl := hk h hr.symm
    exact hg.not_mem_of_install hok.1 hi hm (hok.2 hins)
  | installBooked hm hk =>
    obtain rfl := hk h hr.symm
    exact hg.not_mem_of_installBooked hi hm
  | quiet _ _ => cases hr

/-- A handle is taken for a transfer, the table is closed, and the transfer fails: the
restore is refused. Then the table is closed once more. -/
def refusedRestore : List (TableCall Unit) :=
  [.insert ⟨7,Rights.all,0,[]⟩,.takeForTransfer (Handle.new 1 0) Rights.transfer,.closeAll,
    .restoreTaken (Handle.new 1 0) ⟨7,Rights.all,0,[]⟩,.closeAll].map (callWithin 8)

theorem gone_handles_stay_dead_refusedRestore :
    ∃ s, runList (step unlimited) (new none) refusedRestore = some s ∧
      Handle.new 1 0 ∈ s.gone ∧ s.table.capOf (Handle.new 1 0) = .error .badHandle := by
  obtain ⟨s,hs,hmem⟩ := exists_of_any (o := runList (step unlimited) (new none) refusedRestore)
    (P := fun s => Handle.new 1 0 ∈ s.gone) rfl
  refine ⟨s,hs,hmem,?_⟩
  obtain ⟨m,hm,hrest⟩ := Option.bind_eq_some_iff.mp hs
  have hfirst : Reaches (step unlimited) NextUnrefused (new none) m :=
    Reaches.refl.tail ⟨callWithin_bounded (by decide) _,fun _ i hi => nomatch hi⟩ hm
  refine (gone_handles_stay_dead unlimited none s
    (hfirst.trans (reaches_of_runList hrest ?_))).1 _ hmem
  intro u c hc
  simp only [map_cons,map_nil,mem_cons,not_mem_nil,or_false] at hc
  rcases hc with rfl | rfl | rfl | rfl <;>
    exact ⟨callWithin_bounded (by decide) _,fun hins => nomatch hins⟩

/-- The first insertion after that run returns the dead handle. -/
theorem gone_handle_issued_again :
    ∃ s s', runList (step unlimited) (new none) refusedRestore = some s ∧ Handle.new 1 0 ∈ s.gone ∧
      s.exec unlimited (fun _ => ⟨.event,0⟩) (fun n => n < 8) () (.insert ⟨9,Rights.all,0,[]⟩) =
        some (some (Handle.new 1 0), s', ()) ∧
      s'.table.capOf (Handle.new 1 0) = .ok ⟨9,Rights.all,0,[]⟩ := by
  refine ⟨_,_,rfl,?_,rfl,?_⟩
  · decide
  · rfl

end TableState

end LiberSystem
