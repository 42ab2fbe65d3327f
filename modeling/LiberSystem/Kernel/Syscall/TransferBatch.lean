import LiberSystem.Kernel.Object.HandleCaps
import LiberSystem.Kernel.Syscall.Transfer

/-!
# Several handles under one lock

What taking, restoring, committing, installing and closing a list of handles does to a table: to the
capabilities it holds, and to who owns its slots.
-/

namespace LiberSystem

open Multiset

variable {D : Type} (Q : Quota D) (objs : Objects) (room : Nat → Bool)

namespace HandleTable

/-- A send that gives up ends the transfers of its handles. If the table is open, each
handle is back and no other is concerned. -/
theorem restoreAll_spec (entries : List (Handle × Capability)) : ∀ (t : HandleTable) (ds : D),
    (restoreAll Q room entries t ds).1.caps ≤ t.caps + (entries.map Prod.snd : List Capability) ∧
    (RoomBounded room → ∀ {taken : Multiset Handle},
      TableInv t ((entries.map Prod.fst : List Handle) + taken) →
      TableInv (restoreAll Q room entries t ds).1 taken ∧
      (t.closed = false → (∀ e ∈ entries, (restoreAll Q room entries t ds).1.capOf e.1 = .ok e.2) ∧
        ∀ k ∉ entries.map Prod.fst, (restoreAll Q room entries t ds).1.capOf k = t.capOf k)) := by
  induction entries with
  | nil =>
    refine fun t ds => ⟨Multiset.le_add_right _ _,fun _ taken h => ?_⟩
    rw [List.map_nil,coe_nil,zero_add] at h
    exact ⟨h,fun _ => ⟨fun e he => (by cases he),fun _ _ => rfl⟩⟩
  | cons entry rest ih =>
    intro t ds
    obtain ⟨hcaps,hkeep⟩ := t.restoreTaken_spec Q room ds entry.1 entry.2
    obtain ⟨hcaps',hkeep'⟩ := ih (t.restoreTaken Q room entry.1 entry.2 ds).1
      (t.restoreTaken Q room entry.1 entry.2 ds).2
    refine ⟨hcaps'.trans ?_,fun hroom taken h => ?_⟩
    · rw [List.map_cons,← cons_coe,← singleton_add,← add_assoc]
      exact Multiset.add_le_add_right hcaps
    rw [List.map_cons,← cons_coe,cons_add] at h
    obtain ⟨hinv,hclosed,hback⟩ := hkeep h hroom
    obtain ⟨hinv',hback'⟩ := hkeep' hroom hinv
    refine ⟨hinv',fun hopen => ?_⟩
    obtain ⟨hall,hother⟩ := hback' (hclosed.trans hopen)
    obtain ⟨hself,hrest⟩ := hback hopen
    refine ⟨fun e he => ?_,fun k hk => ?_⟩
    · rcases List.mem_cons.mp he with rfl | he
      -- a handle is taken once, so no later entry is about this one
      · have hnot : e.1 ∉ rest.map Prod.fst := fun hmem =>
          h.not_mem_rest (mem_add.mpr (.inl (mem_coe.mpr hmem)))
        exact (hother e.1 hnot).trans hself
      · exact hall e he
    · rw [List.map_cons,List.mem_cons,not_or] at hk
      exact (hother k hk.2).trans (hrest k hk.1)

variable (handles : List Handle)

/-- A list of handles that could be taken, one after the other, is one in which each
holds what was taken from it. If one could not, those before it are back. -/
theorem takeAll_spec : ∀ (before : List (Handle × Capability)) (t : HandleTable) (ds : D),
    match takeAll Q objs room handles before t ds with
    | (.ok all, r) =>
      (∃ new, all = before ++ new ∧ new.map Prod.fst = handles ∧ ∀ e ∈ new, t.capOf e.1 = .ok e.2) ∧
      r.1.caps + (all.map Prod.snd : List Capability) =
        t.caps + (before.map Prod.snd : List Capability) ∧
      ∀ {taken : Multiset Handle}, TableInv t ((before.map Prod.fst : List Handle) + taken) →
        TableInv r.1 ((all.map Prod.fst : List Handle) + taken)
    | (.error _, r) =>
      r.1.caps ≤ t.caps + (before.map Prod.snd : List Capability) ∧
      (RoomBounded room → ∀ {taken : Multiset Handle},
        TableInv t ((before.map Prod.fst : List Handle) + taken) →
        TableInv r.1 taken ∧ (t.closed = false → (∀ e ∈ before, r.1.capOf e.1 = .ok e.2) ∧
          ∀ k ∉ before.map Prod.fst, r.1.capOf k = t.capOf k)) := by
  induction handles with
  | nil =>
    exact fun before t ds => ⟨⟨[],(List.append_nil _).symm,rfl,fun e he => by cases he⟩,rfl,id⟩
  | cons handle rest ih =>
    intro before t ds
    have htake := t.takeForTransfer_spec objs handle Rights.transfer
    unfold takeAll
    rcases ht : t.takeForTransfer objs handle Rights.transfer with ⟨err | cap,t'⟩
    · rw [ht] at htake
      rw [htake]
      exact restoreAll_spec Q room before t ds
    rw [ht] at htake
    obtain ⟨hout,hcap,hclosed,hgone,hother,hkeep⟩ := htake
    -- table and list together are what they were
    have hcaps : t'.caps + ((before ++ [(handle, cap)]).map Prod.snd : List Capability) =
        t.caps + (before.map Prod.snd) := by
      rw [← hout,List.map_append,← coe_add,add_assoc,add_comm {cap} (_ : Multiset Capability)]
      rfl
    have hmove : ∀ {taken : Multiset Handle},
        TableInv t ((before.map Prod.fst : List Handle) + taken) →
        TableInv t' (((before ++ [(handle, cap)]).map Prod.fst : List Handle) + taken) := by
      intro taken h
      rw [List.map_append,← coe_add,add_assoc,add_left_comm]
      exact hkeep h
    have hrest := ih (before ++ [(handle, cap)]) t' ds
    rw [hcaps] at hrest
    dsimp only
    rcases hall : takeAll Q objs room rest (before ++ [(handle, cap)]) t' ds with ⟨err | all,r⟩
    · rw [hall] at hrest
      refine ⟨hrest.1,fun hroom taken h => ?_⟩
      obtain ⟨hinv,hopened⟩ := hrest.2 hroom (hmove h)
      refine ⟨hinv,fun hopen => ?_⟩
      obtain ⟨hback,hsame⟩ := hopened (hclosed.trans hopen)
      refine ⟨fun e he => hback e (List.mem_append_left _ he),fun k hk => ?_⟩
      -- the handle that this step took was put back with those taken before it
      by_cases hkh : k = handle
      · rw [hkh,hcap]
        exact hback (handle, cap) (List.mem_append_right _ (List.mem_singleton.mpr rfl))
      rw [← hother k hkh]
      refine hsame k fun hmem => ?_
      rw [List.map_append,List.mem_append] at hmem
      exact hmem.elim hk fun hmem => hkh (List.mem_singleton.mp hmem)
    · rw [hall] at hrest
      obtain ⟨⟨new,rfl,hnew,hheld⟩,hsum,hinv⟩ := hrest
      refine ⟨⟨(handle, cap) :: new,?_,?_,fun e he => ?_⟩,hsum,fun h => hinv (hmove h)⟩
      · rw [List.append_assoc,List.singleton_append]
      · rw [List.map_cons,hnew]
      rcases List.mem_cons.mp he with rfl | he
      · exact hcap
      -- a handle named again would have been refused
      · have hne : e.1 ≠ handle := fun heq => hgone e.2 (heq ▸ hheld e he)
        rw [← hother e.1 hne]
        exact hheld e he

theorem commitAll_spec : ∀ (t : HandleTable) (ds : D), (commitAll Q handles t ds).1.caps ≤ t.caps ∧
    ∀ {taken : Multiset Handle}, TableInv t ((handles : Multiset Handle) + taken) →
      TableInv (commitAll Q handles t ds).1 taken := by
  induction handles with
  | nil =>
    refine fun t ds => ⟨le_refl _,fun h => ?_⟩
    rw [coe_nil,zero_add] at h
    exact h
  | cons handle rest ih =>
    intro t ds
    obtain ⟨hcaps,hkeep⟩ := t.commitTaken_spec Q ds handle
    refine ⟨(ih _ _).1.trans hcaps,fun h => ?_⟩
    rw [← cons_coe,cons_add] at h
    exact (ih _ _).2 (hkeep h)

theorem installAll_gains (caps : List Capability) : ∀ (t : HandleTable) (ds : D),
    Gains room caps t (installAll Q room caps t ds).2.1 := by
  induction caps with
  | nil => exact fun t ds => .refl
  | cons cap rest ih =>
    intro t ds
    exact (t.insertReserved_gains Q room ds cap).trans (ih _ _)

theorem closeHandles_gains : ∀ (t : HandleTable) (ds : D),
    Gains room 0 t (closeHandles Q objs handles t ds).1 := by
  induction handles with
  | nil => exact fun t ds => .refl
  | cons handle rest ih => exact fun t ds => (t.close_gains Q objs room ds handle).trans (ih _ _)

end HandleTable

end LiberSystem
