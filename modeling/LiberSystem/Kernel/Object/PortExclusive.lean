import LiberSystem.Kernel.Object.PortGrants
import LiberSystem.Lib.Ranges
import LiberSystem.Lib.Runs

/-!
# Port grants are exclusive

All ranges the table has given out form one list that stays exclusive and stays clear of the fixed
and the firmware ports.
-/

namespace LiberSystem

open List

def PortSpan.range (s : PortSpan) : Nat × Nat := (s.base, s.stop)

def PortInstall.range (i : PortInstall) : Nat × Nat := (i.base, i.stop)

theorem overlaps_eq_false_iff {base stop otherBase otherStop : Nat} :
    overlaps base stop otherBase otherStop = false ↔ Apart (base, stop) (otherBase, otherStop) := by
  simp only [overlaps,Bool.and_eq_false_iff,decide_eq_false_iff_not,not_lt,Apart]
  exact Or.comm

namespace PortTable

variable {t t' : PortTable}

def kernelPorts (t : PortTable) : List (Nat × Nat) :=
  fixedPorts.map (fun f => (f.1, f.1 + f.2)) ++ t.firmware

def holds (t : PortTable) : List (Nat × Nat) :=
  t.spans.map PortSpan.range ++ t.installs.map PortInstall.range

variable {α : Type} {pos : Nat} {s : PortSpan} {i : PortInstall}

theorem any_overlaps_eq_false_iff (l : List α) (f : α → Nat × Nat) (base stop : Nat) :
    (l.any fun a => overlaps base stop (f a).1 (f a).2) = false ↔
      ∀ a ∈ l, Apart (base, stop) (f a) := by
  rw [any_eq_false]
  refine forall₂_congr fun a _ => ?_
  rw [Bool.not_eq_true]
  exact overlaps_eq_false_iff

theorem reserved_eq_none_iff {base stop : Nat} : t.reserved base stop = none ↔
      (∀ r ∈ t.kernelPorts, Apart (base, stop) r) ∧
        ∀ i ∈ t.installs, Apart (base, stop) i.range := by
  have hfixed := any_overlaps_eq_false_iff fixedPorts (fun f => (f.1, f.1 + f.2)) base stop
  have hfirmware := any_overlaps_eq_false_iff t.firmware id base stop
  have hinstalls := any_overlaps_eq_false_iff t.installs PortInstall.range base stop
  simp only [id_eq,PortInstall.range] at hfixed hfirmware hinstalls
  simp only [kernelPorts,mem_append,mem_map,or_imp,forall_and,forall_exists_index,and_imp,
    forall_apply_eq_imp_iff₂,PortInstall.range]
  rw [← hfixed,← hfirmware,← hinstalls]
  unfold reserved
  split
  · next h => simp [h]
  next hno =>
  split
  · next h => simp [h]
  next hno' =>
  split
  · next h => simp [h]
  · next hno'' => simp_all

theorem taken_eq_none_iff {base stop : Nat} :
    t.taken base stop = none ↔ ∀ s ∈ t.spans, Apart (base, stop) s.range := by
  simp [taken,find?_eq_none,← overlaps_eq_false_iff,PortSpan.range]

theorem apart_of_checks {base stop : Nat} (hr : t.reserved base stop = none)
    (ht : t.taken base stop = none) :
    ∀ r ∈ t.kernelPorts ++ t.holds, Apart (base, stop) r := by
  obtain ⟨hkernel,hinstalls⟩ := reserved_eq_none_iff.mp hr
  have hspans := taken_eq_none_iff.mp ht
  intro r hmem
  simp only [holds,mem_append,mem_map] at hmem
  rcases hmem with h | ⟨s,hs,rfl⟩ | ⟨i,hi,rfl⟩
  · exact hkernel r h
  · exact hspans s hs
  · exact hinstalls i hi

/-- What a call does to the list of ranges given out. -/
inductive Moved (t t' : PortTable) : Prop where
  | same (h : t'.holds ~ t.holds)
  | added (r : Nat × Nat) (hfree : ∀ s ∈ t.kernelPorts ++ t.holds, Apart r s)
      (h : t'.holds ~ r :: t.holds)
  | dropped (r : Nat × Nat) (h : t.holds ~ r :: t'.holds)

/-- Every hold of an install is counted, also while a grant has its range. -/
def Counted (t : PortTable) : Prop :=
  (∀ i ∈ t.installs, 0 < i.count) ∧ ∀ s ∈ t.spans, ∀ r, s.returns = some r → 0 < r.2

/-- Everything the invariants need of one call. -/
structure Changed (t t' : PortTable) : Prop where
  firmware : t'.firmware = t.firmware
  moved : Moved t t'
  kept : ∀ s ∈ t.spans, s.owner = retiredOwner → s ∈ t'.spans
  counted : t.Counted → t'.Counted

theorem Changed.refl : Changed t t := ⟨rfl,.same (.refl _),fun _ h _ => h,id⟩

theorem holds_spans_append (t : PortTable) (s : PortSpan) :
    { t with spans := t.spans ++ [s] }.holds ~ s.range :: t.holds := by
  simp only [holds,map_append,map_cons,map_nil,append_assoc,singleton_append]
  exact perm_middle

theorem holds_installs_append (t : PortTable) (i : PortInstall) :
    { t with installs := t.installs ++ [i] }.holds ~ i.range :: t.holds := by
  simp only [holds,map_append,map_cons,map_nil,← append_assoc]
  exact perm_append_singleton _ _

theorem holds_spans_swapRemove (h : t.spans[pos]? = some s) :
    t.holds ~ s.range :: { t with spans := swapRemove t.spans pos }.holds :=
  ((swapRemove_perm h).map PortSpan.range).append_right _

theorem holds_installs_swapRemove (h : t.installs[pos]? = some i) :
    t.holds ~ i.range :: { t with installs := swapRemove t.installs pos }.holds :=
  (((swapRemove_perm h).map PortInstall.range).append_left _).trans perm_middle

theorem map_range_set {f : α → Nat × Nat} {l : List α} {a b : α}
    (h : l[pos]? = some a) (hf : f b = f a) : (l.set pos b).map f = l.map f := by
  obtain ⟨hpos,rfl⟩ := List.getElem?_eq_some_iff.mp h
  rw [map_set,hf,← map_set,set_getElem_self hpos]

theorem retired_mem_of_perm {spans : List PortSpan} {live : PortSpan} {rest : List PortSpan}
    (hp : spans ~ live :: rest) (hlive : live.owner ≠ retiredOwner) (hs : s ∈ spans)
    (hret : s.owner = retiredOwner) : s ∈ rest := by
  rcases mem_cons.mp (hp.mem_iff.mp hs) with rfl | h
  · exact absurd hret hlive
  · exact h

variable (room : Bool)

theorem changed_grant (base len owner : Nat) : Changed t (t.grant room base len owner).2 := by
  unfold grant
  split
  · exact Changed.refl
  next stop hend =>
  split
  · exact Changed.refl
  next hr =>
  split
  · exact Changed.refl
  next ht =>
  split
  · exact Changed.refl
  refine ⟨rfl,.added (base, stop) (apart_of_checks hr ht) (holds_spans_append _ _),
    fun s hs _ => mem_append_left _ hs,fun h => ⟨h.1,?_⟩⟩
  refine forall_mem_append.mpr ⟨h.2,forall_mem_singleton.mpr fun r hret => ?_⟩
  cases hret

theorem range_of_isFor {item base stop : Nat}
    (h : i.isFor item base stop = true) : i.range = (base, stop) := by
  simp only [PortInstall.isFor,Bool.and_eq_true,beq_iff_eq] at h
  rw [PortInstall.range,h.1.2,h.2]

theorem changed_grantFromInstall (item base len owner : Nat) :
    Changed t (t.grantFromInstall room item base len owner).2 := by
  unfold grantFromInstall
  split
  · exact Changed.refl
  next stop hend =>
  split
  · split <;> exact Changed.refl
  next pos held hfind =>
  obtain ⟨hpos,hfor⟩ := findAt_eq_some hfind
  have hperm := swapRemove_perm hpos
  split
  · exact Changed.refl
  dsimp only
  split
  · -- refused: the install is put back at the end
    have hback : swapRemove t.installs pos ++ [held] ~ t.installs :=
      (perm_append_singleton _ _).trans hperm.symm
    refine ⟨rfl,.same ((hback.map _).append_left _),fun s hs _ => hs,fun h => ⟨?_,h.2⟩⟩
    intro i hi
    exact h.1 i (hback.mem_iff.mp hi)
  -- moved: the same range, now in a span
  have hsame := (holds_spans_append { t with installs := swapRemove t.installs pos }
    ⟨base,stop,owner,some (held.item, held.count)⟩).trans
      (range_of_isFor hfor ▸ holds_installs_swapRemove hpos).symm
  refine ⟨rfl,.same hsame,fun s hs _ => mem_append_left _ hs,fun h => ⟨?_,?_⟩⟩
  · intro i hi
    exact h.1 i (hperm.mem_iff.mpr (mem_cons_of_mem _ hi))
  refine forall_mem_append.mpr ⟨h.2,forall_mem_singleton.mpr fun r hret => ?_⟩
  cases hret
  exact h.1 held (mem_of_getElem? hpos)

theorem changed_retire {span : PortSpan} (hpos : t.spans[pos]? = some span)
    (hlive : span.owner ≠ retiredOwner) :
    Changed t { t with spans := t.spans.set pos { span with owner := retiredOwner } } := by
  have hset := set_perm_eraseIdx hpos { span with owner := retiredOwner }
  have hholds : { t with spans := t.spans.set pos { span with owner := retiredOwner } }.holds
      = t.holds :=
    congrArg (· ++ _) (map_range_set hpos rfl)
  refine ⟨rfl,.same (by rw [hholds]),fun s hs hret => ?_,fun h => ⟨h.1,?_⟩⟩
  · have hrest := retired_mem_of_perm (perm_cons_eraseIdx hpos) hlive hs hret
    exact hset.mem_iff.mpr (mem_cons_of_mem _ hrest)
  intro s hs r hret
  rcases mem_cons.mp (hset.mem_iff.mp hs) with rfl | hs
  · exact h.2 span (mem_of_getElem? hpos) r hret
  · exact h.2 s ((perm_cons_eraseIdx hpos).mem_iff.mpr (mem_cons_of_mem _ hs)) r hret

theorem changed_endGrant {owner : Nat} (confirmed : Bool)
    (howner : owner ≠ retiredOwner) : Changed t (t.endGrant room owner confirmed) := by
  unfold endGrant
  split
  · exact Changed.refl
  next pos span hfind =>
  obtain ⟨hpos,howned⟩ := findAt_eq_some hfind
  have hlive : span.owner ≠ retiredOwner := by rwa [beq_iff_eq.mp howned]
  have hperm := swapRemove_perm hpos
  have hspans : ∀ s ∈ swapRemove t.spans pos, s ∈ t.spans := fun s hs =>
    hperm.mem_iff.mpr (mem_cons_of_mem _ hs)
  split
  · next item count hret =>
    split
    · -- the range goes back to the installs
      refine ⟨rfl,.same ?_,fun s hs hr => retired_mem_of_perm hperm hlive hs hr,
        fun h => ⟨?_,fun s hs => h.2 s (hspans s hs)⟩⟩
      · refine (holds_installs_append { t with spans := swapRemove t.spans pos }
          ⟨item,span.base,span.stop,count⟩).trans ?_
        exact (holds_spans_swapRemove hpos).symm
      exact forall_mem_append.mpr ⟨h.1,forall_mem_singleton.mpr
        (h.2 span (mem_of_getElem? hpos) _ hret)⟩
    · exact changed_retire hpos hlive
  · split
    · exact ⟨rfl,.dropped span.range (holds_spans_swapRemove hpos),
        fun s hs hr => retired_mem_of_perm hperm hlive hs hr,
        fun h => ⟨h.1,fun s hs => h.2 s (hspans s hs)⟩⟩
    · exact changed_retire hpos hlive

theorem changed_count {count : Nat} {held : PortInstall} (hpos : t.installs[pos]? = some held)
    (hcount : 0 < held.count → 0 < count) :
    Changed t { t with installs := t.installs.set pos { held with count := count } } := by
  have hset := set_perm_eraseIdx hpos { held with count := count }
  have hholds : { t with installs := t.installs.set pos { held with count := count } }.holds
      = t.holds :=
    congrArg (_ ++ ·) (map_range_set hpos rfl)
  refine ⟨rfl,.same (by rw [hholds]),fun s hs _ => hs,fun h => ⟨?_,h.2⟩⟩
  intro i hi
  rcases mem_cons.mp (hset.mem_iff.mp hi) with rfl | hi
  · exact hcount (h.1 held (mem_of_getElem? hpos))
  · exact h.1 i ((perm_cons_eraseIdx hpos).mem_iff.mpr (mem_cons_of_mem _ hi))

theorem changed_install (item base len : Nat) : Changed t (t.install room item base len).2 := by
  unfold install
  split
  · exact Changed.refl
  next stop hend =>
  split
  · next pos held hfind =>
    exact changed_count (findAt_eq_some hfind).1 fun _ => by omega
  split
  · exact Changed.refl
  next ht =>
  split
  · exact Changed.refl
  next hr =>
  split
  · exact Changed.refl
  refine ⟨rfl,.added (base, stop) (apart_of_checks hr ht) (holds_installs_append _ _),
    fun s hs _ => hs,fun h => ⟨?_,h.2⟩⟩
  exact forall_mem_append.mpr ⟨h.1,forall_mem_singleton.mpr Nat.one_pos⟩

theorem changed_uninstall (item base len : Nat) : Changed t (t.uninstall item base len).2 := by
  unfold uninstall
  split
  · exact Changed.refl
  next stop hend =>
  split
  · exact Changed.refl
  next pos held hfind =>
  obtain ⟨hpos,-⟩ := findAt_eq_some hfind
  split
  · refine ⟨rfl,.dropped held.range (holds_installs_swapRemove hpos),fun s hs _ => hs,
      fun h => ⟨fun i hi => h.1 i ?_,h.2⟩⟩
    exact (swapRemove_perm hpos).mem_iff.mpr (mem_cons_of_mem _ hi)
  · exact changed_count hpos fun _ => by omega

inductive Op where
  | grant (room : Bool) (base len owner : Nat)
  | grantFromInstall (room : Bool) (item base len owner : Nat)
  | endGrant (room : Bool) (owner : Nat) (confirmed : Bool)
  | install (room : Bool) (item base len : Nat)
  | uninstall (item base len : Nat)

def step (t : PortTable) : Op → Option PortTable
  | .grant room base len owner => some (t.grant room base len owner).2
  | .grantFromInstall room item base len owner =>
    some (t.grantFromInstall room item base len owner).2
  | .endGrant room owner confirmed => some (t.endGrant room owner confirmed)
  | .install room item base len => some (t.install room item base len).2
  | .uninstall item base len => some (t.uninstall item base len).2

/-- Grants are made to objects and ended by them, and an object's id is never zero. -/
def OwnedBy : Op → Prop
  | .grant _ _ _ owner => owner ≠ retiredOwner
  | .grantFromInstall _ _ _ _ owner => owner ≠ retiredOwner
  | .endGrant _ owner _ => owner ≠ retiredOwner
  | _ => True

instance : DecidablePred OwnedBy := fun op => by cases op <;> unfold OwnedBy <;> infer_instance

variable (blocks : List (Bool × Nat × Nat))

def booted : PortTable :=
  blocks.foldl (fun t (room, base, len) => (t.reserveFirmware room base len).2) empty

theorem changed_step {op : Op} (hown : OwnedBy op) (h : t.step op = some t') : Changed t t' := by
  cases op with
  | grant room base len owner => cases h; exact changed_grant room base len owner
  | grantFromInstall room item base len owner =>
    cases h; exact changed_grantFromInstall room item base len owner
  | endGrant room owner confirmed => cases h; exact changed_endGrant room confirmed hown
  | install room item base len => cases h; exact changed_install room item base len
  | uninstall item base len => cases h; exact changed_uninstall item base len

/-- The ranges given out share nothing, with each other or with the kernel's ports. -/
structure Inv (t : PortTable) : Prop where
  exclusive : Exclusive t.holds
  clear : ∀ r ∈ t.holds, ∀ s ∈ t.kernelPorts, Apart r s
  counted : t.Counted

theorem inv_step (hi : Inv t) (hc : Changed t t') : Inv t' := by
  have hkernel : t'.kernelPorts = t.kernelPorts := by rw [kernelPorts,hc.firmware,kernelPorts]
  refine ⟨?_,?_,hc.counted hi.counted⟩
  · cases hc.moved with
    | same h => exact hi.exclusive.perm h.symm
    | added r hfree h =>
      refine Exclusive.perm (Exclusive.cons_iff.mpr ⟨fun s hs => ?_,hi.exclusive⟩) h.symm
      exact hfree s (mem_append_right _ hs)
    | dropped r h => exact (Exclusive.cons_iff.mp (hi.exclusive.perm h)).2
  rw [hkernel]
  intro r hr
  cases hc.moved with
  | same h => exact hi.clear r (h.mem_iff.mp hr)
  | added r' hfree h =>
    rcases mem_cons.mp (h.mem_iff.mp hr) with rfl | hr
    · exact fun s hs => hfree s (mem_append_left _ hs)
    · exact hi.clear r hr
  | dropped r' h => exact hi.clear r (h.mem_iff.mpr (mem_cons_of_mem _ hr))

theorem inv_of_holds_nil (h : t.spans = []) (h' : t.installs = []) : Inv t := by
  have hholds : t.holds = [] := by simp [holds,h,h']
  refine ⟨hholds ▸ Exclusive.nil,?_,?_,?_⟩
  · intro r hr
    rw [hholds] at hr
    cases hr
  · intro i hi
    rw [h'] at hi
    cases hi
  · intro s hs
    rw [h] at hs
    cases hs

theorem reserveFirmware_frame (t : PortTable) (room : Bool) (base len : Nat) :
    (t.reserveFirmware room base len).2.spans = t.spans ∧
      (t.reserveFirmware room base len).2.installs = t.installs := by
  unfold reserveFirmware
  split
  · exact ⟨rfl,rfl⟩
  · split <;> exact ⟨rfl,rfl⟩

theorem booted_empty : (booted blocks).spans = [] ∧ (booted blocks).installs = [] := by
  refine foldlRecOn (motive := fun t : PortTable => t.spans = [] ∧ t.installs = [])
    blocks _ ⟨rfl,rfl⟩ ?_
  intro t ht block _
  obtain ⟨hspans,hinstalls⟩ := reserveFirmware_frame t block.1 block.2.1 block.2.2
  exact ⟨hspans.trans ht.1,hinstalls.trans ht.2⟩

def Called (_ : PortTable) (op : Op) : Prop := OwnedBy op

theorem inv_of_reaches {blocks : List (Bool × Nat × Nat)}
    (h : Reaches step Called (booted blocks) t) : Inv t := by
  obtain ⟨hspans,hinstalls⟩ := booted_empty blocks
  exact h.invariant (inv_of_holds_nil hspans hinstalls)
    fun _ _ _ hi hown hs => inv_step hi (changed_step hown hs)

theorem retired_of_reaches (h : Reaches step Called t t') (hs : s ∈ t.spans)
    (hret : s.owner = retiredOwner) : s ∈ t'.spans :=
  h.invariant hs fun _ _ _ hmem hown hstep => (changed_step hown hstep).kept s hmem hret

namespace Inv

variable {p : Nat}

theorem spans_exclusive (hi : Inv t) : Exclusive (t.spans.map PortSpan.range) :=
  (pairwise_append.mp hi.exclusive).1

theorem installs_exclusive (hi : Inv t) : Exclusive (t.installs.map PortInstall.range) :=
  (pairwise_append.mp hi.exclusive).2.1

variable {s : PortSpan}

theorem span_install_apart (hi : Inv t) {i : PortInstall} (hs : s ∈ t.spans)
    (hin : i ∈ t.installs) : Apart s.range i.range :=
  (pairwise_append.mp hi.exclusive).2.2 _ (mem_map_of_mem hs) _ (mem_map_of_mem hin)

theorem span_kernel_apart (hi : Inv t) {r : Nat × Nat} (hs : s ∈ t.spans)
    (hr : r ∈ t.kernelPorts) : Apart s.range r :=
  hi.clear _ (mem_append_left _ (mem_map_of_mem hs)) r hr

theorem span_unique (hi : Inv t) {a b : PortSpan} (ha : a ∈ t.spans) (hb : b ∈ t.spans)
    (hpa : p ∈ Set.Ico a.base a.stop) (hpb : p ∈ Set.Ico b.base b.stop) : a = b := by
  obtain ⟨i,hia⟩ := getElem?_of_mem ha
  obtain ⟨j,hjb⟩ := getElem?_of_mem hb
  by_cases hij : i = j
  · subst hij
    exact Option.some.inj (hia.symm.trans hjb)
  · exact absurd hpb ((hi.spans_exclusive.apart_of_ne hij hia hjb).not_mem hpa)

end Inv

/-- In every state `t` of a run, and in every state `u` the run goes on to: no port
lies in two spans of `t`; no span of `t` shares a port with the fixed set, with the
firmware's blocks or with an install; no port lies in two installs; and a port of a
span that is retired in `t` is in no live span and in no install of `u`. Owners need
not be distinct, only objects. -/
theorem port_grants_stay_exclusive {t u : PortTable}
    (ht : Reaches step Called (booted blocks) t) (hu : Reaches step Called t u) (p : Nat) :
    (∀ i j : Nat, i ≠ j → ∀ a b : PortSpan, t.spans[i]? = some a → t.spans[j]? = some b →
      p ∈ Set.Ico a.base a.stop → p ∉ Set.Ico b.base b.stop) ∧
    (∀ a ∈ t.spans, p ∈ Set.Ico a.base a.stop → (∀ f ∈ fixedPorts, p ∉ Set.Ico f.1 (f.1 + f.2)) ∧
      (∀ f ∈ t.firmware, p ∉ Set.Ico f.1 f.2) ∧
      ∀ k ∈ t.installs, p ∉ Set.Ico k.base k.stop) ∧
    (∀ i j : Nat, i ≠ j → ∀ a b : PortInstall, t.installs[i]? = some a → t.installs[j]? = some b →
      p ∈ Set.Ico a.base a.stop → p ∉ Set.Ico b.base b.stop) ∧
    ∀ a ∈ t.spans, a.owner = retiredOwner → p ∈ Set.Ico a.base a.stop →
      (∀ b ∈ u.spans, p ∈ Set.Ico b.base b.stop → b.owner = retiredOwner) ∧
      ∀ k ∈ u.installs, p ∉ Set.Ico k.base k.stop := by
  have hi := inv_of_reaches ht
  have hiu := inv_of_reaches (ht.trans hu)
  refine ⟨?_,?_,?_,?_⟩
  · intro i j hij a b ha hb hp
    exact (hi.spans_exclusive.apart_of_ne hij ha hb).not_mem hp
  · intro a ha hp
    refine ⟨fun f hf => ?_,fun f hf => ?_,fun k hk => ?_⟩
    · exact (hi.span_kernel_apart ha (mem_append_left _ (mem_map_of_mem hf))).not_mem hp
    · exact (hi.span_kernel_apart ha (mem_append_right _ hf)).not_mem hp
    · exact (hi.span_install_apart ha hk).not_mem hp
  · intro i j hij a b ha hb hp
    exact (hi.installs_exclusive.apart_of_ne hij ha hb).not_mem hp
  · intro a ha hret hp
    have hkept := retired_of_reaches hu ha hret
    refine ⟨fun b hb hpb => ?_,fun k hk => ?_⟩
    · rw [← hiu.span_unique hkept hb hp hpb,hret]
    · exact (hiu.span_install_apart hkept hk).not_mem hp

/-- The console's ports are installed, handed off, and retired because they cannot
go back; another range is granted, ended and granted again. -/
def consoleLost : List Op :=
  [.install true 1 0x3F8 8,.grantFromInstall true 1 0x3F8 8 5,.endGrant false 5 true]

def afterLoss : List Op :=
  [.install true 1 0x3F8 8,.grant true 0x3F0 0x20 6,.grant true 0x600 2 7]

theorem port_grants_stay_exclusive_consoleLost :
    ∃ t u, runList step (booted [(true, 0x608, 4)]) consoleLost = some t ∧
      runList step t afterLoss = some u ∧
      t.spans = [⟨0x3F8,0x400,retiredOwner,some (1, 1)⟩] ∧
      u.spans = t.spans ++ [⟨0x600,0x602,7,none⟩] ∧ u.installs = [] ∧
      ∀ b ∈ u.spans, 0x3F8 ∈ Set.Ico b.base b.stop → b.owner = retiredOwner := by
  let lost : PortSpan := ⟨0x3F8,0x400,retiredOwner,some (1, 1)⟩
  let t : PortTable := ⟨[(0x608, 0x60C)],[],[lost]⟩
  let u : PortTable := ⟨[(0x608, 0x60C)],[],[lost,⟨0x600,0x602,7,none⟩]⟩
  have ht : runList step (booted [(true, 0x608, 4)]) consoleLost = some t := by decide
  have hu : runList step t afterLoss = some u := by decide
  have hreach : Reaches step Called (booted [(true, 0x608, 4)]) t :=
    reaches_of_runList ht fun _ op => (by decide : ∀ op ∈ consoleLost, OwnedBy op) op
  have hon : Reaches step Called t u :=
    reaches_of_runList hu fun _ op => (by decide : ∀ op ∈ afterLoss, OwnedBy op) op
  refine ⟨t,u,ht,hu,rfl,rfl,rfl,?_⟩
  exact ((port_grants_stay_exclusive _ hreach hon 0x3F8).2.2.2 lost mem_cons_self rfl (by decide)).1

end PortTable

end LiberSystem
