import LiberSystem.LiberFs.Crc
import LiberSystem.LiberFs.DirMap
import LiberSystem.LiberFs.InodeTree
import LiberSystem.LiberFs.TreeRun

/-!
# The block trees are finite maps

Every history of a directory tree, and of the inode tree, leaves a tree that answers as the map of
what was last inserted and not deleted since.
-/

namespace LiberSystem

open Fallible FsM LiberFs List

section Dir

variable [Checksum]

def dirStep : TreeRun Name UInt32 → TreeOp Name UInt32 → Option (TreeRun Name UInt32) :=
  TreeRun.step dirTreeInsert dirTreeDelete

def dirOk (s : TreeRun Name UInt32) : TreeOp Name UInt32 → Prop
  | .insert name _ => name.length ≤ nameMax
  | .delete _ => True
  | .others m => TreeRun.Spares DirRec.key hashOf IsDirLeaf s.root s.machine.fs m.fs

def dirRec (name : Name) (child : UInt32) : DirRec := ⟨nameHash name,name,child⟩

omit [Checksum] in
theorem nameKey_injective : Function.Injective nameKey := fun _ _ h =>
  (Prod.mk.inj (toLex_inj.mp h)).2

abbrev KeepsDir (s : TreeRun Name UInt32) (root : Root DirRec) : Prop :=
  TreeRun.Keeps DirRec.key hashOf IsDirLeaf dirRec nameKey s root

variable {m : Machine} {s : TreeRun Name UInt32} {root : Root DirRec}

theorem keepsDir_of_reaches (hm : m.fs.Sound) (h : Reaches dirStep dirOk (.start m) s) :
    ∃ root, KeepsDir s root := by
  refine TreeRun.keeps_of_reaches hashOf_mono (fun _ _ => rfl) nameKey_injective
    (fun name _ => name.length ≤ nameMax)
    (fun _ _ _ _ hname hs hroot => dirTreeInsert_spec hname hs hroot) (fun _ _ _ hs hroot => ?_) hm
    (h.mono fun s op hok => ?_)
  · exact (dirTreeDelete_spec hs hroot).imp fun _ _ hres => hres.2
  · cases op <;> exact hok

variable (h : KeepsDir s root) (hbound : s.inserts < 101 ^ 63)
include h hbound

theorem KeepsDir.lookup_eq (name : Name) :
    wp (dirTreeLookup s.root name) (fun res m' => m'.fs = s.machine.fs ∧ res = s.map name)
      (fun e _ => e = .err .noMemory ∧ s.machine.heap 0 = false) s.machine := by
  rw [← h.link]
  refine (dirTreeLookup_spec h.holds (h.cost.trans_lt hbound)).mono (fun res m' hres => ?_)
    fun _ _ he => he
  refine ⟨hres.1,hres.2.trans ?_⟩
  rw [h.lookup name,Option.map_map]
  exact Option.map_id'

theorem KeepsDir.listing :
    wp (collectDirEntries s.root treeDepthMax) (fun res m' => m'.fs = s.machine.fs ∧
      (∀ name child, (name, child) ∈ res ↔ s.map name = some child) ∧
      res.Pairwise fun a b => nameKey a.1 < nameKey b.1)
      (fun e _ => e = .err .noMemory ∧ s.machine.heap 0 = false) s.machine := by
  rw [← h.link]
  refine (collectDirEntries_spec h.holds (h.cost.trans_lt hbound)).mono (fun res m' hres => ?_)
    fun _ _ he => he
  obtain ⟨hfs,rfl⟩ := hres
  have hkey : ∀ r ∈ root.records, r.key = nameKey r.name := fun r hr => by
    obtain ⟨name,child,rfl⟩ := h.made r hr
    rfl
  refine ⟨hfs,fun name child => ?_,?_⟩
  · rw [← h.mem_records hashOf_mono (fun _ _ => rfl) fun _ _ _ heq => congrArg DirRec.child heq,
      mem_map]
    constructor
    · rintro ⟨r,hr,heq⟩
      obtain ⟨name',child',rfl⟩ := h.made r hr
      cases heq
      exact hr
    · exact fun hr => ⟨_,hr,rfl⟩
  · refine pairwise_map.mpr ((h.holds.ascending hashOf_mono).imp_of_mem ?_)
    intro a b ha hb hlt
    rw [hkey a ha,hkey b hb] at hlt
    exact hlt

end Dir

section Inode

variable [Checksum]

def inodeRecord (num : UInt64) (inode : List UInt8) : List UInt8 := toLe 8 num.toNat ++ inode

def inodeStep : TreeRun UInt64 (List UInt8) → TreeOp UInt64 (List UInt8) →
    Option (TreeRun UInt64 (List UInt8)) :=
  TreeRun.step
    (fun root num inode =>
      treeInsert root num.toNat (inodeRecord num inode) inodeRec inodeLeafMax inodeKeylen)
    fun root num => treeDelete root num.toNat (toLe 8 num.toNat) inodeRec inodeKeylen

def inodeOk (s : TreeRun UInt64 (List UInt8)) : TreeOp UInt64 (List UInt8) → Prop
  | .insert _ inode => inode.length = inodeSize
  | .delete _ => True
  | .others m => TreeRun.Spares recKey id (IsFixedLeaf inodeRec) s.root s.machine.fs m.fs

omit [Checksum] in
theorem recKey_toLe (num : UInt64) (rest : List UInt8) :
    recKey (toLe 8 num.toNat ++ rest) = num.toNat := by
  rw [recKey,take_left' (length_toLe _ _)]
  exact ofLe_toLe (num.toNat_lt.trans_eq (by norm_num))

abbrev KeepsInodes (s : TreeRun UInt64 (List UInt8)) (root : Root (List UInt8)) : Prop :=
  TreeRun.Keeps recKey id (IsFixedLeaf inodeRec) inodeRecord UInt64.toNat s root

variable {m : Machine} {s : TreeRun UInt64 (List UInt8)} {root : Root (List UInt8)}

theorem keepsInodes_of_reaches (hm : m.fs.Sound) (h : Reaches inodeStep inodeOk (.start m) s) :
    ∃ root, KeepsInodes s root := by
  have hprobe : ∀ num : UInt64, recKey (toLe 8 num.toNat) = num.toNat := fun num => by
    have := recKey_toLe num []
    rwa [append_nil] at this
  refine TreeRun.keeps_of_reaches monotone_id recKey_toLe
    (fun _ _ => UInt64.toNat_inj.mp) (fun _ inode => inode.length = inodeSize)
    (fun m root num inode hlen hs hroot => ?_) (fun m root num hs hroot => ?_) hm
    (h.mono fun s op hok => ?_)
  · have hrec : (inodeRecord num inode).length = inodeRec := by
      rw [inodeRecord,length_append,length_toLe,hlen,inodeRec]
    have hspec := treeInsert_spec hroot (by decide) (show 0 < inodeLeafMax by decide) (by decide)
      hrec hs
    rw [inodeRecord,recKey_toLe] at hspec
    exact hspec
  · have hspec := treeDelete_spec hroot (by decide) (length_toLe 8 num.toNat) hs
    rw [hprobe] at hspec
    exact hspec.imp fun _ _ hres => hres.2
  · cases op <;> exact hok

theorem KeepsInodes.lookup_eq (h : KeepsInodes s root) (hbound : s.inserts < 101 ^ 63)
    (num : UInt64) :
    wp (treeLookup s.root num.toNat (toLe 8 num.toNat) inodeRec) (fun res m' =>
      m'.fs = s.machine.fs ∧ res = (s.map num).map (inodeRecord num))
      (fun e _ => e = .err .noMemory ∧ s.machine.heap 0 = false) s.machine := by
  have hprobe : recKey (toLe 8 num.toNat) = num.toNat := by
    have := recKey_toLe num []
    rwa [append_nil] at this
  have hspec := treeLookup_spec h.holds (by decide) (length_toLe 8 num.toNat)
    (h.cost.trans_lt hbound)
  rw [hprobe,h.link] at hspec
  refine hspec.mono (fun res m' hres => ⟨hres.1,hres.2.trans ?_⟩) fun _ _ he => he
  exact h.lookup num

end Inode

/-- After every history of a directory tree a lookup gives the child last inserted and
not deleted since, the listing gives exactly the entries present, in ascending order of
hash and name, and the separators of the tree ascend and route every hash to the child
that holds it; after every history of the inode tree a lookup gives the record last
inserted. A call that reads fails only if its buffer is refused. Names have at most 255
bytes, and no tree takes so many insertions that it outgrows the levels of a descent. -/
theorem block_trees_are_maps [Checksum] {m m' : Machine} (hm : m.fs.Sound) (hm' : m'.fs.Sound)
    {s : TreeRun Name UInt32} (hs : Reaches dirStep dirOk (.start m) s)
    (hbound : s.inserts < 101 ^ 63) {s' : TreeRun UInt64 (List UInt8)}
    (hs' : Reaches inodeStep inodeOk (.start m') s') (hbound' : s'.inserts < 101 ^ 63) :
    (∀ name, wp (dirTreeLookup s.root name) (fun res _ => res = s.map name)
      (fun e _ => e = .err .noMemory ∧ s.machine.heap 0 = false) s.machine) ∧
    wp (collectDirEntries s.root treeDepthMax) (fun res _ =>
      (∀ name child, (name, child) ∈ res ↔ s.map name = some child) ∧
      res.Pairwise fun a b => nameKey a.1 < nameKey b.1)
      (fun e _ => e = .err .noMemory ∧ s.machine.heap 0 = false) s.machine ∧
    (∃ root : Root DirRec, root.link = s.root ∧ HoldsDir s.machine.fs root ∧
      root.Separated DirRec.key hashOf) ∧
    (∀ num, wp (treeLookup s'.root num.toNat (toLe 8 num.toNat) inodeRec)
      (fun res _ => res = (s'.map num).map (inodeRecord num))
      (fun e _ => e = .err .noMemory ∧ s'.machine.heap 0 = false) s'.machine) := by
  obtain ⟨root,hroot⟩ := keepsDir_of_reaches hm hs
  obtain ⟨root',hroot'⟩ := keepsInodes_of_reaches hm' hs'
  refine ⟨fun name => ?_,?_,⟨root,hroot.link,hroot.holds,hroot.holds.separated⟩,fun num => ?_⟩
  · exact (hroot.lookup_eq hbound name).mono (fun _ _ hres => hres.2) fun _ _ he => he
  · exact (hroot.listing hbound).mono (fun _ _ hres => hres.2) fun _ _ he => he
  · exact (hroot'.lookup_eq hbound' num).mono (fun _ _ hres => hres.2) fun _ _ he => he

def bareMachine : Machine where
  fs :=
    { dev := fun _ => Bytes.zeros
      numBlocks := 16
      free := fun i => if i = 0 then 3 else 0
      dataCursor := poolStart
      metaCursor := 15
      fresh := ∅
      dead := ∅
      wcsum := none
      rcsum := none
      decomp := [] }
  heap := fun _ => true

theorem bareMachine_sound : bareMachine.fs.Sound where
  fresh b hb := absurd hb (Finset.notMem_empty b)
  dead b hb := absurd hb (Finset.notMem_empty b)
  slots b hb := by
    have : ∀ b < 2, bareMachine.fs.isAlloc b = true := by decide
    exact this b hb
  numBlocks_le := by decide

def onesInode : List UInt8 := List.replicate inodeSize 1

/-- The checksum of the front of a block: its header and its first key. -/
@[reducible] def frontCrc : Checksum := ⟨fun data => Crc32c.castagnoli.crc32c (data.take 16)⟩

/-- More inodes than a leaf holds. -/
def manyInodes : List (TreeOp UInt64 (List UInt8)) :=
  (List.range 16).map fun i => .insert (UInt64.ofNat i) onesInode

theorem block_trees_are_maps_bare : ∃ (_ : Checksum) (s : TreeRun Name UInt32)
    (s' : TreeRun UInt64 (List UInt8)), s.map [97] = some 7 ∧ s.map [98] = none ∧
    s'.map 5 = some onesInode ∧ (s'.machine.fs.dev s'.root.ptr).nodeType = nodeInternal ∧
    wp (dirTreeLookup s.root [97]) (fun res _ => res = some 7)
      (fun e _ => e = .err .noMemory ∧ s.machine.heap 0 = false) s.machine ∧
    wp (treeLookup s'.root 5 (toLe 8 5) inodeRec) (fun res _ => res = some (toLe 8 5 ++ onesInode))
      (fun e _ => e = .err .noMemory ∧ s'.machine.heap 0 = false) s'.machine := by
  let _ := frontCrc
  have hdir : (runList dirStep (.start bareMachine)
      [.insert [97] 9,.insert [98] 8,.insert [97] 7,.delete [98]]).map (fun s =>
        (s.map [97], s.map [98], s.inserts)) = some (some 7, none, 3) := by decide +kernel
  have hino : (runList inodeStep (.start bareMachine) manyInodes).map (fun s =>
      (s.map 5, (s.machine.fs.dev s.root.ptr).nodeType, s.inserts)) =
      some (some onesInode, nodeInternal, 16) := by decide +kernel
  obtain ⟨s,hs,heq⟩ := Option.map_eq_some_iff.mp hdir
  obtain ⟨s',hs',heq'⟩ := Option.map_eq_some_iff.mp hino
  simp only [Prod.mk.injEq] at heq heq'
  have hrun : Reaches dirStep dirOk (.start bareMachine) s :=
    reaches_of_runList hs (by simp [dirOk,nameMax])
  have hrun' : Reaches inodeStep inodeOk (.start bareMachine) s' :=
    reaches_of_runList hs' (by simp [inodeOk,manyInodes,onesInode])
  have hbound : 16 < 101 ^ 63 := by decide +kernel
  obtain ⟨hlook,-,-,hlook'⟩ := block_trees_are_maps bareMachine_sound bareMachine_sound hrun
    (by rw [heq.2.2]; exact lt_trans (by decide) hbound) hrun' (by rw [heq'.2.2]; exact hbound)
  refine ⟨frontCrc,s,s',heq.1,heq.2.1,heq'.1,heq'.2.1,?_,?_⟩
  · have := hlook [97]
    rwa [heq.1] at this
  · have := hlook' 5
    rwa [heq'.1] at this

/-- A name one byte too long for the length byte of its record. -/
def longName : Name := List.replicate 256 97

/-- A name of 256 bytes is inserted without an error and is not found again: the record
keeps the length of its name in one byte. -/
theorem dirTreeLookup_long_name : ∃ (_ : Checksum) (m : Machine) (name : Name) (l : Link)
    (m' : Machine), m.fs.Sound ∧ name.length = 256 ∧
    exec (dirTreeInsert ⟨0,0⟩ name 7) m = (.ok l, m') ∧
    (exec (dirTreeLookup l name) m').1 = .ok none := by
  let plain : Checksum := ⟨fun _ => 0⟩
  have hlost : ∀ r : Except Fault Link × Machine,
      (r.1.toOption.bind fun l => (exec (dirTreeLookup l longName) r.2).1.toOption) = some none →
      ∃ l m', r = (.ok l, m') ∧ (exec (dirTreeLookup l longName) m').1 = .ok none := by
    intro r hr
    obtain ⟨l,hins,hlook⟩ := Option.bind_eq_some_iff.mp hr
    exact ⟨l,r.2,Prod.ext (ok_of_toOption hins) rfl,ok_of_toOption hlook⟩
  obtain ⟨l,m',hins,hlook⟩ :=
    hlost (exec (dirTreeInsert ⟨0,0⟩ longName 7) bareMachine) (by decide +kernel)
  exact ⟨plain,bareMachine,longName,l,m',bareMachine_sound,length_replicate,hins,hlook⟩

/-! ### Between two commits -/

/-- A call of the transaction itself. -/
def dirCall (_ : TreeRun Name UInt32) : TreeOp Name UInt32 → Prop
  | .insert name _ => name.length ≤ nameMax
  | .delete _ => True
  | .others _ => False

section

variable [Checksum] {m : Machine} {s s' : TreeRun Name UInt32}

/-- A transaction trades the blocks of a tree for those of the tree that it leaves. -/
theorem KeepsDir.trades {root : Root DirRec} (h : KeepsDir s root)
    (hrun : Reaches dirStep dirCall s s') : ∃ root', KeepsDir s' root' ∧
      Trades s.machine.fs root.blocks s'.machine.fs root'.blocks := by
  refine hrun.invariant (P := fun u => ∃ root', KeepsDir u root' ∧
    Trades s.machine.fs root.blocks u.machine.fs root'.blocks)
    ⟨root,h,.refl h.sound h.holds.owns⟩ ?_
  rintro u op u' ⟨root₁,hk,ht⟩ hok hstep
  cases op with
  | insert name child =>
    simp only [dirStep,TreeRun.step] at hstep
    split at hstep <;> cases hstep
    next hins =>
    rw [← hk.link] at hins
    obtain ⟨root',hb⟩ := (dirTreeInsert_spec hok hk.sound hk.holds).of_ok hins
    exact ⟨root',hk.insert hashOf_mono (fun _ _ => rfl) nameKey_injective hb,ht.trans hb.trades⟩
  | delete name =>
    simp only [dirStep,TreeRun.step] at hstep
    split at hstep <;> cases hstep
    next hdel =>
    rw [← hk.link] at hdel
    obtain ⟨-,root',hb⟩ := (dirTreeDelete_spec hk.sound hk.holds).of_ok hdel
    exact ⟨root',hk.delete hashOf_mono nameKey_injective hb,ht.trans hb.trades⟩
  | others m => cases hok

/-- A crash before the next commit loses nothing: with the blocks in use at the last one as they
are now, and anything in the others, a lookup under its root answers as then. -/
theorem committed_directory_survives (hm : m.fs.Sound) (hs : Reaches dirStep dirOk (.start m) s)
    (hbound : s.inserts < 101 ^ 63) (hcommit : s.machine.fs.fresh = ∅)
    (hrun : Reaches dirStep dirCall s s') {dev : ℕ → Block}
    (hdev : ∀ b, s.machine.fs.isAlloc b = true → dev b = s'.machine.fs.dev b)
    (heap : ℕ → Bool) (name : Name) :
    wp (dirTreeLookup s.root name) (fun res _ => res = s.map name)
      (fun e _ => e = .err .noMemory ∧ heap 0 = false) ⟨{ s.machine.fs with dev := dev },heap⟩ := by
  obtain ⟨root,hk⟩ := keepsDir_of_reaches hm hs
  obtain ⟨root',-,ht⟩ := hk.trades hrun
  have hsound := hk.sound
  have hspares : TreeRun.Spares DirRec.key hashOf IsDirLeaf s.root s.machine.fs
      { s.machine.fs with dev := dev } := by
    refine ⟨⟨hsound.1,hsound.2,hsound.3,hsound.4⟩,fun r _ hr => ?_⟩
    have ho := hr.owns
    refine ⟨⟨ho.1,ho.2,ho.3⟩,fun b hb => ?_⟩
    have hused := ho.ne_free hb
    have hold : s.machine.fs.standing b ≠ .fresh := by
      rw [ne_eq,hsound.standing_eq_fresh,hcommit]
      exact Finset.notMem_empty b
    rw [← ht.dev b hused fun _ => hold]
    exact hdev b (Bool.not_eq_false _ ▸ fun h => hused (standing_eq_free.mpr h))
  have hlook := KeepsDir.lookup_eq (hk.others (m := ⟨_,heap⟩) hspares) hbound name
  exact hlook.mono (fun _ _ h => h.2) fun _ _ he => he

end

/-- The run at a commit, which leaves no block fresh. -/
def TreeRun.commit (s : TreeRun Name UInt32) : TreeRun Name UInt32 :=
  { s with machine.fs.fresh := ∅ }

theorem dirOk_commit [Checksum] {s : TreeRun Name UInt32} (h : s.machine.fs.Sound) :
    dirOk s (.others s.commit.machine) := by
  refine ⟨⟨nofun,h.dead,h.slots,h.numBlocks_le⟩,fun root _ hr => ?_⟩
  refine ⟨⟨hr.owns.nodup,hr.owns.pool,fun b hb => .inr ?_⟩,fun _ _ => rfl⟩
  have halloc : s.machine.fs.isAlloc b ≠ false := fun h =>
    hr.owns.ne_free hb (standing_eq_free.mpr h)
  have hdead : b ∉ s.machine.fs.dead := by
    intro hd
    rcases hr.owns.live b hb with hl | hl
    · exact (h.fresh b (h.standing_eq_fresh.mp hl)).2 hd
    · rw [standing,if_neg halloc,if_pos hd] at hl
      split at hl <;> cases hl
  exact (if_neg halloc).trans ((if_neg (Finset.notMem_empty b)).trans (if_neg hdead))

/-- The volume of the commit `s` after a crash at `s'`, with what was free then lost. -/
def TreeRun.crash (s s' : TreeRun Name UInt32) : Machine :=
  { s.machine with fs.dev := fun b =>
    if s.machine.fs.isAlloc b then s'.machine.fs.dev b else Bytes.zeros }

/-- A name is committed, and deleted by a transaction that adds another one. -/
theorem committed_directory_survives_delete : ∃ (_ : Checksum) (s s' : TreeRun Name UInt32),
    s.map [97] = some 7 ∧ s'.map [97] = none ∧
    wp (dirTreeLookup s.root [97]) (fun res _ => res = some 7)
      (fun e _ => e = .err .noMemory ∧ s.machine.heap 0 = false) (s.crash s') := by
  let _ := frontCrc
  have heval : ((runList dirStep (.start bareMachine) [.insert [97] 7]).bind fun s =>
      (runList dirStep s.commit [.insert [98] 8,.delete [97]]).map fun s' =>
        (s.map [97], s'.map [97], s.inserts)) = some (some 7, none, 1) := by decide +kernel
  obtain ⟨s,hs,hs'⟩ := Option.bind_eq_some_iff.mp heval
  obtain ⟨s',hs',heq⟩ := Option.map_eq_some_iff.mp hs'
  simp only [Prod.mk.injEq] at heq
  have hrun : Reaches dirStep dirOk (.start bareMachine) s :=
    reaches_of_runList hs (by simp [dirOk,nameMax])
  have hrun' : Reaches dirStep dirCall s.commit s' :=
    reaches_of_runList hs' (by simp [dirCall,nameMax])
  obtain ⟨root,hk⟩ := keepsDir_of_reaches bareMachine_sound hrun
  have hdev : ∀ b, s.commit.machine.fs.isAlloc b = true →
      (s.commit.crash s').fs.dev b = s'.machine.fs.dev b := fun b hb => if_pos hb
  have hlook := committed_directory_survives bareMachine_sound
    (hrun.tail (dirOk_commit hk.sound) rfl) (heq.2.2.trans_lt (by decide +kernel)) rfl hrun' hdev
    s.machine.heap [97]
  exact ⟨frontCrc,s.commit,s',heq.1,heq.2.1,heq.1 ▸ hlook⟩

end LiberSystem
