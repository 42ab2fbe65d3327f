import LiberSystem.Lib.Runs
import LiberSystem.LiberFs.TreeRoot

/-!
# Histories of a block tree

A history inserts and deletes under one root, the root that each call returns being the next one's.
-/

namespace LiberSystem

open Fallible FsM LiberFs Function

/-- A tree in use, with the map that its history asks for. -/
structure TreeRun (A V : Type) where
  machine : Machine
  root : Link
  map : A → Option V
  inserts : ℕ

inductive TreeOp (A V : Type)
  | insert (a : A) (v : V)
  | delete (a : A)
  | others (m : Machine)

namespace TreeRun

variable {A V : Type} [DecidableEq A]

def start (m : Machine) : TreeRun A V := ⟨m,⟨0,0⟩,fun _ => none,0⟩

def step (ins : Link → A → V → FsM Link) (del : Link → A → FsM (Link × Bool)) (s : TreeRun A V) :
    TreeOp A V → Option (TreeRun A V)
  | .insert a v => match exec (ins s.root a v) s.machine with
    | (.ok l, m) => some ⟨m,l,Function.update s.map a (some v),s.inserts + 1⟩
    | (.error _, _) => none
  | .delete a => match exec (del s.root a) s.machine with
    | (.ok (l, _), m) => some ⟨m,l,Function.update s.map a none,s.inserts⟩
    | (.error _, _) => none
  | .others m => some { s with machine := m }

variable [Checksum] {R K : Type} [LinearOrder K] (key : R → K) (rank : K → ℕ)
  (IsLeaf : Block → List R → Prop)

/-- Others leave the tree at `link` alone: it keeps its blocks, and they their content. -/
def Spares (link : Link) (fs fs' : LiberFs) : Prop :=
  fs'.Sound ∧ ∀ root : Root R, root.link = link → root.Holds key rank IsLeaf fs →
    Owns fs' root.blocks ∧ ∀ b ∈ root.blocks, fs'.dev b = fs.dev b

/-- The volume holds a tree whose records are the map's entries, made by `mk`. -/
structure Keeps (mk : A → V → R) (keyOf : A → K) (s : TreeRun A V) (root : Root R) : Prop where
  sound : s.machine.fs.Sound
  link : root.link = s.root
  holds : root.Holds key rank IsLeaf s.machine.fs
  cost : root.cost ≤ s.inserts
  made : ∀ r ∈ root.records, ∃ a v, r = mk a v
  lookup : ∀ a, lookup key (keyOf a) root.records = (s.map a).map (mk a)

variable {key rank IsLeaf} {mk : A → V → R} {keyOf : A → K} {s s' : TreeRun A V} {root : Root R}
  {m : Machine} {a : A} {v : V}

omit [DecidableEq A] in
theorem keeps_start (h : m.fs.Sound) : Keeps key rank IsLeaf mk keyOf (start m) .empty :=
  ⟨h,rfl,trivial,le_rfl,fun _ hr => (nomatch hr),fun _ => rfl⟩

omit [DecidableEq A] in
theorem Keeps.mem_records (h : Keeps key rank IsLeaf mk keyOf s root) (hrank : Monotone rank)
    (hmk : ∀ a v, key (mk a v) = keyOf a) (hval : ∀ a v v', mk a v = mk a v' → v = v')
    : mk a v ∈ root.records ↔ s.map a = some v := by
  have hasc := h.holds.ascending hrank
  have hlook := h.lookup a
  constructor
  · intro hmem
    rw [(lookup_eq_some hasc).mpr ⟨hmem,hmk a v⟩] at hlook
    obtain ⟨v',hv',heq⟩ := Option.map_eq_some_iff.mp hlook.symm
    rw [hv',hval a v' v heq]
  · intro hmap
    rw [hmap] at hlook
    exact ((lookup_eq_some hasc).mp hlook).1

variable {m : Machine} {root' : Root R} {l : Link}

theorem Keeps.insert (hrank : Monotone rank) (hmk : ∀ a v, key (mk a v) = keyOf a)
    (hinj : Function.Injective keyOf) (h : Keeps key rank IsLeaf mk keyOf s root)
    (hb : Root.Becomes key rank IsLeaf s.machine.fs root m.fs l
      (upsert key (mk a v) root.records) 1 root') :
    Keeps key rank IsLeaf mk keyOf ⟨m,l,update s.map a (some v),s.inserts + 1⟩ root' where
  sound := hb.trades.sound
  link := hb.link
  holds := hb.holds
  cost := hb.cost.trans (Nat.add_le_add_right h.cost 1)
  made r hr := by
    rw [hb.records] at hr
    rcases mem_upsert.mp hr with rfl | ⟨hr,-⟩
    · exact ⟨a,v,rfl⟩
    · exact h.made r hr
  lookup c := by
    change _ = (update s.map a (some v) c).map (mk c)
    rw [hb.records,lookup_upsert (h.holds.ascending hrank),hmk]
    by_cases hc : c = a
    · subst hc
      rw [if_pos rfl,update_self,Option.map_some]
    · rw [if_neg fun heq => hc (hinj heq),update_of_ne hc]
      exact h.lookup c

theorem Keeps.delete (hrank : Monotone rank) (hinj : Function.Injective keyOf)
    (h : Keeps key rank IsLeaf mk keyOf s root)
    (hb : Root.Becomes key rank IsLeaf s.machine.fs root m.fs l
      (without key (keyOf a) root.records) 0 root') :
    Keeps key rank IsLeaf mk keyOf ⟨m,l,update s.map a none,s.inserts⟩ root' where
  sound := hb.trades.sound
  link := hb.link
  holds := hb.holds
  cost := hb.cost.trans h.cost
  made r hr := by
    rw [hb.records] at hr
    exact h.made r (mem_without.mp hr).1
  lookup c := by
    change _ = (update s.map a none c).map (mk c)
    rw [hb.records,lookup_without (h.holds.ascending hrank)]
    by_cases hc : c = a
    · subst hc
      rw [if_pos rfl,update_self,Option.map_none]
    · rw [if_neg fun heq => hc (hinj heq),update_of_ne hc]
      exact h.lookup c

omit [DecidableEq A] in
theorem Keeps.others (h : Keeps key rank IsLeaf mk keyOf s root)
    (hm : Spares key rank IsLeaf s.root s.machine.fs m.fs) :
    Keeps key rank IsLeaf mk keyOf { s with machine := m } root where
  sound := hm.1
  link := h.link
  holds := by
    obtain ⟨hown,hdev⟩ := hm.2 root h.link h.holds
    have hold := h.holds
    cases root with
    | empty => trivial
    | of t => exact ⟨hown,hold.2.1.congr hdev,hold.2.2⟩
  cost := h.cost
  made := h.made
  lookup := h.lookup

theorem keeps_of_reaches (hrank : Monotone rank) (hmk : ∀ a v, key (mk a v) = keyOf a)
    (hinj : Function.Injective keyOf) {ins : Link → A → V → FsM Link}
    {del : Link → A → FsM (Link × Bool)} (ok : A → V → Prop)
    (hins : ∀ m root a v, ok a v → m.fs.Sound → root.Holds key rank IsLeaf m.fs →
      wp (ins root.link a v) (fun l m' => ∃ root', Root.Becomes key rank IsLeaf m.fs root m'.fs l
        (upsert key (mk a v) root.records) 1 root') (fun _ _ => True) m)
    (hdel : ∀ m root a, m.fs.Sound → root.Holds key rank IsLeaf m.fs →
      wp (del root.link a) (fun res m' => ∃ root',
        Root.Becomes key rank IsLeaf m.fs root m'.fs res.1
        (without key (keyOf a) root.records) 0 root') (fun _ _ => True) m) (hm : m.fs.Sound)
    (h : Reaches (step ins del) (fun s op => match op with
      | .insert a v => ok a v
      | .delete _ => True
      | .others m => Spares key rank IsLeaf s.root s.machine.fs m.fs) (start m) s) :
    ∃ root, Keeps key rank IsLeaf mk keyOf s root := by
  refine h.invariant (P := fun s => ∃ root, Keeps key rank IsLeaf mk keyOf s root)
    ⟨.empty,keeps_start hm⟩ ?_
  rintro s op s' ⟨root,hk⟩ hok hstep
  cases op with
  | insert a v =>
    have hspec := hins s.machine root a v hok hk.sound hk.holds
    rw [hk.link] at hspec
    simp only [step] at hstep
    split at hstep
    · next l m' hexec =>
      obtain ⟨root',hb⟩ := hspec.of_ok hexec
      cases hstep
      exact ⟨root',hk.insert hrank hmk hinj hb⟩
    · cases hstep
  | delete a =>
    have hspec := hdel s.machine root a hk.sound hk.holds
    rw [hk.link] at hspec
    simp only [step] at hstep
    split at hstep
    · next l _ m' hexec =>
      obtain ⟨root',hb⟩ := hspec.of_ok hexec
      cases hstep
      exact ⟨root',hk.delete hrank hinj hb⟩
    · cases hstep
  | others m =>
    cases hstep
    exact ⟨root,hk.others hok⟩

end TreeRun

end LiberSystem
