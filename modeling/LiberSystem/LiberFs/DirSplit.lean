import LiberSystem.LiberFs.DirTree
import Mathlib.Algebra.Order.BigOperators.Group.List

/-!
# How large the halves of a split directory leaf are

The cut stands at a boundary between two hashes beside the middle of the bytes. The records of the
hash in the middle push it away, so a half may outgrow its block once they are many.
-/

namespace LiberSystem

open List DirRec

variable {keys : List ℕ} {up fuel down j p h : ℕ} {recs : List DirRec} {r : DirRec}

theorem sameKey_of_splitUp (hlo : up ≤ j) (hhi : j < splitUp keys fuel up) : sameKey keys j := by
  induction fuel generalizing up with
  | zero => exact absurd hhi (not_lt.mpr hlo)
  | succ fuel ih =>
    rw [splitUp] at hhi
    split at hhi
    · next h =>
      rcases Nat.lt_or_eq_of_le hlo with hlt | rfl
      · exact ih hlt hhi
      · exact h.2
    · exact absurd hhi (not_lt.mpr hlo)

theorem sameKey_of_splitDown (hlo : splitDown keys down < j) (hhi : j ≤ down) : sameKey keys j := by
  induction down with
  | zero => exact absurd hhi (not_le.mpr hlo)
  | succ down ih =>
    rw [splitDown] at hlo
    split at hlo
    · next h =>
      rcases Nat.lt_or_eq_of_le hhi with hlt | rfl
      · exact ih hlo (Nat.le_of_lt_succ hlt)
      · exact h.2
    · exact absurd hhi (not_le.mpr hlo)

def recBytes (recs : List DirRec) : ℕ := (recs.map fun r => dirRecHdr + r.name.length).sum

theorem recBytes_take_add (recs : List DirRec) (n : ℕ) :
    recBytes (recs.take n) + recBytes (recs.drop n) = recBytes recs := by
  rw [recBytes,recBytes,← sum_append,← map_append,take_append_drop,recBytes]

theorem recBytes_le {recs' : List DirRec} (h : recs <+ recs') : recBytes recs ≤ recBytes recs' :=
  (h.map _).sum_le_sum fun _ _ => Nat.zero_le _

/-- The bytes of the records with a hash of `q`. -/
def bytesWhere (q : ℕ → Bool) (recs : List DirRec) : ℕ := recBytes (recs.filter fun x => q x.hash)

/-- With the records of the hash `h` the bytes reach half of all. -/
def HalfAt (recs : List DirRec) (h : ℕ) : Prop :=
  2 * bytesWhere (· < h) recs < recBytes recs ∧ recBytes recs ≤ 2 * bytesWhere (· ≤ h) recs

/-- The records of the hash in the middle fit a block together with those below it, or without them
if there is none above it. -/
def MiddleFits (recs : List DirRec) : Prop :=
  ∀ x ∈ recs, HalfAt recs x.hash →
    if ∃ y ∈ recs, x.hash < y.hash then nodeHdr + bytesWhere (· ≤ x.hash) recs ≤ blockSize
    else nodeHdr + bytesWhere (· = x.hash) recs ≤ blockSize

instance : Decidable (HalfAt recs h) := inferInstanceAs (Decidable (_ ∧ _))

theorem HalfAt.le {h' : ℕ} (hh : HalfAt recs h) (hh' : HalfAt recs h') : h ≤ h' := by
  by_contra hlt
  have hsub : recs.filter (fun x => decide (x.hash ≤ h')) <+
      recs.filter fun x => decide (x.hash < h) := monotone_filter_right recs fun x hx =>
    decide_eq_true (lt_of_le_of_lt (of_decide_eq_true hx) (not_le.mp hlt))
  have hbytes := recBytes_le hsub
  have hbelow := hh.1
  have habove := hh'.2
  simp only [bytesWhere] at hbelow habove
  omega

section

variable {q : ℕ → Bool}

theorem bytesWhere_add (n : ℕ) :
    bytesWhere q (recs.take n) + bytesWhere q (recs.drop n) = bytesWhere q recs := by
  simp only [bytesWhere,recBytes,← sum_append,← map_append,← filter_append,take_append_drop]

theorem bytesWhere_le : bytesWhere q recs ≤ recBytes recs := recBytes_le filter_sublist

theorem bytesWhere_of_all (h : ∀ x ∈ recs, q x.hash) : bytesWhere q recs = recBytes recs := by
  rw [bytesWhere,filter_eq_self.mpr h]

theorem bytesWhere_of_none (h : ∀ x ∈ recs, ¬ q x.hash) : bytesWhere q recs = 0 := by
  rw [bytesWhere,filter_eq_nil_iff.mpr h]
  rfl

end

theorem hash_eq_of_sameKey {i n : ℕ} (hn : n ≤ recs.length)
    (hrun : ∀ j, i < j → j < n → sameKey (recs.map hash) j) (j : ℕ) (hij : i ≤ j) (hj : j < n) :
    recs[j].hash = recs[i].hash := by
  induction j, hij using Nat.le_induction with
  | base => rfl
  | succ j hij ih =>
    rw [← ih (by omega)]
    exact (sameKey_map (by omega)).mp (hrun (j + 1) (by omega) hj)

/-- The middle stands behind the record with which the bytes reach half of all. -/
theorem dirMidFrom_spec {total n mid i acc : ℕ} {rs : List DirRec} (hacc : acc * 2 < total)
    (htotal : total ≤ (acc + recBytes rs) * 2) :
    ∃ j < rs.length, dirMidFrom total n mid rs i acc = min (i + j + 1) (n - 1) ∧
      (acc + recBytes (rs.take j)) * 2 < total ∧
      total ≤ (acc + recBytes (rs.take (j + 1))) * 2 := by
  induction rs generalizing i acc with
  | nil =>
    simp only [recBytes,map_nil,sum_nil] at htotal
    omega
  | cons r rs ih =>
    simp only [recBytes,map_cons,sum_cons] at htotal
    rw [dirMidFrom]
    split
    · next hge =>
      refine ⟨0,Nat.succ_pos _,rfl,?_,?_⟩
      · simpa [recBytes] using hacc
      · simpa [recBytes] using hge
    next hlt =>
    obtain ⟨j,hj,hmid,hlo,hhi⟩ := @ih (i + 1) (acc + (dirRecHdr + r.name.length))
      (by omega) (by simp only [recBytes]; omega)
    refine ⟨j + 1,Nat.succ_lt_succ hj,?_,?_,?_⟩
    · rw [hmid]
      congr 2
      omega
    · simp only [recBytes,take_succ_cons,map_cons,sum_cons] at hlo ⊢
      omega
    · simp only [recBytes,take_succ_cons,map_cons,sum_cons] at hhi ⊢
      omega

/-- Where the cut stands by the hash in the middle: behind its records, or before them if they are
the last. -/
theorem dirSplitPoint_halves (hsorted : recs.Pairwise fun x y => x.hash ≤ y.hash)
    (hlarge : 4088 < recBytes recs) (hnames : ∀ r ∈ recs, r.name.length ≤ 255)
    (hsplit : dirSplitPoint recs = some p) (hp : 0 < p) (hlt : p < recs.length)
    (hcut : recs[p - 1].hash ≠ recs[p].hash) :
    ∃ x ∈ recs, HalfAt recs x.hash ∧
      ((∀ y ∈ recs.take p, y.hash ≤ x.hash) ∧ (∀ y ∈ recs.drop p, x.hash < y.hash) ∨
        (∀ y ∈ recs.take p, y.hash < x.hash) ∧ ∀ y ∈ recs.drop p, y.hash = x.hash) := by
  have htotal : dirLeafSize recs - nodeHdr = recBytes recs := Nat.add_sub_cancel_left ..
  obtain ⟨j,hj,hmid,hlo,hhi⟩ :=
    @dirMidFrom_spec (recBytes recs) recs.length (recs.length / 2) 0 0 recs (by omega) (by omega)
  have hjlt : j + 1 < recs.length := by
    by_contra hge
    have hstep : recBytes (recs.take (j + 1)) =
        recBytes (recs.take j) + (13 + recs[j].name.length) := by
      rw [take_succ_eq_append_getElem hj,recBytes,map_append,sum_append]
      rfl
    have hname := hnames recs[j] (getElem_mem hj)
    rw [take_of_length_le (by omega)] at hstep
    omega
  have hle : ∀ i k (hik : i ≤ k) (hk : k < recs.length), recs[i].hash ≤ recs[k].hash := by
    intro i k hik hk
    rcases Nat.eq_or_lt_of_le hik with rfl | hik
    · exact le_rfl
    · exact pairwise_iff_getElem.mp hsorted i k _ hk hik
  have htake : ∀ n k (hk : k < recs.length), n ≤ k + 1 →
      ∀ y ∈ recs.take n, y.hash ≤ recs[k].hash := by
    intro n k hk hn y hy
    obtain ⟨i,hi,rfl⟩ := mem_take_iff_getElem.mp hy
    exact hle i k (by omega) hk
  have hdrop : ∀ n (hn : n < recs.length), ∀ y ∈ recs.drop n, recs[n].hash ≤ y.hash := by
    intro n hn y hy
    obtain ⟨i,hi,rfl⟩ := mem_drop_iff_getElem.mp hy
    exact hle n (n + i) (by omega) (by omega)
  have hhalf : HalfAt recs recs[j].hash := by
    have hbelow : bytesWhere (· < recs[j].hash) (recs.drop j) = 0 :=
      bytesWhere_of_none (by simpa using hdrop j hj)
    have hle := @bytesWhere_le (recs.take j) (· < recs[j].hash)
    have hupTo : bytesWhere (· ≤ recs[j].hash) (recs.take (j + 1)) = recBytes (recs.take (j + 1)) :=
      bytesWhere_of_all (by simpa using htake (j + 1) j hj le_rfl)
    rw [HalfAt,← bytesWhere_add j,← @bytesWhere_add _ (· ≤ recs[j].hash) (j + 1)]
    omega
  refine ⟨recs[j],getElem_mem hj,hhalf,?_⟩
  rw [Nat.zero_add,Nat.min_eq_left (by omega)] at hmid
  simp only [dirSplitPoint,htotal,hmid,Nat.max_eq_left (Nat.le_add_left 1 j)] at hsplit
  have hcut' := lt_of_le_of_ne (hle (p - 1) p (by omega) hlt) hcut
  split at hsplit
  · -- upwards: the records from the middle one up to the cut share its hash
    cases hsplit
    set cut := splitUp (recs.map hash) recs.length (j + 1)
    have hcutle : j + 1 ≤ cut := (splitUp_spec (by simp)).1
    have hlast : recs[cut - 1].hash = recs[j].hash := hash_eq_of_sameKey hlt.le
      (fun i hi hi' => sameKey_of_splitUp hi hi') (cut - 1) (by omega) (by omega)
    rw [hlast] at hcut'
    refine .inl ⟨fun y hy => ?_,fun y hy => hcut'.trans_le (hdrop cut hlt y hy)⟩
    rw [← hlast]
    exact htake cut (cut - 1) _ (by omega) y hy
  next hup =>
  split at hsplit
  · -- downwards: all records behind the cut share one hash, and so does the middle one
    next hdown =>
    cases hsplit
    set cut := splitDown (recs.map hash) (j + 1)
    have hcutle : cut ≤ j + 1 := splitDown_le
    have hsame := hash_eq_of_sameKey (i := cut) le_rfl fun i hi hi' => by
      rcases Nat.lt_or_ge (j + 1) i with hji | hge
      · exact sameKey_of_splitUp hji.le (hi'.trans_le (not_lt.mp hup))
      · exact sameKey_of_splitDown hi hge
    have hcutj : cut ≠ j + 1 := fun heq =>
      hdown.2 (heq ▸ sameKey_of_splitUp le_rfl (hjlt.trans_le (not_lt.mp hup)))
    rw [hsame j (by omega) hj]
    refine .inr ⟨fun y hy => (htake cut (cut - 1) _ (by omega) y hy).trans_lt hcut',fun y hy => ?_⟩
    obtain ⟨i,hi,rfl⟩ := mem_drop_iff_getElem.mp hy
    exact hsame (cut + i) (by omega) (by omega)
  · cases hsplit

theorem halves_fit_iff (hsorted : recs.Pairwise fun x y => x.hash ≤ y.hash)
    (hlarge : 4088 < recBytes recs) (hsmall : recBytes recs ≤ 4356)
    (hnames : ∀ r ∈ recs, r.name.length ≤ 255) (hsplit : dirSplitPoint recs = some p) (hp : 0 < p)
    (hlt : p < recs.length) (hcut : recs[p - 1].hash ≠ recs[p].hash) :
    dirLeafSize (recs.take p) ≤ blockSize ∧ dirLeafSize (recs.drop p) ≤ blockSize ↔
      MiddleFits recs := by
  obtain ⟨x,hx,hhalf,hsides⟩ := dirSplitPoint_halves hsorted hlarge hnames hsplit hp hlt hcut
  have hsize : ∀ l, dirLeafSize l = 8 + recBytes l := fun _ => rfl
  have hparts := recBytes_take_add recs p
  have hmiddle : MiddleFits recs ↔
      if ∃ y ∈ recs, x.hash < y.hash then nodeHdr + bytesWhere (· ≤ x.hash) recs ≤ blockSize
      else nodeHdr + bytesWhere (· = x.hash) recs ≤ blockSize := by
    refine ⟨fun h => h x hx hhalf,fun h z hz hz' => ?_⟩
    rw [le_antisymm (hz'.le hhalf) (hhalf.le hz')]
    exact h
  obtain ⟨hbelow,habove⟩ := id hhalf
  rw [hmiddle,hsize,hsize]
  rcases hsides with ⟨htake,hdrop⟩ | ⟨htake,hdrop⟩
  · have hlarger : ∃ y ∈ recs, x.hash < y.hash :=
      ⟨recs[p],getElem_mem hlt,hdrop _ (mem_drop_iff_getElem.mpr ⟨0,by simpa using hlt,rfl⟩)⟩
    rw [← bytesWhere_add p,bytesWhere_of_all (by simpa using htake),
      bytesWhere_of_none (by simpa using hdrop)] at habove
    rw [if_pos hlarger,← bytesWhere_add p,bytesWhere_of_all (by simpa using htake),
      bytesWhere_of_none (by simpa using hdrop)]
    simp only [nodeHdr,blockSize]
    omega
  · have hlargest : ¬∃ y ∈ recs, x.hash < y.hash := by
      rintro ⟨y,hy,hxy⟩
      rw [← take_append_drop p recs] at hy
      rcases mem_append.mp hy with hy | hy
      · exact lt_asymm hxy (htake y hy)
      · exact hxy.ne' (hdrop y hy)
    rw [← bytesWhere_add p,bytesWhere_of_all (by simpa using htake)] at hbelow
    rw [if_neg hlargest,← bytesWhere_add p,
      bytesWhere_of_none (by simpa using fun y hy => (htake y hy).ne),
      bytesWhere_of_all (by simpa using hdrop)]
    simp only [nodeHdr,blockSize]
    omega

/-- An overfull leaf is cut between two hashes, and both halves fit a block exactly if the records
of the hash in the middle do. -/
theorem dir_split_fits {pos k : ℕ}
    (hsorted : (recs.insertIdx pos r).Pairwise fun x y => key x < key y)
    (hfit : dirLeafSize recs ≤ blockSize) (hnames : ∀ x ∈ r :: recs, x.name.length ≤ nameMax)
    (hlarge : blockSize < dirLeafSize (recs.insertIdx pos r))
    (hsplit : dirSplitPoint (recs.insertIdx pos r) = some k) :
    0 < k ∧ (∃ hk : k < (recs.insertIdx pos r).length,
      (recs.insertIdx pos r)[k - 1].hash ≠ (recs.insertIdx pos r)[k].hash) ∧
    (dirLeafSize ((recs.insertIdx pos r).take k) ≤ blockSize ∧
      dirLeafSize ((recs.insertIdx pos r).drop k) ≤ blockSize ↔
        MiddleFits (recs.insertIdx pos r)) := by
  have hpos : pos ≤ recs.length := by
    by_contra hgt
    rw [insertIdx_of_length_lt (not_le.mp hgt)] at hlarge
    exact absurd hfit (not_le.mpr hlarge)
  have hperm := perm_insertIdx r recs hpos
  have hbytes : recBytes (recs.insertIdx pos r) = dirRecHdr + r.name.length + recBytes recs :=
    (hperm.map _).sum_eq
  have hsize : ∀ l, dirLeafSize l = 8 + recBytes l := fun _ => rfl
  have hnew := hnames r mem_cons_self
  have hne : recs.insertIdx pos r ≠ [] := ne_nil_of_length_pos (by rw [hperm.length_eq]; simp)
  obtain ⟨hk,hlt,hhash⟩ := dirSplitPoint_spec hne hsplit
  rw [hsize] at hfit hlarge
  simp only [blockSize,nameMax,dirRecHdr] at hfit hlarge hnew hbytes
  have hhashes := hsorted.imp fun hxy => (Prod.Lex.toLex_lt_toLex'.mp hxy).1
  exact ⟨hk,⟨hlt,hhash⟩,halves_fit_iff hhashes (by omega) (by omega)
    (fun x hx => hnames x (hperm.mem_iff.mp hx)) hsplit hk hlt hhash⟩

/-- `n` records with the longest names, of the hashes `h`. -/
def longRecs (h : ℕ → ℕ) (n : ℕ) : List DirRec :=
  (List.range n).map fun i => ⟨h i,UInt8.ofNat (97 + i) :: replicate 254 97,0⟩

/-- Eight records of one hash and eight of another: the cut stands between them. -/
theorem dir_split_fits_pair :
    let recs := (longRecs (· / 8) 15).insertIdx 15 ⟨1,112 :: replicate 254 97,0⟩
    dirSplitPoint recs = some 8 ∧ dirLeafSize (recs.take 8) ≤ blockSize ∧
      dirLeafSize (recs.drop 8) ≤ blockSize := by
  have hsplit : dirSplitPoint ((longRecs (· / 8) 15).insertIdx 15
    ⟨1,112 :: replicate 254 97,0⟩) = some 8 := by decide +kernel
  exact ⟨hsplit,(dir_split_fits (by decide +kernel) (by decide +kernel) (by decide +kernel)
    (by decide +kernel) hsplit).2.2.mpr (by unfold MiddleFits; decide +kernel)⟩

/-- One record of a hash of its own and fifteen of one hash fill a leaf. A sixteenth of that hash
leaves too much behind the only cut. -/
theorem crowded_split_overfull :
    let recs : List DirRec := ⟨1,[97],0⟩ :: longRecs (fun _ => 2) 15
    let r : DirRec := ⟨2,122 :: replicate 254 97,0⟩
    (recs.insertIdx 16 r).Pairwise (fun x y => key x < key y) ∧
      dirLeafSize recs ≤ blockSize ∧ (∀ x ∈ r :: recs, x.name.length ≤ nameMax) ∧
      blockSize < dirLeafSize (recs.insertIdx 16 r) ∧
      dirSplitPoint (recs.insertIdx 16 r) = some 1 ∧
      blockSize < dirLeafSize ((recs.insertIdx 16 r).drop 1) := by
  decide +kernel

end LiberSystem
