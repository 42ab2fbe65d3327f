import Mathlib.Algebra.GroupWithZero.Nat
import Mathlib.Algebra.BigOperators.Group.Multiset.Basic
import LiberSystem.Lib.SortedList

/-!
# B+trees

A tree of height `k` holds its records in leaves that all lie `k` levels below the root; a number is
routed to the kid behind the last separator that is not above it.
-/

namespace LiberSystem

open List

section Routes

variable {T : Type} {P : ℕ → ℕ → T → Prop} {lo hi x i m : ℕ} {seps ss₁ ss₂ : List ℕ}
  {kids ts₁ ts₂ : List T} {t : T}

/-- The kids lie in this order between `lo` and `hi`, the separators between them:
`P a b t` says that `t` lies between `a` and `b`. -/
inductive Routes (P : ℕ → ℕ → T → Prop) : ℕ → List ℕ → List T → ℕ → Prop
  | last {lo hi : ℕ} {t : T} (h : P lo hi t) : Routes P lo [] [t] hi
  | cons {lo s hi : ℕ} {t : T} {ss : List ℕ} {ts : List T} (h : P lo s t)
      (rest : Routes P s ss ts hi) : Routes P lo (s :: ss) (t :: ts) hi

/-- The kid that a number is routed to: behind the leading separators that are not
above it. -/
def route (seps : List ℕ) (x : ℕ) : ℕ := (seps.takeWhile (· ≤ x)).length

theorem route_nil : route [] x = 0 := rfl

theorem route_cons {s : ℕ} : route (s :: seps) x = if s ≤ x then route seps x + 1 else 0 := by
  by_cases h : s ≤ x <;> simp [h,route]

theorem route_le : route seps x ≤ seps.length := (takeWhile_sublist _).length_le

namespace Routes

theorem length (h : Routes P lo seps kids hi) : kids.length = seps.length + 1 := by
  induction h with
  | last _ => rfl
  | cons _ _ ih => rw [length_cons,length_cons,ih]

section

variable (hlt : ∀ a b t, P a b t → a < b) (h : Routes P lo seps kids hi)
include hlt h

theorem exists_of_mem : lo < hi ∧ ∀ t ∈ kids, ∃ a b, lo ≤ a ∧ b ≤ hi ∧ P a b t := by
  induction h with
  | last h =>
    refine ⟨hlt _ _ _ h,fun t ht => ?_⟩
    rw [mem_singleton.mp ht]
    exact ⟨_,_,le_rfl,le_rfl,h⟩
  | cons h _ ih =>
    have hls := hlt _ _ _ h
    refine ⟨hls.trans ih.1,fun t ht => ?_⟩
    rcases mem_cons.mp ht with rfl | ht
    · exact ⟨_,_,le_rfl,ih.1.le,h⟩
    · obtain ⟨a,b,hsa,hb,hP⟩ := ih.2 t ht
      exact ⟨a,b,hls.le.trans hsa,hb,hP⟩

theorem interval (ht : kids[i]? = some t) : ∃ a b, lo ≤ a ∧ P a b t ∧
      (∀ s, 0 < i → seps[i - 1]? = some s → s ≤ a) ∧ ∀ s, seps[i]? = some s → b ≤ s := by
  induction h generalizing i with
  | @last lo hi u h =>
    obtain ⟨hi',hu⟩ := List.getElem?_eq_some_iff.mp ht
    obtain rfl : i = 0 := by simpa using hi'
    subst hu
    exact ⟨lo,hi,le_rfl,h,fun s h0 => absurd h0 (lt_irrefl 0),fun s hs => nomatch hs⟩
  | @cons lo s₀ hi u ss us h rest ih =>
    cases i with
    | zero =>
      cases ht
      refine ⟨lo,s₀,le_rfl,h,fun s h0 => absurd h0 (lt_irrefl 0),fun s hs => ?_⟩
      exact le_of_eq (Option.some_inj.mp hs)
    | succ i =>
      obtain ⟨a,b,hsa,hP,hbefore,hafter⟩ := ih ht
      refine ⟨a,b,(hlt _ _ _ h).le.trans hsa,hP,fun s _ hs => ?_,hafter⟩
      cases i with
      | zero =>
        cases hs
        exact hsa
      | succ i => exact hbefore s (Nat.succ_pos i) hs

theorem seps_ascend : seps.Pairwise (· < ·) ∧ ∀ s ∈ seps, lo < s ∧ s < hi := by
  induction h with
  | last _ => exact ⟨List.Pairwise.nil,fun s hs => nomatch hs⟩
  | cons h rest ih =>
    have hls := hlt _ _ _ h
    refine ⟨pairwise_cons.mpr ⟨fun s hs => (ih.2 s hs).1,ih.1⟩,fun s hs => ?_⟩
    rcases mem_cons.mp hs with rfl | hs
    · exact ⟨hls,(rest.exists_of_mem hlt).1⟩
    · exact ⟨hls.trans (ih.2 s hs).1,(ih.2 s hs).2⟩

end

theorem lower (hmono : ∀ a a' b t, P a b t → a' ≤ a → P a' b t) (h : Routes P lo seps kids hi)
    {lo' : ℕ} (hle : lo' ≤ lo) : Routes P lo' seps kids hi := by
  cases h with
  | last h => exact .last (hmono _ _ _ _ h hle)
  | cons h rest => exact .cons (hmono _ _ _ _ h hle) rest

theorem raise (hmono : ∀ a b b' t, P a b t → b ≤ b' → P a b' t) (h : Routes P lo seps kids hi)
    {hi' : ℕ} (hle : hi ≤ hi') : Routes P lo seps kids hi' := by
  induction h with
  | last h => exact .last (hmono _ _ _ _ h hle)
  | cons h _ ih => exact .cons h (ih hle)

theorem append_iff (hlen : ts₁.length = ss₁.length + 1) :
    Routes P lo (ss₁ ++ m :: ss₂) (ts₁ ++ ts₂) hi ↔
      Routes P lo ss₁ ts₁ m ∧ Routes P m ss₂ ts₂ hi := by
  induction ss₁ generalizing lo ts₁ with
  | nil =>
    obtain ⟨t,rfl⟩ := length_eq_one_iff.mp hlen
    constructor
    · intro h
      cases h with
      | cons h rest => exact ⟨.last h,rest⟩
    · rintro ⟨h,rest⟩
      cases h with
      | last h => exact .cons h rest
  | cons s ss₁ ih =>
    cases ts₁ with
    | nil => cases hlen
    | cons t ts₁ =>
      have hlen' : ts₁.length = ss₁.length + 1 := Nat.succ.inj hlen
      constructor
      · intro h
        cases h with
        | cons h rest =>
          obtain ⟨hfront,hback⟩ := (ih hlen').mp rest
          exact ⟨.cons h hfront,hback⟩
      · rintro ⟨h,hback⟩
        cases h with
        | cons h hfront => exact .cons h ((ih hlen').mpr ⟨hfront,hback⟩)

variable (hlt : ∀ a b t, P a b t → a < b)
include hlt

theorem cut (h : Routes P lo seps kids hi) (hlo : lo ≤ x)
    (hhi : x < hi) : ∃ a b t, kids[route seps x]? = some t ∧ P a b t ∧ a ≤ x ∧ x < b ∧
      lo ≤ a ∧ b ≤ hi ∧
      (∀ u ∈ kids.take (route seps x), ∃ c d, P c d u ∧ d ≤ a) ∧
      (∀ u ∈ kids.drop (route seps x + 1), ∃ c d, P c d u ∧ b ≤ c) ∧
      ∀ ss ts, Routes P a ss ts b →
        Routes P lo (seps.take (route seps x) ++ ss ++ seps.drop (route seps x))
          (kids.take (route seps x) ++ ts ++ kids.drop (route seps x + 1)) hi := by
  induction h with
  | @last lo hi t h =>
    refine ⟨lo,hi,t,rfl,h,hlo,hhi,le_rfl,le_rfl,(fun u hu => nomatch hu),(fun u hu => nomatch hu),
      fun ss ts hr => ?_⟩
    simpa [route_nil] using hr
  | @cons lo s hi t seps kids h rest ih =>
    by_cases hs : s ≤ x
    · rw [route_cons,if_pos hs]
      obtain ⟨a,b,u,hu,hP,hax,hxb,hsa,hbh,hbefore,hafter,hole⟩ := ih hs hhi
      have hls := hlt _ _ _ h
      refine ⟨a,b,u,hu,hP,hax,hxb,hls.le.trans hsa,hbh,?_,hafter,fun ss ts hr => ?_⟩
      · intro v hv
        rcases mem_cons.mp hv with rfl | hv
        · exact ⟨_,_,h,hsa⟩
        · exact hbefore v hv
      · exact .cons h (hole ss ts hr)
    · rw [route_cons,if_neg hs]
      refine ⟨lo,s,t,rfl,h,hlo,not_le.mp hs,le_rfl,(rest.exists_of_mem hlt).1.le,
        (fun u hu => nomatch hu),fun u hu => ?_,fun ss ts hr => ?_⟩
      · obtain ⟨c,d,hsc,-,hP⟩ := (rest.exists_of_mem hlt).2 u hu
        exact ⟨c,d,hP,hsc⟩
      · exact (append_iff hr.length).mpr ⟨hr,rest⟩

theorem eraseIdx (hlower : ∀ a a' b t, P a b t → a' ≤ a → P a' b t)
    (hraise : ∀ a b b' t, P a b t → b ≤ b' → P a b' t) (h : Routes P lo seps kids hi)
    (hne : seps ≠ []) (hi' : i ≤ seps.length) :
    Routes P lo (seps.eraseIdx (if i = seps.length then i - 1 else i)) (kids.eraseIdx i) hi := by
  induction h generalizing i with
  | last _ => exact absurd rfl hne
  | @cons lo s hi t seps kids h rest ih =>
    cases i with
    | zero => exact rest.lower hlower (hlt _ _ _ h).le
    | succ i =>
      cases rest with
      | last hlast =>
        obtain rfl : i = 0 := by simpa using hi'
        exact .last (hraise _ _ _ _ h (hlt _ _ _ hlast).le)
      | @cons _ s' _ t' seps kids h' rest =>
        have hrec := ih (cons_ne_nil _ _) (Nat.le_of_succ_le_succ hi')
        have hidx : (if i + 1 = (s :: s' :: seps).length then i + 1 - 1 else i + 1) =
            (if i = (s' :: seps).length then i - 1 else i) + 1 := by
          simp only [length_cons] at hi' ⊢
          split <;> split <;> omega
        rw [hidx]
        exact .cons h hrec

end Routes

end Routes

/-- A tree of height `k` over records `R` whose nodes carry a label of `L`: a leaf with
its records, or separators and kids. -/
def Tree (L R : Type) : ℕ → Type
  | 0 => L × List R
  | k + 1 => L × List ℕ × List (Tree L R k)

namespace Tree

variable {L R K : Type} [LinearOrder K] {key : R → K} {rank : K → ℕ} {k lo hi x : ℕ}

abbrev leaf (l : L) (recs : List R) : Tree L R 0 := (l, recs)

abbrev node (l : L) (seps : List ℕ) (kids : List (Tree L R k)) : Tree L R (k + 1) := (l, seps, kids)

theorem exists_leaf (t : Tree L R 0) : ∃ l recs, t = leaf l recs := ⟨t.1,t.2,rfl⟩

theorem exists_node (t : Tree L R (k + 1)) : ∃ l seps kids, t = node l seps kids :=
  ⟨t.1,t.2.1,t.2.2,rfl⟩

def label : {k : ℕ} → Tree L R k → L
  | 0, t => t.1
  | _ + 1, t => t.1

variable {l : L} {seps : List ℕ} {kids : List (Tree L R k)} {t : Tree L R k}

@[simp] theorem label_leaf {recs : List R} : label (leaf l recs) = l := rfl

@[simp] theorem label_node : label (node l seps kids) = l := rfl

def records : {k : ℕ} → Tree L R k → List R
  | 0, t => t.2
  | _ + 1, t => t.2.2.flatMap records

def labels : {k : ℕ} → Tree L R k → Multiset L
  | 0, t => {t.1}
  | _ + 1, t => t.1 ::ₘ (t.2.2.map labels).sum

variable (key rank) in
/-- The records ascend, every leaf has one, and every kid's records lie between the
separators that route to it. The bounds `lo` and `hi` are those of the whole tree. -/
def Ordered : {k : ℕ} → ℕ → ℕ → Tree L R k → Prop
  | 0, lo, hi, t => t.2 ≠ [] ∧ Ascending key t.2 ∧ ∀ r ∈ t.2, lo ≤ rank (key r) ∧ rank (key r) < hi
  | _ + 1, lo, hi, t => Routes Ordered lo t.2.1 t.2.2 hi

section

variable (h : Ordered key rank lo hi t)

include h

theorem Ordered.exists_record : ∃ r ∈ records t, lo ≤ rank (key r) ∧ rank (key r) < hi := by
  induction k generalizing lo hi with
  | zero =>
    obtain ⟨r,hr⟩ := exists_mem_of_ne_nil _ h.1
    exact ⟨r,hr,h.2.2 r hr⟩
  | succ k ih =>
    obtain ⟨l,seps,kids⟩ := t
    have hlt : ∀ a b t, Ordered key rank a b t → a < b := fun a b t ht => by
      obtain ⟨r,-,hlo,hhi⟩ := ih ht
      exact hlo.trans_lt hhi
    obtain ⟨-,hmem⟩ := Routes.exists_of_mem hlt h
    have hne : kids ≠ [] := ne_nil_of_length_eq_add_one (Routes.length h)
    obtain ⟨t,ht⟩ := exists_mem_of_ne_nil _ hne
    obtain ⟨a,b,hla,hbh,hP⟩ := hmem t ht
    obtain ⟨r,hr,har,hrb⟩ := ih hP
    exact ⟨r,mem_flatMap.mpr ⟨t,ht,hr⟩,hla.trans har,hrb.trans_le hbh⟩

theorem Ordered.lt : lo < hi := by
  obtain ⟨r,-,hlo,hhi⟩ := h.exists_record
  exact hlo.trans_lt hhi

theorem Ordered.within : ∀ r ∈ records t, lo ≤ rank (key r) ∧ rank (key r) < hi := by
  induction k generalizing lo hi with
  | zero => exact h.2.2
  | succ k ih =>
    intro r hr
    obtain ⟨t,ht,hr⟩ := mem_flatMap.mp hr
    obtain ⟨a,b,hla,hbh,hP⟩ := (Routes.exists_of_mem (fun _ _ _ => Ordered.lt) h).2 t ht
    obtain ⟨har,hrb⟩ := ih hP r hr
    exact ⟨hla.trans har,hrb.trans_le hbh⟩

theorem Ordered.lower {lo' : ℕ} (hle : lo' ≤ lo) : Ordered key rank lo' hi t := by
  induction k generalizing lo hi lo' with
  | zero => exact ⟨h.1,h.2.1,fun r hr => ⟨hle.trans (h.2.2 r hr).1,(h.2.2 r hr).2⟩⟩
  | succ k ih => exact Routes.lower (P := Ordered key rank) (fun _ _ _ _ h hle => ih h hle) h hle

theorem Ordered.raise {hi' : ℕ} (hle : hi ≤ hi') : Ordered key rank lo hi' t := by
  induction k generalizing lo hi hi' with
  | zero => exact ⟨h.1,h.2.1,fun r hr => ⟨(h.2.2 r hr).1,(h.2.2 r hr).2.trans_le hle⟩⟩
  | succ k ih => exact Routes.raise (P := Ordered key rank) (fun _ _ _ _ h hle => ih h hle) h hle

end

variable (key rank) in
/-- In every internal node the separators ascend and the records below a kid lie between
the separators beside it. -/
def Separated : {k : ℕ} → Tree L R k → Prop
  | 0, _ => True
  | _ + 1, t => t.2.2.length = t.2.1.length + 1 ∧ t.2.1.Pairwise (· < ·) ∧
      (∀ i c, t.2.2[i]? = some c → ∀ r ∈ records c,
        (∀ s, 0 < i → t.2.1[i - 1]? = some s → s ≤ rank (key r)) ∧
        ∀ s, t.2.1[i]? = some s → rank (key r) < s) ∧
      ∀ c ∈ t.2.2, Separated c

theorem Ordered.separated (h : Ordered key rank lo hi t) : Separated key rank t := by
  induction k generalizing lo hi with
  | zero => trivial
  | succ k ih =>
    obtain ⟨l,seps,kids,rfl⟩ := t.exists_node
    have hroutes : Routes (Ordered key rank) lo seps kids hi := h
    refine ⟨hroutes.length,(hroutes.seps_ascend fun _ _ _ => Ordered.lt).1,fun i c hc r hr => ?_,
      fun c hc => ?_⟩
    · obtain ⟨a,b,-,hP,hbefore,hafter⟩ := hroutes.interval (fun _ _ _ => Ordered.lt) hc
      obtain ⟨har,hrb⟩ := hP.within r hr
      exact ⟨fun s h0 hs => (hbefore s h0 hs).trans har,fun s hs => hrb.trans_le (hafter s hs)⟩
    · obtain ⟨a,b,-,-,hP⟩ := (hroutes.exists_of_mem fun _ _ _ => Ordered.lt).2 c hc
      exact ih hP

section

variable (hrank : Monotone rank)
include hrank

theorem ascending_flatMap
    (hkid : ∀ (t : Tree L R k) a b, Ordered key rank a b t → Ascending key (records t))
    (h : Routes (Ordered key rank) lo seps kids hi) : Ascending key (kids.flatMap records) := by
  induction h with
  | last h => simpa using hkid _ _ _ h
  | cons h rest ih =>
    refine pairwise_append.mpr ⟨hkid _ _ _ h,ih,fun r hr r' hr' => ?_⟩
    obtain ⟨t,ht,hr'⟩ := mem_flatMap.mp hr'
    obtain ⟨a,b,hsa,-,hP⟩ := (rest.exists_of_mem (fun _ _ _ => Ordered.lt)).2 t ht
    refine lt_of_not_ge fun hge => ?_
    have hbelow := (h.within r hr).2
    have habove := hsa.trans (hP.within r' hr').1
    exact absurd (hrank hge) (not_le.mpr (hbelow.trans_le habove))

theorem Ordered.ascending (h : Ordered key rank lo hi t) : Ascending key (records t) := by
  induction k generalizing lo hi with
  | zero => exact h.2.1
  | succ k ih => exact ascending_flatMap hrank (fun t _ _ ht => ih ht) h

/-- A key is looked for in one kid: the records of the kids before it lie below, those
of the kids behind it above. The kid may be replaced by any ordered row between the
same bounds. -/
theorem Ordered.cut (h : Ordered key rank lo hi (.node l seps kids))
    {q : K} (hlo : lo ≤ rank q) (hhi : rank q < hi) : ∃ a b t, kids[route seps (rank q)]? = some t ∧
      Ordered key rank a b t ∧ a ≤ rank q ∧ rank q < b ∧ b ≤ hi ∧
      (∀ r ∈ (kids.take (route seps (rank q))).flatMap records, key r < q) ∧
      (∀ r ∈ (kids.drop (route seps (rank q) + 1)).flatMap records, q < key r) ∧
      ∀ ss ts, Routes (Ordered key rank) a ss ts b → Ordered key rank lo hi
          (.node l (seps.take (route seps (rank q)) ++ ss ++ seps.drop (route seps (rank q)))
            (kids.take (route seps (rank q)) ++ ts ++ kids.drop (route seps (rank q) + 1))) := by
  obtain ⟨a,b,t,ht,hP,hax,hxb,-,hbh,hbefore,hafter,hole⟩ :=
    Routes.cut (fun _ _ _ => Ordered.lt) h hlo hhi
  refine ⟨a,b,t,ht,hP,hax,hxb,hbh,fun r hr => ?_,fun r hr => ?_,hole⟩
  · obtain ⟨u,hu,hr⟩ := mem_flatMap.mp hr
    obtain ⟨c,d,hu,hda⟩ := hbefore u hu
    refine lt_of_not_ge fun hge => absurd (hrank hge) (not_le.mpr ?_)
    exact ((hu.within r hr).2.trans_le hda).trans_le hax
  · obtain ⟨u,hu,hr⟩ := mem_flatMap.mp hr
    obtain ⟨c,d,hu,hbc⟩ := hafter u hu
    refine lt_of_not_ge fun hge => absurd (hrank hge) (not_le.mpr ?_)
    exact hxb.trans_le (hbc.trans (hu.within r hr).1)

end

theorem records_node {i : ℕ} (h : kids[i]? = some t) : records (.node l seps kids) =
      (kids.take i).flatMap records ++ records t ++ (kids.drop (i + 1)).flatMap records := by
  obtain ⟨hi,rfl⟩ := List.getElem?_eq_some_iff.mp h
  change kids.flatMap records = _
  conv_lhs => rw [take_append_getElem_drop hi]
  rw [flatMap_append,flatMap_append,flatMap_singleton]

/-- How far the nodes are filled beyond `m` kids, a kid of height `k` counted as the
`d ^ k` insertions that it takes to split one off. -/
def spare (m d : ℕ) : {k : ℕ} → Tree L R k → ℕ
  | 0, _ => 0
  | k + 1, t => (t.2.2.map (spare m d)).sum + (t.2.2.length - m) * d ^ k

def toGrow (d : ℕ) : ℕ → ℕ
  | 0 => 0
  | k + 1 => d ^ k

section Spare

variable {m d i : ℕ} {l l' : L} {seps seps' : List ℕ} {kids : List (Tree L R k)}
  {t : Tree L R k}

theorem spare_node : spare m d (.node l seps kids) =
    (kids.map (spare m d)).sum + (kids.length - m) * d ^ k := rfl

theorem sum_spare (h : kids[i]? = some t) : (kids.map (spare m d)).sum =
    ((kids.take i).map (spare m d)).sum + spare m d t +
      ((kids.drop (i + 1)).map (spare m d)).sum := by
  obtain ⟨hi,rfl⟩ := List.getElem?_eq_some_iff.mp h
  conv_lhs => rw [take_append_getElem_drop hi]
  rw [map_append,map_append,sum_append,sum_append,map_singleton,sum_singleton]

variable {ts : List (Tree L R k)}

variable (h : kids[i]? = some t)
include h

theorem length_replace :
    (kids.take i ++ ts ++ kids.drop (i + 1)).length + 1 = kids.length + ts.length := by
  obtain ⟨hi,-⟩ := List.getElem?_eq_some_iff.mp h
  simp only [length_append,length_take,length_drop]
  omega

/-- A kid replaced by a row of kids that is paid for with `c`: what the row holds and
`d ^ k` for each kid that it adds. -/
theorem spare_replace {n c : ℕ} (hlen : ts.length = n + 1)
    (hle : (ts.map (spare m d)).sum + n * d ^ k ≤ spare m d t + c) :
    spare m d (.node l' seps' (kids.take i ++ ts ++ kids.drop (i + 1))) ≤
      spare m d (.node l seps kids) + c := by
  have hrow : (kids.take i ++ ts ++ kids.drop (i + 1)).length + 1 = kids.length + ts.length :=
    length_replace h
  have hown : ((kids.take i ++ ts ++ kids.drop (i + 1)).length - m) * d ^ k ≤
      (kids.length - m) * d ^ k + n * d ^ k := by
    rw [← Nat.add_mul]
    exact Nat.mul_le_mul_right _ (by omega)
  rw [spare_node,spare_node,sum_spare h]
  simp only [map_append,sum_append]
  omega

/-- A full node that takes a row in and is split in its turn: both parts are left with
at most `m` kids. -/
theorem spare_split {ts₁ ts₂ : List (Tree L R k)} {n c : ℕ} {l₁ l₂ : L} {ss₁ ss₂ : List ℕ}
    (hle : (ts.map (spare m d)).sum + n * d ^ k ≤ spare m d t + c)
    (hrow : kids.take i ++ ts ++ kids.drop (i + 1) = ts₁ ++ ts₂) (hfull : kids.length = m + d)
    (hlen₁ : ts₁.length ≤ m) (hlen₂ : ts₂.length ≤ m) :
    spare m d (.node l₁ ss₁ ts₁) + spare m d (.node l₂ ss₂ ts₂) + d ^ (k + 1) ≤
      spare m d (.node l seps kids) + c := by
  have hsum := congrArg (fun ts => (ts.map (spare m d)).sum) hrow
  simp only [map_append,sum_append] at hsum
  have hown : (kids.length - m) * d ^ k = d ^ (k + 1) := by
    rw [hfull,Nat.add_sub_cancel_left,Nat.pow_succ']
  rw [spare_node,spare_node,spare_node,hown,Nat.sub_eq_zero_of_le hlen₁,Nat.sub_eq_zero_of_le hlen₂,
    sum_spare h]
  omega

theorem spare_eraseIdx :
    spare m d (.node l' seps' (kids.eraseIdx i)) ≤ spare m d (.node l seps kids) := by
  have hlen : (kids.take i ++ [] ++ kids.drop (i + 1)).length + 1 = kids.length + 0 :=
    length_replace h
  rw [append_nil] at hlen
  have hown : ((kids.take i ++ kids.drop (i + 1)).length - m) * d ^ k ≤
      (kids.length - m) * d ^ k := Nat.mul_le_mul_right _ (by omega)
  rw [spare_node,spare_node,sum_spare h,eraseIdx_eq_take_drop_succ,map_append,sum_append]
  omega

end Spare

end Tree

end LiberSystem
