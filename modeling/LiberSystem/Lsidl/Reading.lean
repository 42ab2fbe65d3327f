import LiberSystem.Lsidl.Spelling
import Mathlib.Data.List.Nodup

/-!
# What a generated reader reads

A reader parses the spellings of its type: by induction on what is held directly for a type, and on
the bytes that are left for the elements of lists.
-/

namespace LiberSystem.Lsidl

open List Parses

open Wire Reader

variable {σ : Schema} {t : Ty} {bound : Option Nat} {k : Nat}

variable {s : Scalar} {element : Ty → Parser Reader Val}

theorem toNat_lt_pow (bits : BitVec (8 * s.size)) : bits.toNat < 256 ^ s.size := by
  rw [show 256 = 2 ^ 8 from rfl,← Nat.pow_mul]
  exact bits.isLt

theorem toNat_ofNat_of_lt {n : Nat} (hn : n < 256 ^ s.size) :
    (BitVec.ofNat (8 * s.size) n).toNat = n := by
  rw [show 256 = 2 ^ 8 from rfl,← Nat.pow_mul] at hn
  rw [BitVec.toNat_ofNat,Nat.mod_eq_of_lt hn]

theorem scalar_bits (k : Nat) (s : Scalar) (f : BitVec (8 * s.size) → Val) :
    ParsesWithin k (Reader.scalar s >>= fun n => pure (f (BitVec.ofNat _ n)))
      fun v bs hs => ∃ bits, v = f bits ∧ bs = toLe s.size bits.toNat ∧ hs = [] := by
  refine ((scalar_parses k s).map fun n => f (BitVec.ofNat _ n)).congr fun v bs hs => ?_
  constructor
  · rintro ⟨n,rfl,hn,rfl,rfl⟩
    exact ⟨_,rfl,by rw [toNat_ofNat_of_lt hn],rfl⟩
  · rintro ⟨bits,rfl,rfl,rfl⟩
    exact ⟨bits.toNat,by rw [BitVec.ofNat_toNat,BitVec.setWidth_eq],toNat_lt_pow bits,rfl,rfl⟩

theorem list_parses (bound : Option Nat) (inner : Ty)
    (h : ∀ t, ParsesWithin k (element t) fun v => Spells .read σ v t none) :
    ParsesWithin (k + 1)
      (Reader.u16 >>= fun n => if withinBound bound n then
        Parser.each element (replicate n inner) >>= fun vs => pure (Val.list vs)
        else throw .refused)
      fun v bs hs => ∃ vs bs', v = .list vs ∧ withinBound bound vs.length = true ∧
        vs.length ≤ U16_MAX ∧ bs = toLe 2 vs.length ++ bs' ∧
        SpellsEach .read σ vs (replicate vs.length ⟨inner,none⟩) bs' hs := by
  have hlen : Parses streams (Within (k + 1)) (Within k) Reader.u16 _ :=
    (word_parses k 2).weaken (fun _ hr => hr.mono (Nat.le_succ _)) fun _ hr => hr
  have helems : ∀ n, ParsesWithin k _ _ := fun n =>
    (each fun t (_ : t ∈ replicate n inner) => h t).map Val.list
  refine ((hlen.bind fun n _ _ _ => ite (fun _ => helems n) fun _ => .refuse).weaken
    (fun _ hr => hr) fun _ hr => hr.mono (Nat.le_succ k)).congr fun v bs hs => ?_
  have hfields : ∀ n, replicate n (⟨inner,none⟩ : Field)
      = (replicate n inner).map fun t => ⟨t,none⟩ := fun n => by
    rw [map_replicate]
  constructor
  · rintro ⟨n,bs₁,hs₁,bs₂,hs₂,⟨hn,rfl,rfl⟩,hvs,rfl,rfl⟩
    split at hvs
    · next hbound =>
      obtain ⟨vs,rfl,hvs⟩ := hvs
      have heq : vs.length = n := (Spelling.length_of_each hvs).trans (length_replicate ..)
      subst heq
      refine ⟨vs,bs₂,rfl,hbound,Nat.le_of_lt_succ hn,rfl,?_⟩
      rw [spellsEach_iff,hfields,Spelling.each_map]
      exact hvs
    · exact hvs.elim
  · rintro ⟨vs,bs',rfl,hbound,hle,rfl,hvs⟩
    rw [spellsEach_iff,hfields,Spelling.each_map] at hvs
    refine ⟨vs.length,toLe 2 vs.length,[],bs',hs,⟨Nat.lt_succ_of_le hle,rfl,rfl⟩,?_,rfl,rfl⟩
    simp only [hbound,if_true]
    exact ⟨vs,rfl,hvs⟩

theorem idxOf?_eq_some_iff_of_nodup {l : List Nat} (hl : l.Nodup) {a i : Nat} :
    l.idxOf? a = some i ↔ l[i]? = some a := by
  rw [idxOf?_eq_some_iff,getElem?_eq_some_iff]
  constructor
  · rintro ⟨hi,ha,-⟩
    exact ⟨hi,ha⟩
  · rintro ⟨hi,ha⟩
    refine ⟨hi,ha,fun j hj heq => ?_⟩
    exact absurd (hl.getElem_inj_iff.mp (heq.trans ha.symm)) (hj.ne)

theorem readForm_parses {direct : Ty → Option Nat → Parser Reader Val}
    (hdirect : ∀ t' ∈ (σ.resolve t).held, ∀ bound, ParsesWithin (k + 1) (direct t' bound)
      fun v => Spells .read σ v t' bound)
    (helement : ∀ t', ParsesWithin k (element t') fun v => Spells .read σ v t' none) :
    ParsesWithin (k + 1) (readForm direct element bound (σ.resolve t))
      fun v => Spells .read σ v t bound := by
  cases hf : σ.resolve t with
  | bool =>
    refine ((tag_parses _).map Val.bool).congr fun v bs hs => ?_
    cases v <;> simp [Spells,hf]
  | unit =>
    refine (pure Val.unit).congr fun v bs hs => ?_
    cases v <;> simp [Spells,hf,Spelling.pure]
  | unsupported =>
    refine refuse.congr fun v bs hs => ?_
    cases v <;> simp [Spells,hf]
  | scalar s =>
    refine (scalar_bits _ s (Val.scalar s)).congr fun v bs hs => ⟨?_,?_⟩
    · rintro ⟨bits,rfl,h⟩
      exact ⟨hf,h⟩
    cases v with
    | scalar s' bits =>
      rintro ⟨hf',h⟩
      cases hf.symm.trans hf'
      exact ⟨bits,rfl,h⟩
    | _ => simp [Spells,hf]
  | flags count =>
    refine (scalar_bits _ (flagsWidth count) (Val.flags _)).congr fun v bs hs => ⟨?_,?_⟩
    · rintro ⟨bits,rfl,h⟩
      exact ⟨count,hf,rfl,h⟩
    cases v with
    | flags s' bits =>
      rintro ⟨_,hf',rfl,h⟩
      cases hf.symm.trans hf'
      exact ⟨bits,rfl,h⟩
    | _ => simp [Spells,hf]
  | string =>
    refine ((stringLp_parses _).filter (fun s => withinBound bound (utf8 s).length)
      Val.string).congr fun v bs hs => ?_
    cases v <;> simp [Spells,hf,Grammar.fits_read]
  | option inner =>
    have hinner := hdirect inner (by rw [hf]; exact mem_singleton.mpr rfl) bound
    refine (tagged_parses (hinner.map Val.some) (.pure Val.none)).congr fun v bs hs => ?_
    cases v <;> simp [Spells,hf,Spelling.pure]
  | result ok err =>
    have hok := hdirect ok (by rw [hf]; exact mem_cons_self) bound
    have herr := hdirect err (by rw [hf]; exact mem_cons_of_mem _ mem_cons_self) none
    refine (tagged_parses (hok.map Val.ok) (herr.map Val.err)).congr fun v bs hs => ?_
    cases v <;> simp [Spells,hf]
  | list inner =>
    refine (list_parses bound inner helement).congr fun v bs hs => ?_
    cases v <;> simp [Spells,hf,Grammar.fits_read]
  | tuple elems =>
    have helems : ∀ t ∈ elems, ParsesWithin (k + 1) (direct t none) fun v =>
        Spells .read σ v t none := fun t ht => hdirect t (by rw [hf]; exact ht) none
    refine ((each helems).map Val.tuple).congr fun v bs hs => ?_
    cases v <;> simp [Spells,hf,spellsEach_iff,Spelling.each_map]
  | record fs =>
    have hfs : ∀ f ∈ fs, ParsesWithin (k + 1) (direct f.ty f.bound)
        fun v => Spells .read σ v f.ty f.bound := fun f hmem =>
      hdirect f.ty (by rw [hf]; exact mem_map_of_mem hmem) f.bound
    refine ((each hfs).map Val.record).congr fun v bs hs => ?_
    cases v <;> simp [Spells,hf,spellsEach_iff]
  | handle =>
    refine ((word_within _ 4).bind fun _ _ _ _ => (takeHandle_parses _).map Val.handle).congr
      fun v bs hs => ⟨?_,?_⟩
    · rintro ⟨n,bs₁,hs₁,bs₂,hs₂,⟨hn,rfl,rfl⟩,⟨h,rfl,rfl,rfl⟩,rfl,rfl⟩
      exact ⟨hf,by simp [Grammar.read],rfl⟩
    cases v with
    | handle h =>
      rintro ⟨-,hlen,rfl⟩
      refine ⟨ofLe bs,bs,[],[],[h],⟨?_,?_,rfl⟩,⟨h,rfl,rfl,rfl⟩,by simp,rfl⟩
      · exact hlen ▸ ofLe_lt bs
      · exact hlen ▸ (toLe_ofLe bs).symm
    | _ => simp [Spells,hf]
  | buffer =>
    refine ((word_within _ 8).bind fun len _ _ _ => (takeHandle_parses _).map fun handle =>
      Val.buffer handle (UInt64.ofNat len)).congr fun v bs hs => ⟨?_,?_⟩
    · rintro ⟨n,bs₁,hs₁,bs₂,hs₂,⟨hn,rfl,rfl⟩,⟨h,rfl,rfl,rfl⟩,rfl,rfl⟩
      refine ⟨hf,?_,rfl⟩
      rw [append_nil,UInt64.toNat_ofNat_of_lt' hn]
    cases v with
    | buffer handle len =>
      rintro ⟨-,rfl,rfl⟩
      exact ⟨len.toNat,_,[],[],[handle],⟨len.toNat_lt,rfl,rfl⟩,
        ⟨handle,by rw [UInt64.ofNat_toNat],rfl,rfl⟩,by simp,rfl⟩
    | _ => simp [Spells,hf]
  | enum cs =>
    have hvalid := σ.valid_resolve t
    rw [hf] at hvalid
    obtain ⟨hnodup,hle⟩ := hvalid
    refine ((u8_parses _).bind (T := fun b v bs hs => ∃ i,
      (effectiveOrdinals cs)[i]? = some b.toNat ∧ v = Val.case i ∧ bs = [] ∧ hs = [])
      fun b _ _ _ => ?_).congr fun v bs hs => ?_
    · split
      · next i hi =>
        refine (pure (Val.case i)).congr fun v bs hs => ?_
        constructor
        · exact fun h => ⟨i,(idxOf?_eq_some_iff_of_nodup hnodup).mp hi,h⟩
        rintro ⟨j,hj,rfl,hrest⟩
        rw [← idxOf?_eq_some_iff_of_nodup hnodup,hi] at hj
        cases hj
        exact ⟨rfl,hrest⟩
      · next hnone =>
        refine refuse.congr fun v bs hs => ⟨False.elim,?_⟩
        rintro ⟨i,hi,-⟩
        rw [← idxOf?_eq_some_iff_of_nodup hnodup,hnone] at hi
        cases hi
    · constructor
      · rintro ⟨b,bs₁,hs₁,bs₂,hs₂,⟨rfl,rfl⟩,⟨i,hi,rfl,rfl,rfl⟩,rfl,rfl⟩
        exact .inl ⟨cs,b.toNat,hf,hi,by rw [UInt8.ofNat_toNat]; rfl,rfl⟩
      cases v with
      | case i =>
        rintro (⟨cs',ord,hf',hi,rfl,rfl⟩ | ⟨cs',hf',-⟩)
        · cases hf.symm.trans hf'
          have hlt : ord < 256 := Nat.lt_succ_of_le (hle ord (mem_of_getElem? hi))
          refine ⟨UInt8.ofNat ord,_,[],[],[],⟨rfl,rfl⟩,⟨i,?_,rfl,rfl,rfl⟩,rfl,rfl⟩
          rw [UInt8.toNat_ofNat_of_lt' hlt]
          exact hi
        · cases hf.symm.trans hf'
      | _ => simp [Spells,hf]
  | variant cs =>
    have hlen := σ.valid_resolve t
    rw [hf] at hlen
    refine ((u8_parses _).bind (T := fun b v bs hs =>
      (cs[b.toNat]? = some none ∧ v = Val.case b.toNat ∧ bs = [] ∧ hs = []) ∨
      ∃ payload v', cs[b.toNat]? = some (some payload) ∧ v = Val.carrying b.toNat v' ∧
        Spells .read σ v' payload none bs hs)
      fun b _ _ _ => ?_).congr fun v bs hs => ?_
    · split
      · next hcase =>
        refine (pure (Val.case b.toNat)).congr fun v bs hs => ?_
        simp [Spelling.pure,hcase]
      · next payload hcase =>
        have hmem : payload ∈ (σ.resolve t).held := by
          rw [hf]
          exact mem_filterMap.mpr ⟨some payload,mem_of_getElem? hcase,rfl⟩
        refine ((hdirect payload hmem none).map (Val.carrying b.toNat)).congr fun v bs hs => ?_
        simp [hcase]
      · next hnone =>
        refine refuse.congr fun v bs hs => ?_
        simp [hnone]
    have htoNat : ∀ {i : Nat} {c : Option Ty}, cs[i]? = some c → (UInt8.ofNat i).toNat = i := by
      intro i c hc
      have hi : i < cs.length := (List.getElem?_eq_some_iff.mp hc).1
      exact UInt8.toNat_ofNat_of_lt' (hi.trans_le hlen)
    constructor
    · rintro ⟨b,bs₁,hs₁,bs₂,hs₂,⟨rfl,rfl⟩,hcase,rfl,rfl⟩
      rcases hcase with ⟨hcase,rfl,rfl,rfl⟩ | ⟨payload,v',hcase,rfl,hv⟩
      · exact .inr ⟨cs,hf,hcase,by rw [UInt8.ofNat_toNat]; rfl,rfl⟩
      · exact ⟨cs,payload,bs₂,hf,hcase,by rw [UInt8.ofNat_toNat]; rfl,hv⟩
    cases v with
    | case i =>
      rintro (⟨cs',ord,hf',-⟩ | ⟨cs',hf',hcase,rfl,rfl⟩)
      · cases hf.symm.trans hf'
      cases hf.symm.trans hf'
      refine ⟨UInt8.ofNat i,_,[],[],[],⟨rfl,rfl⟩,.inl ⟨?_,?_,rfl,rfl⟩,rfl,rfl⟩
      · rw [htoNat hcase,hcase]
      · rw [htoNat hcase]
    | carrying i v =>
      rintro ⟨cs',payload,bs',hf',hcase,rfl,hv⟩
      cases hf.symm.trans hf'
      refine ⟨UInt8.ofNat i,_,[],bs',hs,⟨rfl,rfl⟩,.inr ⟨payload,v,?_,?_,hv⟩,rfl,rfl⟩
      · rw [htoNat hcase,hcase]
      · rw [htoNat hcase]
    | _ => simp [Spells,hf]

theorem readDirect_parses
    (helement : ∀ t', ParsesWithin k (element t') fun v => Spells .read σ v t' none)
    (n : Nat) (t : Ty) (bound : Option Nat)
    (hn : t.height σ.rank < n) :
    ParsesWithin (k + 1) (readDirect σ element n t bound) fun v =>
      Spells .read σ v t bound := by
  induction n generalizing t bound with
  | zero => exact absurd hn (Nat.not_lt_zero _)
  | succ n ih =>
    refine readForm_parses (fun t' ht' bound' => ih t' bound' ?_) helement
    exact (Schema.height_lt_of_mem_held ht').trans_le (Nat.le_of_lt_succ hn)

theorem read_parses (σ : Schema) (k : Nat) (t : Ty) (bound : Option Nat) :
    ParsesWithin k (read σ k t bound) fun v => Spells .read σ v t bound := by
  induction k generalizing t bound with
  | zero =>
    have hnone : ∀ {r : Reader}, r.Within 0 → False := fun hr => Nat.not_lt_zero _ hr.2
    exact ⟨fun hr => (hnone hr).elim,fun hr => (hnone hr).elim,fun hr => (hnone hr).elim⟩
  | succ k ih => exact readDirect_parses (fun t' => ih t' none) _ t bound (Nat.lt_succ_self _)

end LiberSystem.Lsidl
