import LiberSystem.Wire.Message

/-!
# What the primitives read and write

Each primitive of the reader parses its spelling, and each primitive of the growing writer appends
it.
-/

namespace LiberSystem.Wire

open List

namespace VecWriter

variable (w : VecWriter) {f g : VecWriter → Option VecWriter}
  {S S' T : List UInt8 → List UInt64 → Prop}

def add (bs : List UInt8) (hs : List UInt64) : Option VecWriter :=
  if hle : (w.handles.list ++ hs).length ≤ MAX_HANDLES then
    some ⟨w.buf ++ bs,⟨w.handles.list ++ hs,hle⟩⟩
  else none

@[simp] theorem add_nil : w.add [] [] = some w := by
  rw [add,dif_pos (by rw [append_nil]; exact w.handles.le)]
  simp only [append_nil]

theorem add_bind_add (bs bs' : List UInt8) (hs hs' : List UInt64) :
    ((w.add bs hs).bind fun w => w.add bs' hs') = w.add (bs ++ bs') (hs ++ hs') := by
  by_cases hle : (w.handles.list ++ hs).length ≤ MAX_HANDLES
  · rw [add,dif_pos hle,Option.bind_some,add,add]
    simp only [append_assoc]
  have hnot : ¬ (w.handles.list ++ (hs ++ hs')).length ≤ MAX_HANDLES := by
    simp only [length_append] at hle ⊢
    omega
  rw [add,dif_neg hle,add,dif_neg hnot]
  rfl

def Writes (f : VecWriter → Option VecWriter) (S : List UInt8 → List UInt64 → Prop) : Prop :=
  ∀ w w', f w = some w' ↔ ∃ bs hs, S bs hs ∧ w.add bs hs = some w'

namespace Writes

theorem congr (h : Writes f S) (hg : ∀ w, g w = f w) (heq : ∀ bs hs, S' bs hs ↔ S bs hs) :
    Writes g S' := by
  intro w w'
  simp only [hg,h w w',heq]

theorem nothing (hf : ∀ w, f w = none) (hS : ∀ bs hs, ¬ S bs hs) : Writes f S := by
  intro w w'
  simp [hf,hS]

theorem add (bs : List UInt8) (hs : List UInt64) :
    Writes (fun w => w.add bs hs) fun bs' hs' => bs' = bs ∧ hs' = hs := by
  intro w w'
  constructor
  · exact fun h => ⟨bs,hs,⟨rfl,rfl⟩,h⟩
  · rintro ⟨bs,hs,⟨rfl,rfl⟩,h⟩
    exact h

theorem id : Writes some fun bs hs => bs = [] ∧ hs = [] := by
  intro w w'
  rw [← add_nil w]
  exact add [] [] w w'

theorem bind (hf : Writes f S) (hg : Writes g T) :
    Writes (fun w => f w >>= g) fun bs hs => ∃ bs₁ hs₁ bs₂ hs₂, S bs₁ hs₁ ∧ T bs₂ hs₂ ∧
      bs = bs₁ ++ bs₂ ∧ hs = hs₁ ++ hs₂ := by
  intro w w'
  rw [Option.bind_eq_bind,Option.bind_eq_some_iff]
  constructor
  · rintro ⟨w₁,hf₁,hg₁⟩
    obtain ⟨bs₁,hs₁,hS,hadd⟩ := (hf w w₁).mp hf₁
    obtain ⟨bs₂,hs₂,hT,hadd'⟩ := (hg w₁ w').mp hg₁
    refine ⟨_,_,⟨bs₁,hs₁,bs₂,hs₂,hS,hT,rfl,rfl⟩,?_⟩
    rw [← add_bind_add,hadd,Option.bind_some,hadd']
  · rintro ⟨bs,hs,⟨bs₁,hs₁,bs₂,hs₂,hS,hT,rfl,rfl⟩,hadd⟩
    rw [← add_bind_add] at hadd
    obtain ⟨w₁,hadd₁,hadd₂⟩ := Option.bind_eq_some_iff.mp hadd
    exact ⟨w₁,(hf w w₁).mpr ⟨bs₁,hs₁,hS,hadd₁⟩,(hg w₁ w').mpr ⟨bs₂,hs₂,hT,hadd₂⟩⟩

end Writes

theorem raw_eq_add (s : List UInt8) : Sink.raw w s = w.add s [] := by
  rw [add,dif_pos (by rw [append_nil]; exact w.handles.le)]
  simp only [append_nil]
  rfl

@[simp] theorem u8_eq_add (b : UInt8) : Sink.u8 w b = w.add [b] [] :=
  raw_eq_add w [b]

@[simp] theorem boolean_eq_add (b : Bool) :
    Sink.boolean w b = w.add [b.toUInt8] [] := raw_eq_add w _

@[simp] theorem word_eq_add (size n : Nat) :
    Sink.word w size n = w.add (toLe size n) [] := raw_eq_add w _

@[simp] theorem setHandle_eq_add (h : UInt64) :
    Sink.setHandle w h = w.add [] [h] := by
  change setHandle w h = _
  rw [setHandle,add]
  by_cases hlt : w.handles.list.length < MAX_HANDLES
  · rw [dif_pos hlt,dif_pos (by rw [length_append]; exact hlt),append_nil]
  · rw [dif_neg hlt,dif_neg (by rw [length_append]; exact hlt)]

@[simp] theorem scalar_eq_add (s : Scalar) (n : Nat) :
    Sink.scalar w s n = w.add (toLe s.size n) [] := by
  cases s <;> exact raw_eq_add w _

theorem bytesLp_writes (s : List UInt8) : Writes (fun w => Sink.bytesLp w s) fun bs hs =>
      s.length ≤ U16_MAX ∧ bs = toLe 2 s.length ++ s ∧ hs = [] := by
  by_cases hle : s.length ≤ U16_MAX
  · refine ((Writes.add (toLe 2 s.length) []).bind (.add s [])).congr (fun w => ?_) fun bs hs => ?_
    · simp only [Sink.bytesLp,if_neg (not_lt.mpr hle),Sink.u16,word_eq_add,raw_eq_add]
    · simp [hle]
  · refine .nothing (fun w => ?_) fun bs hs h => hle h.1
    rw [Sink.bytesLp,if_pos (not_le.mp hle)]

end VecWriter

namespace Reader

variable {r : Reader} {k n : Nat}

def streams : Streams Reader UInt8 UInt64 where
  symbols r := r.buf.drop r.pos
  tokens r := (r.handles.take r.count).drop r.taken

/-- What is indexed is there. -/
structure Ok (r : Reader) : Prop where
  pos_le : r.pos ≤ r.buf.length
  taken_le : r.taken ≤ r.count
  count_le : r.count ≤ r.handles.length

def Within (k : Nat) (r : Reader) : Prop := r.Ok ∧ (streams.symbols r).length < k

theorem Within.mono {k' : Nat} (h : r.Within k) (hk : k ≤ k') : r.Within k' := ⟨h.1,h.2.trans_le hk⟩

/-- The reader works wherever fewer than `k` bytes are left. -/
abbrev ParsesWithin {τ : Type} (k : Nat) : Parser Reader τ → Spelling UInt8 UInt64 τ → Prop :=
  Parses streams (Within k) (Within k)

theorem take_parses (k n : Nat) : Parses streams (Within (k + n)) (Within k) (take n)
      fun s bs hs => bs = s ∧ s.length = n ∧ hs = [] where
  sound {r s r'} hr hrun := by
    rw [take] at hrun
    split at hrun
    · next hle =>
      cases hrun
      have hlen : ((r.buf.drop r.pos).take n).length = n := by
        rw [length_take,length_drop]
        omega
      refine ⟨⟨⟨hle,hr.1.taken_le,hr.1.count_le⟩,?_⟩,_,[],⟨rfl,hlen,rfl⟩,?_,rfl⟩
      · have hlt := hr.2
        simp only [streams,length_drop] at hlt ⊢
        omega
      · simp only [streams]
        rw [← drop_drop,take_append_drop]
    · cases hrun
  total {r} hr := by
    rw [take]
    split
    · exact .inl ⟨_,_,rfl⟩
    · exact .inr rfl
  complete {r s bs hs bs' hs'} hr := by
    rintro ⟨rfl,rfl,rfl⟩ hb hh
    have hle : r.pos + bs.length ≤ r.buf.length := by
      have hlen := congrArg List.length hb
      simp only [streams,length_drop,length_append] at hlen
      have := hr.1.pos_le
      omega
    simp only [streams] at hb
    refine ⟨{ r with pos := r.pos + bs.length },?_,?_,hh⟩
    · rw [take,if_pos hle,hb,take_left]
    · simp only [streams]
      rw [← drop_drop,hb,drop_left]

theorem take_within (k n : Nat) :
    ParsesWithin k (take n) fun s bs hs => bs = s ∧ s.length = n ∧ hs = [] :=
  (take_parses k n).weaken (fun _ h => h.mono (Nat.le_add_right k n)) fun _ h => h

theorem u8_parses (k : Nat) :
    ParsesWithin k u8 fun b bs hs => bs = [b] ∧ hs = [] := by
  refine ((take_within k 1).bind (T := fun s b bs hs => s = [b] ∧ bs = [] ∧ hs = [])
    ?_).congr fun b bs hs => ?_
  · rintro s bs hs ⟨-,hlen,-⟩
    obtain ⟨b,rfl⟩ := length_eq_one_iff.mp hlen
    refine (Parses.pure b).congr fun b' bs hs => ?_
    simp only [Spelling.pure,List.cons.injEq,and_true,eq_comm]
  constructor
  · rintro ⟨s,bs₁,hs₁,bs₂,hs₂,⟨rfl,-,rfl⟩,⟨rfl,rfl,rfl⟩,rfl,rfl⟩
    exact ⟨rfl,rfl⟩
  · rintro ⟨rfl,rfl⟩
    exact ⟨[b],[b],[],[],[],⟨rfl,rfl,rfl⟩,⟨rfl,rfl,rfl⟩,rfl,rfl⟩

theorem word_parses (k size : Nat) : Parses streams (Within (k + size)) (Within k) (word size)
      fun n bs hs => n < 256 ^ size ∧ bs = toLe size n ∧ hs = [] := by
  refine ((take_parses k size).bind (T := fun s => .pure (ofLe s)) ?_).congr fun n bs hs => ?_
  · rintro s bs hs ⟨-,hlen,-⟩
    rw [if_pos hlen]
    exact .pure _
  constructor
  · rintro ⟨s,bs₁,hs₁,bs₂,hs₂,⟨rfl,hlen,rfl⟩,⟨rfl,rfl,rfl⟩,rfl,rfl⟩
    rw [append_nil,← hlen]
    exact ⟨ofLe_lt bs₁,(toLe_ofLe bs₁).symm,rfl⟩
  · rintro ⟨hlt,rfl,rfl⟩
    refine ⟨toLe size n,toLe size n,[],[],[],⟨rfl,length_toLe size n,rfl⟩,?_,by simp,rfl⟩
    exact ⟨(ofLe_toLe hlt).symm,rfl,rfl⟩

theorem word_within (k size : Nat) : ParsesWithin k (word size)
      fun n bs hs => n < 256 ^ size ∧ bs = toLe size n ∧ hs = [] :=
  (word_parses k size).weaken (fun _ h => h.mono (Nat.le_add_right k size)) fun _ h => h

theorem scalar_parses (k : Nat) (s : Scalar) : ParsesWithin k (scalar s)
      fun n bs hs => n < 256 ^ s.size ∧ bs = toLe s.size n ∧ hs = [] := by
  cases s with
  | u8 =>
    refine ((u8_parses k).map UInt8.toNat).congr fun n bs hs => ?_
    constructor
    · rintro ⟨b,rfl,rfl,rfl⟩
      exact ⟨b.toNat_lt,by simp [Scalar.size,toLe],rfl⟩
    · rintro ⟨hlt,rfl,rfl⟩
      refine ⟨UInt8.ofNat n,?_,by simp [Scalar.size,toLe],rfl⟩
      exact (UInt8.toNat_ofNat_of_lt hlt).symm
  | _ => exact word_within k _

theorem tag_parses (k : Nat) :
    ParsesWithin k tag fun b bs hs => bs = [b.toUInt8] ∧ hs = [] := by
  refine ((u8_parses k).bind (T := fun b x bs hs => b = x.toUInt8 ∧ bs = [] ∧ hs = [])
    ?_).congr fun x bs hs => ?_
  · rintro b bs hs -
    split
    · refine (Parses.pure false).congr fun x bs hs => ?_
      cases x <;> simp [Spelling.pure,Bool.toUInt8]
    · refine (Parses.pure true).congr fun x bs hs => ?_
      cases x <;> simp [Spelling.pure,Bool.toUInt8]
    next h0 h1 =>
    refine Parses.refuse.congr fun x bs hs => ?_
    cases x
    · exact ⟨False.elim,fun h => h0 h.1⟩
    · exact ⟨False.elim,fun h => h1 h.1⟩
  constructor
  · rintro ⟨b,bs₁,hs₁,bs₂,hs₂,⟨rfl,rfl⟩,⟨rfl,rfl,rfl⟩,rfl,rfl⟩
    exact ⟨rfl,rfl⟩
  · rintro ⟨rfl,rfl⟩
    exact ⟨x.toUInt8,[x.toUInt8],[],[],[],⟨rfl,rfl⟩,⟨rfl,rfl,rfl⟩,rfl,rfl⟩

theorem tagged_parses {τ : Type} {p q : Parser Reader τ} {S T : Spelling UInt8 UInt64 τ}
    (hp : ParsesWithin k p S) (hq : ParsesWithin k q T) :
    ParsesWithin k (tag >>= fun b => if b then p else q) fun a bs hs =>
      ∃ bs', bs = 1 :: bs' ∧ S a bs' hs ∨ bs = 0 :: bs' ∧ T a bs' hs := by
  refine ((tag_parses k).bind fun b _ _ _ => Parses.ite (fun _ => hp) fun _ => hq).congr
    fun a bs hs => ?_
  constructor
  · rintro ⟨b,bs₁,hs₁,bs₂,hs₂,⟨rfl,rfl⟩,hb,rfl,rfl⟩
    refine ⟨bs₂,?_⟩
    cases b
    · exact .inr ⟨rfl,hb⟩
    · exact .inl ⟨rfl,hb⟩
  · rintro ⟨bs',⟨rfl,hS⟩ | ⟨rfl,hT⟩⟩
    · exact ⟨true,[1],[],bs',hs,⟨rfl,rfl⟩,hS,rfl,rfl⟩
    · exact ⟨false,[0],[],bs',hs,⟨rfl,rfl⟩,hT,rfl,rfl⟩

theorem bytesLp_parses (k : Nat) : ParsesWithin k bytesLp fun s bs hs =>
      s.length ≤ U16_MAX ∧ bs = toLe 2 s.length ++ s ∧ hs = [] := by
  refine ((word_within k 2).bind fun n _ _ _ => take_within k n).congr fun s bs hs => ?_
  constructor
  · rintro ⟨n,bs₁,hs₁,bs₂,hs₂,⟨hlt,rfl,rfl⟩,⟨rfl,rfl,rfl⟩,rfl,rfl⟩
    exact ⟨Nat.le_of_lt_succ hlt,rfl,rfl⟩
  · rintro ⟨hle,rfl,rfl⟩
    exact ⟨s.length,toLe 2 s.length,[],s,[],⟨Nat.lt_succ_of_le hle,rfl,rfl⟩,⟨rfl,rfl,rfl⟩,rfl,rfl⟩

theorem fromUTF8?_utf8 (s : String) : String.fromUTF8? ⟨(utf8 s).toArray⟩ = some s := by
  have hbytes : (⟨(utf8 s).toArray⟩ : ByteArray) = s.toByteArray := by
    rw [utf8,Array.toArray_toList]
  rw [hbytes,String.fromUTF8?,dif_pos s.isValidUTF8]
  rfl

theorem utf8_of_fromUTF8? {bytes : List UInt8} {s : String}
    (h : String.fromUTF8? ⟨bytes.toArray⟩ = some s) : utf8 s = bytes := by
  rw [String.fromUTF8?] at h
  split at h
  · cases h
    rfl
  · cases h

theorem stringLp_parses (k : Nat) : ParsesWithin k stringLp fun s bs hs =>
      (utf8 s).length ≤ U16_MAX ∧ bs = toLe 2 (utf8 s).length ++ utf8 s ∧ hs = [] := by
  refine ((bytesLp_parses k).bind (T := fun bytes s bs hs => bytes = utf8 s ∧ bs = [] ∧ hs = [])
    ?_).congr fun s bs hs => ?_
  · rintro bytes bs hs -
    split
    · next s hs =>
      refine (Parses.pure s).congr fun s' bs hs' => ?_
      constructor
      · rintro ⟨rfl,rfl,rfl⟩
        exact ⟨(utf8_of_fromUTF8? hs).symm,rfl,rfl⟩
      rintro ⟨rfl,rfl,rfl⟩
      rw [fromUTF8?_utf8] at hs
      cases hs
      exact ⟨rfl,rfl,rfl⟩
    · next hnone =>
      refine Parses.refuse.congr fun s bs hs => ⟨False.elim,?_⟩
      rintro ⟨rfl,-⟩
      rw [fromUTF8?_utf8] at hnone
      cases hnone
  constructor
  · rintro ⟨bytes,bs₁,hs₁,bs₂,hs₂,⟨hle,rfl,rfl⟩,⟨rfl,rfl,rfl⟩,rfl,rfl⟩
    exact ⟨hle,append_nil _,rfl⟩
  · rintro ⟨hle,rfl,rfl⟩
    exact ⟨utf8 s,_,[],[],[],⟨hle,rfl,rfl⟩,⟨rfl,rfl,rfl⟩,(append_nil _).symm,rfl⟩

theorem tokens_eq_cons (hr : r.Ok) (hlt : r.taken < r.count) : ∃ h, r.handles[r.taken]? = some h ∧
      streams.tokens r = h :: streams.tokens { r with taken := r.taken + 1 } := by
  have hlt' : r.taken < r.handles.length := hlt.trans_le hr.count_le
  refine ⟨r.handles[r.taken],List.getElem?_eq_getElem hlt',?_⟩
  have htake : r.taken < (r.handles.take r.count).length := by
    rw [length_take]
    exact Nat.lt_min.mpr ⟨hlt,hlt'⟩
  simp only [streams]
  rw [drop_eq_getElem_cons htake,getElem_take]

theorem takeHandle_parses (k : Nat) :
    ParsesWithin k takeHandle fun h bs hs => bs = [] ∧ hs = [h] where
  sound {r h r'} hr hrun := by
    rw [takeHandle] at hrun
    split at hrun
    · cases hrun
    next hlt =>
    obtain ⟨h',hget,htokens⟩ := tokens_eq_cons hr.1 (not_le.mp hlt)
    rw [hget] at hrun
    cases hrun
    exact ⟨⟨⟨hr.1.pos_le,not_le.mp hlt,hr.1.count_le⟩,hr.2⟩,[],[h],⟨rfl,rfl⟩,rfl,htokens⟩
  total {r} hr := by
    rw [takeHandle]
    split
    · exact .inr rfl
    next hlt =>
    obtain ⟨h',hget,-⟩ := tokens_eq_cons hr.1 (not_le.mp hlt)
    rw [hget]
    exact .inl ⟨_,_,rfl⟩
  complete {r h bs hs bs' hs'} hr := by
    rintro ⟨rfl,rfl⟩ hb hh
    have hlt : r.taken < r.count := by
      have hlen := congrArg List.length hh
      simp only [streams,length_drop,length_take,length_append,length_singleton] at hlen
      omega
    obtain ⟨h',hget,htokens⟩ := tokens_eq_cons hr.1 hlt
    rw [htokens] at hh
    cases hh
    refine ⟨{ r with taken := r.taken + 1 },?_,hb,rfl⟩
    rw [takeHandle,if_neg (Nat.not_le_of_lt hlt),hget]

theorem finish_iff (hr : r.Ok) :
    r.finish = true ↔ streams.symbols r = [] ∧ streams.tokens r = [] := by
  have hpos := hr.pos_le
  have htaken := hr.taken_le
  have hcount := hr.count_le
  simp only [finish,streams,drop_eq_nil_iff,length_take,Bool.not_eq_true',Bool.or_eq_false_iff,
    decide_eq_false_iff_not,not_not]
  omega

section

variable (buf : List UInt8) (transferred : Handles)

theorem ok_withHandles : (withHandles buf transferred).Ok where
  pos_le := Nat.zero_le _
  taken_le := Nat.zero_le _
  count_le := by simp [withHandles]

@[simp] theorem symbols_withHandles : streams.symbols (withHandles buf transferred) = buf := rfl

@[simp] theorem tokens_withHandles :
    streams.tokens (withHandles buf transferred) = transferred.list := by
  simp [streams,withHandles]

end

end Reader

end LiberSystem.Wire
