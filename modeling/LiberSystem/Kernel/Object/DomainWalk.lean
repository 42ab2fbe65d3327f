import LiberSystem.Kernel.Object.Domain

/-!
# The walkers, step by step

The walkers of `object/domain/mod.rs` taken apart into their atomic steps.
-/

namespace LiberSystem

open List Function Accounts

abbrev Counters := DomainId → ResourceCounter

namespace Walk

/-- Where a call is. In `try_charge_hier`, `charged` holds the levels behind it, the
nearest first, `d` is the level it is at and `up` holds the ancestors ahead. -/
inductive Phase where
  | idle
  /-- `try_charge`: about to load the limit, then the use, then to exchange. -/
  | tryLimit (charged : List DomainId) (d : DomainId) (up : List DomainId)
  | tryUsed (charged : List DomainId) (d : DomainId) (up : List DomainId) (limit : Nat)
  | tryCas (charged : List DomainId) (d : DomainId) (up : List DomainId) (limit cur : Nat)
  | observe (rest : List DomainId)
  | observeMax (d : DomainId) (rest : List DomainId) (seen : Nat)
  | rollback (rest : List DomainId)
  | rollbackCas (d : DomainId) (rest : List DomainId) (cur : Nat)
  | force (charged up : List DomainId)
  | forceCas (charged : List DomainId) (d : DomainId) (up : List DomainId) (cur : Nat)
  | forceMax (charged : List DomainId) (d : DomainId) (up : List DomainId) (next : Nat)
  | refund (up : List DomainId)
  | refundCas (d : DomainId) (up : List DomainId) (cur : Nat)
  | done (granted : Bool)
  deriving DecidableEq

/-- A thread's call: the Domain it was made on, the amount, and (ghost) what it has
added to each counter so far. -/
structure Call where
  phase : Phase
  domain : DomainId
  amount : Nat
  net : DomainId → ℤ

variable (c : Counters)

def exchange (d : DomainId) (cur next : Nat) (spurious : Bool) : Option Counters :=
  if (c d).used = cur ∧ spurious = false then
    some (Function.update c d { c d with used := next })
  else none

def fetchMax (d : DomainId) (n : Nat) : Counters :=
  Function.update c d { c d with peak := max (c d).peak n }

variable (call : Call)

/-- The call after an exchange that took the use of `d` from `cur` to `next`. -/
def Call.exchanged (d : DomainId) (cur next : Nat) (phase : Phase) : Call :=
  { call with
    phase := phase, net := Function.update call.net d (call.net d + (next - cur : ℤ)) }

/-- `try_charge_hier` with the levels `charged`: on to the parent, or back if there is
none. -/
def Phase.ascend (charged : List DomainId) : List DomainId → Phase
  | [] => .observe charged
  | p :: up => .tryLimit charged p up

def advance (spurious : Bool) : Option (Counters × Call) :=
  match call.phase with
  | .idle => none
  | .tryLimit charged d up =>
    some (c, { call with phase := .tryUsed charged d up (c d).limit })
  | .tryUsed charged d up limit =>
    some (c, { call with phase := .tryCas charged d up limit (c d).used })
  | .tryCas charged d up limit cur =>
    let next := saturatingAdd cur call.amount
    if limit ≠ UNLIMITED ∧ next > limit then
      some (c, { call with phase := .rollback charged })
    else
      match exchange c d cur next spurious with
      | some c' =>
        some (c', call.exchanged d cur next (.ascend (d :: charged) up))
      | none => some (c, { call with phase := .tryCas charged d up limit (c d).used })
  | .observe [] => some (c, { call with phase := .done true })
  | .observe (d :: rest) => some (c, { call with phase := .observeMax d rest (c d).used })
  | .observeMax d rest seen => some (fetchMax c d seen, { call with phase := .observe rest })
  | .rollback [] => some (c, { call with phase := .done false })
  | .rollback (d :: rest) => some (c, { call with phase := .rollbackCas d rest (c d).used })
  | .rollbackCas d rest cur =>
    match exchange c d cur (cur - call.amount) spurious with
    | some c' => some (c', call.exchanged d cur (cur - call.amount : Nat) (.rollback rest))
    | none => some (c, { call with phase := .rollbackCas d rest (c d).used })
  | .force _ [] => some (c, { call with phase := .done true })
  | .force charged (d :: up) => some (c, { call with phase := .forceCas charged d up (c d).used })
  | .forceCas charged d up cur =>
    let next := saturatingAdd cur call.amount
    match exchange c d cur next spurious with
    | some c' => some (c', call.exchanged d cur next (.forceMax charged d up next))
    | none => some (c, { call with phase := .forceCas charged d up (c d).used })
  | .forceMax charged d up next =>
    some (fetchMax c d next, { call with phase := .force (d :: charged) up })
  | .refund [] => some (c, { call with phase := .done true })
  | .refund (d :: up) => some (c, { call with phase := .refundCas d up (c d).used })
  | .refundCas d up cur =>
    match exchange c d cur (cur - call.amount) spurious with
    | some c' => some (c', call.exchanged d cur (cur - call.amount : Nat) (.refund up))
    | none => some (c, { call with phase := .refundCas d up (c d).used })
  | .done _ => none

def Phase.settles : Phase → Bool
  | .observe [] => true
  | .force _ [] => true
  | _ => false

variable (F : Forest)

/-- The levels whose use holds the amount of a call that has not ended. -/
def Call.levels (call : Call) : List DomainId :=
  match call.phase with
  | .idle | .done _ => []
  | .tryLimit charged _ _ | .tryUsed charged _ _ _ | .tryCas charged _ _ _ _ => charged
  | .observe _ | .observeMax _ _ _ => F.path call.domain
  | .rollback rest => rest
  | .rollbackCas d rest _ => d :: rest
  | .force charged _ | .forceCas charged _ _ _ => charged
  | .forceMax charged d _ _ => d :: charged
  | .refund up => up
  | .refundCas d up _ => d :: up

def Call.share (call : Call) (x : DomainId) : Nat :=
  if x ∈ call.levels F then call.amount else 0

/-- A walk up is part of the way from the Domain to its root; a walk that gives back
visits no level twice. -/
def Call.Wf (call : Call) : Prop :=
  match call.phase with
  | .tryLimit charged d up | .tryUsed charged d up _ | .tryCas charged d up _ _
  | .forceCas charged d up _ | .forceMax charged d up _ =>
    charged.reverse ++ d :: up = F.path call.domain
  | .force charged up => charged.reverse ++ up = F.path call.domain
  | .rollback rest => rest.Nodup
  | .rollbackCas d rest _ => (d :: rest).Nodup
  | .refund up => up.Nodup
  | .refundCas d up _ => (d :: up).Nodup
  | _ => True

/-- The limit that a call has loaded is not above the one in force. -/
def Call.Seen : Prop :=
  match call.phase with
  | .tryUsed _ d _ limit | .tryCas _ d _ limit _ => limit ≤ (c d).limit
  | _ => True

def Phase.forces : Phase → Bool
  | .force _ _ | .forceCas _ _ _ _ | .forceMax _ _ _ _ => true
  | _ => false

def Phase.tries : Phase → Bool
  | .tryLimit _ _ _ | .tryUsed _ _ _ _ | .tryCas _ _ _ _ _ | .observe _ | .observeMax _ _ _
  | .rollback _ | .rollbackCas _ _ _ | .done false => true
  | _ => false

/-- What a call that tries to charge has added to each counter is its share. -/
def Call.Exact (call : Call) : Prop :=
  call.phase.tries = true → ∀ x, call.net x = call.share F x

def Phase.charging : Phase → Option DomainId
  | .tryCas _ d _ _ _ | .forceCas _ d _ _ => some d
  | _ => none

def Call.Fits (c : Counters) (call : Call) : Prop :=
  ∀ d ∈ call.phase.charging, (c d).used + call.amount ≤ u64Max

instance (c : Counters) (call : Call) : Decidable (call.Fits c) :=
  inferInstanceAs (Decidable (∀ d ∈ call.phase.charging, _))

/-- What one step of a call does. Until the call settles, a counter and the call's own
share in it move together. -/
structure Advanced (F : Forest) (c : Counters) (call : Call) (c' : Counters) (call' : Call) :
    Prop where
  domain : call'.domain = call.domain
  limit : ∀ x, (c' x).limit = (c x).limit
  wf : call'.Wf F
  seen : call.Seen c → call'.Seen c'
  forces : call'.phase.forces = true → call.phase.forces = true
  tries : call'.phase.tries = true → call.phase.tries = true ∧ call.phase.settles = false
  within : call.phase.forces = false → call.Seen c →
    ∀ x, (c' x).used ≤ (c x).used ∨ (c' x).used ≤ (c x).limit
  moves : call.phase.settles = false →
    ∀ x, (c' x).used + call.share F x = (c x).used + call'.share F x
  net : call.phase.settles = false →
    ∀ x, call'.net x + call.share F x = call.net x + call'.share F x
  settles : call.phase.settles = true → ∀ x, (c' x).used = (c x).used ∧
    call.share F x = (if x ∈ F.path call.domain then call.amount else 0) ∧ call'.share F x = 0

variable {F : Forest} {c c' : Counters} {call : Call} {d : DomainId} {cur next : Nat}
  {spurious : Bool} {phase : Phase}

theorem exchange_eq_some (h : exchange c d cur next spurious = some c') :
    (c d).used = cur ∧ c' = Function.update c d { c d with used := next } := by
  unfold exchange at h
  split at h
  · next hcur => exact ⟨hcur.1,(Option.some.inj h).symm⟩
  · cases h

theorem fetchMax_same (c : Counters) (d : DomainId) (n : Nat) (x : DomainId) :
    (fetchMax c d n x).used = (c x).used ∧ (fetchMax c d n x).limit = (c x).limit := by
  unfold fetchMax
  by_cases hx : x = d
  · subst hx
    rw [update_self]
    exact ⟨rfl,rfl⟩
  · rw [update_of_ne hx]
    exact ⟨rfl,rfl⟩

theorem Advanced.quiet (hsame : ∀ x, (c' x).used = (c x).used ∧ (c' x).limit = (c x).limit)
    (hlevels : { call with phase := phase }.levels F = call.levels F)
    (hwf : { call with phase := phase }.Wf F)
    (hseen : call.Seen c → { call with phase := phase }.Seen c')
    (hforces : phase.forces → call.phase.forces)
    (htries : phase.tries → call.phase.tries)
    (hsettles : call.phase.settles = false) :
    Advanced F c call c' { call with phase := phase } := by
  have hshare : ∀ x, { call with phase := phase }.share F x = call.share F x := by
    intro x
    unfold Call.share
    rw [hlevels]
  refine ⟨rfl,fun x => (hsame x).2,hwf,hseen,hforces,fun h => ⟨htries h,hsettles⟩,?_,?_,?_,?_⟩
  · exact fun _ _ x => .inl (hsame x).1.le
  · intro _ x
    rw [(hsame x).1,hshare x]
  · intro _ x
    rw [hshare x]
  · intro h
    rw [hsettles] at h
    cases h

theorem Advanced.stay (hlevels : { call with phase := phase }.levels F = call.levels F)
    (hwf : { call with phase := phase }.Wf F)
    (hseen : call.Seen c → { call with phase := phase }.Seen c)
    (hforces : phase.forces → call.phase.forces)
    (htries : phase.tries → call.phase.tries)
    (hsettles : call.phase.settles = false) :
    Advanced F c call c { call with phase := phase } :=
  .quiet (fun _ => ⟨rfl,rfl⟩) hlevels hwf hseen hforces htries hsettles

theorem Advanced.settle (hsettles : call.phase.settles)
    (hlevels : ∀ x, x ∈ call.levels F ↔ x ∈ F.path call.domain) :
    Advanced F c call c { call with phase := .done true } := by
  refine ⟨rfl,fun _ => rfl,trivial,fun _ => trivial,nofun,nofun,fun _ _ x => .inl le_rfl,?_,?_,?_⟩
  · intro h
    rw [hsettles] at h
    cases h
  · intro h
    rw [hsettles] at h
    cases h
  · intro _ x
    refine ⟨rfl,?_,rfl⟩
    exact if_congr (hlevels x) rfl rfl

theorem Advanced.exchange (h : exchange c d cur next spurious = some c')
    (hat : next + call.share F d = cur + (call.exchanged d cur next phase).share F d)
    (hother : ∀ x, x ≠ d → (x ∈ (call.exchanged d cur next phase).levels F ↔ x ∈ call.levels F))
    (hwf : (call.exchanged d cur next phase).Wf F)
    (hseen : (call.exchanged d cur next phase).Seen c')
    (hforces : phase.forces → call.phase.forces)
    (htries : phase.tries → call.phase.tries)
    (hwithin : call.phase.forces = false → call.Seen c → next ≤ cur ∨ next ≤ (c d).limit)
    (hsettles : call.phase.settles = false) :
    Advanced F c call c' (call.exchanged d cur next phase) := by
  obtain ⟨rfl,rfl⟩ := exchange_eq_some h
  have hshare : ∀ x, x ≠ d →
      (call.exchanged d (c d).used next phase).share F x = call.share F x := by
    intro x hx
    exact if_congr (hother x hx) rfl rfl
  refine ⟨rfl,?_,hwf,fun _ => hseen,hforces,fun h => ⟨htries h,hsettles⟩,?_,?_,?_,?_⟩
  · intro x
    by_cases hx : x = d
    · subst hx
      rw [update_self]
    · rw [update_of_ne hx]
  · intro hf hs x
    by_cases hx : x = d
    · subst hx
      rw [update_self]
      exact hwithin hf hs
    · rw [update_of_ne hx]
      exact .inl le_rfl
  · intro _ x
    by_cases hx : x = d
    · subst hx
      rw [update_self]
      exact hat
    · rw [update_of_ne hx,hshare x hx]
  · intro _ x
    by_cases hx : x = d
    · subst hx
      simp only [Call.exchanged,update_self] at hat ⊢
      omega
    · rw [hshare x hx]
      simp only [Call.exchanged,update_of_ne hx]
  · intro h
    rw [hsettles] at h
    cases h

variable {x : DomainId} {charged up : List DomainId}

theorem share_of_mem (h : x ∈ call.levels F) : call.share F x = call.amount := if_pos h

theorem share_of_not_mem (h : x ∉ call.levels F) : call.share F x = 0 := if_neg h

theorem ahead_not_mem (h : charged.reverse ++ d :: up = F.path x) : d ∉ charged := by
  have hnd := h ▸ F.nodup_path x
  intro hmem
  exact (nodup_append.mp hnd).2.2 d (mem_reverse.mpr hmem) d mem_cons_self rfl

theorem charged_nodup (h : charged.reverse ++ up = F.path x) : charged.Nodup := by
  have hnd := h ▸ F.nodup_path x
  exact nodup_reverse.mp (nodup_append.mp hnd).1

theorem mem_path_of_top (h : charged.reverse ++ [d] = F.path x) (y : DomainId) :
    y ∈ F.path x ↔ y = d ∨ y ∈ charged := by
  rw [← h,mem_append,mem_reverse,mem_singleton,or_comm]

theorem Advanced.tryCas {limit : Nat}
    (hphase : call.phase = .tryCas charged d up limit cur) (hwf : call.Wf F)
    (hfit : call.Fits c) (hroom : ¬(limit ≠ UNLIMITED ∧ saturatingAdd cur call.amount > limit))
    (h : Walk.exchange c d cur (saturatingAdd cur call.amount) spurious = some c') :
    Advanced F c call c' (call.exchanged d cur (saturatingAdd cur call.amount)
      (.ascend (d :: charged) up)) := by
  obtain ⟨hcur,-⟩ := exchange_eq_some h
  simp only [Call.Wf,hphase] at hwf
  have hfit : cur + call.amount ≤ u64Max := hcur ▸ hfit d (by rw [hphase]; rfl)
  rw [saturatingAdd_of_le hfit] at h hroom ⊢
  have hlevels : call.levels F = charged := by
    simp only [Call.levels,hphase]
  have hd := ahead_not_mem hwf
  -- the limit that the call read is not above the limit now, as no limit is lowered
  have hwithin : call.Seen c → cur + call.amount ≤ (c d).limit := by
    intro hseen
    simp only [Call.Seen,hphase] at hseen
    by_cases hlim : limit = UNLIMITED
    · rw [hlim] at hseen
      exact hfit.trans hseen
    · omega
  have hshare : call.share F d = 0 := share_of_not_mem (by rw [hlevels]; exact hd)
  have htries : ∀ phase : Phase, phase.tries → call.phase.tries := by
    rw [hphase]
    exact fun _ _ => rfl
  have hsettles : call.phase.settles = false := by
    rw [hphase]
    rfl
  -- the levels after the exchange are `d` and those before it, whatever is ahead
  cases up with
  | nil =>
    have hpath := mem_path_of_top hwf
    refine Advanced.exchange h ?_ (fun x hx => ?_) trivial trivial nofun (htries _)
      (fun _ hseen => .inr (hwithin hseen)) hsettles
    · rw [hshare,share_of_mem ((hpath d).mpr (.inl rfl))]
      rfl
    · rw [hlevels]
      exact (hpath x).trans (or_iff_right hx)
  | cons p up =>
    refine Advanced.exchange h ?_ (fun x hx => ?_) ?_ trivial nofun (htries _)
      (fun _ hseen => .inr (hwithin hseen)) hsettles
    · rw [hshare,share_of_mem (by exact mem_cons_self)]
      rfl
    · rw [hlevels]
      exact mem_cons.trans (or_iff_right hx)
    · change (d :: charged).reverse ++ p :: up = F.path call.domain
      rw [← hwf]
      simp

theorem Advanced.back {rest : List DomainId} (hlevels : call.levels F = d :: rest)
    (hlevels' : ∀ n, (call.exchanged d cur n phase).levels F = rest)
    (hnd : (d :: rest).Nodup) (hused : ∀ x ∈ call.levels F, call.amount ≤ (c x).used)
    (hwf : ∀ n, (call.exchanged d cur n phase).Wf F)
    (hseen : ∀ n, (call.exchanged d cur n phase).Seen c')
    (hforces : phase.forces = false) (htries : phase.tries → call.phase.tries)
    (hsettles : call.phase.settles = false)
    (h : Walk.exchange c d cur (cur - call.amount) spurious = some c') :
    Advanced F c call c' (call.exchanged d cur (cur - call.amount : Nat) phase) := by
  obtain ⟨hcur,-⟩ := exchange_eq_some h
  obtain ⟨hd,-⟩ := nodup_cons.mp hnd
  have hle := hused d (by rw [hlevels]; exact mem_cons_self)
  refine Advanced.exchange h ?_ ?_ (hwf _) (hseen _) ?_ htries
    (fun _ _ => .inl (Nat.sub_le _ _)) hsettles
  · rw [share_of_mem (by rw [hlevels]; exact mem_cons_self),
      share_of_not_mem (by rw [hlevels']; exact hd)]
    omega
  · intro x hx
    rw [hlevels',hlevels,mem_cons]
    exact (or_iff_right hx).symm
  · rw [hforces]
    nofun

theorem advance_spec {call' : Call} (hwf : call.Wf F) (hfit : call.Fits c)
    (hused : ∀ x ∈ call.levels F, call.amount ≤ (c x).used)
    (h : advance c call spurious = some (c', call')) : Advanced F c call c' call' := by
  obtain ⟨phase,domain,amount,net⟩ := call
  cases phase with
  | idle | done granted => cases h
  | tryLimit charged d up =>
    cases h
    exact .stay rfl hwf (fun _ => le_rfl) nofun (fun _ => rfl) rfl
  | tryUsed charged d up limit =>
    cases h
    exact .stay rfl hwf id nofun (fun _ => rfl) rfl
  | tryCas charged d up limit cur =>
    simp only [advance] at h
    split at h
    · cases h
      exact .stay rfl (charged_nodup hwf) (fun _ => trivial) nofun (fun _ => rfl) rfl
    next hroom =>
    split at h
    · next hex =>
      cases h
      exact Advanced.tryCas rfl hwf hfit hroom hex
    · cases h
      exact .stay rfl hwf id nofun (fun _ => rfl) rfl
  | observe rest =>
    cases rest with
    | nil =>
      cases h
      exact .settle rfl fun _ => Iff.rfl
    | cons d rest =>
      cases h
      exact .stay rfl trivial (fun _ => trivial) nofun (fun _ => rfl) rfl
  | observeMax d rest seen =>
    cases h
    exact .quiet (fetchMax_same c d seen) rfl trivial (fun _ => trivial) nofun (fun _ => rfl) rfl
  | rollback rest =>
    cases rest with
    | nil =>
      cases h
      exact .stay rfl trivial (fun _ => trivial) nofun (fun _ => rfl) rfl
    | cons d rest =>
      cases h
      exact .stay rfl hwf (fun _ => trivial) nofun (fun _ => rfl) rfl
  | rollbackCas d rest cur =>
    simp only [advance] at h
    split at h
    · next hex =>
      cases h
      exact .back rfl (fun _ => rfl) hwf hused (fun _ => (nodup_cons.mp hwf).2)
        (fun _ => trivial) rfl (fun _ => rfl) rfl hex
    · cases h
      exact .stay rfl hwf (fun _ => trivial) nofun (fun _ => rfl) rfl
  | force charged up =>
    cases up with
    | nil =>
      cases h
      refine .settle rfl fun x => ?_
      -- at the root the levels behind are the whole path
      have hpath : charged.reverse = F.path domain := by
        simpa [Call.Wf] using hwf
      change x ∈ charged ↔ x ∈ F.path domain
      rw [← hpath,mem_reverse]
    | cons d up =>
      cases h
      exact .stay rfl hwf (fun _ => trivial) (fun _ => rfl) nofun rfl
  | forceCas charged d up cur =>
    simp only [advance] at h
    split at h
    · next hex =>
      cases h
      obtain ⟨hcur,-⟩ := exchange_eq_some hex
      have hd := ahead_not_mem hwf
      have hroom : cur + amount ≤ u64Max := hcur ▸ hfit d rfl
      rw [saturatingAdd_of_le hroom] at hex ⊢
      refine .exchange hex ?_ ?_ hwf trivial (fun _ => rfl) nofun nofun rfl
      · rw [share_of_not_mem (by exact hd),share_of_mem (by exact mem_cons_self)]
        rfl
      · intro x hx
        exact mem_cons.trans (or_iff_right hx)
    · cases h
      exact .stay rfl hwf (fun _ => trivial) (fun _ => rfl) nofun rfl
  | forceMax charged d up next =>
    cases h
    refine .quiet (fetchMax_same c d next) rfl ?_ (fun _ => trivial) (fun _ => rfl) nofun rfl
    change (d :: charged).reverse ++ up = F.path domain
    rw [← show charged.reverse ++ d :: up = F.path domain from hwf]
    simp
  | refund up =>
    cases up with
    | nil =>
      cases h
      exact .stay rfl trivial (fun _ => trivial) nofun nofun rfl
    | cons d up =>
      cases h
      exact .stay rfl hwf (fun _ => trivial) nofun nofun rfl
  | refundCas d up cur =>
    simp only [advance] at h
    split at h
    · next hex =>
      cases h
      exact .back rfl (fun _ => rfl) hwf hused (fun _ => (nodup_cons.mp hwf).2)
        (fun _ => trivial) rfl nofun rfl hex
    · cases h
      exact .stay rfl hwf (fun _ => trivial) nofun nofun rfl

theorem advance_started {r : Counters × Call} (h : advance c call spurious = some r) :
    call.phase ≠ .idle := by
  intro hidle
  simp [advance,hidle] at h

theorem Call.Seen.mono (h : call.Seen c) (hle : ∀ x, (c x).limit ≤ (c' x).limit) :
    call.Seen c' := by
  unfold Call.Seen at h ⊢
  split <;> simp_all only <;> exact h.trans (hle _)

/-- One step of a call while no other call moves and no exchange fails, whatever the
call has added so far. -/
def Follows (domain : DomainId) (amount : Nat) (p q : Counters × Phase) : Prop :=
  ∀ net, ∃ net', advance p.1 ⟨p.2,domain,amount,net⟩ false =
    some (q.1, ⟨q.2,domain,amount,net'⟩)

def Alone (domain : DomainId) (amount : Nat) : Counters × Phase → Counters × Phase → Prop :=
  Relation.ReflTransGen (Follows domain amount)

def counters (a : Accounts) (res : Resource) : Counters := fun d => a d res

variable {a : Accounts} {res : Resource} {rest : List DomainId} {domain : DomainId} {amount : Nat}

theorem counters_modify (f : ResourceCounter → ResourceCounter) :
    counters (a.modify d res f) res = Function.update (counters a res) d (f (a d res)) := by
  funext x
  unfold counters
  rw [modify_apply]
  by_cases hx : x = d
  · subst hx
    simp
  · simp [hx]

theorem exchange_alone (a : Accounts) (res : Resource) (d : DomainId) (next : Nat) :
    exchange (counters a res) d (a d res).used next false =
      some (counters (a.modify d res fun c => { c with used := next }) res) := by
  rw [counters_modify]
  exact if_pos ⟨rfl,rfl⟩

theorem alone_tryCharge : Alone domain amount (counters a res, .tryLimit charged d up)
      (match (a d res).tryCharge amount with
      | none => (counters a res, .rollback charged)
      | some c => (counters (a.modify d res fun _ => c) res, .ascend (d :: charged) up)) := by
  have hload : Alone domain amount (counters a res, .tryLimit charged d up)
      (counters a res, .tryCas charged d up (a d res).limit (a d res).used) :=
    .tail (b := (counters a res, .tryUsed charged d up (a d res).limit))
      (.single fun net => ⟨net,rfl⟩) fun net => ⟨net,rfl⟩
  refine hload.tail fun net => ?_
  unfold ResourceCounter.tryCharge
  by_cases hroom : (a d res).limit ≠ UNLIMITED ∧
      saturatingAdd (a d res).used amount > (a d res).limit
  · refine ⟨net,?_⟩
    simp only [advance,if_pos hroom]
  · simp only [advance,if_neg hroom,exchange_alone]
    exact ⟨_,rfl⟩

theorem alone_observe : Alone domain amount (counters a res, .observe (d :: rest))
      (counters (a.modify d res fun c => c.observePeak) res, .observe rest) := by
  rw [counters_modify]
  exact .tail (b := (counters a res, .observeMax d rest (a d res).used))
    (.single fun net => ⟨net,rfl⟩) fun net => ⟨net,rfl⟩

theorem alone_rollback : Alone domain amount (counters a res, .rollback (d :: rest))
      (counters (a.modify d res fun c => c.uncharge amount) res, .rollback rest) := by
  refine .tail (b := (counters a res, .rollbackCas d rest (a d res).used))
    (.single fun net => ⟨net,rfl⟩) fun net => ?_
  simp only [advance,exchange_alone]
  exact ⟨_,rfl⟩

/-- From any level the walk up comes back to it with the counters and the answer of the
recursion. -/
theorem alone_walk (d : DomainId) (up charged : List DomainId) (a : Accounts) :
    Alone domain amount (counters a res, .tryLimit charged d up)
      (counters (tryChargeHier res amount (d :: up) a).2 res,
        bif (tryChargeHier res amount (d :: up) a).1 then .observe charged
        else .rollback charged) := by
  induction up generalizing d charged a with
  | nil =>
    have hlevel : Alone domain amount (counters a res, .tryLimit charged d []) _ := alone_tryCharge
    rw [tryChargeHier]
    cases hc : (a d res).tryCharge amount <;> rw [hc] at hlevel
    · exact hlevel
    · exact hlevel.trans alone_observe
  | cons p up ih =>
    have hlevel : Alone domain amount (counters a res, .tryLimit charged d (p :: up)) _ :=
      alone_tryCharge
    rw [tryChargeHier]
    cases hc : (a d res).tryCharge amount <;> rw [hc] at hlevel
    · exact hlevel
    next c =>
    have habove := hlevel.trans (ih p (d :: charged) (a.modify d res fun _ => c))
    dsimp only
    cases hr : tryChargeHier res amount (p :: up) (a.modify d res fun _ => c) with
    | mk granted a' =>
      rw [hr] at habove
      cases granted with
      | true => exact habove.trans alone_observe
      | false => exact habove.trans alone_rollback

/-- A `try_charge_hier` that nobody interrupts does what the one-step model says. -/
theorem alone_tryChargeHier (F : Forest) (d : DomainId) :
    Alone d amount (counters a res, .tryLimit [] d (F.path d).tail)
      (counters (tryChargeHier res amount (F.path d) a).2 res,
        .done (tryChargeHier res amount (F.path d) a).1) := by
  have hwalk : Alone d amount (counters a res, _) _ := alone_walk d (F.path d).tail [] a
  rw [F.cons_tail_path] at hwalk
  refine hwalk.tail fun net => ⟨net,?_⟩
  cases (tryChargeHier res amount (F.path d) a).1 <;> rfl

end Walk

end LiberSystem
