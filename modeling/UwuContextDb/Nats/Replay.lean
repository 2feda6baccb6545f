import UwuContextDb.Core.Model
import UwuContextDb.Library.OnceTable
import UwuContextDb.Library.Run

/-! What the NATS bridge lets in: the checks of an inbound envelope, and the cache that remembers what was let in. -/

namespace UwuContextDb.Nats

open StateMachine

structure SerializedEnvelope where
  id : String
  typeId : String
  source : Option String
  timestamp : DateTime
  headers : List (String × String)
  payloadBytes : List ℕ

inductive NatsBridgeError
  | serialize (message : String)
  | invalidPolicy (message : String)
  | missingSource
  | sourceDenied (source : String)
  | typeDenied (typeName : String)
  | expired
  | missingSigner
  | unknownSigner (signer : String)
  | missingSignature
  | invalidSignature
  | replay (id : String)
  | replayCapacityExhausted
  deriving DecidableEq

/-- The part of `NatsSecurityConfig` that judges inbound envelopes; a `Duration` is a number of nanoseconds. -/
structure NatsSecurityConfig (Key : Type) where
  trustedSigners : List (String × Key)
  allowedSources : List String
  allowedTypePrefixes : List String
  maxAge : ℕ
  maxClockSkew : ℕ
  replayCapacity : ℕ

structure Libraries (Key Signature : Type) where
  isExpired : SerializedEnvelope → DateTime → Bool
  toVec : String × SerializedEnvelope → Except String (List ℕ)
  decode : String → Option (List ℕ)
  fromSlice : List ℕ → Option Signature
  verify : Key → List ℕ → Signature → Bool

def signerHeader : String := "context-db-signer"

def signatureHeader : String := "context-db-signature-ed25519"

def signatureDomain : String := "context-db-nats-envelope-v1"

def SerializedEnvelope.header (env : SerializedEnvelope) (name : String) : Option String :=
  (env.headers.find? (fun h => h.1 = name)).map Prod.snd

/-- `chrono::Duration::from_std`: at most `i64::MAX` milliseconds. -/
def fromStd (duration : ℕ) : Option ℤ := if duration ≤ (2 ^ 63 - 1) * 10 ^ 6 then some duration else none

/-- `Duration::checked_add`: fewer than `2 ^ 64` seconds. -/
def checkedAdd (a b : ℕ) : Option ℕ := if a + b < 2 ^ 64 * 10 ^ 9 then some (a + b) else none

structure ReplayCache where
  seen : List (String × DateTime)
  capacity : ℕ
  retention : ℤ

namespace ReplayCache

variable {Key : Type}

def new (policy : NatsSecurityConfig Key) : Except NatsBridgeError ReplayCache :=
  match (checkedAdd policy.maxAge policy.maxClockSkew).bind fromStd with
  | some retention => .ok ⟨[], policy.replayCapacity, retention⟩
  | none => .error (.invalidPolicy "freshness duration exceeds chrono range")

def remembers (cache : ReplayCache) (now seen : DateTime) : Bool := now - seen ≤ cache.retention

def insert (cache : ReplayCache) (id : String) (now : DateTime) : Except NatsBridgeError Unit × ReplayCache :=
  match OnceTable.enter (cache.remembers now) cache.capacity id now cache.seen with
  | (.repeated, seen) => (.error (.replay id), { cache with seen := seen })
  | (.full, seen) => (.error .replayCapacityExhausted, { cache with seen := seen })
  | (.entered, seen) => (.ok (), { cache with seen := seen })

end ReplayCache

section Verify

variable {Key Signature : Type} (libraries lib : Libraries Key Signature) (policy : NatsSecurityConfig Key)

def signingBytes (env : SerializedEnvelope) : Except NatsBridgeError (List ℕ) :=
  (libraries.toVec (signatureDomain, { env with headers := env.headers.filter (fun h => h.1 ≠ signatureHeader) })).mapError
    .serialize

/-- How old the envelope is must lie between the skew and the greatest age. -/
def checkFreshness (env : SerializedEnvelope) (now : DateTime) : Except NatsBridgeError Unit :=
  match fromStd policy.maxAge, fromStd policy.maxClockSkew with
  | none, _ => .error (.invalidPolicy "max_age exceeds chrono duration range")
  | some _, none => .error (.invalidPolicy "max_clock_skew exceeds chrono duration range")
  | some maxAge, some skew =>
    if maxAge < now - env.timestamp ∨ now - env.timestamp < -skew ∨
      libraries.isExpired env now then .error .expired else .ok ()

def checkSignature (env : SerializedEnvelope) (key : Key) : Except NatsBridgeError Unit :=
  match env.header signatureHeader with
  | none => .error .missingSignature
  | some encoded =>
    match (libraries.decode encoded).bind libraries.fromSlice with
    | none => .error .invalidSignature
    | some signature => do
      let bytes ← signingBytes libraries env
      if libraries.verify key bytes signature then .ok () else .error .invalidSignature

/-- The checks of `verify_envelope` before the replay cache, which give the id it is remembered by. -/
def checkEnvelope (env : SerializedEnvelope) (now : DateTime) : Except NatsBridgeError String :=
  match env.source with
  | none => .error .missingSource
  | some source =>
    if source ∉ policy.allowedSources then .error (.sourceDenied source)
    else if ¬ policy.allowedTypePrefixes.any (fun type => type.toList.isPrefixOf env.typeId.toList) then
      .error (.typeDenied env.typeId)
    else do
      checkFreshness libraries policy env now
      match env.header signerHeader with
      | none => .error .missingSigner
      | some signer =>
        match policy.trustedSigners.find? (fun trusted => trusted.1 = signer) with
        | none => .error (.unknownSigner signer)
        | some (_, key) => do
          checkSignature libraries env key
          return signer ++ "\x1f" ++ source ++ "\x1f" ++ env.id

def verifyEnvelope (env : SerializedEnvelope) (cache : ReplayCache) (now : DateTime) :
    Except NatsBridgeError Unit × ReplayCache :=
  match checkEnvelope libraries policy env now with
  | .error e => (.error e, cache)
  | .ok id => cache.insert id now

structure Reception where
  env : SerializedEnvelope
  now : DateTime

def receive (cache : ReplayCache) (r : Reception) : ReplayCache := (verifyEnvelope libraries policy r.env cache r.now).2

def Accepted (cache : ReplayCache) (earlier : List Reception) (r : Reception) : Prop :=
  (verifyEnvelope libraries policy r.env (run (receive libraries policy) cache earlier) r.now).1 = .ok ()

def SerializedEnvelope.triple (env : SerializedEnvelope) : Option String × Option String × String :=
  (env.header signerHeader, env.source, env.id)

end Verify

namespace ReplayCache

variable {Key : Type} {policy : NatsSecurityConfig Key} {cache : ReplayCache} {id : String} {now : DateTime}

theorem new_ok (h : new policy = .ok cache) :
    cache = ⟨[],policy.replayCapacity,policy.maxAge+policy.maxClockSkew⟩ := by
  unfold new at h
  split at h
  · rename_i retention hr
    obtain ⟨sum,hs,ht⟩ := Option.bind_eq_some_iff.mp hr
    unfold checkedAdd at hs
    unfold fromStd at ht
    split at hs
    · split at ht
      · cases hs
        cases ht
        exact (Except.ok.inj h).symm
      · cases ht
    · cases hs
  · cases h

theorem insert_snd : (cache.insert id now).2 =
    { cache with seen := (OnceTable.enter (cache.remembers now) cache.capacity id now cache.seen).2 } := by
  unfold insert
  split <;> rename_i hq <;> rw [hq]

theorem insert_ok : (cache.insert id now).1 = .ok () ↔
    (OnceTable.enter (cache.remembers now) cache.capacity id now cache.seen).1 = .entered := by
  unfold insert
  split <;> rename_i hq <;> simp [hq]

end ReplayCache

section Once

variable {Key Signature : Type} {libraries lib : Libraries Key Signature} {policy : NatsSecurityConfig Key}
    {cache : ReplayCache}

theorem checkEnvelope_ok {env : SerializedEnvelope} {now : DateTime} {id : String}
    (h : checkEnvelope lib policy env now = .ok id) :
    (∃ signer source, env.triple = (some signer, some source, env.id) ∧
      id = signer ++ "\x1f" ++ source ++ "\x1f" ++ env.id) ∧
      (now - env.timestamp : ℤ) ≤ policy.maxAge ∧ -(policy.maxClockSkew : ℤ) ≤ now - env.timestamp := by
  unfold checkEnvelope at h
  cases hs : env.source with
  | none => simp [hs] at h
  | some source =>
    simp only [hs] at h
    split at h
    · cases h
    split at h
    · cases h
    obtain ⟨⟨⟩,hf,h⟩ := bind_eq_ok.mp h
    have ha : (now - env.timestamp : ℤ) ≤ policy.maxAge ∧ -(policy.maxClockSkew : ℤ) ≤ now - env.timestamp := by
      unfold checkFreshness at hf
      split at hf
      · cases hf
      · cases hf
      · rename_i maxAge skew hm hk
        have ht : ∀ {duration : ℕ} {length : ℤ}, fromStd duration = some length → length = duration := by
          intro duration length hq
          unfold fromStd at hq
          split at hq
          · exact (Option.some.inj hq).symm
          · cases hq
        rw [ht hm,ht hk] at hf
        split at hf
        · cases hf
        · rename_i hb
          rw [not_or,not_or] at hb
          exact ⟨not_lt.mp hb.1,not_lt.mp hb.2.1⟩
    refine ⟨?_,ha⟩
    cases hi : env.header signerHeader with
    | none => simp [hi] at h
    | some signer =>
      simp only [hi] at h
      split at h
      · cases h
      · obtain ⟨⟨⟩,-,h⟩ := bind_eq_ok.mp h
        exact ⟨signer,source,by rw [SerializedEnvelope.triple,hi,hs],(Except.ok.inj h).symm⟩

theorem verifyEnvelope_cases (env : SerializedEnvelope) (now : DateTime) :
    ((verifyEnvelope lib policy env cache now).1 ≠ .ok () ∧
        ((verifyEnvelope lib policy env cache now).2 = cache ∨ (verifyEnvelope lib policy env cache now).2 =
          { cache with seen := OnceTable.purge (cache.remembers now) cache.seen })) ∨
      ∃ id, checkEnvelope lib policy env now = .ok id ∧
        (OnceTable.enter (cache.remembers now) cache.capacity id now cache.seen).1 = .entered ∧
        (verifyEnvelope lib policy env cache now).1 = .ok () ∧ (verifyEnvelope lib policy env cache now).2 =
          { cache with seen := (OnceTable.enter (cache.remembers now) cache.capacity id now cache.seen).2 } := by
  unfold verifyEnvelope
  cases hc : checkEnvelope lib policy env now with
  | error e => exact .inl ⟨by simp, .inl rfl⟩
  | ok id =>
    dsimp only
    rw [ReplayCache.insert_snd]
    by_cases hn : (OnceTable.enter (cache.remembers now) cache.capacity id now cache.seen).1 = .entered
    · exact .inr ⟨id,rfl,hn,ReplayCache.insert_ok.mpr hn,rfl⟩
    · exact .inl ⟨fun ho => hn (ReplayCache.insert_ok.mp ho), .inr (by rw [OnceTable.enter_of_refused hn])⟩

structure Kept (policy : NatsSecurityConfig Key) (cache : ReplayCache) : Prop where
  bounded : cache.seen.length ≤ policy.replayCapacity
  capacity : cache.capacity = policy.replayCapacity
  retention : cache.retention = policy.maxAge + policy.maxClockSkew

theorem kept_new (h : ReplayCache.new policy = .ok cache) : Kept policy cache := by
  rw [ReplayCache.new_ok h]
  exact ⟨Nat.zero_le _,rfl,rfl⟩

theorem Kept.receive (h : Kept policy cache) (r : Reception) : Kept policy (receive lib policy cache r) := by
  unfold Nats.receive
  obtain ⟨-,hs | hp⟩ | ⟨id,-,-,-,hn⟩ := @verifyEnvelope_cases _ _ lib policy cache r.env r.now
  · rw [hs]
    exact h
  · rw [hp]
    exact ⟨Nat.le_trans (List.length_filter_le _ _) h.bounded,h.capacity,h.retention⟩
  · rw [hn]
    exact ⟨h.capacity ▸ OnceTable.length_enter_le (h.capacity ▸ h.bounded),h.capacity,h.retention⟩

theorem Kept.run (h : Kept policy cache) (rs : List Reception) :
    Kept policy (run (Nats.receive lib policy) cache rs) :=
  run_preserves (fun _ r hk => hk.receive r) h rs

theorem remembered_receive (h : Kept policy cache) {id : String} {at_ : DateTime}
    (hs : (id, at_) ∈ cache.seen) (r : Reception) :
    (id, at_) ∈ (receive lib policy cache r).seen ∨ (policy.maxAge+policy.maxClockSkew : ℤ) < r.now - at_ := by
  have hk : cache.remembers r.now at_ = true ∨ (policy.maxAge+policy.maxClockSkew : ℤ) < r.now - at_ := by
    rw [← h.retention,ReplayCache.remembers,decide_eq_true_iff]
    exact le_or_gt _ _
  rcases hk with hk | hp
  · left
    unfold Nats.receive
    obtain ⟨-,ha | hu⟩ | ⟨id,-,-,-,hn⟩ := @verifyEnvelope_cases _ _ lib policy cache r.env r.now
    · rw [ha]
      exact hs
    · rw [hu]
      exact OnceTable.mem_purge.mpr ⟨hs,hk⟩
    · rw [hn]
      exact OnceTable.mem_enter.mpr (.inl ⟨hs,hk⟩)
  · exact .inr hp

theorem remembered_run (h : Kept policy cache) {id : String} {at_ : DateTime} (hs : (id, at_) ∈ cache.seen)
    (rs : List Reception) :
    (id, at_) ∈ (run (receive lib policy) cache rs).seen ∨
      ∃ r ∈ rs, (policy.maxAge+policy.maxClockSkew : ℤ) < r.now - at_ := by
  induction rs generalizing cache with
  | nil => exact .inl hs
  | cons r rs ih =>
    rcases @remembered_receive _ _ lib policy cache h id at_ hs r with ht | hp
    · rcases ih (h.receive r) ht with hn | ⟨r',hr',hp⟩
      · exact .inl hn
      · exact .inr ⟨r',List.mem_cons_of_mem _ hr',hp⟩
    · exact .inr ⟨r,List.mem_cons_self,hp⟩

theorem accepted_apart (h : Kept policy cache) {r r' : Reception} {mid : List Reception}
    (hl : ∀ m ∈ mid, m.now ≤ r'.now) (hr : Accepted lib policy cache [] r)
    (hr' : Accepted lib policy cache (r::mid) r') (ht : r.env.triple = r'.env.triple) :
    (policy.maxAge+policy.maxClockSkew : ℤ) < r'.now - r.now := by
  obtain ⟨hf,-⟩ | ⟨id,hc,hn,-,ha⟩ := @verifyEnvelope_cases _ _ lib policy cache r.env r.now
  · exact absurd hr hf
  have hs : (id, r.now) ∈ (receive lib policy cache r).seen := by
    unfold receive
    rw [ha]
    exact OnceTable.mem_enter.mpr (.inr ⟨hn,rfl⟩)
  obtain ⟨hf,-⟩ | ⟨id',hc',hn',-,-⟩ :=
    @verifyEnvelope_cases _ _ lib policy (run (receive lib policy) cache (r::mid)) r'.env r'.now
  · exact absurd hr' hf
  have hi : id = id' := by
    obtain ⟨⟨signer,source,hr,hi⟩,-⟩ := checkEnvelope_ok hc
    obtain ⟨⟨signer',source',hr',hi'⟩,-⟩ := checkEnvelope_ok hc'
    rw [hr,hr'] at ht
    obtain ⟨hg,hre⟩ := Prod.mk.inj ht
    obtain ⟨hu,hv⟩ := Prod.mk.inj hre
    rw [hi,hi',Option.some.inj hg,Option.some.inj hu,hv]
  subst hi
  rcases @remembered_run _ _ lib policy _ (h.receive r) id r.now hs mid with hst | ⟨m,hm,hp⟩
  · have ho := (OnceTable.enter_entered.mp hn').1 r.now hst
    rw [ReplayCache.remembers,decide_eq_false_iff_not,(h.run (r::mid)).retention] at ho
    exact not_le.mp ho
  · exact lt_of_lt_of_le hp (Int.sub_le_sub_right (hl m hm) _)

/-- Whatever comes in: a triple that is accepted again is accepted for an envelope of a later timestamp, so that no copy of
an envelope ever is; what is refused enters nothing; and the cache never outgrows its capacity. -/
theorem verifyEnvelope_once (libraries : Libraries Key Signature) (policy : NatsSecurityConfig Key) (cache : ReplayCache)
    (hnew : ReplayCache.new policy = .ok cache) (rs : List Reception) (hclock : rs.Pairwise (fun r r' => r.now ≤ r'.now)) :
    (∀ front r mid r', front ++ r::mid ++ [r'] <+: rs → Accepted libraries policy cache front r →
        Accepted libraries policy cache (front ++ r::mid) r' → r.env.triple = r'.env.triple →
        r.env.timestamp < r'.env.timestamp) ∧
      (∀ front r, front ++ [r] <+: rs → ¬ Accepted libraries policy cache front r →
        (run (receive libraries policy) cache (front ++ [r])).seen ⊆ (run (receive libraries policy) cache front).seen) ∧
      ∀ front, front <+: rs → (run (receive libraries policy) cache front).seen.length ≤ policy.replayCapacity := by
  have hk := kept_new hnew
  refine ⟨fun front r mid r' hp hr hr' ht => ?_, fun front r _ hf => ?_, fun front _ => ?_⟩
  · have ho := (hclock.sublist hp.sublist)
    rw [List.append_assoc, List.pairwise_append] at ho
    obtain ⟨-, ho, -⟩ := ho
    rw [List.cons_append, List.pairwise_cons, List.pairwise_append] at ho
    have ha : (policy.maxAge + policy.maxClockSkew : ℤ) < r'.now - r.now := by
      apply accepted_apart (hk.run front) (fun m hm => ho.2.2.2 m hm r' (List.mem_singleton_self _)) hr ?_ ht
      unfold Accepted at hr' ⊢
      rwa [run_append] at hr'
    have hfr : ∀ cache, ∀ r : Reception, (verifyEnvelope libraries policy r.env cache r.now).1 = .ok () →
        (r.now - r.env.timestamp : ℤ) ≤ policy.maxAge ∧ -(policy.maxClockSkew : ℤ) ≤ r.now - r.env.timestamp := by
      intro cache r hok
      obtain ⟨hf, -⟩ | ⟨id, hc, -⟩ := @verifyEnvelope_cases _ _ libraries policy cache r.env r.now
      · exact absurd hok hf
      · exact (checkEnvelope_ok hc).2
    have hl := (hfr _ _ hr).2
    have hy : (policy.maxAge : ℤ) ≥ r'.now - r'.env.timestamp := (hfr _ _ hr').1
    apply Int.lt_of_sub_pos
    show (0 : ℤ) < r'.env.timestamp - r.env.timestamp
    omega
  · rw [run_append]
    show (verifyEnvelope libraries policy r.env (run (receive libraries policy) cache front) r.now).2.seen ⊆ _
    obtain ⟨-, hs | hu⟩ | ⟨id, -, -, hok, -⟩ :=
      @verifyEnvelope_cases _ _ libraries policy (run (receive libraries policy) cache front) r.env r.now
    · rw [hs]
      exact List.Subset.refl _
    · rw [hu]
      exact fun e he => (OnceTable.mem_purge.mp he).1
    · exact absurd hok hf
  · exact (hk.run front).bounded

end Once

def sampleLibraries : Libraries Unit Unit :=
  ⟨fun _ _ => false, fun _ => .ok [], fun _ => some [], fun _ => some (), fun _ _ _ => true⟩

def samplePolicy : NatsSecurityConfig Unit :=
  ⟨[("node-a", ())], ["worker-a"], ["context."], 60 * 10 ^ 9, 2 * 10 ^ 9, 100000⟩

def sampleCache : ReplayCache := ⟨[], 100000, 62 * 10 ^ 9⟩

def signedAt (timestamp : DateTime) : SerializedEnvelope :=
  ⟨"1", "context.entry_created", some "worker-a", timestamp, [(signerHeader, "node-a"), (signatureHeader, "00")], []⟩

/-- A copy of an accepted envelope that comes in when its id is forgotten is refused. -/
theorem verifyEnvelope_once_sample : Accepted sampleLibraries samplePolicy sampleCache [] ⟨signedAt (2 * 10 ^ 9), 0⟩ ∧
    ¬ Accepted sampleLibraries samplePolicy sampleCache [⟨signedAt (2 * 10 ^ 9), 0⟩]
    ⟨signedAt (2 * 10 ^ 9), 63 * 10 ^ 9⟩ := by
  have hf : Accepted sampleLibraries samplePolicy sampleCache [] ⟨signedAt (2 * 10 ^ 9), 0⟩ := by
    unfold Accepted
    decide +kernel
  refine ⟨hf, fun hc => ?_⟩
  have hl := (verifyEnvelope_once sampleLibraries samplePolicy sampleCache rfl
    [⟨signedAt (2 * 10 ^ 9), 0⟩, ⟨signedAt (2 * 10 ^ 9), 63 * 10 ^ 9⟩] (by simp)).1 [] _ [] _
      (List.prefix_refl _) hf hc rfl
  exact lt_irrefl _ hl

/-- The signer signs the id anew, and the new envelope comes in after the retention. -/
theorem resigned_envelope_accepted :
    Accepted sampleLibraries samplePolicy sampleCache [] ⟨signedAt 0, 0⟩ ∧
      Accepted sampleLibraries samplePolicy sampleCache [⟨signedAt 0, 0⟩] ⟨signedAt (63 * 10 ^ 9), 63 * 10 ^ 9⟩ ∧
      (signedAt 0).triple = (signedAt (63 * 10 ^ 9)).triple := by
  unfold Accepted
  decide +kernel

end UwuContextDb.Nats
