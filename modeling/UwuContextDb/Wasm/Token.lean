import UwuContextDb.Core.Policy
import UwuContextDb.Library.OnceTable
import UwuContextDb.Library.Run

/-! Capability tokens: what they are bound to, and the table of the nonces that were used. -/

namespace UwuContextDb.Wasm

open StateMachine
open OnceTable (enter mem_enter purge mem_purge)

inductive WasmError
  | token (message : String)
  deriving DecidableEq

structure TenantSandboxPolicy where
  memoryPages : ℕ
  fuel : ℕ
  maxOutputBytes : ℕ
  maxTraceBytes : ℕ

structure CapabilityClaims where
  tenant : String
  subject : String
  executionKind : String
  module_ : String
  function : String
  expiresUnixMs : ℕ
  nonce : String
  maxFuel : ℕ
  maxMemoryPages : ℕ
  maxOutputBytes : ℕ
  maxTraceBytes : ℕ
  deriving DecidableEq

structure CapabilityToken where
  claims : CapabilityClaims
  tag : String
  deriving DecidableEq

structure Libraries where
  encode : List ℕ → String
  decode : String → Option (List ℕ)
  mac : List ℕ → List ℕ → List ℕ
  toVec : CapabilityClaims → Except String (List ℕ)
  toString : ExecutionKind → Except String String

structure TokenAuthority where
  key : List ℕ
  nonceCapacity : ℕ

/-- One call of `verify`, with the two times it reads on the clock. -/
structure Verification where
  token : CapabilityToken
  ctx : ExecutionContext
  module_ : String
  function : String
  policy : TenantSandboxPolicy
  tested : ℕ
  purged : ℕ

def CapabilityClaims.key (claims : CapabilityClaims) : String :=
  claims.tenant ++ ":" ++ claims.subject ++ ":" ++ claims.nonce

namespace TokenAuthority

variable (libraries lib : Libraries) (authority : TokenAuthority)

def issue (claims : CapabilityClaims) : Except WasmError CapabilityToken := do
  let encoded ← (libraries.toVec claims).mapError .token
  return ⟨claims, libraries.encode (libraries.mac authority.key encoded)⟩

/-- The checks of `verify` before the table of nonces. -/
def check (c : Verification) : Except WasmError Unit :=
  match libraries.decode c.token.tag with
  | none => .error (.token "malformed authentication tag")
  | some supplied => do
    let encoded ← (libraries.toVec c.token.claims).mapError .token
    if libraries.mac authority.key encoded ≠ supplied then .error (.token "authentication failed") else do
    let kind ← (libraries.toString c.ctx.kind).mapError .token
    let claims := c.token.claims
    if claims.tenant ≠ c.ctx.tenantId ∨ claims.subject ≠ c.ctx.actorId ∨ claims.executionKind ≠ kind ∨
        claims.module_ ≠ c.module_ ∨ claims.function ≠ c.function then
      .error (.token "binding mismatch")
    else if claims.expiresUnixMs < c.tested then .error (.token "expired")
    else if claims.maxFuel ≠ c.policy.fuel ∨ claims.maxMemoryPages ≠ c.policy.memoryPages ∨
        claims.maxOutputBytes ≠ c.policy.maxOutputBytes ∨ claims.maxTraceBytes ≠ c.policy.maxTraceBytes then
      .error (.token "quota must exactly match the per-call sandbox policy")
    else .ok ()

def exhausted : WasmError := .token "nonce cache capacity exhausted while tokens remain valid"

def unexpired (now expires : ℕ) : Bool := now ≤ expires

def answer : OnceTable.Verdict → Except WasmError Unit
  | .repeated => .error (.token "nonce replay")
  | .full => .error exhausted
  | .entered => .ok ()

def verify (used : List (String × ℕ)) (c : Verification) : Except WasmError Unit × List (String × ℕ) :=
  match check libraries authority c with
  | .error e => (.error e, used)
  | .ok () =>
    let (verdict, used) :=
      OnceTable.enter (unexpired c.purged) authority.nonceCapacity c.token.claims.key c.token.claims.expiresUnixMs used
    (answer verdict, used)

def step (used : List (String × ℕ)) (c : Verification) : List (String × ℕ) := (verify libraries authority used c).2

def result (earlier : List Verification) (c : Verification) : Except WasmError Unit :=
  (verify libraries authority (run (step libraries authority) [] earlier) c).1

end TokenAuthority

def readings (calls : List Verification) : List ℕ := calls.flatMap (fun c => [c.tested, c.purged])

def Verification.Sibling (c d : Verification) : Prop :=
  d.token.claims.tenant = c.token.claims.tenant ∧ d.token.claims.subject = c.token.claims.subject

instance (c d : Verification) : Decidable (c.Sibling d) := inferInstanceAs (Decidable (_ ∧ _))

namespace TokenAuthority

variable {libraries lib : Libraries} {authority : TokenAuthority} {used : List (String × ℕ)} {c : Verification}

theorem tested_le (h : check lib authority c = .ok ()) : c.tested ≤ c.token.claims.expiresUnixMs := by
  unfold check at h
  split at h
  · cases h
  obtain ⟨encoded,-,h⟩ := bind_eq_ok.mp h
  split at h
  · cases h
  obtain ⟨kind,-,h⟩ := bind_eq_ok.mp h
  dsimp only at h
  split at h
  · cases h
  split at h
  · cases h
  · rename_i he
    exact Nat.le_of_not_lt he

theorem verify_of_error {e : WasmError} (h : check lib authority c = .error e) :
    verify lib authority used c = (.error e, used) := by
  unfold verify
  rw [h]

theorem verify_of_ok (h : check lib authority c = .ok ()) : verify lib authority used c =
    (enter (unexpired c.purged) authority.nonceCapacity c.token.claims.key c.token.claims.expiresUnixMs used).map
      answer id := by
  unfold verify
  rw [h]
  rfl

theorem verify_ok : (verify lib authority used c).1 = .ok () ↔ check lib authority c = .ok () ∧
    (enter (unexpired c.purged) authority.nonceCapacity c.token.claims.key c.token.claims.expiresUnixMs used).1 =
      .entered := by
  cases hc : check lib authority c with
  | error e => simp [verify_of_error hc]
  | ok =>
    rw [verify_of_ok hc,Prod.map_fst]
    generalize (enter _ _ _ _ used).1 = verdict
    cases verdict <;> simp [answer]

section Once

theorem mem_step {key : String} {expires : ℕ} (h : (key, expires) ∈ used) (hk : c.purged ≤ expires) :
    (key, expires) ∈ step lib authority used c := by
  unfold step
  cases hc : check lib authority c with
  | error e =>
    rw [verify_of_error hc]
    exact h
  | ok =>
    rw [verify_of_ok hc]
    exact mem_enter.mpr (.inl ⟨h,decide_eq_true hk⟩)

theorem mem_run {key : String} {expires : ℕ} {calls : List Verification} (h : (key, expires) ∈ used)
    (hk : ∀ c ∈ calls, c.purged ≤ expires) : (key, expires) ∈ run (step lib authority) used calls := by
  induction calls generalizing used with
  | nil => exact h
  | cons c calls ih =>
    rw [List.forall_mem_cons] at hk
    exact ih (mem_step h hk.1) hk.2

variable (libraries lib authority)

def AcceptedBefore (earlier : List Verification) (claims : CapabilityClaims) : Prop :=
  ∃ before d after, earlier = before ++ d::after ∧ result libraries authority before d = .ok () ∧ d.token.claims = claims

variable {libraries lib authority}

/-- The expiry is tested while the token is still good, and the table is purged, by then or by the call itself, at a time
at which it is not. -/
def Reopened (earlier : List Verification) (c : Verification) : Prop :=
  c.tested ≤ c.token.claims.expiresUnixMs ∧ ∃ d ∈ earlier ++ [c], c.token.claims.expiresUnixMs < d.purged

theorem accepted_once {earlier : List Verification} (hb : AcceptedBefore lib authority earlier c.token.claims)
    (hc : ¬ Reopened earlier c) : result lib authority earlier c ≠ .ok () := by
  intro ha
  obtain ⟨before,d,after,rfl,hd,hl⟩ := hb
  obtain ⟨hh,he⟩ := verify_ok.mp ha
  have hk : ∀ d' ∈ (before++d::after) ++ [c], d'.purged ≤ c.token.claims.expiresUnixMs := by
    intro d' hd'
    by_contra hp
    exact hc ⟨tested_le hh,d',hd',Nat.lt_of_not_le hp⟩
  rw [List.forall_mem_append,List.forall_mem_append,List.forall_mem_cons] at hk
  obtain ⟨⟨-,-,ht⟩,ho⟩ := hk
  obtain ⟨hch,hn⟩ := verify_ok.mp hd
  have hth : (c.token.claims.key, c.token.claims.expiresUnixMs) ∈
      step lib authority (run (step lib authority) [] before) d := by
    unfold step
    rw [verify_of_ok hch,← hl]
    exact mem_enter.mpr (.inr ⟨hn,rfl⟩)
  have hs : _ ∈ run (step lib authority) _ after := mem_run hth ht
  rw [run_append] at he
  have hf := (OnceTable.enter_entered.mp he).1 _ hs
  rw [unexpired,decide_eq_false_iff_not] at hf
  exact hf (ho c (List.mem_singleton_self c))

end Once

section Isolation

/-- A table and the one that only some of its keys were entered into agree on what of these keys has not expired. -/
structure Related (own : String → Prop) (now : ℕ) (full filtered : List (String × ℕ)) : Prop where
  same : ∀ key expires, own key → now ≤ expires → ((key, expires) ∈ full ↔ (key, expires) ∈ filtered)
  only : ∀ e ∈ filtered, own e.1
  distinct : OnceTable.Distinct filtered

variable {own : String → Prop} {now : ℕ} {full filtered : List (String × ℕ)}

theorem Related.later (h : Related own now full filtered) {later : ℕ} (hl : now ≤ later) :
    Related own later full filtered :=
  ⟨fun key expires hk he => h.same key expires hk (Nat.le_trans hl he),h.only,h.distinct⟩

theorem Related.foreign (h : Related own now full filtered) (hl : now ≤ c.purged) (hk : ¬ own c.token.claims.key) :
    Related own c.purged (step lib authority full c) filtered := by
  unfold step
  cases hc : check lib authority c with
  | error e =>
    rw [verify_of_error hc]
    exact h.later hl
  | ok =>
    rw [verify_of_ok hc]
    refine ⟨fun key expires ho he => ?_,h.only,h.distinct⟩
    rw [← h.same key expires ho (Nat.le_trans hl he),Prod.map_snd,id,mem_enter]
    constructor
    · rintro (⟨hm,-⟩ | ⟨-,hq⟩)
      · exact hm
      · exact absurd ((Prod.mk.inj hq).1 ▸ ho) hk
    · exact fun hm => .inl ⟨hm,decide_eq_true he⟩

theorem Related.sibling (h : Related own now full filtered) (hl : now ≤ c.purged) (hy : own c.token.claims.key)
    (hr : (verify lib authority full c).1 ≠ .error exhausted) :
    (verify lib authority full c).1 = (verify lib authority filtered c).1 ∧
      Related own c.purged (step lib authority full c) (step lib authority filtered c) := by
  unfold step
  cases hc : check lib authority c with
  | error e =>
    rw [verify_of_error hc,verify_of_error hc]
    exact ⟨rfl,h.later hl⟩
  | ok =>
    rw [verify_of_ok hc] at hr ⊢
    rw [verify_of_ok hc]
    simp only [Prod.map_fst,Prod.map_snd,id] at hr ⊢
    have hs : ∀ key expires, own key → unexpired c.purged expires = true →
        ((key, expires) ∈ full ↔ (key, expires) ∈ filtered) :=
      fun key expires ho hk => h.same key expires ho (Nat.le_trans hl (of_decide_eq_true hk))
    have hf : (purge (unexpired c.purged) filtered).length ≤ (purge (unexpired c.purged) full).length := by
      apply h.distinct.purge.length_le
      intro e he
      obtain ⟨hm,hk⟩ := mem_purge.mp he
      exact mem_purge.mpr ⟨(hs e.1 e.2 (h.only e hm) hk).mpr hm,hk⟩
    have hv := OnceTable.enter_congr (fun expires hk => hs _ expires hy hk) hf
      (fun hu => hr (congrArg answer hu) :
        (enter _ authority.nonceCapacity _ c.token.claims.expiresUnixMs full).1 ≠ .full)
    rw [hv]
    refine ⟨rfl,fun key expires ho hx => ?_,fun e he => ?_,?_⟩
    · rw [mem_enter,mem_enter,hv,hs key expires ho (decide_eq_true hx)]
    · rcases mem_enter.mp he with ⟨hm,-⟩ | ⟨-,rfl⟩
      · exact h.only e hm
      · exact hy
    · exact h.distinct.enter

theorem Related.result_eq {c : Verification} {calls : List Verification} (h : Related own now full filtered)
    (hc : (now::readings (calls++[c])).Pairwise (· ≤ ·))
    (ho : ∀ d ∈ calls++[c], (own d.token.claims.key ↔ c.Sibling d))
    (hr : Meets (step lib authority)
      (fun used d => (verify lib authority used d).1 ≠ .error exhausted) full
      (calls++[c])) :
    (verify lib authority (run (step lib authority) full calls) c).1 =
      (verify lib authority (run (step lib authority) filtered (calls.filter (fun d => c.Sibling d))) c).1 := by
  induction calls generalizing now full filtered with
  | nil =>
    have hl : now ≤ c.purged := (List.pairwise_cons.mp hc).1 _ (by simp [readings])
    exact (h.sibling hl ((ho c (by simp)).mpr ⟨rfl,rfl⟩) hr.1).1
  | cons d calls ih =>
    have hl : now ≤ d.purged := (List.pairwise_cons.mp hc).1 _ (by simp [readings])
    have he : (d.purged::readings (calls++[c])).Pairwise (· ≤ ·) := by
      rw [List.cons_append,readings,List.flatMap_cons] at hc
      exact (List.pairwise_cons.mp (List.pairwise_cons.mp hc).2).2
    have hw := ho d List.mem_cons_self
    have ho' : ∀ d' ∈ calls ++ [c], (own d'.token.claims.key ↔ c.Sibling d') :=
      fun d' hd' => ho d' (List.mem_cons_of_mem _ hd')
    by_cases hs : c.Sibling d
    · rw [List.filter_cons_of_pos (by simpa using hs)]
      exact ih (h.sibling hl (hw.mpr hs) hr.1).2 he ho' hr.2
    · rw [List.filter_cons_of_neg (by simpa using hs)]
      exact ih (h.foreign hl (fun hk => hs (hw.mp hk))) he ho' hr.2

def Apart (c : Verification) (earlier : List Verification) : Prop :=
  ∀ d ∈ earlier, ¬ c.Sibling d → ∀ d' ∈ earlier ++ [c], c.Sibling d' → d.token.claims.key ≠ d'.token.claims.key

/-- A token that was accepted is refused from then on, unless its nonce was forgotten between its test and the table's; and
on a clock that does not go back, while there is room, the result of a call does not depend on the tokens of the other
tenants and subjects, unless one of them has a nonce key of theirs. -/
theorem accepted_once_isolated (libraries : Libraries) (authority : TokenAuthority) (earlier : List Verification)
    (c : Verification) :
    (AcceptedBefore libraries authority earlier c.token.claims → ¬ Reopened earlier c →
        result libraries authority earlier c ≠ .ok ()) ∧
      ((readings (earlier ++ [c])).Pairwise (· ≤ ·) → Apart c earlier →
        Meets (step libraries authority) (fun used d => (verify libraries authority used d).1 ≠ .error exhausted) []
          (earlier ++ [c]) →
        result libraries authority earlier c = result libraries authority (earlier.filter (fun d => c.Sibling d)) c) := by
  refine ⟨accepted_once, fun hc ha hr => ?_⟩
  have ht : Related (fun key => ∃ d ∈ earlier ++ [c], c.Sibling d ∧ d.token.claims.key = key) 0 [] [] :=
    ⟨fun _ _ _ _ => Iff.rfl, by simp, List.nodup_nil⟩
  apply ht.result_eq (List.pairwise_cons.mpr ⟨fun _ _ => Nat.zero_le _, hc⟩) (fun d hd => ?_) hr
  constructor
  · rintro ⟨d', hd', hs, hk⟩
    by_contra hf
    rcases List.mem_append.mp hd with he | hl
    · exact ha d he hf d' hd' hs hk.symm
    · rw [List.mem_singleton.mp hl] at hf
      exact hf ⟨rfl, rfl⟩
  · exact fun hs => ⟨d, hd, hs, rfl⟩

end Isolation

end TokenAuthority

section Samples

open TokenAuthority

def sampleLibraries : Libraries where
  encode bytes := String.ofList (bytes.map Char.ofNat)
  decode text := some (text.toList.map Char.toNat)
  mac key message := key ++ message
  toVec claims := .ok (claims.key.toList.map Char.toNat)
  toString _ := .ok "\"Llm\""

def sampleAuthority : TokenAuthority := ⟨List.replicate 32 7, 100⟩

def sampleToken (tenant subject nonce : String) : CapabilityToken :=
  let claims : CapabilityClaims := ⟨tenant, subject, "\"Llm\"", "m", "f", 1000, nonce, 1, 1, 1, 1⟩
  ⟨claims, sampleLibraries.encode (List.replicate 32 7 ++ claims.key.toList.map Char.toNat)⟩

def sampleCall (tenant subject nonce : String) (tested purged : ℕ) : Verification :=
  ⟨sampleToken tenant subject nonce, ⟨tenant, subject, none, "r", .llm, []⟩, "m", "f", ⟨1, 1, 1, 1⟩, tested, purged⟩

theorem accepted_once_isolated_sample :
    result sampleLibraries sampleAuthority [] (sampleCall "a" "b" "n" 1 2) = .ok () ∧
      result sampleLibraries sampleAuthority [sampleCall "a" "b" "n" 1 2, sampleCall "c" "d" "n" 3 4]
      (sampleCall "a" "b" "n" 5 6) ≠
        .ok () ∧
      result sampleLibraries sampleAuthority [sampleCall "a" "b" "n" 1 2, sampleCall "c" "d" "n" 3 4]
      (sampleCall "a" "b" "n" 5 6) =
        result sampleLibraries sampleAuthority
          ([sampleCall "a" "b" "n" 1 2, sampleCall "c" "d" "n" 3 4].filter
            (fun d => (sampleCall "a" "b" "n" 5 6).Sibling d))
          (sampleCall "a" "b" "n" 5 6) := by
  have hf : result sampleLibraries sampleAuthority [] (sampleCall "a" "b" "n" 1 2) = .ok () := by decide +kernel
  obtain ⟨ho, hi⟩ := accepted_once_isolated sampleLibraries sampleAuthority
    [sampleCall "a" "b" "n" 1 2, sampleCall "c" "d" "n" 3 4] (sampleCall "a" "b" "n" 5 6)
  refine ⟨hf, ho ⟨[], _, _, rfl, hf, rfl⟩ ?_, hi (by decide +kernel) ?_ ?_⟩
  · rintro ⟨-, d, hd, hp⟩
    have hb : ∀ d ∈ [sampleCall "a" "b" "n" 1 2, sampleCall "c" "d" "n" 3 4] ++
        [sampleCall "a" "b" "n" 5 6], d.purged ≤ 6 := by
      decide +kernel
    exact absurd (Nat.le_trans hp (hb d hd)) (by decide +kernel)
  · unfold Apart
    decide +kernel
  · decide +kernel

/-- A token is accepted again where its expiry falls between the two readings; and a token is refused because one of another
tenant and subject has the same nonce key. -/
theorem token_accepted_twice :
    (result sampleLibraries sampleAuthority [] (sampleCall "a" "b" "n" 1000 1000) = .ok () ∧
        result sampleLibraries sampleAuthority [sampleCall "a" "b" "n" 1000 1000]
        (sampleCall "a" "b" "n" 1000 1001) = .ok ()) ∧
      result sampleLibraries sampleAuthority [] (sampleCall "a" "b:c" "n" 3 4) = .ok () ∧
        result sampleLibraries sampleAuthority [sampleCall "a:b" "c" "n" 1 2] (sampleCall "a" "b:c" "n" 3 4) =
          .error (.token "nonce replay") := by
  decide +kernel

end Samples

end UwuContextDb.Wasm
