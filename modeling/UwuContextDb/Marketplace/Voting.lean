import Mathlib.Algebra.Order.BigOperators.Group.List
import UwuContextDb.Library.Assoc
import UwuContextDb.Marketplace.SecureAggregation

/-! `SocialVoter`: votes that are signed, fresh and submitted once, of which each voter's last on an entry counts. -/

namespace UwuContextDb.Marketplace

open Assoc StateMachine

inductive VoteOp | upvote | downvote | flagOutdated deriving DecidableEq

structure VotePayload where
  voter : AgentId
  entryId : Uuid
  op : VoteOp
  evidence : Option String
  timestamp : DateTime
  replayId : Uuid

structure SignedVote where
  payload : VotePayload
  publicKey : String
  signature : String

section Data

variable (K : Type)

inductive Reported
  | finite (value : K)
  | infinite (negative : Bool)
  | nan
  deriving DecidableEq

structure Vote where
  voter : AgentId
  entryId : Uuid
  op : VoteOp
  weight : K
  evidence : Option String
  timestamp : DateTime
  replayId : Uuid

inductive VoteError
  | invalidSignature
  | stale
  | futureDated
  | replay
  | invalidWeight (weight : Reported K)
  | reputation (reason : String)
  deriving DecidableEq

structure VoteTally where
  upvotes : UInt32
  downvotes : UInt32
  weightedScore : K
  flags : UInt32

structure VotingConfig where
  maxAge : Int
  maxFutureSkew : Int
  flagThreshold : UInt32
  outdatedFlagWeight : Reported K

structure VoteState where
  votes : List ((Uuid × AgentId) × Vote K)
  replayIds : List Uuid

/-- A call of `submit` at a clock reading, and what the verifier and the policy answer it. -/
structure Submission where
  signed : SignedVote
  now : DateTime
  verify : VotePayload → String → String → Bool
  weightFor : AgentId → Except String (Reported K)

end Data

structure Calendar where
  earliest : DateTime
  latest : DateTime

def Calendar.checked (calendar : Calendar) (date : DateTime) : Option DateTime :=
  if calendar.earliest ≤ date ∧ date ≤ calendar.latest then some date else none

namespace VoteState

def empty {K : Type} : VoteState K := ⟨[], []⟩

end VoteState

variable {K : Type} [Field K] [LinearOrder K]

/-- The weight, where it is finite and in `[0, 1]`. -/
def Reported.unit : Reported K → Option K
  | .finite value => if 0 ≤ value ∧ value ≤ 1 then some value else none
  | .infinite _ => none
  | .nan => none

def VotingConfig.validate (config : VotingConfig K) : Except String Unit :=
  if config.maxAge ≤ 0 ∨ config.maxFutureSkew < 0 then .error "voting time bounds are invalid"
  else if config.flagThreshold = 0 then .error "flag_threshold must be non-zero"
  else if config.outdatedFlagWeight.unit = none then .error "outdated_flag_weight must be finite and in [0, 1]"
  else .ok ()

/-- `SocialVoter`, as `new` builds it. -/
structure SocialVoter (K : Type) [Field K] [LinearOrder K] where
  calendar : Calendar
  config : VotingConfig K
  valid : config.validate = .ok ()

namespace SocialVoter

variable (voter : SocialVoter K)

/-- The weight that `submit` takes from what the policy answers. -/
def weigh (answer : Except String (Reported K)) : Except (VoteError K) K :=
  match answer with
  | .error reason => .error (.reputation reason)
  | .ok weight => (weight.unit.map .ok).getD (.error (.invalidWeight weight))

/-- The checks that `submit` makes before it locks the store; none where a bound is no date, which panics. -/
def authorize (x : Submission K) : Option (Except (VoteError K) K) := do
  let oldest ← voter.calendar.checked (x.now - voter.config.maxAge)
  if x.signed.payload.timestamp < oldest then return .error .stale
  let newest ← voter.calendar.checked (x.now + voter.config.maxFutureSkew)
  if newest < x.signed.payload.timestamp then return .error .futureDated
  if !x.verify x.signed.payload x.signed.publicKey x.signed.signature then return .error .invalidSignature
  return weigh (x.weightFor x.signed.payload.voter)

/-- The vote that `submit` stores. -/
def newVote (payload : VotePayload) (weight : K) : Vote K :=
  ⟨payload.voter, payload.entryId, payload.op, weight, payload.evidence, payload.timestamp, payload.replayId⟩

/-- `submit`, with the store it leaves. -/
def submit (s : VoteState K) (x : Submission K) : Option (Except (VoteError K) Unit) × VoteState K :=
  match voter.authorize x with
  | none => (none, s)
  | some (.error err) => (some (.error err), s)
  | some (.ok weight) =>
    if x.signed.payload.replayId ∈ s.replayIds then (some (.error .replay), s)
    else
      (some (.ok ()), ⟨put s.votes (x.signed.payload.entryId, x.signed.payload.voter) (newVote x.signed.payload weight),
        x.signed.payload.replayId::s.replayIds⟩)

def step (s : VoteState K) (x : Submission K) : VoteState K := (voter.submit s x).2

/-- The body of the loop of `tally`. -/
def count (tally : VoteTally K) (vote : Vote K) : VoteTally K :=
  match vote.op with
  | .upvote => { tally with upvotes := tally.upvotes + 1, weightedScore := tally.weightedScore + vote.weight }
  | .downvote => { tally with downvotes := tally.downvotes + 1, weightedScore := tally.weightedScore - vote.weight }
  | .flagOutdated => { tally with flags := tally.flags + 1 }

/-- `tally`, of the votes as the map iterates over them. -/
def tally (values : List (Vote K)) (entryId : Uuid) : VoteTally K :=
  (values.filter (fun vote => vote.entryId = entryId)).foldl count ⟨0, 0, 0, 0⟩

def entered (s : VoteState K) (x : Submission K) : Option (Vote K) :=
  match (voter.submit s x).1, voter.authorize x with
  | some (.ok ()), some (.ok weight) => some (newVote x.signed.payload weight)
  | _, _ => none

def accepted : VoteState K → List (Submission K) → List (Vote K)
  | _, [] => []
  | s, x::xs => (voter.entered s x).toList ++ accepted (voter.step s x) xs

def rows (votes : List (Vote K)) : List ((Uuid × AgentId) × Vote K) :=
  votes.map (fun vote => ((vote.entryId, vote.voter), vote))

def current (votes : List (Vote K)) : List (Vote K) := (latest (rows votes)).map Prod.snd

def directional (vote : Vote K) : Bool := vote.op ≠ .flagOutdated

def signedWeight (vote : Vote K) : K :=
  match vote.op with
  | .upvote => vote.weight
  | .downvote => -vote.weight
  | .flagOutdated => 0

section Step

variable {voter} {s : VoteState K} {x : Submission K}

theorem submit_cases (s : VoteState K) (x : Submission K) :
    ((voter.submit s x).1 ≠ some (.ok ()) ∧ (voter.submit s x).2 = s ∧ voter.entered s x = none) ∨
    ∃ weight, voter.authorize x = some (.ok weight) ∧ x.signed.payload.replayId ∉ s.replayIds ∧
      voter.entered s x = some (newVote x.signed.payload weight) ∧
      voter.submit s x = (some (.ok ()),
        ⟨put s.votes (x.signed.payload.entryId, x.signed.payload.voter) (newVote x.signed.payload weight),
          x.signed.payload.replayId::s.replayIds⟩) := by
  unfold entered submit
  cases ha : voter.authorize x with
  | none => exact .inl ⟨by simp,rfl,rfl⟩
  | some out =>
    cases out with
    | error err => exact .inl ⟨by simp,rfl,rfl⟩
    | ok weight =>
      by_cases hr : x.signed.payload.replayId ∈ s.replayIds
      · exact .inl ⟨by simp [hr],by simp [hr],by simp [hr]⟩
      · exact .inr ⟨weight,rfl,hr,by simp [hr],if_neg hr⟩

theorem refused_unchanged (h : (voter.submit s x).1 ≠ some (.ok ())) : (voter.submit s x).2 = s := by
  rcases voter.submit_cases s x with ⟨-,hs,-⟩ | ⟨weight,-,-,-,hu⟩
  · exact hs
  · rw [hu] at h
    exact absurd rfl h

theorem weigh_bounds {answer : Except String (Reported K)} {weight : K} (h : weigh answer = .ok weight) :
    0 ≤ weight ∧ weight ≤ 1 := by
  cases answer with
  | error reason => cases h
  | ok reported =>
    cases reported with
    | finite v =>
      by_cases hv : 0 ≤ v ∧ v ≤ 1
      · have hw : weigh (.ok (.finite v)) = (.ok v : Except (VoteError K) K) := by
          simp [weigh,Reported.unit,hv]
        rw [hw] at h
        rwa [← Except.ok.inj h]
      · simp [weigh,Reported.unit,hv] at h
    | infinite negative => cases h
    | nan => cases h

theorem authorize_bounds {weight : K} (h : voter.authorize x = some (.ok weight)) : 0 ≤ weight ∧ weight ≤ 1 := by
  obtain ⟨oldest,-,h⟩ := Option.bind_eq_some_iff.mp h
  split at h
  · cases h
  · obtain ⟨nw,-,h⟩ := Option.bind_eq_some_iff.mp h
    split at h
    · cases h
    · split at h
      · cases h
      · exact weigh_bounds (Option.some.inj h)

end Step

section Runs

/-- The store holds these votes and no others: their replay ids, each of them once, and for a key the last of them. -/
structure Records (votes : List (Vote K)) (s : VoteState K) : Prop where
  votes_eq : s.votes = (rows votes).foldl (fun held row => put held row.1 row.2) []
  replayIds_eq : s.replayIds = (votes.map (·.replayId)).reverse
  nodup : (votes.map (·.replayId)).Nodup
  bounds : ∀ vote ∈ votes, 0 ≤ vote.weight ∧ vote.weight ≤ 1

variable {voter} {s : VoteState K} {votes : List (Vote K)}

theorem records_empty : Records [] (VoteState.empty : VoteState K) := ⟨rfl,rfl,List.nodup_nil,by simp⟩

theorem Records.step (h : Records votes s) (x : Submission K) :
    Records (votes++(voter.entered s x).toList) (voter.step s x) := by
  rcases voter.submit_cases s x with ⟨-,hs,he⟩ | ⟨weight,ha,hr,he,hu⟩
  · rw [SocialVoter.step,hs,he]
    simpa using h
  · rw [SocialVoter.step,hu,he,Option.toList_some]
    have hf : x.signed.payload.replayId ∉ votes.map (·.replayId) := by
      rw [h.replayIds_eq] at hr
      simpa using hr
    constructor
    · rw [rows,List.map_append,List.foldl_append,h.votes_eq]
      rfl
    · rw [h.replayIds_eq,List.map_append,List.reverse_append]
      rfl
    · rw [List.map_append,List.nodup_append]
      refine ⟨h.nodup,List.nodup_singleton _,?_⟩
      intro id hi other ho
      obtain rfl : other = x.signed.payload.replayId := by simpa [newVote] using ho
      intro hq
      exact hf (hq ▸ hi)
    · intro vote hv
      rcases List.mem_append.mp hv with hv | hv
      · exact h.bounds vote hv
      · obtain rfl := List.mem_singleton.mp hv
        exact authorize_bounds ha

theorem Records.run (h : Records votes s) (xs : List (Submission K)) :
    Records (votes++voter.accepted s xs) (run voter.step s xs) := by
  induction xs generalizing votes s with
  | nil => simpa [accepted] using h
  | cons x xs ih =>
    rw [accepted,← List.append_assoc]
    exact ih (h.step x)

end Runs

section Tally

variable [IsStrictOrderedRing K]

omit [LinearOrder K] [IsStrictOrderedRing K] in
theorem foldl_count (votes : List (Vote K)) (tally : VoteTally K) :
    votes.foldl count tally =
      ⟨tally.upvotes + UInt32.ofNat (votes.countP (fun vote => vote.op = .upvote)),
        tally.downvotes + UInt32.ofNat (votes.countP (fun vote => vote.op = .downvote)),
        tally.weightedScore + (votes.map signedWeight).sum,
        tally.flags + UInt32.ofNat (votes.countP (fun vote => vote.op = .flagOutdated))⟩ := by
  induction votes generalizing tally with
  | nil => simp
  | cons vote votes ih =>
    rw [List.foldl_cons, ih]
    cases ho : vote.op <;> simp [count, ho, signedWeight, @add_assoc K, UInt32.add_assoc, UInt32.add_comm 1, sub_eq_add_neg]

omit [LinearOrder K] [IsStrictOrderedRing K] in
theorem tally_perm {values values' : List (Vote K)} (h : values.Perm values') (entryId : Uuid) :
    tally values entryId = tally values' entryId := by
  have hf := h.filter (fun vote => vote.entryId = entryId)
  rw [tally, tally, foldl_count, foldl_count, hf.countP_eq, hf.countP_eq, hf.countP_eq,
    (hf.map signedWeight).sum_eq]

theorem abs_signedWeight_le {vote : Vote K} (h : 0 ≤ vote.weight ∧ vote.weight ≤ 1) :
    |signedWeight vote| ≤ if directional vote then 1 else 0 := by
  unfold signedWeight directional
  cases vote.op <;> simp [abs_of_nonneg h.1,h.2]

theorem abs_sum_signedWeight_le {votes : List (Vote K)} (h : ∀ vote ∈ votes, 0 ≤ vote.weight ∧ vote.weight ≤ 1) :
    |(votes.map signedWeight).sum| ≤ (votes.countP directional : K) := by
  induction votes with
  | nil => simp
  | cons vote votes ih =>
    obtain ⟨ht,hv⟩ := List.forall_mem_cons.mp h
    rw [List.map_cons,List.sum_cons,List.countP_cons,Nat.cast_add,Nat.cast_ite,Nat.cast_one,Nat.cast_zero]
    calc |signedWeight vote + (votes.map signedWeight).sum|
        ≤ |signedWeight vote| + |(votes.map signedWeight).sum| := abs_add_le _ _
      _ ≤ (if directional vote then 1 else 0) + (votes.countP directional : K) :=
        add_le_add (abs_signedWeight_le ht) (ih hv)
      _ = (votes.countP directional : K) + if directional vote then 1 else 0 := add_comm _ _

/-- A replay id is accepted once, a voter's vote on an entry is the last accepted one, the tally is that of these votes
with a score within their number, and a refusal leaves the store as it was. -/
theorem tally_of_run (voter : SocialVoter K) (submissions : List (Submission K)) :
    ((voter.accepted .empty submissions).map (·.replayId)).Nodup ∧
    (∀ entryId agent, (run voter.step .empty submissions).votes.lookup (entryId, agent) =
      ((voter.accepted .empty submissions).filter (fun vote => vote.entryId = entryId ∧ vote.voter = agent)).getLast?) ∧
    (∀ values entryId, values.Perm ((run voter.step .empty submissions).votes.map Prod.snd) →
      tally values entryId = ((current (voter.accepted .empty submissions)).filter
        (fun vote => vote.entryId = entryId)).foldl count ⟨0, 0, 0, 0⟩ ∧
      |(tally values entryId).weightedScore| ≤ (((current (voter.accepted .empty submissions)).filter
        (fun vote => vote.entryId = entryId)).countP directional : K)) ∧
    ∀ s x, (voter.submit s x).1 ≠ some (.ok ()) → (voter.submit s x).2 = s := by
  have hr : Records (voter.accepted .empty submissions) (run voter.step .empty submissions) :=
    records_empty.run submissions
  generalize voter.accepted .empty submissions = votes at hr ⊢
  generalize run voter.step .empty submissions = s at hr ⊢
  refine ⟨hr.nodup, ?_, ?_, fun s x h => refused_unchanged h⟩
  · intro entryId agent
    have hb : (instBEqProd : BEq (Uuid × AgentId)) = instBEqOfDecidableEq := lawful_beq_subsingleton _ _
    rw [hr.votes_eq, hb, lookup_foldl_put, rows, List.filter_map, List.map_map]
    simp [Function.comp_def]
  · intro values entryId hv
    have hc : values.Perm (current votes) := by
      rw [hr.votes_eq] at hv
      exact hv.trans ((foldl_put_perm (rows votes)).map Prod.snd)
    have ho : ∀ vote ∈ (current votes).filter (fun vote => vote.entryId = entryId),
        0 ≤ vote.weight ∧ vote.weight ≤ 1 := by
      intro vote ht
      obtain ⟨row, hw, rfl⟩ := List.mem_map.mp (List.mem_of_mem_filter ht)
      obtain ⟨held, hh, rfl⟩ := List.mem_map.mp ((latest_sublist (rows votes)).subset hw)
      exact hr.bounds held hh
    rw [tally_perm hc]
    refine ⟨rfl, ?_⟩
    rw [tally, foldl_count]
    show |(0 : K) + _| ≤ _
    rw [zero_add]
    exact abs_sum_signedWeight_le ho

end Tally

def sampleVoter : SocialVoter ℚ :=
  ⟨⟨0, 10 ^ 20⟩, ⟨300 * 10 ^ 9, 30 * 10 ^ 9, 5, .finite (1 / 2)⟩, by decide +kernel⟩

/-- A vote of agent `a` on entry 1, signed well, of a voter with weight 7 / 10. -/
def sampleSubmission (op : VoteOp) (replayId : Uuid) : Submission ℚ :=
  ⟨⟨⟨"a", 1, op, none, 10 ^ 18, replayId⟩, "a", "valid"⟩, 10 ^ 18, fun _ _ signature => signature = "valid",
    fun _ => .ok (.finite (7 / 10))⟩

/-- The last submission is a replay. -/
theorem tally_of_run_sample :
    let submissions := [sampleSubmission .upvote 1, sampleSubmission .downvote 2, sampleSubmission .upvote 1];
    ((sampleVoter.accepted .empty submissions).map (·.replayId)).Nodup ∧
    (∀ entryId agent, (run sampleVoter.step .empty submissions).votes.lookup (entryId, agent) =
      ((sampleVoter.accepted .empty submissions).filter
        (fun vote => vote.entryId = entryId ∧ vote.voter = agent)).getLast?) ∧
    (∀ values entryId, values.Perm ((run sampleVoter.step .empty submissions).votes.map Prod.snd) →
      tally values entryId = ((current (sampleVoter.accepted .empty submissions)).filter
        (fun vote => vote.entryId = entryId)).foldl count ⟨0, 0, 0, 0⟩ ∧
      |(tally values entryId).weightedScore| ≤ (((current (sampleVoter.accepted .empty submissions)).filter
        (fun vote => vote.entryId = entryId)).countP directional : ℚ)) ∧
    ∀ s x, (sampleVoter.submit s x).1 ≠ some (.ok ()) → (sampleVoter.submit s x).2 = s :=
  tally_of_run sampleVoter _

/-- Of an upvote, a downvote and a replay of the first, the downvote counts. -/
example : let submissions := [sampleSubmission .upvote 1, sampleSubmission .downvote 2, sampleSubmission .upvote 1];
    (sampleVoter.accepted .empty submissions).map (·.replayId) = [1, 2] ∧
    (tally ((run sampleVoter.step .empty submissions).votes.map Prod.snd) 1).weightedScore = -(7 / 10) := by
  decide +kernel

end SocialVoter

end UwuContextDb.Marketplace
