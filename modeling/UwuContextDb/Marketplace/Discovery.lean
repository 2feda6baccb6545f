import UwuContextDb.Core.DebugText
import UwuContextDb.Library.TopRows
import UwuContextDb.Marketplace.Registry

/-! `DiscoveryEngine`: entries from the local index, from a cache or from the federation, ranked by their quality. -/

namespace UwuContextDb.Marketplace

open Assoc StateMachine TopRows
open Text (debugText)

inductive SearchTier | localIndex | cache | federation deriving DecidableEq

section Data

variable (F : Type)

structure DiscoveryQuery where
  queryEmbedding : List F
  domains : List String
  entryTypes : List MarketEntryType
  minQuality : F
  minCorroborationLevel : CorroborationLevel
  licenseCompatible : Bool

structure MarketHit where
  entry : MarketEntry F
  relevance : F
  reputationBonus : F
  finalScore : F

structure DiscoveryResult where
  hits : List (MarketHit F)
  totalAvailable : ℕ
  domainsCovered : List String
  avgQuality : F
  searchTier : SearchTier

structure DiscoveryEngine where
  searchIndex : String → List F → ℕ → Option Json → Except ContextError (List (MarketIndexHit F))
  publications : List (MarketId × MarketEntry F)
  federation : Option (DiscoveryQuery F → ℕ → Except ContextError (List (PublicationMetadata F)))

end Data

/-- How floats compare: numbers are in a total order, and what is not a number compares with nothing. A product with one
plus zero compares as the number does. -/
class FloatOrder (F : Type) [LE F] [Mul F] [Add F] [One F] [Zero F] : Prop where
  le_self : ∀ a b : F, a ≤ b → a ≤ a ∧ b ≤ b
  total : ∀ a b : F, a ≤ a → b ≤ b → a ≤ b ∨ b ≤ a
  trans : ∀ a b c : F, a ≤ b → b ≤ c → a ≤ c
  scale : ∀ a b : F, a * (1 + 0) ≤ b * (1 + 0) ↔ a ≤ b

variable {F : Type} [LE F] [DecidableLE F] [Mul F] [Add F] [Div F] [One F] [Zero F] [NatCast F]

def marketEntryFromPublication (uuidText : Uuid → String) (publication : PublicationMetadata F) : MarketEntry F where
  id := publication.id
  publisher := publication.publisher
  domain := publication.domain
  entryType := publication.entryType
  principle := "federated-publication:" ++ uuidText publication.id
  evidenceUris := publication.sourceUri.toList
  qualityScore := publication.qualityScore
  confidence := (publication.corroboration.level.toNat : F) / (CorroborationLevel.established.toNat : F)
  corroboration := publication.corroboration
  provenance := publication.provenance
  license := publication.license.license
  epistemicType := publication.epistemicType
  contentType := publication.contentType
  halfLife := publication.halfLife
  createdAt := publication.createdAt
  expiresAt := publication.expiresAt

/-- The filters of `rank`. -/
def DiscoveryQuery.admits (query : DiscoveryQuery F) (entry : MarketEntry F) : Bool :=
  (query.domains.isEmpty || query.domains.contains entry.domain) &&
    (query.entryTypes.isEmpty || query.entryTypes.contains entry.entryType) &&
    decide (query.minQuality ≤ entry.qualityScore) &&
    decide (query.minCorroborationLevel.toNat ≤ entry.corroboration.level.toNat)

namespace MarketHit

def ofEntry (entry : MarketEntry F) : MarketHit F :=
  ⟨entry, entry.qualityScore, 0, entry.qualityScore * (1 + 0)⟩

/-- The comparison of the descending sort by `final_score`, where what cannot be compared is equal, does not put `b` before
`a`. -/
def Precedes (a b : MarketHit F) : Prop := ¬ (a.finalScore ≤ b.finalScore ∧ ¬ b.finalScore ≤ a.finalScore)

instance decidablePrecedes : DecidableRel (Precedes (F := F)) := fun _ _ => inferInstanceAs (Decidable (¬ _))

end MarketHit

def avgQuality (hits : List (MarketHit F)) : F :=
  if hits.isEmpty then 0 else (hits.map (·.entry.qualityScore)).foldl (· + ·) 0 / (hits.length : F)

def domainsFrom (hits : List (MarketHit F)) : List String := (hits.map (·.entry.domain)).destutter (· ≠ ·)

def newResult (hits : List (MarketHit F)) (tier : SearchTier) : DiscoveryResult F :=
  ⟨hits, hits.length, domainsFrom hits, avgQuality hits, tier⟩

/-- `{:?}` of a vector of strings. -/
def debugList (unprinted : Char → Bool) (texts : List String) : String :=
  String.ofList (['['] ++ [',', ' '].intercalate (texts.map (debugText unprinted)) ++ [']'])

namespace DiscoveryEngine

variable {T : Type} (libraries lib : RegistryLibraries F T) (unprinted : Char → Bool) (engine : DiscoveryEngine F)
    (cache : List (String × List (MarketEntry F))) (query : DiscoveryQuery F) (limit : ℕ)

def rank (entries : List (MarketEntry F)) : List (MarketHit F) :=
  (((entries.filter query.admits).map MarketHit.ofEntry).insertionSort MarketHit.Precedes).take limit

def localEntries : Except ContextError (List (MarketEntry F)) :=
  FederatedRegistry.searchLocal libraries.parseUuid engine.publications libraries.uuidText
    (engine.searchIndex "market" query.queryEmbedding (min (limit * 2) (2 ^ 64 - 1)) none)

def cacheKey : String := debugList unprinted query.domains

def remote : List (MarketEntry F) :=
  ((engine.federation.bind (fun discover => (discover query limit).toOption)).getD []).map
    (marketEntryFromPublication libraries.uuidText)

/-- `search`, with the cache it leaves. -/
def search : Except ContextError (DiscoveryResult F) × List (String × List (MarketEntry F)) :=
  match localEntries libraries engine query limit with
  | .error error => (.error error, cache)
  | .ok found =>
    if limit ≤ found.length then (.ok (newResult (rank query limit found) .localIndex), cache)
    else
      let key := cacheKey unprinted query
      match (cache.lookup key).filter (fun cached => limit / 2 ≤ (rank query limit cached).length) with
      | some cached => (.ok (newResult (rank query limit cached) .cache), cache)
      | none =>
        let all := found ++ remote libraries engine query limit
        (.ok (newResult (rank query limit all) .federation), if all.isEmpty then cache else put cache key all)

def AtLeast (a b : MarketEntry F) : Prop := b.qualityScore ≤ a.qualityScore

instance decidableAtLeast : DecidableRel (AtLeast (F := F)) := fun _ _ => inferInstanceAs (Decidable (_ ≤ _))

/-- Of two rows that match the query and have one id, the one that is ranked later has enough others before it. -/
def Distinct (entries : List (MarketEntry F)) : Prop :=
  ∀ a ∈ (entries.filter query.admits).zipIdx, ∀ b ∈ (entries.filter query.admits).zipIdx,
    a.1.id = b.1.id → Before AtLeast a b →
      limit ≤ (entries.filter query.admits).zipIdx.countP (fun c => Before AtLeast c b)

/-- The tier that answers has enough entries that match the query, and no id twice among the best of them. -/
def Sufficient (found : List (MarketEntry F)) : Prop :=
  if limit ≤ found.length then limit ≤ (found.filter query.admits).length ∧ Distinct query limit found
  else
    match (cache.lookup (cacheKey unprinted query)).filter
        (fun cached => limit / 2 ≤ (cached.filter query.admits).length) with
    | some cached => limit ≤ (cached.filter query.admits).length ∧ Distinct query limit cached
    | none => Distinct query limit (found ++ remote libraries engine query limit)

/-- At most so many hits, all of which match the query, no id twice, and enough of them in the tier that answers if that is
not the federation. -/
structure Discovered (result : DiscoveryResult F) : Prop where
  length_le : result.hits.length ≤ limit
  admitted : ∀ hit ∈ result.hits, query.admits hit.entry = true
  distinct : (result.hits.map (·.entry.id)).Nodup
  localEnough : result.searchTier = .localIndex → ∀ found, localEntries libraries engine query limit = .ok found →
    limit ≤ (found.filter query.admits).length
  cacheEnough : result.searchTier = .cache → ∀ cached, cache.lookup (cacheKey unprinted query) = some cached →
    limit ≤ (cached.filter query.admits).length

section Rank

variable {query limit}

omit [Div F] [NatCast F] in
theorem length_rank (es : List (MarketEntry F)) :
    (rank query limit es).length = min limit (es.filter query.admits).length := by
  simp [rank]

omit [Div F] [NatCast F] in
theorem admits_rank {es : List (MarketEntry F)} :
    ∀ hit ∈ rank query limit es, query.admits hit.entry = true := by
  intro hit hh
  obtain ⟨e, hn, rfl⟩ := List.mem_map.mp ((List.mem_insertionSort _).mp (List.mem_of_mem_take hh))
  exact (List.mem_filter.mp hn).2

omit [Div F] [NatCast F] in
theorem number_of_admits [FloatOrder F] {e : MarketEntry F} (h : query.admits e = true) :
    e.qualityScore ≤ e.qualityScore := by
  simp only [DiscoveryQuery.admits, Bool.and_eq_true, decide_eq_true_eq] at h
  exact (FloatOrder.le_self _ _ h.1.2).2

omit [Div F] [NatCast F] in
theorem nodup_rank_iff [FloatOrder F] (entries : List (MarketEntry F)) :
    ((rank query limit entries).map (·.entry.id)).Nodup ↔ Distinct query limit entries := by
  have hn : ∀ e ∈ entries.filter query.admits, e.qualityScore ≤ e.qualityScore :=
    fun e ht => number_of_admits (List.mem_filter.mp ht).2
  have hp : ∀ a ∈ entries.filter query.admits, ∀ b ∈ entries.filter query.admits,
      (AtLeast a b ↔ MarketHit.Precedes (.ofEntry a) (.ofEntry b)) := by
    intro a ha b hb
    unfold AtLeast MarketHit.Precedes MarketHit.ofEntry
    simp only [FloatOrder.scale, not_and, not_not]
    exact ⟨fun h _ => h, fun h => (FloatOrder.total _ _ (hn b hb) (hn a ha)).elim id h⟩
  have hr : (rank query limit entries).map (·.entry.id) =
      (((entries.filter query.admits).insertionSort AtLeast).take limit).map (·.id) := by
    rw [rank, insertionSort_congr hp, ← List.map_insertionSort (r := fun a b =>
      MarketHit.Precedes (.ofEntry a) (.ofEntry b)) (s := MarketHit.Precedes) MarketHit.ofEntry _ (fun _ _ _ _ => Iff.rfl),
      ← List.map_take, List.map_map]
    rfl
  rw [hr]
  refine nodup_take_iff_of_mem _ ?_ ?_ limit
  · exact fun a ha b hb => FloatOrder.total _ _ (hn b hb) (hn a ha)
  · exact fun a _ b _ c _ hab hc => FloatOrder.trans _ _ _ hc hab

end Rank

section Tiers

variable {libraries lib unprinted engine cache query limit}

theorem discovered_iff [FloatOrder F] {found : List (MarketEntry F)} {tier : SearchTier} {enough : Prop}
    (hn : (tier = .localIndex → ∀ found, localEntries lib engine query limit = .ok found →
        limit ≤ (found.filter query.admits).length) ∧
      (tier = .cache → ∀ cached, cache.lookup (cacheKey unprinted query) = some cached →
        limit ≤ (cached.filter query.admits).length) ↔ enough) :
    Discovered lib unprinted engine cache query limit (newResult (rank query limit found) tier) ↔
      enough ∧ Distinct query limit found := by
  rw [← hn,← nodup_rank_iff]
  constructor
  · intro h
    exact ⟨⟨h.localEnough,h.cacheEnough⟩,h.distinct⟩
  · intro h
    exact ⟨(length_rank found).trans_le (Nat.min_le_left _ _),admits_rank,h.2,h.1.1,h.1.2⟩

theorem discovered_search_iff [FloatOrder F] {found : List (MarketEntry F)}
    (hf : localEntries lib engine query limit = .ok found) :
    (∀ result, (search lib unprinted engine cache query limit).1 = .ok result →
      Discovered lib unprinted engine cache query limit result) ↔
      Sufficient lib unprinted engine cache query limit found := by
  have hn : ∀ cached : List (MarketEntry F), limit / 2 ≤ (rank query limit cached).length ↔
      limit / 2 ≤ (cached.filter query.admits).length := by
    intro cached
    rw [length_rank]
    omega
  unfold search Sufficient
  rw [hf]
  simp only [hn]
  by_cases hl : limit ≤ found.length
  · rw [if_pos hl,if_pos hl]
    simp only [Except.ok.injEq,forall_eq']
    exact discovered_iff (by simp [hf])
  · rw [if_neg hl,if_neg hl]
    cases hc : (cache.lookup (cacheKey unprinted query)).filter
        (fun cached => limit / 2 ≤ (cached.filter query.admits).length) with
    | some cached =>
      obtain ⟨ho,-⟩ := Option.filter_eq_some_iff.mp hc
      simp only [Except.ok.injEq,forall_eq']
      exact discovered_iff (by simp [ho])
    | none =>
      simp only [Except.ok.injEq,forall_eq']
      exact (discovered_iff (iff_true_intro (by simp))).trans (by rw [true_and])

/-- What a search answers has no more hits than asked for, all of them matching and no id twice, out of enough matching
entries where it is not the federation that answers, exactly if the tiers suffice: then no entry of the federation is hidden
by local ones that do not match. -/
theorem tiered_search_iff [FloatOrder F] (libraries : RegistryLibraries F T) (unprinted : Char → Bool)
    (engine : DiscoveryEngine F) (cache : List (String × List (MarketEntry F))) (query : DiscoveryQuery F) (limit : ℕ) :
    (∀ result, (search libraries unprinted engine cache query limit).1 = .ok result →
      Discovered libraries unprinted engine cache query limit result) ↔
      ∀ found, localEntries libraries engine query limit = .ok found →
        Sufficient libraries unprinted engine cache query limit found := by
  cases hf : localEntries libraries engine query limit with
  | error error => simp [search, hf]
  | ok found =>
    rw [discovered_search_iff hf]
    simp

end Tiers

instance floatOrderRat : FloatOrder ℚ where
  le_self := fun _ _ _ => ⟨le_rfl, le_rfl⟩
  total := fun a b _ _ => le_total a b
  trans := fun _ _ _ => le_trans
  scale := fun a b => by simp

/-- The query for one entry of domain `d`, without a corroboration. -/
def sampleQuery : DiscoveryQuery ℚ := ⟨[1], ["d"], [], 1 / 2, .unverified, true⟩

/-- The index has one point, of an entry of another domain; the federation knows an entry of domain `d`. -/
def sampleEngine : DiscoveryEngine ℚ where
  searchIndex := fun _ _ _ _ => .ok [⟨.ofTenant "market", 1, .obj [("market_id", .str "i")]⟩]
  publications := [(1, sampleEntry 1 "a" "other" "x" 1)]
  federation := some (fun _ _ => .ok [⟨2, "b", "d", .fact, none, 1, .new, none, ⟨.openScope, true, true, true⟩, .fact, .fact,
    none, 0, none⟩])

theorem tiered_search_iff_sample :
    (∀ result, (search FederatedRegistry.sampleLibraries (fun _ => false) sampleEngine [] sampleQuery 1).1 = .ok result →
      Discovered FederatedRegistry.sampleLibraries (fun _ => false) sampleEngine [] sampleQuery 1 result) ↔
      ∀ found, localEntries FederatedRegistry.sampleLibraries sampleEngine sampleQuery 1 = .ok found →
        Sufficient FederatedRegistry.sampleLibraries (fun _ => false) sampleEngine [] sampleQuery 1 found :=
  tiered_search_iff _ _ _ _ _ _

/-- The local entry of another domain hides the one of the federation. -/
theorem federation_hidden :
    ((search FederatedRegistry.sampleLibraries (fun _ => false) sampleEngine [] sampleQuery 1).1.toOption.map
      (fun result => (result.searchTier, result.hits.length))) = some (.localIndex, 0) ∧
    ((remote FederatedRegistry.sampleLibraries sampleEngine sampleQuery 1).map sampleQuery.admits) = [true] := by
  decide +kernel

end DiscoveryEngine

end UwuContextDb.Marketplace
