import UwuContextDb.Network.Routing

/-! The domains of a peer and those of a query, each as a bit vector, and how far the first cover the second. -/

namespace UwuContextDb.Network

abbrev Bloom := List UInt8

def bloomOf (index : String → ℕ) (domains : List String) : Bloom :=
  domains.foldl (fun bloom domain => bloom.set (index domain) 1) (List.replicate 32 0)

def byteIndex (domain : String) : ℕ :=
  ((domain.toList.flatMap String.utf8EncodeChar).foldl (fun acc b => acc + b.toUInt64) (0 : UInt64)).toNat % 32

def hashIndex (hash : String → UInt64) (domain : String) : ℕ := (hash domain).toNat % 32

structure CapabilitySketch (K : Type) where
  peer : AgentId
  domainBloom : Bloom
  reputationHint : K
  expiresAt : Int

/-- `CapabilitySketch::simple`, which stands for an hour; an instant is a number of nanoseconds. -/
def CapabilitySketch.simple {K : Type} (peer : AgentId) (domains : List String) (reputationHint : K) (now : Int) :
    CapabilitySketch K :=
  ⟨peer, bloomOf byteIndex domains, reputationHint, now + 3600000000000⟩

/-- The domain bloom of `protect_query`. -/
def queryBloom (hash : String → UInt64) (domains : List String) : Bloom := bloomOf (hashIndex hash) domains

def overlap (sketch query : Bloom) : ℕ := ((sketch.zip query).filter (fun bits => 0 < bits.1 && 0 < bits.2)).length

variable {K : Type} [Field K] [LinearOrder K]

/-- What `candidate_peers` makes of one sketch. -/
def candidateOf (query : Bloom) (sketch : CapabilitySketch K) : PeerCandidate K :=
  let denom := max (query.filter (fun bit => 0 < bit)).length 1
  ⟨sketch.peer, clampUnit ((overlap sketch.domainBloom query : K) / denom), sketch.reputationHint⟩

def candidatePeers (sketches : List (AgentId × CapabilitySketch K)) (now : Int) (query : Bloom) (limit : ℕ) :
    List (PeerCandidate K) :=
  let candidates := ((sketches.map Prod.snd).filter (fun sketch => now < sketch.expiresAt)).map (candidateOf query)
  (candidates.insertionSort (fun a b => b.capabilityMatch ≤ a.capabilityMatch)).take limit

section Bits

variable {index : String → ℕ}

theorem foldl_set_getElem? (index : String → ℕ) (domains : List String) (bloom : Bloom) (i : ℕ) :
    (domains.foldl (fun bloom domain => bloom.set (index domain) 1) bloom)[i]? =
      if i < bloom.length ∧ ∃ d ∈ domains, index d = i then some 1 else bloom[i]? := by
  induction domains generalizing bloom with
  | nil => simp
  | cons domain domains ih =>
    rw [List.foldl_cons,ih,List.length_set,List.getElem?_set]
    by_cases hl : i < bloom.length
    · by_cases hh : index domain = i
      · simp [hl,hh]
      · simp [hl,hh]
    · have hn : bloom[i]? = none := List.getElem?_eq_none (not_lt.mp hl)
      simp only [hl,false_and,if_false,hn]
      split
      · rename_i hh
        rw [hh,if_neg hl]
      · rfl

theorem bloomOf_getElem?_pos {domains : List String} {i : ℕ} (hi : ∀ d, index d < 32) :
    (∃ bit, (bloomOf index domains)[i]? = some bit ∧ 0 < bit) ↔ ∃ d ∈ domains, index d = i := by
  rw [bloomOf,foldl_set_getElem?,List.length_replicate]
  split
  · rename_i hs
    exact iff_of_true ⟨1,rfl,by decide⟩ hs.2
  · rename_i hs
    refine iff_of_false ?_ ?_
    · rintro ⟨bit,hb,hp⟩
      rw [List.getElem?_replicate] at hb
      split at hb
      · obtain rfl := Option.some.inj hb
        exact absurd hp (by decide)
      · cases hb
    · rintro ⟨d,hd,rfl⟩
      exact hs ⟨hi d,d,hd,rfl⟩

theorem overlap_pos_iff (sketch query : Bloom) : 0 < overlap sketch query ↔
    ∃ i : ℕ, (∃ bit, sketch[i]? = some bit ∧ 0 < bit) ∧ ∃ bit, query[i]? = some bit ∧ 0 < bit := by
  rw [overlap,List.length_pos_iff_exists_mem]
  constructor
  · rintro ⟨bits,hb⟩
    obtain ⟨hm,hp⟩ := List.mem_filter.mp hb
    obtain ⟨i,hi⟩ := List.mem_iff_getElem?.mp hm
    obtain ⟨hs,hq⟩ := List.getElem?_zip_eq_some.mp hi
    rw [Bool.and_eq_true,decide_eq_true_iff,decide_eq_true_iff] at hp
    exact ⟨i,⟨bits.1,hs,hp.1⟩,bits.2,hq,hp.2⟩
  · rintro ⟨i,⟨bit,hs,hp⟩,bit',hq,hp'⟩
    refine ⟨(bit, bit'),List.mem_filter.mpr ⟨?_,by simp [hp,hp']⟩⟩
    exact List.mem_iff_getElem?.mpr ⟨i,List.getElem?_zip_eq_some.mpr ⟨hs,hq⟩⟩

theorem overlap_bloomOf_pos_iff {index' : String → ℕ} (hi : ∀ d, index d < 32) (hi' : ∀ d, index' d < 32)
    (domains queried : List String) : 0 < overlap (bloomOf index domains) (bloomOf index' queried) ↔
      ∃ d ∈ domains, ∃ q ∈ queried, index d = index' q := by
  rw [overlap_pos_iff]
  simp only [bloomOf_getElem?_pos hi,bloomOf_getElem?_pos hi']
  constructor
  · rintro ⟨i,⟨d,hd,rfl⟩,q,hq,he⟩
    exact ⟨d,hd,q,hq,he.symm⟩
  · rintro ⟨d,hd,q,hq,he⟩
    exact ⟨index d,⟨d,hd,rfl⟩,q,hq,he.symm⟩

end Bits

theorem capabilityMatch_pos_iff [IsStrictOrderedRing K] (query : Bloom) (sketch : CapabilitySketch K) :
    0 < (candidateOf query sketch).capabilityMatch ↔ 0 < overlap sketch.domainBloom query := by
  have hd : (0 : K) < (max (query.filter (fun bit => 0 < bit)).length 1 : ℕ) :=
    Nat.cast_pos.mpr (lt_max_of_lt_right one_pos)
  rw [candidateOf,clampUnit]
  dsimp only
  rw [lt_min_iff,lt_max_iff,div_pos_iff_of_pos_right hd,Nat.cast_pos]
  simp

/-- A peer that has a domain of the query is scored as covering it exactly if the byte sum of some domain of the peer and
the hash of some domain of the query have the same bit. -/
theorem shared_domain_covered_iff [IsStrictOrderedRing K] (hash : String → UInt64) (peer : AgentId)
    (domains queried : List String) (reputationHint : K) (now : Int) :
    ((∃ d ∈ domains, d ∈ queried) →
        0 < overlap (CapabilitySketch.simple peer domains reputationHint now).domainBloom (queryBloom hash queried) ∧
          0 < (candidateOf (queryBloom hash queried)
            (CapabilitySketch.simple peer domains reputationHint now)).capabilityMatch) ↔
      ((∃ d ∈ domains, d ∈ queried) → ∃ d ∈ domains, ∃ q ∈ queried, byteIndex d = hashIndex hash q) := by
  have hp : 0 < overlap (CapabilitySketch.simple peer domains reputationHint now).domainBloom (queryBloom hash queried) ↔
      ∃ d ∈ domains, ∃ q ∈ queried, byteIndex d = hashIndex hash q :=
    overlap_bloomOf_pos_iff (fun d => Nat.mod_lt _ (by decide)) (fun d => Nat.mod_lt _ (by decide)) domains queried
  rw [capabilityMatch_pos_iff, hp, and_self]

theorem shared_domain_covered_iff_rust :
    ((∃ d ∈ ["rust"], d ∈ ["rust"]) →
        0 < overlap (CapabilitySketch.simple "p" ["rust"] (1 / 2 : ℚ) 0).domainBloom (queryBloom (fun _ => 14) ["rust"]) ∧
          0 < (candidateOf (queryBloom (fun _ => 14) ["rust"])
            (CapabilitySketch.simple "p" ["rust"] (1 / 2 : ℚ) 0)).capabilityMatch) ↔
      ((∃ d ∈ ["rust"], d ∈ ["rust"]) → ∃ d ∈ ["rust"], ∃ q ∈ ["rust"], byteIndex d = hashIndex (fun _ => 14) q) :=
  shared_domain_covered_iff (fun _ => 14) "p" ["rust"] ["rust"] (1 / 2 : ℚ) 0

/-- The hash is the one that the standard library computes for `rust`, whose bit is 16; the byte sum has bit 14. -/
theorem rust_not_covered :
    let sketch := CapabilitySketch.simple "p" ["rust"] (1 / 2 : ℚ) 0;
    let query := queryBloom (fun _ => 18297823557882888176) ["rust"];
    (∃ d ∈ ["rust"], d ∈ ["rust"]) ∧ overlap sketch.domainBloom query = 0 ∧
      (candidateOf query sketch).capabilityMatch = 0 := by
  intro sketch query
  have hn : overlap sketch.domainBloom query = 0 := by decide +kernel
  refine ⟨⟨"rust", by simp, by simp⟩, hn, ?_⟩
  rw [candidateOf, hn]
  simp [clampUnit]

end UwuContextDb.Network
