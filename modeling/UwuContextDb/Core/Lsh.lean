import Mathlib.Algebra.Field.Rat
import Mathlib.Algebra.Order.Ring.Rat
import UwuContextDb.Core.Uri
import UwuContextDb.Library.Postings
import UwuContextDb.Library.Run

/-! `LshIndex`: embeddings in buckets by the signs of their projections, a hash for each of several tables. -/

namespace UwuContextDb

/-- What the hashing takes from floating point: `f32::sqrt`, and the fraction of `u64::MAX` that a word is. -/
structure LshFloats (K : Type) where
  sqrt : K → K
  unit : UInt64 → K

structure LshHashTable (K : Type) where
  hashSize : ℕ
  seed : UInt64
  randomVectors : List (List K)

/-- The buckets by `bucket_key`. -/
structure LshIndex (K : Type) where
  tables : List (LshHashTable K)
  dimension : Option ℕ
  buckets : Std.ExtTreeMap UInt64 (List ContextUri)

section Hashing

variable {K : Type} [Field K] [LinearOrder K] (floats : LshFloats K)

def projectionValue (seed bit dim : UInt64) : K :=
  let x := seed * 0x9E3779B97F4A7C15 + bit * 0xBF58476D1CE4E5B9 + dim * 0x94D049BB133111EB
  let x := (x ^^^ (x >>> 30)) * 0xBF58476D1CE4E5B9
  let x := (x ^^^ (x >>> 27)) * 0x94D049BB133111EB
  let x := x ^^^ (x >>> 31)
  floats.unit x * (1 + 1) - 1

namespace LshHashTable

def new (hashSize : ℕ) (seed : UInt64) : LshHashTable K := ⟨min hashSize 64, seed, []⟩

def randomVector (seed : UInt64) (dimension bit : ℕ) : List K :=
  let vector := (List.range dimension).map (fun dim => projectionValue floats seed (.ofNat bit) (.ofNat dim))
  let norm := max (floats.sqrt (vector.map (fun value => value * value)).sum) (((8388608 : ℕ) : K)⁻¹)
  vector.map (fun value => value / norm)

def initialize_ (table : LshHashTable K) (dimension : ℕ) : LshHashTable K :=
  { table with
    randomVectors := if dimension = 0 then []
      else (List.range table.hashSize).map (randomVector floats table.seed dimension) }

def hash (table : LshHashTable K) (embedding : List K) : UInt64 :=
  table.randomVectors.zipIdx.foldl (fun hash row =>
    if 0 ≤ (List.zipWith (fun a b => a * b) embedding row.1).sum then hash ||| (1 <<< UInt64.ofNat row.2) else hash) 0

end LshHashTable

def bucketKey (tableId : ℕ) (hash : UInt64) : UInt64 := (UInt64.ofNat tableId <<< 56) ^^^ hash

namespace LshIndex

def new (numTables hashSize : ℕ) : LshIndex K :=
  ⟨(List.range numTables).map (fun tableId => .new hashSize (.ofNat tableId)), none, ∅⟩

def ensureDimension (index : LshIndex K) (dimension : ℕ) : LshIndex K :=
  if index.dimension = some dimension then index
  else ⟨index.tables.map (·.initialize_ floats dimension), some dimension, ∅⟩

def keys (index : LshIndex K) (embedding : List K) : List UInt64 :=
  index.tables.zipIdx.map (fun row => bucketKey row.2 (row.1.hash embedding))

def insert (index : LshIndex K) (uri : ContextUri) (embedding : List K) : LshIndex K :=
  if embedding.isEmpty then index
  else
    let index := index.ensureDimension floats embedding.length
    { index with buckets := Postings.file uri index.buckets (index.keys embedding) }

def query (index : LshIndex K) (embedding : List K) : List ContextUri × LshIndex K :=
  if embedding.isEmpty then ([], index)
  else
    let index := index.ensureDimension floats embedding.length
    (Postings.collect index.buckets (index.keys embedding), index)

def remove (index : LshIndex K) (uri : ContextUri) : LshIndex K :=
  { index with buckets := Postings.withdraw uri index.buckets }

end LshIndex

theorem bucketKey_inj {id id' : ℕ} {hash hash' : UInt64} (hd : id < 256) (hd' : id' < 256) (hh : hash.toNat < 2 ^ 56)
    (hh' : hash'.toNat < 2 ^ 56) (h : bucketKey id hash = bucketKey id' hash') : id = id' ∧ hash = hash' := by
  have hs : ∀ {n : ℕ}, n < 256 → (UInt64.ofNat n <<< 56).toNat = n * 2 ^ 56 := by
    intro n hn
    have hm : n % 2 ^ 64 = n := Nat.mod_eq_of_lt (by omega)
    simp only [UInt64.toNat_shiftLeft,UInt64.toNat_ofNat',Nat.shiftLeft_eq,UInt64.reduceToNat,Nat.reduceMod,hm]
    exact Nat.mod_eq_of_lt (by omega)
  have ha := congrArg UInt64.toNat h
  rw [bucketKey,bucketKey,UInt64.toNat_xor,UInt64.toNat_xor,hs hd,hs hd'] at ha
  have hi := congrArg (· / 2 ^ 56) ha
  have hl := congrArg (· % 2 ^ 56) ha
  simp only [Nat.xor_div_two_pow,Nat.xor_mod_two_pow] at hi hl
  rw [Nat.mul_div_cancel _ (by decide),Nat.mul_div_cancel _ (by decide),Nat.div_eq_of_lt hh,Nat.div_eq_of_lt hh',
    Nat.xor_zero,Nat.xor_zero] at hi
  rw [Nat.mul_mod_left,Nat.mul_mod_left,Nat.mod_eq_of_lt hh,Nat.mod_eq_of_lt hh',Nat.zero_xor,Nat.zero_xor] at hl
  exact ⟨hi,UInt64.toNat_inj.mp hl⟩

theorem LshHashTable.hash_lt (table : LshHashTable K) (emb : List K) {n : ℕ} (hn : n ≤ 64)
    (hl : table.randomVectors.length ≤ n) :
    (table.hash emb).toNat < 2 ^ n := by
  have hf : ∀ (rows : List (List K × ℕ)) (hash : UInt64), hash.toNat < 2 ^ n → (∀ row ∈ rows, row.2 < n) →
      (rows.foldl (fun hash row => if 0 ≤ (List.zipWith (fun a b => a*b) emb row.1).sum then
        hash ||| (1 <<< UInt64.ofNat row.2) else hash) hash).toNat < 2 ^ n := by
    intro rows
    induction rows with
    | nil =>
      intro hash hh _
      exact hh
    | cons row rows ih =>
      intro hash hh hw
      refine ih _ ?_ (fun row hr => hw row (List.mem_cons_of_mem _ hr))
      show (if _ then _ else _ : UInt64).toNat < _
      split
      · have hr : row.2 < n := hw row List.mem_cons_self
        have hb : (1 <<< UInt64.ofNat row.2 : UInt64).toNat < 2 ^ n := by
          have hp : 2 ^ row.2 < 2 ^ n := Nat.pow_lt_pow_right (by decide) hr
          have hs : row.2 % 18446744073709551616 % 64 = row.2 := by omega
          simp only [UInt64.toNat_shiftLeft,UInt64.toNat_ofNat',Nat.shiftLeft_eq,UInt64.toNat_one,one_mul,
            Nat.reducePow]
          rw [hs]
          exact (Nat.mod_le _ _).trans_lt hp
        rw [UInt64.toNat_or]
        exact Nat.or_lt_two_pow hh hb
      · exact hh
  apply hf
  · exact Nat.pow_pos (by decide)
  · intro row hr
    have ht := List.snd_lt_add_of_mem_zipIdx hr
    omega

end Hashing

end UwuContextDb

/-! When the buckets of an `LshIndex` answer as the map from the URIs to their embeddings would. -/

namespace UwuContextDb

open StateMachine

variable {K : Type} [Field K] [LinearOrder K]

inductive LshCall (K : Type)
  | insert (uri : ContextUri) (embedding : List K)
  | query (embedding : List K)
  | remove (uri : ContextUri)

/-- The index, and the embedding that each URI was last inserted with and not removed since. -/
structure LshRun (K : Type) where
  index : LshIndex K
  live : ContextUri → Option (List K)

namespace LshRun

variable (floats : LshFloats K)

def start (numTables hashSize : ℕ) : LshRun K := ⟨.new numTables hashSize, fun _ => none⟩

def step (s : LshRun K) : LshCall K → LshRun K
  | .insert uri embedding =>
    ⟨s.index.insert floats uri embedding, if embedding.isEmpty then s.live else Function.update s.live uri (some embedding)⟩
  | .query embedding => ⟨(s.index.query floats embedding).2, s.live⟩
  | .remove uri => ⟨s.index.remove uri, Function.update s.live uri none⟩

end LshRun

section Keys

variable (floats : LshFloats K)

def signHash (table : LshHashTable K) (embedding : List K) : UInt64 :=
  (table.initialize_ floats embedding.length).hash embedding

variable (tables : List (LshHashTable K))

def bucketKeys (embedding : List K) : List UInt64 :=
  tables.zipIdx.map (fun row => bucketKey row.2 (signHash floats row.1 embedding))

def Near (v embedding : List K) : Prop :=
  ∃ table ∈ tables, signHash floats table embedding = signHash floats table v

def Answers (live : ContextUri → Option (List K)) (v : List K) (found : List ContextUri) : Prop :=
  found.Nodup ∧ ∀ uri, uri ∈ found ↔ v ≠ [] ∧ ∃ embedding, live uri = some embedding ∧ Near floats tables v embedding

def KeepsBuckets (live : ContextUri → Option (List K)) : LshCall K → Prop
  | .insert uri embedding => embedding ≠ [] →
    (∀ other old, other ≠ uri → live other = some old → old.length = embedding.length) ∧
      ∀ old, live uri = some old → old.length = embedding.length →
        bucketKeys floats tables old ⊆ bucketKeys floats tables embedding
  | .query v => v ≠ [] →
    (∀ uri embedding, live uri = some embedding → embedding.length = v.length) ∧
      ∀ uri embedding, live uri = some embedding →
        (∃ key ∈ bucketKeys floats tables embedding, key ∈ bucketKeys floats tables v) → Near floats tables v embedding
  | .remove _ => True

end Keys

section Steps

variable {floats : LshFloats K} {tables : List (LshHashTable K)} {s : LshRun K}

theorem Near.mem_keys {v emb : List K} (h : Near floats tables v emb) :
    ∃ key ∈ bucketKeys floats tables emb, key ∈ bucketKeys floats tables v := by
  obtain ⟨table,ht,hh⟩ := h
  obtain ⟨i,hi,rfl⟩ := List.mem_iff_getElem.mp ht
  have hr : (tables[i], i) ∈ tables.zipIdx := List.mk_mem_zipIdx_iff_getElem?.mpr (by simp [hi])
  exact ⟨_,List.mem_map.mpr ⟨_,hr,rfl⟩,List.mem_map.mpr ⟨_,hr,by rw [hh]⟩⟩

theorem near_of_mem_keys {numTables hashSize : ℕ} (ht : numTables ≤ 256) (hb : hashSize ≤ 56) {v embedding : List K}
    (h : ∃ key ∈ bucketKeys floats (LshIndex.new numTables hashSize).tables embedding,
      key ∈ bucketKeys floats (LshIndex.new numTables hashSize).tables v) :
    Near floats (LshIndex.new numTables hashSize).tables v embedding := by
  have hl : ∀ row ∈ (LshIndex.new (K := K) numTables hashSize).tables.zipIdx, ∀ e,
      row.2 < 256 ∧ (signHash floats row.1 e).toNat < 2 ^ 56 := by
    intro row hr e
    obtain ⟨-,hi,htb⟩ := List.mem_zipIdx hr
    have hm := List.fst_mem_of_mem_zipIdx hr
    simp only [LshIndex.new,List.mem_map,List.length_map,List.length_range] at hm hi
    obtain ⟨id,-,hd⟩ := hm
    refine ⟨by omega,LshHashTable.hash_lt _ _ (by omega) ?_⟩
    rw [← hd]
    unfold LshHashTable.initialize_ LshHashTable.new
    split
    · simp
    · simp
      omega
  obtain ⟨key,ho,hs⟩ := h
  obtain ⟨row,hr,rfl⟩ := List.mem_map.mp ho
  obtain ⟨row',hr',hk⟩ := List.mem_map.mp hs
  obtain ⟨hi,hh⟩ := bucketKey_inj (hl row' hr' v).1 (hl row hr embedding).1 (hl row' hr' v).2
    (hl row hr embedding).2 hk
  have ha : row' = row := by
    have hg := List.mk_mem_zipIdx_iff_getElem?.mp (show (row.1, row.2) ∈ _ from hr)
    have hg' := List.mk_mem_zipIdx_iff_getElem?.mp (show (row'.1, row'.2) ∈ _ from hr')
    rw [hi,hg] at hg'
    exact Prod.ext (Option.some.inj hg').symm hi
  subst ha
  exact ⟨row'.1,List.fst_mem_of_mem_zipIdx hr,hh.symm⟩
/-- The tbl are set up for the dimension, which all embeddings have, and each URI is in the buckets of its own. -/
structure Kept (floats : LshFloats K) (tbl : List (LshHashTable K)) (s : LshRun K) : Prop where
  sized : s.index.tables = tbl.map (fun table => s.index.dimension.elim table (table.initialize_ floats))
  lengths : ∀ u embedding, s.live u = some embedding → s.index.dimension = some embedding.length
  filed : Postings.Filed s.index.buckets (Option.map (bucketKeys floats tbl) ∘ s.live)

theorem kept_start (numTables hashSize : ℕ) :
    Kept floats (LshIndex.new numTables hashSize).tables (LshRun.start numTables hashSize) :=
  ⟨by simp [LshRun.start,LshIndex.new],by simp [LshRun.start],Postings.filed_empty⟩

theorem sized_ensureDimension (h : Kept floats tables s) (dimension : ℕ) :
    (s.index.ensureDimension floats dimension).tables = tables.map (·.initialize_ floats dimension) := by
  unfold LshIndex.ensureDimension
  split
  · rename_i hs
    rw [h.sized,hs]
    rfl
  · rw [h.sized,List.map_map]
    apply List.map_congr_left
    intro table _
    cases s.index.dimension <;> rfl

@[simp] theorem dimension_ensureDimension (index : LshIndex K) (dimension : ℕ) :
    (index.ensureDimension floats dimension).dimension = some dimension := by
  unfold LshIndex.ensureDimension
  split
  · rename_i hs
    exact hs
  · rfl

theorem keys_ensureDimension (h : Kept floats tables s) (embedding : List K) :
    (s.index.ensureDimension floats embedding.length).keys embedding = bucketKeys floats tables embedding := by
  unfold LshIndex.keys bucketKeys signHash
  rw [sized_ensureDimension h,List.zipIdx_map,List.map_map]
  rfl

theorem Kept.ensureDimension (h : Kept floats tables s) {dimension : ℕ}
    (he : ∀ u emb, s.live u = some emb → emb.length = dimension) :
    Kept floats tables ⟨s.index.ensureDimension floats dimension,s.live⟩ := by
  refine ⟨?_,?_,?_⟩
  · rw [dimension_ensureDimension]
    exact sized_ensureDimension h dimension
  · intro u emb hl
    rw [dimension_ensureDimension,he u emb hl]
  · by_cases hs : s.index.dimension = some dimension
    · simpa only [LshIndex.ensureDimension,if_pos hs] using h.filed
    · have hn : s.live = fun _ => none := by
        funext u
        cases hl : s.live u with
        | none => rfl
        | some emb =>
          have hd := h.lengths u emb hl
          rw [he u emb hl] at hd
          exact absurd hd hs
      simp only [LshIndex.ensureDimension,if_neg hs,hn]
      exact Postings.filed_empty

theorem Kept.remove (h : Kept floats tables s) (u : ContextUri) : Kept floats tables (s.step floats (.remove u)) := by
  refine ⟨h.sized,?_,?_⟩
  · intro other emb hl
    simp only [LshRun.step] at hl
    by_cases ho : other = u
    · simp [ho] at hl
    · rw [Function.update_of_ne ho] at hl
      exact h.lengths other emb hl
  · have hf := h.filed.withdraw u
    rw [← Option.map_none,← Function.comp_update] at hf
    exact hf

theorem Kept.query (h : Kept floats tables s) {v : List K} (ho : KeepsBuckets floats tables s.live (.query v)) :
    Kept floats tables (s.step floats (.query v)) := by
  by_cases hv : v = []
  · subst hv
    exact h
  · have he : v.isEmpty = false := by simp [hv]
    simp only [LshRun.step,LshIndex.query,he]
    exact h.ensureDimension (ho hv).1

theorem Kept.insert (h : Kept floats tables s) {u : ContextUri} {emb : List K}
    (hok : KeepsBuckets floats tables s.live (.insert u emb)) :
    Kept floats tables (s.step floats (.insert u emb)) := by
  by_cases he : emb = []
  · subst he
    exact h
  · obtain ⟨ht,hd⟩ := hok he
    have hm : emb.isEmpty = false := by simp [he]
    simp only [LshRun.step,LshIndex.insert,hm]
    refine ⟨?_,?_,?_⟩
    · simp only [Bool.false_eq_true,if_false,dimension_ensureDimension]
      exact sized_ensureDimension h emb.length
    · intro other live hl
      simp only [Bool.false_eq_true,if_false,dimension_ensureDimension] at hl ⊢
      by_cases ho : other = u
      · rw [ho,Function.update_self] at hl
        rw [Option.some.inj hl]
      · rw [Function.update_of_ne ho] at hl
        rw [ht other live ho hl]
    · simp only [Bool.false_eq_true,if_false]
      rw [keys_ensureDimension h,Function.comp_update,Option.map_some]
      by_cases hs : s.index.dimension = some emb.length
      · rw [LshIndex.ensureDimension,if_pos hs]
        apply h.filed.file
        intro keys hk
        obtain ⟨old,hl,rfl⟩ := Option.map_eq_some_iff.mp hk
        have hn := h.lengths u old hl
        rw [hs] at hn
        exact hd old hl (Option.some.inj hn).symm
      · rw [LshIndex.ensureDimension,if_neg hs]
        have hno : Function.update (Option.map (bucketKeys floats tables) ∘ s.live) u
            (some (bucketKeys floats tables emb)) =
            Function.update (fun _ => none) u (some (bucketKeys floats tables emb)) := by
          funext other
          by_cases ho : other = u
          · rw [ho,Function.update_self,Function.update_self]
          · rw [Function.update_of_ne ho,Function.update_of_ne ho]
            cases hl : s.live other with
            | none => simp [hl]
            | some live =>
              have hn := h.lengths other live hl
              rw [ht other live ho hl] at hn
              exact absurd hn hs
        rw [hno]
        exact Postings.filed_empty.file (by simp)

theorem Kept.step (h : Kept floats tables s) {call : LshCall K} (ho : KeepsBuckets floats tables s.live call) :
    Kept floats tables (s.step floats call) := by
  cases call with
  | insert u emb => exact h.insert ho
  | query v => exact h.query ho
  | remove u => exact h.remove u

theorem Kept.answers (h : Kept floats tables s) {v : List K} (hk : KeepsBuckets floats tables s.live (.query v)) :
    Answers floats tables s.live v (s.index.query floats v).1 := by
  by_cases hv : v = []
  · subst hv
    simp [Answers,LshIndex.query]
  · have he : v.isEmpty = false := by simp [hv]
    obtain ⟨hn,hc⟩ := hk hv
    simp only [Answers,LshIndex.query,he,Bool.false_eq_true,if_false]
    refine ⟨Postings.nodup_collect _,fun u => ?_⟩
    rw [(h.ensureDimension hn).filed.mem_collect,keys_ensureDimension h]
    constructor
    · rintro ⟨own,ho,hm⟩
      obtain ⟨emb,hl,rfl⟩ := Option.map_eq_some_iff.mp ho
      exact ⟨hv,emb,hl,hc u emb hl hm⟩
    · rintro ⟨-,emb,hl,ha⟩
      exact ⟨_,Option.map_eq_some_iff.mpr ⟨emb,hl,rfl⟩,ha.mem_keys⟩

end Steps

section Runs

variable (floats : LshFloats K) (numTables hashSize : ℕ)

def LshRun.after (calls : List (LshCall K)) : LshRun K := run (LshRun.step floats) (.start numTables hashSize) calls

def KeepsBucketsAlong (calls : List (LshCall K)) : Prop :=
  Meets (LshRun.step floats) (fun s => KeepsBuckets floats (LshIndex.new (K := K) numTables hashSize).tables s.live)
    (.start numTables hashSize) calls

variable {floats numTables hashSize}

theorem kept_after {calls : List (LshCall K)} (h : KeepsBucketsAlong floats numTables hashSize calls) :
    Kept floats (LshIndex.new numTables hashSize).tables (LshRun.after floats numTables hashSize calls) :=
  run_invariant (fun _ _ hk ho => hk.step ho) (kept_start numTables hashSize) h

theorem live_step_congr {s s' : LshRun K} (h : s.live = s'.live) (call : LshCall K) :
    (s.step floats call).live = (s'.step floats call).live := by
  cases call <;> simp [LshRun.step,h]

theorem live_run_congr {s s' : LshRun K} (h : s.live = s'.live) (calls : List (LshCall K)) :
    (run (LshRun.step floats) s calls).live = (run (LshRun.step floats) s' calls).live := by
  induction calls generalizing s s' with
  | nil => exact h
  | cons call calls ih => exact ih (live_step_congr h call)

theorem meets_live_congr {tbl : List (LshHashTable K)} {s s' : LshRun K} (h : s.live = s'.live)
    (calls : List (LshCall K)) : Meets (LshRun.step floats) (fun s => KeepsBuckets floats tbl s.live) s calls ↔
      Meets (LshRun.step floats) (fun s => KeepsBuckets floats tbl s.live) s' calls := by
  induction calls generalizing s s' with
  | nil => exact Iff.rfl
  | cons call calls ih => rw [Meets,Meets,h,ih (live_step_congr h call)]

theorem KeepsBucketsAlong.without_query {front back : List (LshCall K)} {v : List K}
    (h : KeepsBucketsAlong floats numTables hashSize (front ++ .query v :: back)) :
    KeepsBucketsAlong floats numTables hashSize (front++back) ∧
      (LshRun.after floats numTables hashSize (front++back)).live =
        (LshRun.after floats numTables hashSize (front ++ .query v :: back)).live := by
  obtain ⟨hf,-,hb⟩ := meets_append.mp h
  have hq : ∀ s : LshRun K, s.live = (s.step floats (.query v)).live := fun _ => rfl
  refine ⟨meets_append.mpr ⟨hf,(meets_live_congr (hq _) back).mpr hb⟩,?_⟩
  unfold LshRun.after
  rw [run_append,run_append]
  exact live_run_congr (hq _) back

/-- Where every call finds what it needs, each query answers as the map of the embeddings does, and what it answers is
not changed by a query before it. -/
theorem lsh_refines_map {calls : List (LshCall K)} (h : KeepsBucketsAlong floats numTables hashSize calls) :
    (∀ front v, front ++ [.query v] <+: calls →
      Answers floats (LshIndex.new numTables hashSize).tables (LshRun.after floats numTables hashSize front).live v
        ((LshRun.after floats numTables hashSize front).index.query floats v).1) ∧
      ∀ front v back w, front ++ .query v :: back ++ [.query w] <+: calls → ∀ uri,
        uri ∈ ((LshRun.after floats numTables hashSize (front ++ .query v :: back)).index.query floats w).1 ↔
          uri ∈ ((LshRun.after floats numTables hashSize (front ++ back)).index.query floats w).1 := by
  have hf : ∀ {front rest : List (LshCall K)}, front ++ rest <+: calls →
      KeepsBucketsAlong floats numTables hashSize (front ++ rest) := by
    rintro front rest ⟨more, rfl⟩
    exact (meets_append.mp h).1
  have ha : ∀ {front : List (LshCall K)} {v : List K},
      KeepsBucketsAlong floats numTables hashSize (front ++ [.query v]) →
      Answers floats (LshIndex.new numTables hashSize).tables (LshRun.after floats numTables hashSize front).live v
        ((LshRun.after floats numTables hashSize front).index.query floats v).1 := by
    intro front v hk
    obtain ⟨hc, hq, -⟩ := meets_append.mp hk
    exact (kept_after hc).answers hq
  refine ⟨fun front v hp => ha (hf hp), fun front v back w hp uri => ?_⟩
  have hk := hf hp
  have hw := ha hk
  rw [List.append_assoc, List.cons_append] at hk
  obtain ⟨he, hl⟩ := hk.without_query
  rw [← List.append_assoc] at he
  have hi := ha he
  have hs : (LshRun.after floats numTables hashSize (front ++ back)).live =
      (LshRun.after floats numTables hashSize (front ++ .query v :: back)).live := by
    obtain ⟨hc, -⟩ := meets_append.mp (hf hp)
    exact (KeepsBucketsAlong.without_query hc).2
  rw [hw.2, hi.2, hs]

/-- An embedding that was removed and one of the other sign in its place. -/
theorem lsh_refines_map_replaced :
    let floats : LshFloats ℚ := ⟨id, fun x => x.toNat / (2 ^ 64 - 1 : ℕ)⟩
    let uri := ContextUri.ofTenant "t"
    let calls : List (LshCall ℚ) := [.insert uri [1], .remove uri, .insert uri [-1]]
    Answers floats (LshIndex.new 1 1).tables (LshRun.after floats 1 1 calls).live [-1]
      ((LshRun.after floats 1 1 calls).index.query floats [-1]).1 := by
  intro floats uri calls
  have hk : KeepsBucketsAlong floats 1 1 (calls ++ [.query [-1]]) := by
    refine ⟨fun _ => ⟨by simp [LshRun.start], by simp [LshRun.start]⟩, trivial,
      fun _ => ⟨fun other old ho hl => ?_, by simp [LshRun.step]⟩, fun _ => ⟨fun other e hl => ?_, ?_⟩, trivial⟩
    · simp [LshRun.step, LshRun.start] at hl
    · by_cases ho : other = uri
      · simp [LshRun.step, ho] at hl
        simp [← hl]
      · simp [LshRun.step, LshRun.start, Function.update_of_ne ho] at hl
    · intro other e _
      exact near_of_mem_keys (by decide) (by decide)
  exact (lsh_refines_map hk).1 calls [-1] (List.prefix_refl _)

/-- A URI inserted again stays in the bucket of its old embedding. -/
theorem reinserted_found_under_old :
    let floats : LshFloats ℚ := ⟨id, fun x => x.toNat / (2 ^ 64 - 1 : ℕ)⟩
    let uri := ContextUri.ofTenant "t"
    let calls : List (LshCall ℚ) := [.insert uri [1], .insert uri [-1]]
    ¬ Answers floats (LshIndex.new 1 1).tables (LshRun.after floats 1 1 calls).live [1]
      ((LshRun.after floats 1 1 calls).index.query floats [1]).1 := by
  intro floats uri calls h
  have hf : uri ∈ ((LshRun.after floats 1 1 calls).index.query floats [1]).1 := by decide +kernel
  obtain ⟨-, embedding, hl, table, ht, hh⟩ := (h.2 uri).mp hf
  have he : embedding = [-1] := by simpa [LshRun.after, LshRun.step, calls] using hl.symm
  have hd : ∀ table ∈ (LshIndex.new (K := ℚ) 1 1).tables, signHash floats table [-1] ≠ signHash floats table [1] := by
    decide +kernel
  exact hd table ht (he ▸ hh)

end Runs

end UwuContextDb
