import UwuContextDb.Library.UnionFind
import UwuContextDb.Library.Run
import UwuContextDb.Core.Uri
import Mathlib.Data.List.Perm.Subperm
import Std.Data.ExtTreeMap

/-! `CrossAgentDedup::build_clusters`: similar pairs are joined by union-find and their ends collected by root. -/

namespace UwuContextDb

open UnionFind

inductive DedupRecommendation | mergeAll | keepLatest | keepSeparate | manualReview deriving DecidableEq

structure Cluster where
  id : String
  uris : List ContextUri
  centroidDescription : String
  agents : List String
  recommendation : DedupRecommendation
  deriving DecidableEq

namespace CrossAgentDedup

abbrev Parents := Std.ExtTreeMap String String

abbrev Groups := Std.ExtTreeMap String (List String)

variable {k : ℕ} {t : String} {groups : Groups} {done : List String} {group : String × List String}

/-- `find_root`: every node on the way is pointed at its grandparent. -/
def findRoot : ℕ → Parents → String → Option (String × Parents)
  | 0, _, _ => none
  | fuel+1, parent, current =>
    match parent[current]? with
    | none => some (current, parent)
    | some p =>
      if p = current then some (current, parent) else
        let grandparent := (parent[p]?).getD p
        findRoot fuel (parent.insert current grandparent) grandparent

variable {K : Type}

def joinPair (parent : Parents) (pair : ContextUri × ContextUri × K) : Option Parents := do
  let a ← findRoot (parent.size + 1) parent pair.1.canonical
  let b ← findRoot (a.2.size + 1) a.2 pair.2.1.canonical
  return if a.1 ≠ b.1 then b.2.insert a.1 b.1 else b.2

def allUris (pairs : List (ContextUri × ContextUri × K)) : List String :=
  pairs.flatMap (fun pair => [pair.1.canonical, pair.2.1.canonical])

def collect (state : Parents × Groups) (uri : String) : Option (Parents × Groups) := do
  let root ← findRoot (state.1.size + 1) state.1 uri
  return (root.2, state.2.insert root.1 ((state.2[root.1]?).getD [] ++ [uri]))

variable (embeddings : Std.ExtTreeMap String (Std.ExtTreeMap String (List K)))

def agentOf (uri : String) : Option String := (embeddings.toList.find? (fun held => held.2.contains uri)).map Prod.fst

def clusterOf (group : String × List String) : Cluster where
  id := String.ofList (group.1.toList.take 8)
  uris := group.2.filterMap (fun uri => (ContextUri.parse uri).toOption)
  centroidDescription := ""
  agents := group.2.filterMap (agentOf embeddings)
  recommendation := .manualReview

def buildClusters (pairs : List (ContextUri × ContextUri × K)) : Option (List Cluster) := do
  let parent ← pairs.foldlM joinPair ∅
  let state ← (allUris pairs).foldlM collect (parent, ∅)
  return (state.2.toList.filter (fun group => 2 ≤ group.2.length)).map (clusterOf embeddings)

def pointers (parent : Parents) (t : String) : Option String := parent[t]?

theorem pointers_insert (parent : Parents) (t p : String) :
    pointers (parent.insert t p) = Function.update (pointers parent) t (some p) := by
  funext u
  by_cases hu : u = t
  · subst hu
    simp [pointers]
  · rw [Function.update_of_ne hu]
    simp [pointers,Std.ExtTreeMap.getElem?_insert,Ne.symm hu]

variable {parent : Parents} {rep : String → String}

theorem steps_le_size {r : String} (h : Leads (pointers parent) k t r) : k ≤ parent.size := by
  obtain ⟨path,rfl,hn,hp⟩ := h.path
  have hs : path ⊆ parent.keys := by
    intro u hu
    have ho : (parent[u]?).isSome := (hp u hu).1
    rw [Std.ExtTreeMap.mem_keys]
    simpa using ho
  calc path.length ≤ parent.keys.length := (hn.subperm hs).length_le
    _ = parent.size := Std.ExtTreeMap.length_keys

theorem findRoot_ok (fuel : ℕ) (h : Represents (pointers parent) rep) {node : String} (hk : Leads (pointers parent) k node (rep node)) (hf : k < fuel) :
    ∃ parent', findRoot fuel parent node = some (rep node, parent') ∧ Represents (pointers parent') rep := by
  induction fuel generalizing parent k node with
  | zero => omega
  | succ fuel ih =>
    generalize hr : rep node = r at hk
    cases hk with
    | root ho =>
      have hn : parent[node]? = none := ho
      refine ⟨parent,?_,h⟩
      rw [findRoot,hn]
    | @step k _ p _ hp hk =>
      have hm : parent[node]? = some p := hp
      have he : p ≠ node := by
        rintro rfl
        have hlo := (hk.unique (.step hp hk)).1
        omega
      have hg : ∃ j ≤ k, Leads (pointers parent) j ((pointers parent p).getD p) r := by
        cases hk with
        | root ho => exact ⟨0,Nat.zero_le _,by simpa [ho] using Leads.root ho⟩
        | @step j _ q _ hq hj => exact ⟨j,by omega,by simpa [hq] using hj⟩
      obtain ⟨j,hj,hl⟩ := hg
      obtain ⟨i,hi,ha⟩ := hl.halve hp
      rw [← pointers_insert] at ha
      have hrp : Represents (pointers (parent.insert node ((pointers parent p).getD p))) rep := by
        rw [pointers_insert]
        exact h.halve hp
      have hs : rep ((pointers parent p).getD p) = r := by
        obtain ⟨i',hre⟩ := hrp ((pointers parent p).getD p)
        exact (hre.unique ha).2
      obtain ⟨parent',hu,hpa'⟩ := ih hrp (hs ▸ ha) (by omega)
      refine ⟨parent',?_,hpa'⟩
      rw [findRoot,hm]
      simp only [he,if_false]
      rw [← hs]
      exact hu

theorem findRoot_rep (h : Represents (pointers parent) rep) (node : String) :
    ∃ parent', findRoot (parent.size+1) parent node = some (rep node, parent') ∧ Represents (pointers parent') rep := by
  obtain ⟨k,hk⟩ := h node
  exact findRoot_ok (parent.size+1) h hk (Nat.lt_succ_of_le (steps_le_size hk))

def Linked (pairs : List (ContextUri × ContextUri × K)) (t t' : String) : Prop :=
  ∃ pair ∈ pairs, pair.1.canonical = t ∧ pair.2.1.canonical = t'

abbrev Connected (pairs : List (ContextUri × ContextUri × K)) : String → String → Prop := Relation.EqvGen (Linked pairs)

theorem joinPair_ok (h : Represents (pointers parent) rep) (pair : ContextUri × ContextUri × K) :
    ∃ parent', joinPair parent pair = some parent' ∧ Represents (pointers parent')
      (fun v => if rep v = rep pair.1.canonical then rep pair.2.1.canonical else rep v) := by
  obtain ⟨parentA,hrn,ha⟩ := findRoot_rep h pair.1.canonical
  obtain ⟨parentB,hn,hb⟩ := findRoot_rep ha pair.2.1.canonical
  have hr : joinPair parent pair =
      some (if rep pair.1.canonical ≠ rep pair.2.1.canonical then parentB.insert (rep pair.1.canonical)
        (rep pair.2.1.canonical) else parentB) := by
    rw [joinPair,hrn]
    show (findRoot (parentA.size+1) parentA pair.2.1.canonical >>= _) = _
    rw [hn]
    rfl
  by_cases hs : rep pair.1.canonical = rep pair.2.1.canonical
  · refine ⟨parentB,by rw [hr,if_neg (not_not.mpr hs)],?_⟩
    have he : (fun v => if rep v = rep pair.1.canonical then rep pair.2.1.canonical else rep v) = rep := by
      funext v
      split
      · rename_i hv
        rw [hv,hs]
      · rfl
    rwa [he]
  · refine ⟨_,by rw [hr,if_pos hs],?_⟩
    obtain ⟨k,hk⟩ := hb pair.1.canonical
    obtain ⟨k',hk'⟩ := hb pair.2.1.canonical
    rw [pointers_insert]
    exact hb.link hk.root_parent hk'.root_parent hs

theorem foldlM_joinPair (pairs : List (ContextUri × ContextUri × K))
    {rel : String → String → Prop} (h : Represents (pointers parent) rep) (hr : Classifies rep rel) :
    ∃ parent' rep', pairs.foldlM joinPair parent = some parent' ∧ Represents (pointers parent') rep' ∧
      Classifies rep' (fun t t' => rel t t' ∨ Linked pairs t t') := by
  induction pairs generalizing parent rep rel with
  | nil => exact ⟨parent,rep,rfl,h,by simpa [Linked] using hr⟩
  | cons pair pairs ih =>
    obtain ⟨joined,hj,he⟩ := joinPair_ok h pair
    have hn : Classifies _ (fun t t' => rel t t' ∨ (t = pair.1.canonical ∧ t' = pair.2.1.canonical)) :=
      hr.join (fun _ _ => Iff.rfl)
    obtain ⟨parent',rep',hu,hp',hc⟩ := ih he hn
    refine ⟨parent',rep',?_,hp',?_⟩
    · rw [List.foldlM_cons,hj]
      exact hu
    · have hl : (fun t t' => (rel t t' ∨ (t = pair.1.canonical ∧ t' = pair.2.1.canonical)) ∨ Linked pairs t t') =
          fun t t' => rel t t' ∨ Linked (pair::pairs) t t' := by
        funext t t'
        apply propext
        simp only [Linked,List.mem_cons,exists_eq_or_imp,or_assoc]
        rw [eq_comm (a := t),eq_comm (a := t')]
      rwa [← hl]

def Grouped (rep : String → String) (groups : Groups) (done : List String) : Prop :=
  ∀ root uris, groups[root]? = some uris ↔ uris ≠ [] ∧ uris = done.filter (fun uri => rep uri = root)

theorem collect_ok (h : Represents (pointers parent) rep) (hg : Grouped rep groups done) (uri : String) :
    ∃ st, collect (parent, groups) uri = some st ∧ Represents (pointers st.1) rep ∧
    Grouped rep st.2 (done++[uri]) := by
  obtain ⟨parent',hu,hp'⟩ := findRoot_rep h uri
  have hh : (groups[rep uri]?).getD [] = done.filter (fun u => rep u = rep uri) := by
    cases he : groups[rep uri]? with
    | some uris => exact ((hg _ _).mp he).2
    | none =>
      by_contra hne
      have hs := (hg (rep uri) _).mpr ⟨fun hn => hne hn.symm,rfl⟩
      rw [he] at hs
      cases hs
  refine ⟨(parent', groups.insert (rep uri) ((groups[rep uri]?).getD []++[uri])),?_,hp',?_⟩
  · rw [collect,hu]
    rfl
  · intro root uris
    by_cases hr : rep uri = root
    · subst hr
      rw [Std.ExtTreeMap.getElem?_insert_self,hh,Option.some.injEq,List.filter_append]
      simp only [List.filter_cons,List.filter_nil,decide_true,if_true]
      constructor
      · rintro rfl
        exact ⟨by simp,rfl⟩
      · intro hi
        exact hi.2.symm
    · rw [Std.ExtTreeMap.getElem?_insert,if_neg (by simpa using hr),hg,List.filter_append]
      simp [hr]

theorem foldlM_collect (uris : List String)
    (h : Represents (pointers parent) rep) (hg : Grouped rep groups done) :
    ∃ st, uris.foldlM collect (parent, groups) = some st ∧ Grouped rep st.2 (done++uris) := by
  induction uris generalizing parent groups done with
  | nil => exact ⟨(parent, groups),rfl,by simpa using hg⟩
  | cons uri uris ih =>
    obtain ⟨next,hn,hp,hc⟩ := collect_ok h hg uri
    obtain ⟨st,hr,hs⟩ := ih hp hc
    refine ⟨st,?_,by simpa using hs⟩
    rw [List.foldlM_cons,hn]
    exact hr

/-- The groups before they are made into clusters: the URIs of one component each, as often as they stand in a pair. -/
theorem groups_ok (pairs : List (ContextUri × ContextUri × K)) : ∃ (rep : String → String)
    (groups : List (String × List String)),
    buildClusters embeddings pairs = some (groups.map (clusterOf embeddings)) ∧
    (∀ t t', rep t = rep t' ↔ Connected pairs t t') ∧ (groups.map Prod.fst).Nodup ∧
      ∀ group, group ∈ groups ↔ group.2 ≠ [] ∧ group.2 = (allUris pairs).filter (fun uri => rep uri = group.1) := by
  have hem : Represents (pointers ∅) id := by
    intro v
    exact ⟨0, .root (by simp [pointers])⟩
  obtain ⟨parent,rep,hj,ha,hl⟩ := foldlM_joinPair pairs hem classifies_id
  have ho : Grouped rep ∅ [] := by
    intro root uris
    simp [eq_comm]
  obtain ⟨st,hco,hg⟩ := foldlM_collect (allUris pairs) ha ho
  rw [List.nil_append] at hg
  have hc : ∀ t t', rep t = rep t' ↔ Connected pairs t t' := by
    intro t t'
    rw [hl t t']
    simp only [false_or]
  have hm : ∀ group, group ∈ st.2.toList ↔
      group.2 ≠ [] ∧ group.2 = (allUris pairs).filter (fun uri => rep uri = group.1) := by
    intro group
    rw [← hg]
    exact Std.ExtTreeMap.mem_toList_iff_getElem?_eq_some
  have hlo : ∀ group ∈ st.2.toList, 2 ≤ group.2.length := by
    intro group hgr
    obtain ⟨hne,hf⟩ := (hm group).mp hgr
    obtain ⟨uri,hu⟩ := List.exists_mem_of_ne_nil _ hne
    rw [hf] at hu ⊢
    obtain ⟨hi,hr⟩ := List.mem_filter.mp hu
    obtain ⟨pair,hp,he⟩ := List.mem_flatMap.mp hi
    have hn : rep pair.1.canonical = rep pair.2.1.canonical := (hc _ _).mpr (.rel _ _ ⟨pair,hp,rfl,rfl⟩)
    have hb : rep pair.1.canonical = group.1 ∧ rep pair.2.1.canonical = group.1 := by
      have hr' : rep uri = group.1 := by simpa using hr
      rcases List.mem_cons.mp he with rfl | he
      · exact ⟨hr',hn ▸ hr'⟩
      · obtain rfl := List.mem_singleton.mp he
        exact ⟨hn.trans hr',hr'⟩
    have hs : [pair.1.canonical,pair.2.1.canonical].Sublist (allUris pairs) := by
      obtain ⟨before,after,rfl⟩ := List.append_of_mem hp
      simp only [allUris,List.flatMap_append,List.flatMap_cons]
      exact (List.sublist_append_left _ _).trans (List.sublist_append_right _ _)
    have hk := (hs.filter (fun uri => rep uri = group.1)).length_le
    simpa [hb] using hk
  refine ⟨rep,st.2.toList,?_,hc,?_,hm⟩
  · rw [buildClusters,hj]
    show ((allUris pairs).foldlM collect (parent, ∅) >>= _) = _
    rw [hco]
    show some _ = some _
    rw [List.filter_eq_self.mpr (by simpa using hlo)]
  · rw [Std.ExtTreeMap.map_fst_toList_eq_keys]
    exact Std.ExtTreeMap.nodup_keys

section Partition

def texts (cluster : Cluster) : List String := cluster.uris.map (·.canonical)

structure Components (pairs : List (ContextUri × ContextUri × K)) (clusters : List Cluster) : Prop where
  component : ∀ cluster ∈ clusters, ∃ t ∈ allUris pairs, ∀ t', t' ∈ texts cluster ↔ Connected pairs t t'
  covers : ∀ t ∈ allUris pairs, ∃ cluster ∈ clusters, t ∈ texts cluster

structure Partition (pairs : List (ContextUri × ContextUri × K)) (clusters : List Cluster) :
    Prop extends Components pairs clusters where
  once : (clusters.flatMap texts).Nodup

def Readable (pairs : List (ContextUri × ContextUri × K)) : Prop := ∀ t ∈ allUris pairs, ∃ u, ContextUri.parse t = .ok u

variable {embeddings} {pairs : List (ContextUri × ContextUri × K)}

theorem mem_allUris_of_connected {t' : String} (h : Connected pairs t t') : t ∈ allUris pairs ↔ t' ∈ allUris pairs := by
  induction h with
  | rel t t' h =>
    obtain ⟨pair,hp,rfl,rfl⟩ := h
    have he : ∀ u ∈ [pair.1.canonical,pair.2.1.canonical], u ∈ allUris pairs := fun u hu =>
      List.mem_flatMap.mpr ⟨pair,hp,hu⟩
    exact iff_of_true (he _ (by simp)) (he _ (by simp))
  | refl => exact Iff.rfl
  | symm _ _ _ ih => exact ih.symm
  | trans _ _ _ _ _ ih ih' => exact ih.trans ih'

theorem readable_of_mem_texts (h : t ∈ texts (clusterOf embeddings group)) : ∃ u, ContextUri.parse t = .ok u := by
  obtain ⟨u,hu,rfl⟩ := List.mem_map.mp h
  obtain ⟨s,-,hs⟩ := List.mem_filterMap.mp hu
  cases hp : ContextUri.parse s with
  | error e =>
    rw [hp] at hs
    cases hs
  | ok v =>
    rw [hp] at hs
    obtain rfl := Option.some.inj hs
    exact ⟨v,by rw [ContextUri.parse_canonical hp,hp]⟩

theorem texts_clusterOf (h : ∀ t ∈ group.2, ∃ u, ContextUri.parse t = .ok u) :
    texts (clusterOf embeddings group) = group.2 := by
  obtain ⟨root,uris⟩ := group
  show (uris.filterMap (fun uri => (ContextUri.parse uri).toOption)).map (·.canonical) = uris
  induction uris with
  | nil => rfl
  | cons t uris ih =>
    obtain ⟨u,hu⟩ := h t List.mem_cons_self
    have hh : (ContextUri.parse t).toOption = some u := by rw [hu]; rfl
    rw [List.filterMap_cons]
    simp only [hh,List.map_cons]
    rw [ih (fun t ht => h t (List.mem_cons_of_mem _ ht)),ContextUri.parse_canonical hu]

theorem nodup_groups_iff {rep : String → String} {uris : List String} {groups : List (String × List String)}
    (hk : (groups.map Prod.fst).Nodup)
    (hm : ∀ group, group ∈ groups ↔ group.2 ≠ [] ∧ group.2 = uris.filter (fun uri => rep uri = group.1)) :
    (groups.flatMap Prod.snd).Nodup ↔ uris.Nodup := by
  constructor
  · intro h
    apply List.nodup_iff_count_le_one.mpr
    intro t
    by_cases ht : t ∈ uris
    · have hg : (rep t, uris.filter (fun uri => rep uri = rep t)) ∈ groups := by
        refine (hm _).mpr ⟨?_,rfl⟩
        exact List.ne_nil_of_mem (List.mem_filter.mpr ⟨ht,by simp⟩)
      have ho := List.nodup_iff_count_le_one.mp ((List.nodup_flatMap.mp h).1 _ hg) t
      rwa [List.count_filter (by simp)] at ho
    · rw [List.count_eq_zero_of_not_mem ht]
      omega
  · intro h
    rw [List.nodup_flatMap]
    constructor
    · intro group hg
      rw [((hm group).mp hg).2]
      exact h.filter _
    · apply (List.pairwise_map.mp hk).imp_of_mem
      intro group group' hg hg' hn t ht ht'
      rw [((hm group).mp hg).2] at ht
      rw [((hm group').mp hg').2] at ht'
      have hr : rep t = group.1 := by simpa using (List.mem_filter.mp ht).2
      have hr' : rep t = group'.1 := by simpa using (List.mem_filter.mp ht').2
      exact hn (hr.symm.trans hr')

/-- The clustering ends. It is a partition into the connected components exactly if no URI stands in the pairs twice. -/
theorem buildClusters_iff (embeddings : Std.ExtTreeMap String (Std.ExtTreeMap String (List K)))
    (pairs : List (ContextUri × ContextUri × K)) : ∃ clusters, buildClusters embeddings pairs = some clusters ∧
      (Readable pairs → Components pairs clusters) ∧
      (Partition pairs clusters ↔ Readable pairs ∧ (allUris pairs).Nodup) := by
  obtain ⟨rep, groups, hu, ho, hk, hm⟩ := groups_ok embeddings pairs
  have he : Readable pairs → ∀ group ∈ groups, texts (clusterOf embeddings group) = group.2 := by
    intro hr group hg
    apply texts_clusterOf
    intro t ht
    rw [((hm group).mp hg).2] at ht
    exact hr t (List.mem_of_mem_filter ht)
  have hco : Readable pairs → Components pairs (groups.map (clusterOf embeddings)) := by
    intro hr
    constructor
    · intro cluster hc
      obtain ⟨group, hg, rfl⟩ := List.mem_map.mp hc
      obtain ⟨hn, hf⟩ := (hm group).mp hg
      obtain ⟨t, ht⟩ := List.exists_mem_of_ne_nil _ hn
      rw [hf] at ht
      have hro : rep t = group.1 := by simpa using (List.mem_filter.mp ht).2
      refine ⟨t, List.mem_of_mem_filter ht, ?_⟩
      intro t'
      rw [he hr group hg, hf, List.mem_filter, ← ho, hro, eq_comm (a := group.1)]
      constructor
      · intro h
        simpa using h.2
      · intro h
        have hl : Connected pairs t t' := (ho t t').mp (hro.trans h.symm)
        exact ⟨(mem_allUris_of_connected hl).mp (List.mem_of_mem_filter ht), by simpa using h⟩
    · intro t ht
      have hg : (rep t, (allUris pairs).filter (fun uri => rep uri = rep t)) ∈ groups :=
        (hm _).mpr ⟨List.ne_nil_of_mem (List.mem_filter.mpr ⟨ht, by simp⟩), rfl⟩
      refine ⟨_, List.mem_map_of_mem hg, ?_⟩
      rw [he hr _ hg]
      exact List.mem_filter.mpr ⟨ht, by simp⟩
  have hj : Readable pairs → (((groups.map (clusterOf embeddings)).flatMap texts).Nodup ↔ (allUris pairs).Nodup) := by
    intro hr
    rw [← nodup_groups_iff hk hm, List.flatMap_map]
    have hs : groups.flatMap (fun group => texts (clusterOf embeddings group)) = groups.flatMap Prod.snd :=
      List.flatMap_congr (he hr)
    rw [hs]
  refine ⟨_, hu, hco, ?_⟩
  constructor
  · intro h
    have hr : Readable pairs := by
      intro t ht
      obtain ⟨cluster, hc, ht⟩ := h.covers t ht
      obtain ⟨group, -, rfl⟩ := List.mem_map.mp hc
      exact readable_of_mem_texts ht
    exact ⟨hr, (hj hr).mp h.once⟩
  · intro h
    exact ⟨hco h.1, (hj h.1).mpr h.2⟩

/-- A URI in two pairs stands in its cluster twice. -/
theorem buildClusters_repeats : ∃ cluster : Cluster, buildClusters (K := ℕ) ∅ [
      (⟨"t", ["t", "a"], none, "uwu://t/a"⟩, ⟨"t", ["t", "b"], none, "uwu://t/b"⟩, 1),
      (⟨"t", ["t", "b"], none, "uwu://t/b"⟩, ⟨"t", ["t", "c"], none, "uwu://t/c"⟩, 1)] = some [cluster] ∧
    texts cluster = ["uwu://t/a", "uwu://t/b", "uwu://t/b", "uwu://t/c"] := by
  refine ⟨⟨"uwu://t/", [⟨"t", ["t", "a"], none, "uwu://t/a"⟩, ⟨"t", ["t", "b"], none, "uwu://t/b"⟩,
    ⟨"t", ["t", "b"], none, "uwu://t/b"⟩, ⟨"t", ["t", "c"], none, "uwu://t/c"⟩], "", [], .manualReview⟩, by
      decide +kernel, rfl⟩

end Partition

end CrossAgentDedup

end UwuContextDb
