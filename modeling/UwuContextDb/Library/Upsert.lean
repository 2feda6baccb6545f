import Mathlib.Data.List.Nodup
import Mathlib.Data.List.Perm.Basic
import Std.Data.ExtTreeMap.Lemmas

/-! Tables that are built by updating, for each row, what stands under its key, or a default where nothing does. -/

namespace Upsert

variable {κ V M : Type} {cmp : κ → κ → Ordering} [Std.TransCmp cmp]

/-- What stands under the key of the row, or the default, is updated by the row's value. -/
def upsert (f : M → V → M) (start : M) (table : Std.ExtTreeMap κ M cmp) (row : κ × V) : Std.ExtTreeMap κ M cmp :=
  table.insert row.1 (f (table.getD row.1 start) row.2)

def upsertAll (f : M → V → M) (start : M) (table : Std.ExtTreeMap κ M cmp) (rows : List (κ × V)) :
    Std.ExtTreeMap κ M cmp :=
  rows.foldl (upsert f start) table

variable {f : M → V → M} {start : M} {table : Std.ExtTreeMap κ M cmp}

theorem getD_eq (k : κ) : table.getD k start = (table[k]?).getD start := Std.ExtTreeMap.getD_eq_getD_getElem?

variable [Std.LawfulEqCmp cmp] [DecidableEq κ]

theorem getElem?_upsertAll (rows : List (κ × V)) (k : κ) : (upsertAll f start table rows)[k]? =
    if k ∈ rows.map (·.1) then
      some (((rows.filter (fun row => row.1 = k)).map (·.2)).foldl f (table.getD k start))
    else table[k]? := by
  induction rows generalizing table with
  | nil => rfl
  | cons row rows ih =>
    have hs : upsertAll f start table (row::rows) = upsertAll f start (upsert f start table row) rows := rfl
    rw [hs,ih]
    by_cases hk : row.1 = k
    · subst hk
      have hl : (upsert f start table row)[row.1]? = some (f (table.getD row.1 start) row.2) := by simp [upsert]
      rw [List.filter_cons_of_pos (by simp),List.map_cons,List.map_cons,List.foldl_cons,if_pos List.mem_cons_self,
        getD_eq,hl,Option.getD_some]
      split_ifs with hm
      · rfl
      · have hn : rows.filter (fun other => decide (other.1 = row.1)) = [] := by
          rw [List.filter_eq_nil_iff]
          intro other ho hq
          exact hm (List.mem_map.mpr ⟨other,ho,by simpa using hq⟩)
        rw [hn]
        rfl
    · have ho : (upsert f start table row)[k]? = table[k]? := by
        simp [upsert,Std.ExtTreeMap.getElem?_insert,hk]
      rw [List.filter_cons_of_neg (by simpa using hk),getD_eq,ho,← getD_eq]
      have he : k ∈ (row::rows).map (·.1) ↔ k ∈ rows.map (·.1) := by simp [Ne.symm hk]
      by_cases hm : k ∈ rows.map (·.1)
      · rw [if_pos hm,if_pos (he.mpr hm)]
      · rw [if_neg hm,if_neg (he.not.mpr hm)]

theorem getElem?_upsertAll_empty (rows : List (κ × V)) (k : κ) :
    (upsertAll f start (∅ : Std.ExtTreeMap κ M cmp) rows)[k]? =
      if k ∈ rows.map (·.1) then
        some (((rows.filter (fun row => row.1 = k)).map (·.2)).foldl f start)
      else none := by
  rw [getElem?_upsertAll,getD_eq,Std.ExtTreeMap.getElem?_empty,Option.getD_none]

theorem getD_upsertAll_empty (rows : List (κ × V)) (k : κ) :
    (upsertAll f start (∅ : Std.ExtTreeMap κ M cmp) rows).getD k start =
      ((rows.filter (fun row => row.1 = k)).map (·.2)).foldl f start := by
  rw [getD_eq,getElem?_upsertAll_empty]
  split_ifs with hk
  · rfl
  · have hn : rows.filter (fun row => decide (row.1 = k)) = [] := by
      rw [List.filter_eq_nil_iff]
      intro row hr he
      exact hk (List.mem_map.mpr ⟨row,hr,of_decide_eq_true he⟩)
    rw [hn]
    rfl

theorem getElem?_upsertAll_eq_none {rows : List (κ × V)} {k : κ} :
    (upsertAll f start (∅ : Std.ExtTreeMap κ M cmp) rows)[k]? = none ↔ k ∉ rows.map (·.1) := by
  rw [getElem?_upsertAll_empty]
  split_ifs with hk
  · simp [hk]
  · simp [hk]

theorem getElem?_setAll {start : V} {rows : List (κ × V)}
    (hs : ∀ k v v', (k, v) ∈ rows → (k, v') ∈ rows → v = v') {k : κ} {v : V} :
    (upsertAll (fun _ v => v) start (∅ : Std.ExtTreeMap κ V cmp) rows)[k]? = some v ↔ (k, v) ∈ rows := by
  have hl : ∀ (values : List V) (first : V), values.foldl (fun _ v => v) first ∈ first::values := by
    intro values
    induction values with
    | nil => exact fun first => List.mem_singleton_self first
    | cons value values ih => exact fun first => List.mem_cons_of_mem first (ih value)
  have ha : ∀ v', v' ∈ (rows.filter (fun row => decide (row.1 = k))).map (·.2) ↔ (k, v') ∈ rows := by
    simp
  have he : k ∈ rows.map (·.1) ↔ (rows.filter (fun row => decide (row.1 = k))).map (·.2) ≠ [] := by
    simp
  rw [getElem?_upsertAll_empty]
  generalize (rows.filter (fun row => decide (row.1 = k))).map (·.2) = values at ha he
  split_ifs with hk
  · obtain ⟨first,values,rfl⟩ := List.exists_cons_of_ne_nil (he.mp hk)
    rw [List.foldl_cons,Option.some_inj]
    have hm := (ha _).mp (hl values first)
    constructor
    · rintro rfl
      exact hm
    · exact fun hv => hs k _ _ hm hv
  · obtain rfl := not_not.mp (he.not.mp hk)
    constructor
    · exact fun h => absurd h (by simp)
    · exact fun hv => absurd ((ha v).mpr hv) (by simp)

section Nested

variable {κ' : Type} {cmp' : κ' → κ' → Ordering} [Std.TransCmp cmp']

/-- A table of tables, whose values are set by rows. -/
def nested (start : V) (rows : List (κ × κ' × V)) : Std.ExtTreeMap κ (Std.ExtTreeMap κ' V cmp') cmp :=
  upsertAll (upsert (fun _ v => v) start) ∅ ∅ rows

variable {start : V} {rows rows' : List (κ × κ' × V)}

theorem nested_eq_none {k : κ} : (nested start rows : Std.ExtTreeMap κ (Std.ExtTreeMap κ' V cmp') cmp)[k]? = none ↔
    k ∉ rows.map (·.1) :=
  getElem?_upsertAll_eq_none

variable [Std.LawfulEqCmp cmp'] [DecidableEq κ']

theorem getElem?_nested (hs : ∀ k k' v v', (k, k', v) ∈ rows → (k, k', v') ∈ rows → v = v') {k : κ}
    {inner : Std.ExtTreeMap κ' V cmp'}
    (h : (nested start rows : Std.ExtTreeMap κ (Std.ExtTreeMap κ' V cmp') cmp)[k]? = some inner) {k' : κ'} {v : V} :
    inner[k']? = some v ↔ (k, k', v) ∈ rows := by
  have ha : ∀ k' v, (k', v) ∈ (rows.filter (fun row => decide (row.1 = k))).map (·.2) ↔ (k, k', v) ∈ rows := by
    simp
  rw [nested,getElem?_upsertAll_empty] at h
  split_ifs at h with hk
  obtain rfl := Option.some.inj h
  rw [← ha]
  exact getElem?_setAll (fun k' v v' hv hv' => hs k k' v v' ((ha k' v).mp hv) ((ha k' v').mp hv'))

theorem nested_congr (hr : ∀ row, row ∈ rows ↔ row ∈ rows')
    (hs : ∀ k k' v v', (k, k', v) ∈ rows → (k, k', v') ∈ rows → v = v') :
    (nested start rows : Std.ExtTreeMap κ (Std.ExtTreeMap κ' V cmp') cmp) = nested start rows' := by
  have hs' : ∀ k k' v v', (k, k', v) ∈ rows' → (k, k', v') ∈ rows' → v = v' :=
    fun k k' v v' hv hv' => hs k k' v v' ((hr _).mpr hv) ((hr _).mpr hv')
  refine Std.ExtTreeMap.ext_getElem? (fun k => ?_)
  have hn : (nested start rows : Std.ExtTreeMap κ (Std.ExtTreeMap κ' V cmp') cmp)[k]? = none ↔
      (nested start rows' : Std.ExtTreeMap κ (Std.ExtTreeMap κ' V cmp') cmp)[k]? = none := by
    rw [nested_eq_none,nested_eq_none]
    simp only [List.mem_map,hr]
  cases hi : (nested start rows : Std.ExtTreeMap κ (Std.ExtTreeMap κ' V cmp') cmp)[k]? with
  | none => rw [hn.mp hi]
  | some inner =>
    cases hi' : (nested start rows' : Std.ExtTreeMap κ (Std.ExtTreeMap κ' V cmp') cmp)[k]? with
    | none =>
      rw [hn.mpr hi'] at hi
      cases hi
    | some inner' =>
      refine congrArg some (Std.ExtTreeMap.ext_getElem? (fun k' => Option.ext (fun v => ?_)))
      rw [getElem?_nested hs hi,getElem?_nested hs' hi',hr]

end Nested

/-- The rows of a table whose keys are known. -/
theorem toList_perm {keys : List κ} (hn : keys.Nodup) {v : κ → M}
    (h : ∀ k, table[k]? = if k ∈ keys then some (v k) else none) :
    table.toList.Perm (keys.map (fun k => (k, v k))) := by
  have ht : table.toList.Nodup := by
    refine List.Nodup.of_map (·.1) ?_
    rw [Std.ExtTreeMap.map_fst_toList_eq_keys]
    exact Std.ExtTreeMap.nodup_keys
  refine (List.perm_ext_iff_of_nodup ht (hn.map (fun _ _ he => congrArg Prod.fst he))).mpr ?_
  rintro ⟨k,m⟩
  rw [Std.ExtTreeMap.mem_toList_iff_getElem?_eq_some,h]
  simp only [List.mem_map,Prod.mk.injEq]
  constructor
  · intro hr
    split_ifs at hr with hk
    exact ⟨k,hk,rfl,Option.some.inj hr⟩
  · rintro ⟨_,hk,rfl,rfl⟩
    rw [if_pos hk]

/-- Where updates commute, the order of the rows does not matter. -/
theorem upsertAll_perm [RightCommutative f] {rows rows' : List (κ × V)} (h : rows.Perm rows') :
    upsertAll f start table rows = upsertAll f start table rows' := by
  refine Std.ExtTreeMap.ext_getElem? (fun k => ?_)
  rw [getElem?_upsertAll,getElem?_upsertAll,((h.filter _).map _).foldl_eq]
  simp only [(h.map (fun row : κ × V => row.1)).mem_iff]

instance rightCommutative_upsert [RightCommutative f] : RightCommutative (@upsert _ _ _ cmp _ f start) where
  right_comm table row row' := by
    have hswap : [row, row'].Perm [row', row] := .swap ..
    exact upsertAll_perm hswap

end Upsert
