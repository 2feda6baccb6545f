import Mathlib.Data.List.Perm.Subperm
import UwuContextDb.Core.Json
import UwuContextDb.Library.Assoc

/-! Places inside a JSON value, what stands there and what is put there, and equality of values whose objects are maps. -/

namespace UwuContextDb

open Assoc

inductive JsonStep | key (k : String) | index (i : ℕ) deriving DecidableEq

namespace Json

mutual
/-- `==`: objects are compared as maps. -/
def same : Json → Json → Bool
  | null, null => true
  | bool a, bool b => a == b
  | num a, num b => decide (a = b)
  | str a, str b => a == b
  | arr xs, arr ys => sameItems xs ys
  | obj xs, obj ys => xs.length == ys.length && sameFields xs ys
  | _, _ => false

def sameItems : List Json → List Json → Bool
  | [], [] => true
  | x::xs, y::ys => same x y && sameItems xs ys
  | _, _ => false

def sameFields : List (String × Json) → List (String × Json) → Bool
  | [], _ => true
  | (k,x)::xs, ys => (ys.lookup k).any (fun y => same x y) && sameFields xs ys
end

mutual
def allKeys (p : List String → Bool) : Json → Bool
  | arr items => allKeysItems p items
  | obj fields => p (fields.map Prod.fst) && allKeysFields p fields
  | _ => true

def allKeysItems (p : List String → Bool) : List Json → Bool
  | [] => true
  | v::vs => allKeys p v && allKeysItems p vs

def allKeysFields (p : List String → Bool) : List (String × Json) → Bool
  | [] => true
  | (_,v)::vs => allKeys p v && allKeysFields p vs
end

def DistinctKeys (v : Json) : Prop := v.allKeys (fun keys => keys.Nodup) = true

instance (v : Json) : Decidable v.DistinctKeys := inferInstanceAs (Decidable (_ = true))

def place? : List JsonStep → Option Json → Option Json
  | [], v => v
  | .key k::rest, some (obj fields) => place? rest (fields.lookup k)
  | .index i::rest, some (arr items) => place? rest items[i]?
  | _, _ => none

def Sits : List JsonStep → Json → Prop
  | [], _ => True
  | .key k::rest, obj fields => rest = [] ∨ ∃ child, fields.lookup k = some child ∧ Sits rest child
  | .index i::rest, arr items => ∃ child, items[i]? = some child ∧ Sits rest child
  | _, _ => False

def putField (k : String) : Option Json → List (String × Json) → List (String × Json)
  | none, fields => fields.filter (fun e => e.1 ≠ k)
  | some v, [] => [(k, v)]
  | some v, e::fields => if e.1 = k then (k, v)::fields else e::putField k (some v) fields

def put : List JsonStep → Option Json → Option Json → Option Json
  | [], new, _ => new
  | .key k::rest, new, some (obj fields) => some (obj (putField k (put rest new (fields.lookup k)) fields))
  | .index i::rest, new, some (arr items) => some (arr ((put rest new items[i]?).elim items (fun v => items.set i v)))
  | _, _, v => v

theorem sameItems_iff {xs ys : List Json} : sameItems xs ys = true ↔ List.Forall₂ (fun x y => same x y = true) xs ys := by
  induction xs generalizing ys with
  | nil => cases ys <;> simp [sameItems]
  | cons x xs ih => cases ys <;> simp [sameItems,ih]

theorem sameFields_iff {xs ys : List (String × Json)} : sameFields xs ys = true ↔
    ∀ e ∈ xs, ∃ y, ys.lookup e.1 = some y ∧ same e.2 y = true := by
  induction xs with
  | nil => simp [sameFields]
  | cons e xs ih =>
    obtain ⟨k,x⟩ := e
    simp [sameFields,ih,Option.any_eq_true]

theorem same_obj_iff {xs ys : List (String × Json)} (hxs : (xs.map Prod.fst).Nodup) (hys : (ys.map Prod.fst).Nodup) :
    same (obj xs) (obj ys) = true ↔ ∀ k, Option.Rel (fun x y => same x y = true) (xs.lookup k) (ys.lookup k) := by
  simp only [same,Bool.and_eq_true,beq_iff_eq,sameFields_iff]
  constructor
  · intro h k
    obtain ⟨hn,ha⟩ := h
    have hu : xs.map Prod.fst ⊆ ys.map Prod.fst := by
      intro l hl
      obtain ⟨e,he,rfl⟩ := List.mem_map.mp hl
      obtain ⟨y,hy,-⟩ := ha e he
      exact lookup_isSome_iff.mp ⟨y,hy⟩
    have hp : (xs.map Prod.fst).Perm (ys.map Prod.fst) :=
      (List.subperm_of_subset hxs hu).perm_of_length_le (by simp [hn])
    cases hx : xs.lookup k with
    | some x =>
      obtain ⟨y,hy,hs⟩ := ha (k, x) (mem_of_lookup hx)
      rw [hy]
      exact .some hs
    | none =>
      cases hy : ys.lookup k with
      | none => exact .none
      | some y =>
        obtain ⟨x,hx'⟩ := lookup_isSome_iff.mpr (hp.mem_iff.mpr (lookup_isSome_iff.mp ⟨y,hy⟩))
        rw [hx] at hx'
        cases hx'
  · intro h
    have hk : ∀ k, k ∈ xs.map Prod.fst ↔ k ∈ ys.map Prod.fst := by
      intro k
      rw [← lookup_isSome_iff,← lookup_isSome_iff]
      have hr := h k
      generalize xs.lookup k = x at hr ⊢
      generalize ys.lookup k = y at hr ⊢
      cases hr <;> simp
    constructor
    · simpa using ((List.perm_ext_iff_of_nodup hxs hys).mpr hk).length_eq
    · intro e he
      have hr := h e.1
      rw [lookup_of_mem hxs he] at hr
      generalize ys.lookup e.1 = y at hr ⊢
      cases hr with
      | some hs => exact ⟨_,rfl,hs⟩

mutual
theorem same_refl : ∀ v : Json, v.DistinctKeys → same v v = true
  | null, _ => by simp [same]
  | bool _, _ => by simp [same]
  | num _, _ => by simp [same]
  | str _, _ => by simp [same]
  | arr items, h => by simpa [same] using sameItems_refl items h
  | obj fields, h => by
    simp only [DistinctKeys, allKeys, Bool.and_eq_true, decide_eq_true_eq] at h
    simp [same, sameFields_refl fields fields h.1 (fun e he => he) h.2]

theorem sameItems_refl : ∀ vs : List Json, allKeysItems (fun keys => keys.Nodup) vs = true → sameItems vs vs = true
  | [], _ => by simp [sameItems]
  | v::vs, h => by
    simp only [allKeysItems,Bool.and_eq_true] at h
    simp [sameItems,same_refl v h.1,sameItems_refl vs h.2]

theorem sameFields_refl : ∀ (vs fs : List (String × Json)), (fs.map Prod.fst).Nodup → (∀ e ∈ vs, e ∈ fs) →
    allKeysFields (fun keys => keys.Nodup) vs = true → sameFields vs fs = true
  | [], _, _, _, _ => by simp [sameFields]
  | (k,v)::vs, fs, hn, hm, h => by
    simp only [allKeysFields,Bool.and_eq_true] at h
    have hl := lookup_of_mem hn (hm (k, v) List.mem_cons_self)
    simp [sameFields,hl,same_refl v h.1,
      sameFields_refl vs fs hn (fun e he => hm e (List.mem_cons_of_mem _ he)) h.2]
end

section Fields

variable {k l : String} {fields : List (String × Json)}

theorem lookup_filter_ne (fs : List (String × Json)) (k l : String) :
    (fs.filter (fun e => e.1 ≠ k)).lookup l = if l = k then none else fs.lookup l := by
  induction fs with
  | nil => simp
  | cons e fs ih =>
    obtain ⟨m,w⟩ := e
    by_cases hm : m = k
    · rw [List.filter_cons_of_neg (by simpa using hm),ih,lookup_cons_eq]
      by_cases hl : l = k
      · simp [hl]
      · simp [hl,hm]
    · rw [List.filter_cons_of_pos (by simpa using hm),lookup_cons_eq,lookup_cons_eq,ih]
      by_cases hl : l = k
      · subst hl
        have hlm : l ≠ m := fun he => hm he.symm
        rw [if_neg hlm,if_pos rfl,if_pos rfl]
      · rw [if_neg hl,if_neg hl]

@[simp] theorem lookup_putField (k l : String) (new : Option Json) (fs : List (String × Json)) :
    (putField k new fs).lookup l = if l = k then new else fs.lookup l := by
  cases new with
  | none =>
    rw [putField]
    exact lookup_filter_ne fs k l
  | some v =>
    induction fs with
    | nil => simp [putField,lookup_cons_eq]
    | cons e fs ih =>
      obtain ⟨m,w⟩ := e
      rw [putField]
      by_cases hm : m = k
      · subst hm
        by_cases hl : l = m <;> simp [lookup_cons_eq,hl]
      · rw [if_neg hm,lookup_cons_eq,lookup_cons_eq,ih]
        by_cases hl : l = k
        · subst hl
          have hlm : l ≠ m := fun he => hm he.symm
          rw [if_neg hlm,if_pos rfl,if_pos rfl]
        · rw [if_neg hl,if_neg hl]

theorem mem_keys_putField {new : Option Json} (h : l ∈ (putField k new fields).map Prod.fst) :
    l = k ∨ l ∈ fields.map Prod.fst := by
  obtain ⟨v,hv⟩ := lookup_isSome_iff.mpr h
  rw [lookup_putField] at hv
  split at hv
  · rename_i hl
    exact .inl hl
  · exact .inr (lookup_isSome_iff.mp ⟨v,hv⟩)

theorem nodup_putField (h : (fields.map Prod.fst).Nodup) (k : String) (new : Option Json) :
    ((putField k new fields).map Prod.fst).Nodup := by
  cases new with
  | none =>
    rw [putField]
    exact h.sublist (List.filter_sublist.map Prod.fst)
  | some v =>
    induction fields with
    | nil => simp [putField]
    | cons e fields ih =>
      obtain ⟨hl,hf⟩ := List.nodup_cons.mp h
      rw [putField]
      split
      · rename_i hk
        exact hk ▸ List.nodup_cons.mpr ⟨hl,hf⟩
      · rename_i hk
        refine List.nodup_cons.mpr ⟨fun hm => ?_,ih hf⟩
        rcases mem_keys_putField hm with he | hm
        · exact hk he
        · exact hl hm

end Fields

section Children

variable {p : List String → Bool} {v : Json} {items : List Json} {fields : List (String × Json)}

theorem allKeys_item (h : (arr items).allKeys p = true) (hv : v ∈ items) : v.allKeys p = true := by
  replace h : allKeysItems p items = true := by simpa [allKeys] using h
  induction items with
  | nil => cases hv
  | cons w items ih =>
    simp only [allKeysItems,Bool.and_eq_true] at h
    rcases List.mem_cons.mp hv with rfl | hv
    · exact h.1
    · exact ih hv h.2

theorem allKeys_field {k : String} (h : (obj fields).allKeys p = true) (hv : (k, v) ∈ fields) : v.allKeys p = true := by
  replace h : allKeysFields p fields = true := by
    simp only [allKeys,Bool.and_eq_true] at h
    exact h.2
  induction fields with
  | nil => cases hv
  | cons e fields ih =>
    obtain ⟨l,w⟩ := e
    simp only [allKeysFields,Bool.and_eq_true] at h
    rcases List.mem_cons.mp hv with he | hv
    · obtain ⟨rfl,rfl⟩ := Prod.mk.inj he
      exact h.1
    · exact ih hv h.2

theorem allKeys_keys (h : (obj fields).allKeys p = true) : p (fields.map Prod.fst) = true := by
  simp only [allKeys,Bool.and_eq_true] at h
  exact h.1

theorem depth_pos (v : Json) : 0 < v.depth := by
  cases v <;> simp [depth]

theorem depth_item (hv : v ∈ items) : v.depth < (arr items).depth := by
  have hl : v.depth ≤ itemsDepth items := by
    induction items with
    | nil => cases hv
    | cons w items ih =>
      rw [itemsDepth]
      rcases List.mem_cons.mp hv with rfl | hv
      · exact Nat.le_max_left ..
      · exact (ih hv).trans (Nat.le_max_right ..)
  rw [depth]
  omega

theorem depth_field {k : String} (hv : (k, v) ∈ fields) : v.depth < (obj fields).depth := by
  have hl : v.depth ≤ fieldsDepth fields := by
    induction fields with
    | nil => cases hv
    | cons e fields ih =>
      obtain ⟨l,w⟩ := e
      rw [fieldsDepth]
      rcases List.mem_cons.mp hv with he | hv
      · obtain ⟨rfl,rfl⟩ := Prod.mk.inj he
        exact Nat.le_max_left ..
      · exact (ih hv).trans (Nat.le_max_right ..)
  rw [depth]
  omega

end Children

end Json
end UwuContextDb
