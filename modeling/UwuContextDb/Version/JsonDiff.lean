import Mathlib.Data.List.Sort
import Mathlib.Data.String.Basic
import UwuContextDb.Core.JsonPath
import UwuContextDb.Core.Text
import UwuContextDb.Library.Words
import UwuContextDb.Version.Model

/-! The structured diff of two JSON values: the changes it lists, and what carrying them out gives. -/

namespace UwuContextDb.Version

open Assoc
open Json
open List (mem_cons_self mem_cons_of_mem mem_cons append_nil mem_append mem_of_getElem? map_nil mem_map)

inductive ChangeType | set | remove | arrayAppend | arrayRemove deriving DecidableEq

structure EntityChange where
  entityUri : ContextUri
  field : String
  oldValue : Option Json
  newValue : Option Json
  changeType : ChangeType
  deriving DecidableEq

def pathOrRoot (path : String) : String := if path.isEmpty then "*" else path

def fieldPath (path key : String) : String := if path.isEmpty then key else path ++ "." ++ key

def itemPath (path : String) (idx : ℕ) : String := pathOrRoot path ++ "[" ++ idx.repr ++ "]"

/-- `Vec::dedup`: of equal neighbours one is kept. -/
def dedupNeighbours : List String → List String
  | a::b::rest => if a = b then dedupNeighbours (b::rest) else a::dedupNeighbours (b::rest)
  | keys => keys

def diffKeys (oldMap newMap : List (String × Json)) : List String :=
  dedupNeighbours ((oldMap.map Prod.fst ++ newMap.map Prod.fst).insertionSort (fun a b => a ≤ b))

/-- `diff_json_value`; the fuel covers the depth of the old value. -/
def diffJsonValue (uri : ContextUri) : ℕ → String → Json → Json → List EntityChange
  | 0, _, _, _ => []
  | fuel+1, path, .obj oldMap, .obj newMap =>
    (diffKeys oldMap newMap).flatMap (fun key =>
      let childPath := fieldPath path key
      match oldMap.lookup key, newMap.lookup key with
      | some oldChild, some newChild => diffJsonValue uri fuel childPath oldChild newChild
      | some oldChild, none => [⟨uri, childPath, some oldChild, none, .remove⟩]
      | none, some newChild => [⟨uri, childPath, none, some newChild, .set⟩]
      | none, none => [])
  | fuel+1, path, .arr oldItems, .arr newItems =>
    let common := min oldItems.length newItems.length
    (List.range common).flatMap (fun idx =>
      match oldItems[idx]?, newItems[idx]? with
      | some oldItem, some newItem => diffJsonValue uri fuel (itemPath path idx) oldItem newItem
      | _, _ => []) ++
    (newItems.drop common).map (fun item => ⟨uri, pathOrRoot path, none, some item, .arrayAppend⟩) ++
    (oldItems.drop common).map (fun item => ⟨uri, pathOrRoot path, some item, none, .arrayRemove⟩)
  | _+1, path, old, new => if old ≠ new then [⟨uri, pathOrRoot path, some old, some new, .set⟩] else []

def diffJson (uri : ContextUri) (old new : Json) : List EntityChange := diffJsonValue uri old.depth "" old new

def stepPath (path : String) : JsonStep → String
  | .key k => fieldPath path k
  | .index i => itemPath path i

def textOf (steps : List JsonStep) : String := steps.foldl stepPath ""

structure JsonEdit where
  steps : List JsonStep
  old : Option Json
  new : Option Json
  type : ChangeType

namespace JsonEdit

def under (s : JsonStep) (e : JsonEdit) : JsonEdit := { e with steps := s::e.steps }

/-- The field of an edit below a place: `*` stands for the root, but not where a key is added or removed. -/
def field (front : List JsonStep) (e : JsonEdit) : String :=
  if e.type = .remove ∨ e.type = .set ∧ e.old = none then textOf (front ++ e.steps)
    else pathOrRoot (textOf (front ++ e.steps))

def render (uri : ContextUri) (front : List JsonStep) (e : JsonEdit) : EntityChange :=
  ⟨uri, e.field front, e.old, e.new, e.type⟩

theorem render_under (u : ContextUri) (front : List JsonStep) (s : JsonStep) (e : JsonEdit) :
    (e.under s).render u front = e.render u (front++[s]) := by
  unfold render field under
  rw [List.append_assoc]
  rfl

end JsonEdit

def fieldEdits (diff : Json → Json → List JsonEdit) (oldMap newMap : List (String × Json)) (key : String) : List JsonEdit :=
  match oldMap.lookup key, newMap.lookup key with
  | some oldChild, some newChild => (diff oldChild newChild).map (JsonEdit.under (.key key))
  | some oldChild, none => [⟨[.key key], some oldChild, none, .remove⟩]
  | none, some newChild => [⟨[.key key], none, some newChild, .set⟩]
  | none, none => []

def itemEdits (diff : Json → Json → List JsonEdit) (oldItems newItems : List Json) (idx : ℕ) : List JsonEdit :=
  match oldItems[idx]?, newItems[idx]? with
  | some oldItem, some newItem => (diff oldItem newItem).map (JsonEdit.under (.index idx))
  | _, _ => []

def edits : ℕ → Json → Json → List JsonEdit
  | 0, _, _ => []
  | fuel+1, .obj oldMap, .obj newMap => (diffKeys oldMap newMap).flatMap (fieldEdits (edits fuel) oldMap newMap)
  | fuel+1, .arr oldItems, .arr newItems =>
    let common := min oldItems.length newItems.length
    (List.range common).flatMap (itemEdits (edits fuel) oldItems newItems) ++
    (newItems.drop common).map (fun item => ⟨[], none, some item, .arrayAppend⟩) ++
    (oldItems.drop common).map (fun item => ⟨[], some item, none, .arrayRemove⟩)
  | _+1, old, new => if old ≠ new then [⟨[], some old, some new, .set⟩] else []

inductive Pairing : Json → Json → Prop
  | objects (oldMap newMap : List (String × Json)) : Pairing (.obj oldMap) (.obj newMap)
  | arrays (oldItems newItems : List Json) : Pairing (.arr oldItems) (.arr newItems)
  | others (old new : Json) (hobj : ∀ oldMap newMap, ¬ (old = .obj oldMap ∧ new = .obj newMap))
    (harr : ∀ oldItems newItems, ¬ (old = .arr oldItems ∧ new = .arr newItems)) : Pairing old new

theorem pairing (old new : Json) : Pairing old new := by
  cases old with
  | obj oldMap =>
    cases new with
    | obj newMap => exact .objects oldMap newMap
    | _ => exact .others _ _ (by simp) (by simp)
  | arr oldItems =>
    cases new with
    | arr newItems => exact .arrays oldItems newItems
    | _ => exact .others _ _ (by simp) (by simp)
  | _ => exact .others _ _ (by simp) (by simp)

variable {u : Json}

variable {fuel : ℕ} {old new : Json} {path : String} {steps : List JsonStep} {v u' : Json}

theorem edits_others (ho : ∀ oldMap newMap, ¬ (old = .obj oldMap ∧ new = .obj newMap))
    (ha : ∀ oldItems newItems, ¬ (old = .arr oldItems ∧ new = .arr newItems)) :
    edits (fuel+1) old new = if old ≠ new then [⟨[],some old,some new, .set⟩] else [] := by
  unfold edits
  split
  · rename_i hf
    cases hf
  · exact absurd ⟨rfl,rfl⟩ (ho _ _)
  · exact absurd ⟨rfl,rfl⟩ (ha _ _)
  · rfl

theorem diffJsonValue_others {u : ContextUri} (ho : ∀ oldMap newMap, ¬ (old = .obj oldMap ∧ new = .obj newMap))
    (ha : ∀ oldItems newItems, ¬ (old = .arr oldItems ∧ new = .arr newItems)) :
    diffJsonValue u (fuel+1) path old new =
      if old ≠ new then [⟨u,pathOrRoot path,some old,some new, .set⟩] else [] := by
  unfold diffJsonValue
  split
  · rename_i hf
    cases hf
  · exact absurd ⟨rfl,rfl⟩ (ho _ _)
  · exact absurd ⟨rfl,rfl⟩ (ha _ _)
  · rfl

theorem diffJsonValue_eq (u : ContextUri) (fuel : ℕ) (front : List JsonStep) (old new : Json) :
    diffJsonValue u fuel (textOf front) old new = (edits fuel old new).map (JsonEdit.render u front) := by
  have hc : ∀ (front : List JsonStep) (s : JsonStep), stepPath (textOf front) s = textOf (front++[s]) := by
    intro front s
    simp [textOf]
  have hu : ∀ (front : List JsonStep) (s : JsonStep) (es : List JsonEdit),
      (es.map (JsonEdit.under s)).map (JsonEdit.render u front) = es.map (JsonEdit.render u (front++[s])) := by
    intro front s es
    simp [JsonEdit.render_under]
  induction fuel generalizing front old new with
  | zero => rfl
  | succ fuel ih =>
    cases pairing old new with
    | objects oldMap newMap =>
      simp only [diffJsonValue,edits,List.map_flatMap]
      congr 1
      funext key
      have hk : fieldPath (textOf front) key = textOf (front++[.key key]) := hc front (.key key)
      unfold fieldEdits
      cases oldMap.lookup key with
      | none =>
        cases newMap.lookup key with
        | none => rfl
        | some newChild => simp [JsonEdit.render,JsonEdit.field,hk]
      | some oldChild =>
        cases newMap.lookup key with
        | none => simp [JsonEdit.render,JsonEdit.field,hk]
        | some newChild =>
          dsimp only
          rw [hu,hk,ih]
    | arrays oldItems newItems =>
      simp only [diffJsonValue,edits,List.map_append,List.map_flatMap,List.map_map]
      congr 1
      · congr 1
        · congr 1
          funext idx
          have hi : itemPath (textOf front) idx = textOf (front++[.index idx]) := hc front (.index idx)
          unfold itemEdits
          cases oldItems[idx]? with
          | none => rfl
          | some oldItem =>
            cases newItems[idx]? with
            | none => rfl
            | some newItem =>
              dsimp only
              rw [hu,hi,ih]
        · apply List.map_congr_left
          intro item _
          simp [JsonEdit.render,JsonEdit.field]
      · apply List.map_congr_left
        intro item _
        simp [JsonEdit.render,JsonEdit.field]
    | others _ _ ho ha =>
      rw [diffJsonValue_others ho ha,edits_others ho ha]
      split
      · simp [JsonEdit.render,JsonEdit.field]
      · rfl

/-- The items less the last one equal to `item`. -/
def eraseLast (item : Json) (items : List Json) : List Json := (items.reverse.erase item).reverse

/-- What a change makes of the value at its place, which has to be its old one. An item is appended to an array, or
removed. -/
def replacement : ChangeType → Option Json → Option Json → Option Json → Option (Option Json)
  | .set, old, some new, current => if current = old then some (some new) else none
  | .remove, some old, none, current => if current = some old then some none else none
  | .arrayAppend, none, some new, some (.arr items) => some (some (.arr (items ++ [new])))
  | .arrayRemove, some old, none, some (.arr items) =>
    if old ∈ items then some (some (.arr (eraseLast old items))) else none
  | _, _, _, _ => none

def CarriedAt (steps : List JsonStep) (type : ChangeType) (old new : Option Json) (v v' : Json) : Prop :=
  Sits steps v ∧ ∃ r, replacement type old new (place? steps (some v)) = some r ∧ put steps r (some v) = some v'

inductive InTurn {α : Type} (R : α → Json → Json → Prop) : List α → Json → Json → Prop
  | nil (v : Json) : InTurn R [] v v
  | cons {e : α} {es : List α} {u v w : Json} (head : R e u v) (tail : InTurn R es v w) : InTurn R (e::es) u w

theorem InTurn.append {α : Type} {R : α → Json → Json → Prop} {es fs : List α} {u v w : Json} (h : InTurn R es u v)
    (h' : InTurn R fs v w) : InTurn R (es++fs) u w := by
  induction h with
  | nil v => exact h'
  | cons head _ ih => exact .cons head (ih h')

variable {es : List JsonEdit} {child : Json}

namespace JsonEdit

def Done (e : JsonEdit) (v v' : Json) : Prop := CarriedAt e.steps e.type e.old e.new v v'

variable {e : JsonEdit} {k : String} {i : ℕ}
    {fields : List (String × Json)} {items : List Json}

theorem Done.under_key (h : e.Done child u) (hk : fields.lookup k = some child) :
    (e.under (.key k)).Done (.obj fields) (.obj (putField k (some u) fields)) := by
  obtain ⟨hs,r,hr,hp⟩ := h
  refine ⟨.inr ⟨child,hk,hs⟩,r,?_,?_⟩
  · show replacement e.type e.old e.new (place? e.steps (fields.lookup k)) = some r
    rw [hk,hr]
  · show some (Json.obj (putField k (put e.steps r (fields.lookup k)) fields)) = _
    rw [hk,hp]

theorem Done.under_index (h : e.Done child u) (hi : items[i]? = some child) :
    (e.under (.index i)).Done (.arr items) (.arr (items.set i u)) := by
  obtain ⟨hs,r,hr,hp⟩ := h
  refine ⟨⟨child,hi,hs⟩,r,?_,?_⟩
  · show replacement e.type e.old e.new (place? e.steps items[i]?) = some r
    rw [hi,hr]
  · show some (Json.arr ((put e.steps r items[i]?).elim items (fun v => items.set i v))) = _
    rw [hi,hp]
    rfl

end JsonEdit

section Below

theorem InTurn.under_key (h : InTurn JsonEdit.Done es child u) {k : String} {fs : List (String × Json)}
    (hn : (fs.map Prod.fst).Nodup) (hk : fs.lookup k = some child) :
    ∃ fs', InTurn JsonEdit.Done (es.map (JsonEdit.under (.key k))) (.obj fs) (.obj fs') ∧
      (fs'.map Prod.fst).Nodup ∧ ∀ l, fs'.lookup l = if l = k then some u else fs.lookup l := by
  induction h generalizing fs with
  | nil v =>
    refine ⟨fs, .nil _,hn,fun l => ?_⟩
    split
    · rename_i hl
      rw [hl,hk]
    · rfl
  | @cons e es v w x head tail ih =>
    obtain ⟨fs',hc,hn',ho⟩ := ih (nodup_putField hn k (some w)) (by simp)
    refine ⟨fs', .cons (head.under_key hk) hc,hn',fun l => ?_⟩
    rw [ho,lookup_putField]
    split <;> rfl

theorem InTurn.under_index (h : InTurn JsonEdit.Done es child u) {i : ℕ} {items : List Json} (hi : items[i]? = some child) :
    InTurn JsonEdit.Done (es.map (JsonEdit.under (.index i))) (.arr items) (.arr (items.set i u)) := by
  induction h generalizing items with
  | nil v =>
    obtain ⟨hl,hg⟩ := List.getElem?_eq_some_iff.mp hi
    rw [← hg,List.set_getElem_self]
    exact .nil _
  | @cons e es v w x head tail ih =>
    have hl := (List.getElem?_eq_some_iff.mp hi).1
    have ht := @ih (items.set i w) (by simp [hl])
    rw [List.set_set] at ht
    exact .cons (head.under_index hi) ht

end Below

theorem forall₂_iff_rel {R : Json → Json → Prop} {xs ys : List Json} :
    List.Forall₂ R xs ys ↔ ∀ i : ℕ, Option.Rel R xs[i]? ys[i]? := by
  induction xs generalizing ys with
  | nil =>
    cases ys with
    | nil => simp
    | cons y ys =>
      refine iff_of_false (by simp) (fun h => ?_)
      have hr : Option.Rel R none (some y) := h 0
      cases hr
  | cons x xs ih =>
    cases ys with
    | nil =>
      refine iff_of_false (by simp) (fun h => ?_)
      have hr : Option.Rel R (some x) none := h 0
      cases hr
    | cons y ys =>
      rw [List.forall₂_cons,ih]
      constructor
      · intro h i
        cases i with
        | zero => exact .some h.1
        | succ i => exact h.2 i
      · intro h
        have hr : Option.Rel R (some x) (some y) := h 0
        cases hr with
        | some hx => exact ⟨hx,fun i => h (i+1)⟩

theorem same_arr_iff {xs ys : List Json} :
    same (.arr xs) (.arr ys) = true ↔ ∀ i : ℕ, Option.Rel (fun x y => same x y = true) xs[i]? ys[i]? := by
  rw [same,sameItems_iff,forall₂_iff_rel]

abbrev SameOption : Option Json → Option Json → Prop := Option.Rel (fun x y => same x y = true)

variable {diff : Json → Json → List JsonEdit} {oldMap newMap : List (String × Json)}

section Objects

theorem chain_field {key : String} (hi : ∀ old new, oldMap.lookup key = some old → newMap.lookup key = some new →
      ∃ u, InTurn JsonEdit.Done (diff old new) old u ∧ same u new = true)
    (hr : ∀ new, newMap.lookup key = some new → same new new = true)
    {fs : List (String × Json)} (hn : (fs.map Prod.fst).Nodup)
    (hf : fs.lookup key = oldMap.lookup key) :
    ∃ fs', InTurn JsonEdit.Done (fieldEdits diff oldMap newMap key) (.obj fs) (.obj fs') ∧
      (fs'.map Prod.fst).Nodup ∧ SameOption (fs'.lookup key) (newMap.lookup key) ∧
      ∀ l, l ≠ key → fs'.lookup l = fs.lookup l := by
  have hp : place? [.key key] (some (.obj fs)) = oldMap.lookup key := hf
  unfold fieldEdits
  cases ho : oldMap.lookup key with
  | none =>
    cases he : newMap.lookup key with
    | none => exact ⟨fs, .nil _,hn,by rw [hf,ho]; exact .none,fun l _ => rfl⟩
    | some new =>
      have hd : (⟨[.key key],none,some new, .set⟩ : JsonEdit).Done (.obj fs)
          (.obj (putField key (some new) fs)) :=
        ⟨.inl rfl,some new,by rw [hp,ho]; rfl,rfl⟩
      refine ⟨_, .cons hd (.nil _),nodup_putField hn _ _,?_,fun l hl => by simp [hl]⟩
      rw [lookup_putField,if_pos rfl]
      exact .some (hr new he)
  | some old =>
    cases he : newMap.lookup key with
    | none =>
      have hd : (⟨[.key key],some old,none, .remove⟩ : JsonEdit).Done (.obj fs)
          (.obj (putField key none fs)) :=
        ⟨.inl rfl,none,by rw [hp,ho]; simp [replacement],rfl⟩
      refine ⟨_, .cons hd (.nil _),nodup_putField hn _ _,?_,fun l hl => by simp [hl]⟩
      rw [lookup_putField,if_pos rfl]
      exact .none
    | some new =>
      obtain ⟨u,hc,hs⟩ := hi old new ho he
      obtain ⟨fs',hc',hn',hlo⟩ := hc.under_key hn (hf.trans ho)
      refine ⟨fs',hc',hn',?_,fun l hl => by rw [hlo,if_neg hl]⟩
      rw [hlo,if_pos rfl]
      exact .some hs

theorem chain_fields {keys : List String}
    (hd : ∀ key old new, oldMap.lookup key = some old → newMap.lookup key = some new →
      ∃ u, InTurn JsonEdit.Done (diff old new) old u ∧ same u new = true)
    (hr : ∀ key new, newMap.lookup key = some new → same new new = true) (hk : keys.Nodup)
    {fs : List (String × Json)} (hn : (fs.map Prod.fst).Nodup)
    (hf : ∀ key ∈ keys, fs.lookup key = oldMap.lookup key) :
    ∃ fs', InTurn JsonEdit.Done (keys.flatMap (fieldEdits diff oldMap newMap)) (.obj fs) (.obj fs') ∧
      (fs'.map Prod.fst).Nodup ∧ (∀ key ∈ keys, SameOption (fs'.lookup key) (newMap.lookup key)) ∧
      ∀ l, l ∉ keys → fs'.lookup l = fs.lookup l := by
  induction keys generalizing fs with
  | nil => exact ⟨fs, .nil _,hn,by simp,fun l _ => rfl⟩
  | cons key keys ih =>
    obtain ⟨he,hk⟩ := List.nodup_cons.mp hk
    obtain ⟨first,hc,hi,hs,ho⟩ := chain_field (hd key) (hr key) hn (hf key mem_cons_self)
    have hre : ∀ l ∈ keys, first.lookup l = oldMap.lookup l := by
      intro l hl
      have hne : l ≠ key := fun hq => he (hq ▸ hl)
      rw [ho l hne,hf l (mem_cons_of_mem _ hl)]
    obtain ⟨fs',hc',hn',hs',ho'⟩ := ih hk hi hre
    refine ⟨fs',hc.append hc',hn',fun l hl => ?_,fun l hl => ?_⟩
    · rcases mem_cons.mp hl with rfl | hl
      · rw [ho' l he]
        exact hs
      · exact hs' l hl
    · rw [mem_cons,not_or] at hl
      rw [ho' l hl.2,ho l hl.1]

end Objects

section Arrays

variable {oldItems newItems : List Json}

theorem chain_items (hd : ∀ (i : ℕ) old new, oldItems[i]? = some old → newItems[i]? = some new →
      ∃ u, InTurn JsonEdit.Done (diff old new) old u ∧ same u new = true) {n : ℕ}
      (hn : n ≤ min oldItems.length newItems.length) :
    ∃ items, InTurn JsonEdit.Done ((List.range n).flatMap (itemEdits diff oldItems newItems)) (.arr oldItems) (.arr items) ∧
      items.length = oldItems.length ∧ (∀ i : ℕ, i < n → SameOption items[i]? newItems[i]?) ∧ ∀ i :
      ℕ, n ≤ i → items[i]? = oldItems[i]? := by
  induction n with
  | zero => exact ⟨oldItems, .nil _,rfl,by simp,fun i _ => rfl⟩
  | succ n ih =>
    obtain ⟨items,hc,hl,hb,ha⟩ := ih (by omega)
    have hO : n < oldItems.length := by omega
    have hN : n < newItems.length := by omega
    have ho : oldItems[n]? = some oldItems[n] := List.getElem?_eq_getElem hO
    have he : newItems[n]? = some newItems[n] := List.getElem?_eq_getElem hN
    obtain ⟨u,hh,hs⟩ := hd n _ _ ho he
    have ht : items[n]? = some oldItems[n] := (ha n (Nat.le_refl n)).trans ho
    have hst := hh.under_index ht
    refine ⟨items.set n u,?_,by rw [List.length_set,hl],fun i hi => ?_,fun i hi => ?_⟩
    · rw [List.range_succ,List.flatMap_append]
      apply hc.append
      simpa [itemEdits,ho,he] using hst
    · by_cases hq : i = n
      · subst hq
        rw [List.getElem?_set_self (List.getElem?_eq_some_iff.mp ht).1,he]
        exact .some hs
      · rw [List.getElem?_set_ne (Ne.symm hq)]
        exact hb i (by omega)
    · rw [List.getElem?_set_ne (by omega)]
      exact ha i (by omega)

theorem chain_appends (items added : List Json) : InTurn JsonEdit.Done
    (added.map (fun item => ⟨[],none,some item, .arrayAppend⟩)) (.arr items) (.arr (items++added)) := by
  induction added generalizing items with
  | nil =>
    rw [append_nil]
    exact .nil _
  | cons item added ih =>
    have hr := ih (items++[item])
    rw [List.append_assoc] at hr
    exact .cons ⟨trivial,_,rfl,rfl⟩ hr

theorem chain_removes (front : List Json) {removed rest : List Json} (hp : removed.Perm rest) : InTurn JsonEdit.Done
    (removed.map (fun item => ⟨[],some item,none, .arrayRemove⟩)) (.arr (front++rest)) (.arr front) := by
  induction removed generalizing rest with
  | nil =>
    obtain rfl := hp.nil_eq
    rw [append_nil]
    exact .nil _
  | cons item removed ih =>
    have hm : item ∈ rest := hp.mem_iff.mp mem_cons_self
    have he : eraseLast item (front++rest) = front ++ eraseLast item rest := by
      simp [eraseLast,List.erase_append_left,hm]
    have hr : removed.Perm (eraseLast item rest) := by
      have hv : (rest.reverse.erase item).Perm (rest.erase item) := (List.reverse_perm rest).erase item
      have hl := (List.cons_perm_iff_perm_erase.mp hp).2
      exact hl.trans (hv.symm.trans (List.reverse_perm _).symm)
    have hd : (⟨[],some item,none, .arrayRemove⟩ : JsonEdit).Done (.arr (front++rest))
        (.arr (front++eraseLast item rest)) := by
      refine ⟨trivial,some (.arr (eraseLast item (front++rest))),?_,by rw [he]; rfl⟩
      show (if item ∈ front++rest then _ else none) = _
      rw [if_pos (List.mem_append_right front hm)]
    exact .cons hd (ih hr)

end Arrays

section Keys

theorem mem_dedupNeighbours {key : String} {keys : List String} : key ∈ dedupNeighbours keys ↔ key ∈ keys := by
  induction keys with
  | nil => rfl
  | cons a keys ih =>
    cases keys with
    | nil => rfl
    | cons b rest =>
      rw [dedupNeighbours]
      split
      · rename_i he
        rw [ih,he]
        simp
      · rw [mem_cons,ih]
        simp

theorem nodup_dedupNeighbours {keys : List String} (h : keys.Pairwise (fun a b => a ≤ b)) :
    (dedupNeighbours keys).Nodup := by
  induction keys with
  | nil => exact List.nodup_nil
  | cons a keys ih =>
    obtain ⟨ha,ht⟩ := List.pairwise_cons.mp h
    cases keys with
    | nil => exact List.nodup_singleton a
    | cons b rest =>
      rw [dedupNeighbours]
      split
      · exact ih ht
      · rename_i hn
        refine List.nodup_cons.mpr ⟨fun hm => ?_,ih ht⟩
        have hm := mem_dedupNeighbours.mp hm
        rcases mem_cons.mp hm with he | hr
        · exact hn he
        · have hl := (List.pairwise_cons.mp ht).1 a hr
          exact hn (le_antisymm (ha b mem_cons_self) hl)

theorem mem_diffKeys {key : String} :
    key ∈ diffKeys oldMap newMap ↔ key ∈ oldMap.map Prod.fst ∨ key ∈ newMap.map Prod.fst := by
  rw [diffKeys,mem_dedupNeighbours,List.mem_insertionSort,mem_append]

theorem nodup_diffKeys (oldMap newMap : List (String × Json)) : (diffKeys oldMap newMap).Nodup :=
  nodup_dedupNeighbours (List.pairwise_insertionSort _ _)

theorem lookup_of_notMem_diffKeys {key : String} (h : key ∉ diffKeys oldMap newMap) :
    oldMap.lookup key = none ∧ newMap.lookup key = none := by
  rw [mem_diffKeys,not_or,← lookup_isSome_iff,← lookup_isSome_iff] at h
  constructor
  · cases ho : oldMap.lookup key with
    | none => rfl
    | some v => exact absurd ⟨v,ho⟩ h.1
  · cases hn : newMap.lookup key with
    | none => rfl
    | some v => exact absurd ⟨v,hn⟩ h.2

end Keys

theorem edits_reach (hu : old.depth ≤ fuel) (hl : old.DistinctKeys) (he : new.DistinctKeys) :
    ∃ v, InTurn JsonEdit.Done (edits fuel old new) old v ∧ same v new = true := by
  induction fuel generalizing old new with
  | zero => exact absurd (depth_pos old) (by omega)
  | succ fuel ih =>
    cases pairing old new with
    | objects oldMap newMap =>
      have hy : (newMap.map Prod.fst).Nodup := by simpa using allKeys_keys he
      obtain ⟨fields,hc,hd,hs,hh⟩ := @chain_fields (edits fuel) oldMap newMap (diffKeys oldMap newMap)
        (fun key o n ho hn => ih (by have := depth_field (mem_of_lookup ho); omega) (allKeys_field hl (mem_of_lookup ho))
          (allKeys_field he (mem_of_lookup hn)))
        (fun key n hn => same_refl n (allKeys_field he (mem_of_lookup hn))) (nodup_diffKeys oldMap newMap)
        oldMap (by simpa using allKeys_keys hl) (fun key _ => rfl)
      refine ⟨.obj fields,hc,(same_obj_iff hd hy).mpr fun key => ?_⟩
      by_cases hk : key ∈ diffKeys oldMap newMap
      · exact hs key hk
      · obtain ⟨ho,hn⟩ := lookup_of_notMem_diffKeys hk
        rw [hh key hk,ho,hn]
        exact .none
    | arrays oldItems newItems =>
      obtain ⟨items,hc,hlen,hb,ha⟩ := @chain_items (edits fuel) oldItems newItems
        (fun i o n ho hn => ih (by have := depth_item (mem_of_getElem? ho); omega)
          (allKeys_item hl (mem_of_getElem? ho)) (allKeys_item he (mem_of_getElem? hn)))
        (min oldItems.length newItems.length) (Nat.le_refl _)
      have hr : ∀ i : ℕ, SameOption newItems[i]? newItems[i]? := by
        intro i
        cases hi : newItems[i]? with
        | none => exact .none
        | some n => exact .some (same_refl n (allKeys_item he (mem_of_getElem? hi)))
      rw [edits]
      generalize hm : min oldItems.length newItems.length = common at hc hb ha ⊢
      have hf : (items.take common).length = common := by
        rw [List.length_take]
        omega
      have hdr : items.drop common = oldItems.drop common := by
        apply List.ext_getElem?
        intro i
        rw [List.getElem?_drop,List.getElem?_drop,ha _ (by omega)]
      refine ⟨.arr (items.take common++newItems.drop common),?_,?_⟩
      · -- only one of the two arrays goes on behind the common part
        rcases Nat.le_total oldItems.length newItems.length with hle | hle
        · have hno : oldItems.drop common = [] := List.drop_eq_nil_of_le (by omega)
          have hal : items.take common = items := List.take_of_length_le (by omega)
          rw [hno,hal,map_nil,append_nil]
          exact hc.append (chain_appends items _)
        · have hno : newItems.drop common = [] := List.drop_eq_nil_of_le (by omega)
          have hp : items = items.take common ++ oldItems.drop common := by
            rw [← hdr,List.take_append_drop]
          rw [hno,map_nil,append_nil,append_nil]
          refine hc.append ?_
          conv in (Json.arr items) => rw [hp]
          exact chain_removes _ (List.Perm.refl _)
      · refine same_arr_iff.mpr fun i => ?_
        rcases Nat.lt_or_ge i common with ht | hg
        · rw [List.getElem?_append_left (by omega),List.getElem?_take_of_lt ht]
          exact hb i ht
        · rw [List.getElem?_append_right (by omega),hf,List.getElem?_drop,Nat.add_sub_cancel' hg]
          exact hr i
    | others _ _ hj har =>
      rw [edits_others hj har]
      split
      · exact ⟨new, .cons ⟨trivial,some new,by simp [replacement,place?],rfl⟩ (.nil _),same_refl new he⟩
      · rename_i hq
        obtain rfl : old = new := by simpa using hq
        exact ⟨old, .nil _,same_refl old hl⟩

theorem eq_of_same (ho : ∀ oldMap newMap, ¬ (old = .obj oldMap ∧ new = .obj newMap))
    (ha : ∀ oldItems newItems, ¬ (old = .arr oldItems ∧ new = .arr newItems)) (h : same old new = true) : old = new := by
  cases old <;> cases new <;> simp_all [same]

theorem edits_of_same (hl : old.DistinctKeys) (he : new.DistinctKeys)
    (h : same old new = true) : edits fuel old new = [] := by
  induction fuel generalizing old new with
  | zero => rfl
  | succ fuel ih =>
    cases pairing old new with
    | objects oldMap newMap =>
      have hr := (same_obj_iff (by simpa using allKeys_keys hl) (by simpa using allKeys_keys he)).mp h
      rw [edits,List.flatMap_eq_nil_iff]
      intro key _
      have hk := hr key
      unfold fieldEdits
      cases ho : oldMap.lookup key with
      | none =>
        rw [ho] at hk
        cases hn : newMap.lookup key with
        | none => rfl
        | some n =>
          rw [hn] at hk
          cases hk
      | some o =>
        rw [ho] at hk
        cases hn : newMap.lookup key with
        | none =>
          rw [hn] at hk
          cases hk
        | some n =>
          rw [hn] at hk
          cases hk with
          | some hs =>
            dsimp only
            rw [ih (allKeys_field hl (mem_of_lookup ho)) (allKeys_field he (mem_of_lookup hn)) hs,map_nil]
    | arrays oldItems newItems =>
      have hr := same_arr_iff.mp h
      have hle : oldItems.length = newItems.length := by
        rw [same,sameItems_iff] at h
        exact h.length_eq
      have hl' : oldItems.drop (min oldItems.length newItems.length) = [] := List.drop_eq_nil_of_le (by omega)
      have he' : newItems.drop (min oldItems.length newItems.length) = [] := List.drop_eq_nil_of_le (by omega)
      rw [edits,hl',he',map_nil,map_nil,append_nil,append_nil,List.flatMap_eq_nil_iff]
      intro i _
      have hi := hr i
      unfold itemEdits
      cases ho : oldItems[i]? with
      | none => rfl
      | some o =>
        rw [ho] at hi
        cases hn : newItems[i]? with
        | none => rfl
        | some n =>
          rw [hn] at hi
          cases hi with
          | some hs =>
            dsimp only
            rw [ih (allKeys_item hl (mem_of_getElem? ho)) (allKeys_item he (mem_of_getElem? hn)) hs,map_nil]
    | others _ _ hb ha =>
      rw [edits_others hb ha,if_neg]
      simpa using eq_of_same hb ha h

theorem edits_eq_nil_iff (hf : old.depth ≤ fuel) (ho : old.DistinctKeys)
    (hn : new.DistinctKeys) : edits fuel old new = [] ↔ same old new = true := by
  constructor
  · intro hi
    obtain ⟨v,hc,hs⟩ := edits_reach hf ho hn
    rw [hi] at hc
    cases hc
    exact hs
  · exact edits_of_same ho hn

def plainKey (key : String) : Bool := !key.isEmpty && key.toList.all (fun c => c != '.' && c != '[')

def PlainSteps (steps : List JsonStep) : Prop := ∀ key, .key key ∈ steps → plainKey key = true

def EntityChange.Carried (c : EntityChange) (v v' : Json) : Prop :=
  ∃ steps, PlainSteps steps ∧ pathOrRoot (textOf steps) = c.field ∧ CarriedAt steps c.changeType c.oldValue c.newValue v v'

def tailText : List JsonStep → List Char
  | [] => []
  | .key k::rest => '.'::(k.toList ++ tailText rest)
  | .index i::rest => '['::(i.repr.toList ++ ']'::tailText rest)

def anchored : List JsonStep → String × List JsonStep
  | .key k::rest => (k, rest)
  | steps => ("*", steps)

theorem fieldPath_of_ne (h : path ≠ "") (key : String) : fieldPath path key = path ++ "." ++ key := by
  simp [fieldPath,h]

theorem pathOrRoot_of_ne (h : path ≠ "") : pathOrRoot path = path := by
  simp [pathOrRoot,h]

theorem toList_foldl_stepPath (h : path ≠ "") (steps : List JsonStep) :
    (steps.foldl stepPath path).toList = path.toList ++ tailText steps := by
  induction steps generalizing path with
  | nil => simp [tailText]
  | cons s steps ih =>
    rw [List.foldl_cons]
    cases s with
    | key k =>
      have hp : stepPath path (.key k) = path ++ "." ++ k := fieldPath_of_ne h k
      rw [hp,ih (by simp)]
      simp [tailText]
    | index i =>
      have hp : stepPath path (.index i) = path ++ "[" ++ i.repr ++ "]" := by
        show pathOrRoot path ++ _ ++ _ ++ _ = _
        rw [pathOrRoot_of_ne h]
      rw [hp,ih (by simp)]
      simp [tailText]

theorem plainKey_ne {key : String} (h : plainKey key = true) : key ≠ "" := by
  rintro rfl
  exact absurd h (by decide)

theorem plainSteps_tail {s : JsonStep} (h : PlainSteps (s::steps)) : PlainSteps steps :=
  fun key hk => h key (mem_cons_of_mem _ hk)

theorem anchored_plain (h : PlainSteps steps) :
    plainKey (anchored steps).1 = true ∧ PlainSteps (anchored steps).2 := by
  have hr : plainKey "*" = true := by decide
  cases steps with
  | nil => exact ⟨hr,h⟩
  | cons s steps =>
    cases s with
    | key k => exact ⟨h k mem_cons_self,plainSteps_tail h⟩
    | index i => exact ⟨hr,h⟩

theorem toList_textOf (h : PlainSteps steps) (hn : steps ≠ []) :
    (textOf steps).toList = (anchored steps).1.toList ++ tailText (anchored steps).2 := by
  cases steps with
  | nil => exact absurd rfl hn
  | cons s steps =>
    cases s with
    | key k => exact toList_foldl_stepPath (plainKey_ne (h k mem_cons_self)) steps
    | index i =>
      have hr : stepPath "" (.index i) = "*" ++ "[" ++ i.repr ++ "]" := rfl
      have ht : (textOf (.index i::steps)).toList = ("*" ++ "[" ++ i.repr ++ "]").toList ++ tailText steps :=
        toList_foldl_stepPath (by rw [hr]; simp) steps
      rw [ht]
      simp [anchored,tailText]

theorem textOf_ne (h : PlainSteps steps) (hn : steps ≠ []) : textOf steps ≠ "" := by
  intro he
  have ht := toList_textOf h hn
  rw [he] at ht
  exact plainKey_ne (anchored_plain h).1 (String.toList_eq_nil_iff.mp (List.append_eq_nil_iff.mp ht.symm).1)

theorem toList_pathOrRoot (h : PlainSteps steps) :
    (pathOrRoot (textOf steps)).toList = (anchored steps).1.toList ++ tailText (anchored steps).2 := by
  by_cases hn : steps = []
  · rw [hn]
    rfl
  · rw [pathOrRoot_of_ne (textOf_ne h hn)]
    exact toList_textOf h hn

theorem append_stop_inj {stop : Char → Bool} {key key' rest rest' : List Char} (hk : ∀ c ∈ key, stop c = false)
    (hk' : ∀ c ∈ key', stop c = false) (hr : ∀ c ∈ rest.head?, stop c = true)
    (hr' : ∀ c ∈ rest'.head?, stop c = true) (h : key++rest = key'++rest') : key = key' ∧ rest = rest' := by
  induction key generalizing key' with
  | nil =>
    cases key' with
    | nil => exact ⟨rfl,h⟩
    | cons c key' =>
      have hc : stop c = true := hr c (by simp [show rest = c::(key'++rest') from h])
      rw [hk' c mem_cons_self] at hc
      cases hc
  | cons c key ih =>
    cases key' with
    | nil =>
      have hc : stop c = true := hr' c (by simp [show rest' = c::(key++rest) from h.symm])
      rw [hk c mem_cons_self] at hc
      cases hc
    | cons d key' =>
      obtain ⟨rfl,ht⟩ := List.cons.inj h
      obtain ⟨rfl,hs⟩ := ih (fun c hc => hk c (mem_cons_of_mem _ hc)) (fun c hc => hk' c (mem_cons_of_mem _ hc)) ht
      exact ⟨rfl,hs⟩

def isStop (c : Char) : Bool := c == '.' || c == '['

theorem isStop_head_tailText (steps : List JsonStep) : ∀ c ∈ (tailText steps).head?, isStop c = true := by
  intro c hc
  cases steps with
  | nil => cases hc
  | cons s steps =>
    cases s with
    | key k =>
      obtain rfl : '.' = c := by simpa [tailText] using hc
      rfl
    | index i =>
      obtain rfl : '[' = c := by simpa [tailText] using hc
      rfl

theorem isStop_of_plainKey {key : String} (h : plainKey key = true) : ∀ c ∈ key.toList, isStop c = false := by
  intro c hc
  simp only [plainKey,Bool.and_eq_true,List.all_eq_true] at h
  have hs := h.2 c hc
  simpa [isStop] using hs

theorem tailText_inj {steps steps' : List JsonStep} (h : PlainSteps steps) (h' : PlainSteps steps')
    (he : tailText steps = tailText steps') : steps = steps' := by
  induction steps generalizing steps' with
  | nil =>
    cases steps' with
    | nil => rfl
    | cons s steps' => cases s <;> simp [tailText] at he
  | cons s steps ih =>
    have hr := plainSteps_tail h
    cases steps' with
    | nil => cases s <;> simp [tailText] at he
    | cons s' steps' =>
      have hr' := plainSteps_tail h'
      cases s with
      | key k =>
        cases s' with
        | key k' =>
          have hc : k.toList ++ tailText steps = k'.toList ++ tailText steps' := (List.cons.inj he).2
          obtain ⟨hk,ht⟩ := append_stop_inj (isStop_of_plainKey (h k mem_cons_self))
            (isStop_of_plainKey (h' k' mem_cons_self)) (isStop_head_tailText steps)
              (isStop_head_tailText steps') hc
          rw [String.toList_inj.mp hk,ih hr hr' ht]
        | index i => exact absurd (List.cons.inj he).1 (by decide)
      | index i =>
        cases s' with
        | key k => exact absurd (List.cons.inj he).1 (by decide)
        | index i' =>
          have hc : i.repr.toList ++ ']'::tailText steps = i'.repr.toList ++ ']'::tailText steps' :=
            (List.cons.inj he).2
          obtain ⟨hi,ht⟩ := Words.append_cons_inj_left (Text.notMem_repr rfl i) (Text.notMem_repr rfl i') hc
          rw [Text.repr_inj _ _ hi,ih hr hr' ht]

theorem steps_of_text {steps steps' : List JsonStep} (h : PlainSteps steps) (h' : PlainSteps steps')
    (he : pathOrRoot (textOf steps) = pathOrRoot (textOf steps')) :
    steps = steps' ∨ (∀ key rest, steps ≠ .key key::rest) ∧ steps' = .key "*"::steps ∨
      (∀ key rest, steps' ≠ .key key::rest) ∧ steps = .key "*"::steps' := by
  have hl := congrArg String.toList he
  rw [toList_pathOrRoot h,toList_pathOrRoot h'] at hl
  obtain ⟨hk,ht⟩ :=
    append_stop_inj (isStop_of_plainKey (anchored_plain h).1) (isStop_of_plainKey (anchored_plain h').1)
    (isStop_head_tailText _) (isStop_head_tailText _) hl
  have hk := String.toList_inj.mp hk
  have ht := tailText_inj (anchored_plain h).2 (anchored_plain h').2 ht
  have hr : ∀ steps : List JsonStep, (∃ key rest, steps = .key key::rest) ∨
      (∀ key rest, steps ≠ .key key::rest) ∧ anchored steps = ("*", steps) := by
    intro steps
    cases steps with
    | nil => exact .inr ⟨by simp,rfl⟩
    | cons s steps =>
      cases s with
      | key k => exact .inl ⟨k,steps,rfl⟩
      | index i => exact .inr ⟨by simp,rfl⟩
  rcases hr steps with ⟨key,rest,rfl⟩ | ⟨hn,ha⟩
  · rcases hr steps' with ⟨key',rest',rfl⟩ | ⟨hn',ha'⟩
    · exact .inl (by rw [show key = key' from hk,show rest = rest' from ht])
    · rw [ha'] at hk ht
      exact .inr (.inr ⟨hn',by rw [show key = "*" from hk,show rest = steps' from ht]⟩)
  · rw [ha] at hk ht
    rcases hr steps' with ⟨key',rest',rfl⟩ | ⟨hn',ha'⟩
    · exact .inr (.inl ⟨hn,by rw [show "*" = key' from hk,show steps = rest' from ht]⟩)
    · rw [ha'] at ht
      exact .inl ht

theorem not_both_roots {type : ChangeType} {old new : Option Json}
    (ht : ∀ key rest, steps ≠ .key key::rest) (h : CarriedAt steps type old new v u) :
    ¬ CarriedAt (.key "*"::steps) type old new v u' := by
  intro h'
  obtain ⟨hs,r,hr,-⟩ := h
  obtain ⟨hs',r',hr',-⟩ := h'
  cases v with
  | obj fields =>
    cases steps with
    | cons s steps =>
      cases s with
      | key k => exact ht k steps rfl
      | index i => exact hs
    | nil =>
      have hr : replacement type old new (some (.obj fields)) = some r := hr
      have hr' : replacement type old new (fields.lookup "*") = some r' := hr'
      have hp : fields.lookup "*" ≠ some (.obj fields) := by
        intro hl
        exact absurd (depth_field (mem_of_lookup hl)) (lt_irrefl _)
      cases type with
      | set =>
        cases new with
        | none => cases old <;> cases hr
        | some new =>
          have ho : some (Json.obj fields) = old := by
            by_contra hn
            simp [replacement,hn] at hr
          have ho' : fields.lookup "*" = old := by
            by_contra hn
            simp [replacement,hn] at hr'
          exact hp (ho'.trans ho.symm)
      | remove =>
        cases old with
        | none => cases hr
        | some old =>
          cases new with
          | some new => cases hr
          | none =>
            have ho : some (Json.obj fields) = some old := by
              by_contra hn
              simp [replacement] at hr hn
              exact hn hr.1
            have ho' : fields.lookup "*" = some old := by
              by_contra hn
              simp [replacement,hn] at hr'
            exact hp (ho'.trans ho.symm)
      | arrayAppend => cases old <;> cases new <;> cases hr
      | arrayRemove => cases old <;> cases new <;> cases hr
  | _ => exact hs'

theorem carried_unique {c : EntityChange} (h : c.Carried v u) (h' : c.Carried v u') : u = u' := by
  obtain ⟨steps,hp,ht,ha⟩ := h
  obtain ⟨steps',hp',ht',ha'⟩ := h'
  rcases steps_of_text hp hp' (ht.trans ht'.symm) with rfl | ⟨hn,rfl⟩ | ⟨hn,rfl⟩
  · obtain ⟨-,r,hr,hu⟩ := ha
    obtain ⟨-,r',hr',hu'⟩ := ha'
    obtain rfl := Option.some.inj (hr.symm.trans hr')
    exact Option.some.inj (hu.symm.trans hu')
  · exact absurd ha' (not_both_roots hn ha)
  · exact absurd ha (not_both_roots hn ha')

theorem InTurn.unique {cs : List EntityChange} (h : InTurn EntityChange.Carried cs v u)
    (h' : InTurn EntityChange.Carried cs v u') : u = u' := by
  induction h with
  | nil v =>
    cases h'
    rfl
  | cons head _ ih =>
    cases h' with
    | cons head' tail' =>
      obtain rfl := carried_unique head head'
      exact ih tail'

def PlainKeys (v : Json) : Prop := v.allKeys (fun keys => keys.all plainKey) = true

instance (v : Json) : Decidable (PlainKeys v) := inferInstanceAs (Decidable (_ = true))

structure Spelt (e : JsonEdit) : Prop where
  plain : PlainSteps e.steps
  keyed : e.type = .remove ∨ e.type = .set ∧ e.old = none → e.steps ≠ []

theorem Spelt.under {s : JsonStep} {e : JsonEdit} (h : Spelt e) (hs : ∀ key, s = .key key → plainKey key = true) :
    Spelt (e.under s) where
  plain key hk := by
    rcases mem_cons.mp hk with he | hk
    · exact hs key he.symm
    · exact h.plain key hk
  keyed _ := List.cons_ne_nil _ _

theorem plainKey_of_lookup {fs : List (String × Json)} {key : String} {v : Json} (h : PlainKeys (.obj fs))
    (hk : fs.lookup key = some v) : plainKey key = true :=
  List.all_eq_true.mp (allKeys_keys h) key (mem_map.mpr ⟨_,mem_of_lookup hk,rfl⟩)

theorem edits_spelt (hl : PlainKeys old) (hw : PlainKeys new) : ∀ e ∈ edits fuel old new, Spelt e := by
  have hr : ∀ old new type, ¬ (type = .remove ∨ type = .set ∧ old = none) → Spelt ⟨[],old,new,type⟩ :=
    fun old new type hno => ⟨by simp [PlainSteps],fun hd => absurd hd hno⟩
  have hy : ∀ key old new type, plainKey key = true → Spelt ⟨[.key key],old,new,type⟩ := by
    intro key old new type hp
    refine ⟨fun k hk => ?_,fun _ => by simp⟩
    obtain rfl : k = key := by simpa using hk
    exact hp
  induction fuel generalizing old new with
  | zero => simp [edits]
  | succ fuel ih =>
    intro e he
    cases pairing old new with
    | objects oldMap newMap =>
      rw [edits,List.mem_flatMap] at he
      obtain ⟨key,-,he⟩ := he
      unfold fieldEdits at he
      cases ho : oldMap.lookup key with
      | none =>
        cases hn : newMap.lookup key with
        | none => simp [ho,hn] at he
        | some n =>
          obtain rfl : e = _ := by simpa [ho,hn] using he
          exact hy key _ _ _ (plainKey_of_lookup hw hn)
      | some o =>
        cases hn : newMap.lookup key with
        | none =>
          obtain rfl : e = _ := by simpa [ho,hn] using he
          exact hy key _ _ _ (plainKey_of_lookup hl ho)
        | some n =>
          simp only [ho,hn,mem_map] at he
          obtain ⟨child,hc,rfl⟩ := he
          have hs := ih (allKeys_field hl (mem_of_lookup ho)) (allKeys_field hw (mem_of_lookup hn)) child hc
          refine hs.under fun k hk => ?_
          obtain rfl : key = k := by simpa using hk
          exact plainKey_of_lookup hl ho
    | arrays oldItems newItems =>
      rw [edits,mem_append,mem_append,List.mem_flatMap] at he
      rcases he with (⟨i,-,he⟩ | he) | he
      · unfold itemEdits at he
        cases ho : oldItems[i]? with
        | none => simp [ho] at he
        | some o =>
          cases hn : newItems[i]? with
          | none => simp [ho,hn] at he
          | some n =>
            simp only [ho,hn,mem_map] at he
            obtain ⟨child,hc,rfl⟩ := he
            have hs := ih (allKeys_item hl (mem_of_getElem? ho))
              (allKeys_item hw (mem_of_getElem? hn)) child hc
            exact hs.under (by simp)
      · obtain ⟨item,-,rfl⟩ := mem_map.mp he
        exact hr _ _ _ (by simp)
      · obtain ⟨item,-,rfl⟩ := mem_map.mp he
        exact hr _ _ _ (by simp)
    | others _ _ hb ha =>
      rw [edits_others hb ha] at he
      split at he
      · obtain rfl := List.mem_singleton.mp he
        exact hr _ _ _ (by simp)
      · cases he

theorem Spelt.carried {e : JsonEdit} (h : Spelt e) (uri : ContextUri) {v u : Json} (hd : e.Done v u) :
    (e.render uri []).Carried v u := by
  refine ⟨e.steps,h.plain,?_,hd⟩
  show _ = e.field []
  unfold JsonEdit.field
  split
  · rename_i hk
    exact pathOrRoot_of_ne (textOf_ne h.plain (h.keyed hk))
  · rfl

theorem InTurn.rendered {es : List JsonEdit} (hs : ∀ e ∈ es, Spelt e) (uri : ContextUri) {v u : Json}
    (h : InTurn JsonEdit.Done es v u) : InTurn EntityChange.Carried (es.map (JsonEdit.render uri [])) v u := by
  induction h with
  | nil v => exact .nil v
  | cons head _ ih =>
    exact .cons ((hs _ mem_cons_self).carried uri head) (ih fun e he => hs e (mem_cons_of_mem _ he))

/-- The diff is empty exactly for equal values. Where path texts can name all keys, its changes can be carried out one after
the other on the old value, and this gives the new one. -/
theorem diffJson_faithful (uri : ContextUri) (old new : Json) (hold : old.DistinctKeys) (hnew : new.DistinctKeys) :
    (diffJson uri old new = [] ↔ same old new = true) ∧
    (PlainKeys old → PlainKeys new → (∃ v, InTurn EntityChange.Carried (diffJson uri old new) old v) ∧
      ∀ v, InTurn EntityChange.Carried (diffJson uri old new) old v → same v new = true) := by
  have hd : diffJson uri old new = (edits old.depth old new).map (JsonEdit.render uri []) :=
    diffJsonValue_eq uri _ [] old new
  rw [hd]
  constructor
  · rw [List.map_eq_nil_iff]
    exact edits_eq_nil_iff (Nat.le_refl _) hold hnew
  · intro hp hp'
    obtain ⟨v, hh, hs⟩ := edits_reach (Nat.le_refl _) hold hnew
    have hc := hh.rendered (edits_spelt hp hp') uri
    exact ⟨⟨v, hc⟩, fun u hu => hc.unique hu ▸ hs⟩

def dotted (flat nested : ℕ) : Json := .obj [("a", .obj [("b", .ofNat nested)]), ("a.b", .ofNat flat)]

theorem eq_of_same_ofNat {v : Json} {n : ℕ} (h : same v (ofNat n) = true) : v = ofNat n := by
  cases v <;> simp_all [same,ofNat]

theorem not_same_dotted {v : Json} (h : same v (dotted 2 1) = true) (h' : same v (dotted 1 2) = true) : False := by
  cases v with
  | obj fields =>
    simp only [dotted,same,Bool.and_eq_true,beq_iff_eq,sameFields_iff] at h h'
    cases fields with
    | nil => exact absurd h.1 (by decide)
    | cons e fields =>
      obtain ⟨key,w⟩ := e
      obtain ⟨x,hx,hs⟩ := h.2 _ mem_cons_self
      obtain ⟨y,hy,hs'⟩ := h'.2 _ mem_cons_self
      simp only [lookup_cons_eq] at hx hy
      by_cases ha : key = "a"
      · obtain rfl : obj [("b", ofNat 1)] = x := by simpa [ha] using hx
        obtain rfl : obj [("b", ofNat 2)] = y := by simpa [ha] using hy
        cases w with
        | obj inner =>
          simp only [same,Bool.and_eq_true,beq_iff_eq,sameFields_iff] at hs hs'
          cases inner with
          | nil => exact absurd hs.1 (by decide)
          | cons e inner =>
            obtain ⟨n,hn,ho⟩ := hs.2 _ mem_cons_self
            obtain ⟨m,hm,ht⟩ := hs'.2 _ mem_cons_self
            simp only [lookup_cons_eq] at hn hm
            by_cases hb : e.1 = "b"
            · obtain rfl : ofNat 1 = n := by simpa [hb] using hn
              obtain rfl : ofNat 2 = m := by simpa [hb] using hm
              exact absurd ((eq_of_same_ofNat ho).symm.trans (eq_of_same_ofNat ht)) (by decide)
            · simp [hb] at hn
        | _ => simp [same] at hs
      · by_cases hb : key = "a.b"
        · obtain rfl : ofNat 2 = x := by simpa [hb] using hx
          obtain rfl : ofNat 1 = y := by simpa [hb] using hy
          exact absurd ((eq_of_same_ofNat hs).symm.trans (eq_of_same_ofNat hs')) (by decide)
        · simp [ha,hb] at hx
  | _ => simp [dotted,same] at h

/-- The old value and the changes do not tell the new one. -/
theorem diffJson_not_faithful : ¬ ∃ replaced : Json → List EntityChange → Json, ∀ (uri : ContextUri) (old new : Json),
    old.DistinctKeys → new.DistinctKeys → same (replaced old (diffJson uri old new)) new = true := by
  intro h
  obtain ⟨replaced, h⟩ := h
  have ho := h (.ofTenant "t") (dotted 1 1) (dotted 2 1) (by decide) (by decide)
  have ht := h (.ofTenant "t") (dotted 1 1) (dotted 1 2) (by decide) (by decide)
  have hd : diffJson (.ofTenant "t") (dotted 1 1) (dotted 2 1) = diffJson (.ofTenant "t") (dotted 1 1) (dotted 1 2) := by
    decide +kernel
  rw [hd] at ho
  exact not_same_dotted ho ht

def oldNote : Json := .obj [("kind", .str "note"), ("tags", .arr [.str "x", .str "y", .str "x"]), ("gone", .null),
  ("levels", .arr [.obj [("n", .ofNat 1)]])]

def newNote : Json :=
  .obj [("tags", .arr [.str "x"]), ("kind", .str "plan"), ("levels", .arr [.obj [("n", .ofNat 2)], .ofNat 3]),
  ("new", .bool true)]

theorem diffJson_faithful_sample : diffJson (.ofTenant "t") oldNote newNote ≠ [] ∧
    ∃ v, InTurn EntityChange.Carried (diffJson (.ofTenant "t") oldNote newNote) oldNote v ∧ same v newNote = true := by
  obtain ⟨hn, hc⟩ := diffJson_faithful (.ofTenant "t") oldNote newNote (by decide) (by decide)
  obtain ⟨⟨v, hv⟩, ha⟩ := hc (by decide) (by decide)
  exact ⟨fun he => absurd (hn.mp he) (by decide), v, hv, ha v hv⟩

end UwuContextDb.Version
