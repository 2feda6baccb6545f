import Mathlib.Order.Lattice
import Mathlib.Data.List.Nodup
import Std.Data.ExtTreeMap

/-! A last-writer-wins map: of the values set for a key it keeps the one with the greater clock and node, and a fixed
rule says what becomes of two that have both alike. -/

namespace LwwMap

variable {K V C N : Type} [Ord K] [Std.TransOrd K] [Std.LawfulEqOrd K] [LinearOrder C] [LinearOrder N]

structure Stamped (V C N : Type) where
  value : V
  clock : C
  node : N
  deriving DecidableEq

/-- The clock, and among equal clocks the node, is smaller. -/
def Stamped.before (held new : Stamped V C N) : Bool :=
  held.clock < new.clock || held.clock = new.clock && held.node < new.node

variable (tie : V → V → V)

/-- What stands at a key after a value was set there. -/
def keep (held? : Option (Stamped V C N)) (new : Stamped V C N) : Stamped V C N :=
  held?.elim new (fun held =>
    if held.before new then new else if new.before held then held else { new with value := tie held.value new.value })

def set (map : Std.ExtTreeMap K (Stamped V C N)) (key : K) (value : V) (clock : C) (node : N) :
    Std.ExtTreeMap K (Stamped V C N) :=
  map.insert key (keep tie map[key]? ⟨value, clock, node⟩)

/-- The pairs are set one after another, at one clock and node. -/
def setAll (clock : C) (node : N) (map : Std.ExtTreeMap K (Stamped V C N)) (pairs : List (K × V)) :
    Std.ExtTreeMap K (Stamped V C N) :=
  pairs.foldl (fun map pair => set tie map pair.1 pair.2 clock node) map

/-- The values, without their clocks and nodes. -/
def values (map : Std.ExtTreeMap K (Stamped V C N)) : Std.ExtTreeMap K V := map.map (fun _ held => held.value)

variable {tie} {clock clock' : C} {node node' : N}

variable {map : Std.ExtTreeMap K (Stamped V C N)} {pairs : List (K × V)}

theorem getElem?_setAll_of_not_mem {key : K}
    (h : key ∉ pairs.map Prod.fst) : (setAll tie clock node map pairs)[key]? = map[key]? := by
  induction pairs generalizing map with
  | nil => rfl
  | cons pair pairs ih =>
    rw [List.map_cons,List.mem_cons,not_or] at h
    show (setAll tie clock node (set tie map pair.1 pair.2 clock node) pairs)[key]? = _
    rw [ih h.2,set,Std.ExtTreeMap.getElem?_insert,if_neg]
    intro hk
    exact h.1 (Std.LawfulEqOrd.eq_of_compare hk).symm

theorem getElem?_setAll_of_mem
    (hp : (pairs.map Prod.fst).Nodup) {key : K} {v : V} (h : (key, v) ∈ pairs) :
    (setAll tie clock node map pairs)[key]? = some (keep tie map[key]? ⟨v,clock,node⟩) := by
  induction pairs generalizing map with
  | nil => cases h
  | cons pair pairs ih =>
    rw [List.map_cons,List.nodup_cons] at hp
    show (setAll tie clock node (set tie map pair.1 pair.2 clock node) pairs)[key]? = _
    rcases List.mem_cons.mp h with rfl | h
    · rw [getElem?_setAll_of_not_mem hp.1,set,Std.ExtTreeMap.getElem?_insert_self]
    · have hk : compare pair.1 key ≠ .eq := by
        intro he
        obtain rfl := Std.LawfulEqOrd.eq_of_compare he
        exact hp.1 (List.mem_map.mpr ⟨_,h,rfl⟩)
      rw [ih hp.2 h,set,Std.ExtTreeMap.getElem?_insert,if_neg hk]

theorem getElem?_setAll_toList (map : Std.ExtTreeMap K (Stamped V C N)) (pairs : Std.ExtTreeMap K V) (key : K) :
    (setAll tie clock node map pairs.toList)[key]? =
      ((pairs[key]?).map (fun v => keep tie map[key]? ⟨v,clock,node⟩)).or map[key]? := by
  have hk : (pairs.toList.map Prod.fst).Nodup := by
    rw [Std.ExtTreeMap.map_fst_toList_eq_keys]
    exact Std.ExtTreeMap.nodup_keys
  cases hg : pairs[key]? with
  | some v =>
    have hm : (key, v) ∈ pairs.toList := Std.ExtTreeMap.mem_toList_iff_getElem?_eq_some.mpr hg
    rw [getElem?_setAll_of_mem hk hm]
    rfl
  | none =>
    have hm : key ∉ pairs.toList.map Prod.fst := by
      intro h
      obtain ⟨⟨k,v⟩,hp,rfl⟩ := List.mem_map.mp h
      rw [Std.ExtTreeMap.mem_toList_iff_getElem?_eq_some.mp hp] at hg
      cases hg
    rw [getElem?_setAll_of_not_mem hm]
    rfl

theorem getElem?_values_setAll (first second : Std.ExtTreeMap K V) (key : K) :
    (values (setAll tie clock' node (setAll tie clock node ∅ first.toList) second.toList))[key]? =
      ((second[key]?).map (fun w =>
        (first[key]?).elim w (fun v => if clock < clock' then w else if clock' < clock then v else tie v w))).or
        first[key]? := by
  have hf : (setAll tie clock node (∅ : Std.ExtTreeMap K (Stamped V C N)) first.toList)[key]? =
      (first[key]?).map (fun v => ⟨v,clock,node⟩) := by
    rw [getElem?_setAll_toList]
    simp [keep]
  rw [values,Std.ExtTreeMap.getElem?_map,getElem?_setAll_toList,hf]
  cases hv : first[key]? with
  | none =>
    cases hw : second[key]? with
    | none => rfl
    | some w => rfl
  | some v =>
    cases hw : second[key]? with
    | none => rfl
    | some w =>
      rcases lt_trichotomy clock clock' with hl | rfl | hg
      · simp [keep,Stamped.before,hl]
      · simp [keep,Stamped.before]
      · have hn : ¬ clock < clock' := not_lt_of_gt hg
        have he : clock ≠ clock' := ne_of_gt hg
        simp [keep,Stamped.before,hg,hn,he]

/-- The merge is the same in both directions exactly if the clocks differ or the rule decides every common key alike. -/
theorem values_setAll_comm_iff (first second : Std.ExtTreeMap K V) :
    values (setAll tie clock' node (setAll tie clock node ∅ first.toList) second.toList) =
      values (setAll tie clock node' (setAll tie clock' node' ∅ second.toList) first.toList) ↔
    (clock = clock' → ∀ (key : K) (v w : V), first[key]? = some v → second[key]? = some w → tie v w = tie w v) := by
  rw [Std.ExtTreeMap.ext_getElem?_iff]
  simp only [getElem?_values_setAll]
  constructor
  · rintro h rfl key v w hv hw
    have hk := h key
    rw [hv,hw] at hk
    simpa [lt_irrefl] using hk
  · intro h key
    cases hv : first[key]? with
    | none => cases hw : second[key]? <;> rfl
    | some v =>
      cases hw : second[key]? with
      | none => rfl
      | some w =>
        rcases lt_trichotomy clock clock' with hl | he | hg
        · simp [hl,not_lt_of_gt hl]
        · subst he
          simp [h rfl key v w hv hw]
        · simp [hg,not_lt_of_gt hg]

end LwwMap
