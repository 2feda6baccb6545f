import Std.Data.ExtTreeMap
import UwuContextDb.Library.Run

/-! Items looked up in a cache, those that are missing loaded together, once for each key, and put back
into their places. -/

namespace Gather

open StateMachine

variable {ε τ κ V : Type} [Ord κ] [Std.TransOrd κ]

/-- What was found, place by place, and what is missing: for a place its key and the first missing item with it. -/
structure Split (τ κ V : Type) [Ord κ] where
  results : List (Option V)
  order : List (ℕ × κ × ℕ)
  missing : List τ
  firstIndex : Std.ExtTreeMap κ ℕ

/-- The item at one place is found, missing already, or missing for the first time. -/
def visit (key : τ → κ) (cached : τ → Option V) (s : Split τ κ V) (item : τ × ℕ) : Split τ κ V :=
  match cached item.1 with
  | some value => { s with results := s.results.set item.2 (some value) }
  | none =>
    match s.firstIndex[key item.1]? with
    | some first => { s with order := s.order ++ [(item.2, key item.1, first)] }
    | none => ⟨s.results, s.order ++ [(item.2, key item.1, s.missing.length)], s.missing ++ [item.1],
        s.firstIndex.insert (key item.1) s.missing.length⟩

def split (key : τ → κ) (cached : τ → Option V) (items : List τ) : Split τ κ V :=
  items.zipIdx.foldl (visit key cached) ⟨List.replicate items.length none, [], [], ∅⟩

/-- The loaded values in their places. -/
def fill (loaded : List V) (order : List (ℕ × κ × ℕ)) (results : List (Option V)) : List (Option V) :=
  order.foldl (fun results row => results.set row.1 loaded[row.2.2]?) results

/-- What is true of the split once the items of `done` are visited and `rest` more are to come. -/
structure Visited (key : τ → κ) (cached : τ → Option V) (done : List τ) (rest : ℕ) (s : Split τ κ V) : Prop where
  results : s.results = done.map cached ++ List.replicate rest none
  missing : ∀ item ∈ s.missing, item ∈ done ∧ cached item = none
  first : ∀ k first, s.firstIndex[k]? = some first → ∃ item, s.missing[first]? = some item ∧ key item = k
  order : ∀ row ∈ s.order, ∃ item first, done[row.1]? = some item ∧ cached item = none ∧
    s.missing[row.2.2]? = some first ∧ key first = key item
  placed : ∀ i item, done[i]? = some item → cached item = none → ∃ row ∈ s.order, row.1 = i
  asked : ∀ i, i < s.missing.length → ∃ row ∈ s.order, row.2.2 = i

variable {key : τ → κ} {cached : τ → Option V}

theorem getElem?_append_of_some {α : Type} {l : List α} {i : ℕ} {a : α} (h : l[i]? = some a) (more : List α) :
    (l++more)[i]? = some a := by
  rw [List.getElem?_append_left (List.getElem?_eq_some_iff.mp h).1,h]

variable {done : List τ} {rest : ℕ} {s : Split τ κ V}

theorem Visited.visit [Std.LawfulEqOrd κ]
    (h : Visited key cached done (rest+1) s) (item : τ) :
    Visited key cached (done++[item]) rest (Gather.visit key cached s (item, done.length)) := by
  have hp : (done++[item])[done.length]? = some item := by simp
  have hl : ∀ i other, (done++[item])[i]? = some other → done[i]? = some other ∨ (i = done.length ∧ other = item) := by
    intro i other hi
    rcases Nat.lt_or_ge i done.length with ht | hg
    · exact .inl (by rwa [List.getElem?_append_left ht] at hi)
    · obtain rfl : i = done.length := by
        have hb := (List.getElem?_eq_some_iff.mp hi).1
        simp at hb
        omega
      exact .inr ⟨rfl,by simpa using hi.symm⟩
  have hd : ∀ row ∈ s.order, ∃ item' first, (done++[item])[row.1]? = some item' ∧ cached item' = none ∧
      s.missing[row.2.2]? = some first ∧ key first = key item' := by
    intro row hr
    obtain ⟨item',first,hdo,hrs⟩ := h.order row hr
    exact ⟨item',first,getElem?_append_of_some hdo [item],hrs⟩
  have hm : ∀ other ∈ s.missing, other ∈ done ++ [item] ∧ cached other = none :=
    fun other ho => ⟨List.mem_append_left [item] (h.missing other ho).1,(h.missing other ho).2⟩
  unfold Gather.visit
  cases hc : cached item with
  | some v =>
    refine ⟨?_,hm,h.first,hd,?_,h.asked⟩
    · simp [h.results,hc,List.replicate_succ]
    · intro i other hi hn
      rcases hl i other hi with hi | ⟨-,rfl⟩
      · exact h.placed i other hi hn
      · simp [hc] at hn
  | none =>
    have hs : s.results = (done++[item]).map cached ++ List.replicate rest none := by
      simp [h.results,hc,List.replicate_succ]
    have ha : ∀ (row : ℕ × κ × ℕ), row.1 = done.length → ∀ i other, (done++[item])[i]? = some other →
        cached other = none → ∃ row' ∈ s.order ++ [row], row'.1 = i := by
      intro row hr i other hi hn
      rcases hl i other hi with hi | ⟨rfl,-⟩
      · obtain ⟨row',hr',hi⟩ := h.placed i other hi hn
        exact ⟨row',List.mem_append_left [row] hr',hi⟩
      · exact ⟨row,by simp,hr⟩
    have has : ∀ (row : ℕ × κ × ℕ) (i : ℕ), i < s.missing.length → ∃ row' ∈ s.order ++ [row], row'.2.2 = i := by
      intro row i hi
      obtain ⟨row',hr',hi⟩ := h.asked i hi
      exact ⟨row',List.mem_append_left [row] hr',hi⟩
    cases hf : s.firstIndex[key item]? with
    | some first =>
      refine ⟨hs,hm,h.first,?_,ha _ rfl,has _⟩
      intro row hr
      rcases List.mem_append.mp hr with hr | hr
      · exact hd row hr
      · obtain rfl : row = (done.length, key item, first) := by simpa using hr
        obtain ⟨other,ho,he⟩ := h.first (key item) first hf
        exact ⟨item,other,hp,hc,ho,he⟩
    | none =>
      refine ⟨hs,?_,?_,?_,ha _ rfl,?_⟩
      · intro other ho
        rcases List.mem_append.mp ho with ho | ho
        · exact hm other ho
        · obtain rfl : other = item := by simpa using ho
          exact ⟨by simp,hc⟩
      · intro k first hk
        rw [Std.ExtTreeMap.getElem?_insert] at hk
        by_cases he : key item = k
        · rw [if_pos (by simpa using he)] at hk
          obtain rfl : s.missing.length = first := by simpa using hk
          exact ⟨item,by simp,he⟩
        · rw [if_neg (by simpa using he)] at hk
          obtain ⟨other,ho,hh⟩ := h.first k first hk
          exact ⟨other,getElem?_append_of_some ho [item],hh⟩
      · intro row hr
        rcases List.mem_append.mp hr with hr | hr
        · obtain ⟨item',first,hdo,hn,hat,he⟩ := hd row hr
          exact ⟨item',first,hdo,hn,getElem?_append_of_some hat [item],he⟩
        · obtain rfl : row = (done.length, key item, s.missing.length) := by simpa using hr
          exact ⟨item,item,hp,hc,by simp,rfl⟩
      · intro i hi
        rcases Nat.lt_or_ge i s.missing.length with ht | hg
        · exact has _ i ht
        · refine ⟨(done.length, key item, s.missing.length),by simp,?_⟩
          simp at hi
          show s.missing.length = i
          omega

theorem visited_foldl [Std.LawfulEqOrd κ] {rest : List τ}
    (h : Visited key cached done rest.length s) :
    Visited key cached (done++rest) 0 ((rest.zipIdx done.length).foldl (visit key cached) s) := by
  induction rest generalizing done s with
  | nil => simpa using h
  | cons item rest ih =>
    have hs := ih (h.visit item)
    simpa [List.zipIdx_cons] using hs

theorem visited_split [Std.LawfulEqOrd κ] (key : τ → κ) (cached : τ → Option V) (items : List τ) :
    Visited key cached items 0 (split key cached items) := by
  have hs : Visited key cached [] items.length ⟨List.replicate items.length none,[],[], ∅⟩ :=
    ⟨by simp,by simp,by simp,by simp,by simp,by simp⟩
  simpa [split] using visited_foldl hs

theorem Visited.order_eq_nil (h : Visited key cached done rest s)
    (hm : s.missing = []) : s.order = [] := by
  apply List.eq_nil_iff_forall_not_mem.mpr
  intro row hr
  obtain ⟨item,first,-,-,hf,-⟩ := h.order row hr
  simp [hm] at hf

omit [Ord κ] [Std.TransOrd κ] in
theorem fill_eq {loaded : List V} {ord : List (ℕ × κ × ℕ)} {results target : List (Option V)}
    (hw : ∀ row ∈ ord, target[row.1]? = some loaded[row.2.2]?) (hl : results.length = target.length)
    (he : ∀ i, results[i]? = target[i]? ∨ ∃ row ∈ ord, row.1 = i) : fill loaded ord results = target := by
  induction ord generalizing results with
  | nil =>
    apply List.ext_getElem?
    intro i
    simpa [fill] using he i
  | cons row ord ih =>
    obtain ⟨hr, hw⟩ := List.forall_mem_cons.mp hw
    apply ih hw (by simpa using hl)
    intro i
    by_cases hi : row.1 = i
    · subst hi
      have hb := (List.getElem?_eq_some_iff.mp hr).1
      exact .inl (by rw [List.getElem?_set_self (by omega), hr])
    · rw [List.getElem?_set_ne hi]
      rcases he i with hq | ⟨row', hr', hp⟩
      · exact .inl hq
      · rcases List.mem_cons.mp hr' with rfl | hr'
        · exact absurd hp hi
        · exact .inr ⟨row', hr', hp⟩

theorem fill_split [Std.LawfulEqOrd κ] (hk : Function.Injective key) {items : List τ} {load : τ → Option V}
    {loaded : List V} (hl : ∀ (i : ℕ) (item : τ), (split key cached items).missing[i]? = some item →
      loaded[i]? = load item) :
    fill loaded (split key cached items).order (split key cached items).results =
      items.map (fun item => (cached item).or (load item)) := by
  have hv := visited_split key cached items
  have hr : (split key cached items).results = items.map cached := by simpa using hv.results
  rw [hr]
  apply fill_eq
  · intro row ho
    obtain ⟨item,first,hi,hn,hf,hs⟩ := hv.order row ho
    obtain rfl := hk hs
    simp [hi,hn,hl _ _ hf]
  · simp
  · intro i
    cases hi : items[i]? with
    | none => simp [hi]
    | some item =>
      cases hc : cached item with
      | some v => simp [hi,hc]
      | none => exact .inr (hv.placed i item hi hc)

/-- An item by itself: found, or loaded. -/
def resolve (cached : τ → Option V) (load : τ → Except ε V) (item : τ) : Except ε V :=
  match cached item with
  | some value => .ok value
  | none => load item

@[simp] theorem toOption_resolve (load : τ → Except ε V) (item : τ) :
    (resolve cached load item).toOption = (cached item).or (load item).toOption := by
  unfold resolve
  cases cached item <;> rfl

/-- Loading what is missing and filling it in succeeds with what each item gives by itself. -/
theorem fill_eq_iff [Std.LawfulEqOrd κ] (hk : Function.Injective key) (items : List τ) (load : τ → Except ε V)
    (values : List V) :
    (∃ loaded, (split key cached items).missing.mapM load = .ok loaded ∧
      fill loaded (split key cached items).order (split key cached items).results = values.map some) ↔
    items.mapM (resolve cached load) = .ok values := by
  have hf : ∀ loaded, (split key cached items).missing.mapM load = .ok loaded →
      fill loaded (split key cached items).order (split key cached items).results =
        items.map (fun item => (cached item).or (load item).toOption) := by
    intro loaded hl
    apply fill_split hk
    intro i item hi
    have ha := congrArg (·[i]?) (mapM_eq_ok_iff.mp hl)
    cases hv : loaded[i]? with
    | none => simp [hi,hv] at ha
    | some value => simpa [hi,hv,eq_comm] using ha
  simp only [mapM_eq_ok_iff (f := resolve cached load),toOption_resolve]
  constructor
  · intro h
    obtain ⟨loaded,hl,hs⟩ := h
    exact (hf loaded hl).symm.trans hs
  · intro h
    have ho : ∀ item ∈ (split key cached items).missing, ∃ value, load item = .ok value := by
      intro item ht
      obtain ⟨hin,hn⟩ := (visited_split key cached items).missing item ht
      have hm : (load item).toOption ∈ values.map some := by
        rw [← h]
        exact List.mem_map.mpr ⟨item,hin,by simp [hn]⟩
      cases hd : load item with
      | error err => simp [hd,Except.toOption] at hm
      | ok value => exact ⟨value,rfl⟩
    obtain ⟨loaded,hl⟩ := mapM_isOk ho
    exact ⟨loaded,hl,(hf loaded hl).trans h⟩

/-- The results of a batch, every place of which must be filled. -/
def collect (err : ε) (results : List (Option V)) : Except ε (List V) :=
  results.mapM (fun item => item.elim (.error err) .ok)

theorem collect_eq_ok_iff {err : ε} {results : List (Option V)} {values : List V} :
    collect err results = .ok values ↔ results = values.map some := by
  have hi : ∀ item : Option V, (item.elim (Except.error err) Except.ok).toOption = item := by
    intro item
    cases item <;> rfl
  rw [collect,mapM_eq_ok_iff]
  simp only [hi,List.map_id']

/-- What a batch call may do: it gives each item, in order, what a call for it alone does, that is what is found for
it or else loaded, and does not ask for anything that is found. -/
structure Pointwise (results : List τ → Except ε (List V)) (asked : List τ → List (List τ)) (cached : τ → Option V)
    (load : τ → Except ε V) : Prop where
  together : ∀ items values, results items = .ok values ↔
    List.Forall₂ (fun item value => results [item] = .ok [value]) items values
  alone : ∀ item value, results [item] = .ok [value] ↔ cached item = some value ∨
    (cached item = none ∧ load item = .ok value)
  unasked : ∀ items, ∀ batch ∈ asked items, ∀ item ∈ batch, cached item = none

omit [Ord κ] [Std.TransOrd κ] in
theorem pointwise_of_resolve {results : List τ → Except ε (List V)} {asked : List τ → List (List τ)}
    {load : τ → Except ε V}
    (hr : ∀ items values, results items = .ok values ↔ items.mapM (resolve cached load) = .ok values)
    (hs : ∀ items, ∀ batch ∈ asked items, ∀ item ∈ batch, cached item = none) :
    Pointwise results asked cached load := by
  have ha : ∀ item value, results [item] = .ok [value] ↔ resolve cached load item = .ok value := by
    intro item value
    rw [hr, mapM_eq_ok_iff]
    simp [-toOption_resolve]
  refine ⟨?_, ?_, hs⟩
  · intro items values
    simp only [ha]
    rw [hr]
    constructor
    · intro h
      exact mapM_eq_ok h
    · intro h
      rw [mapM_eq_ok_iff]
      induction h with
      | nil => rfl
      | cons hb _ ih => rw [List.map_cons, List.map_cons, ih, toOption_eq_some.mpr hb]
  · intro item value
    rw [ha, resolve]
    cases cached item <;> simp

end Gather
