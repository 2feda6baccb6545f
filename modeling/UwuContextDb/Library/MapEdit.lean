import Mathlib.Data.List.Induction
import Mathlib.Data.List.Nodup
import Std.Data.ExtTreeMap

/-! Keyed edits of a finite map: a key is put, dropped, or receives the value moved away from
another key. A separated list of edits gives one result, in whatever order it is replayed. -/

namespace MapEdit

variable {K V : Type}

inductive Edit (K V : Type) | put (value : V) | drop | moveFrom (source : K)

namespace Edit

def isWrite : Edit K V → Bool
  | moveFrom _ => false
  | _ => true

/-- What a write leaves at its key. -/
def written : Edit K V → Option V
  | put v => some v
  | _ => none

end Edit

section LastEdit

variable [DecidableEq K]

/-- The last edit listed for a key. -/
def lastEdit (es : List (K × Edit K V)) (u : K) : Option (Edit K V) :=
  es.foldl (fun last e => if e.1 = u then some e.2 else last) none

@[simp] theorem lastEdit_nil (u : K) : lastEdit ([] : List (K × Edit K V)) u = none := rfl

@[simp] theorem lastEdit_concat (es : List (K × Edit K V)) (e : K × Edit K V) (u : K) :
    lastEdit (es++[e]) u = if e.1 = u then some e.2 else lastEdit es u := by
  simp [lastEdit]

theorem lastEdit_append (es es' : List (K × Edit K V)) (u : K) :
    lastEdit (es++es') u = (lastEdit es' u).or (lastEdit es u) := by
  induction es' using List.reverseRecOn with
  | nil => simp
  | append_singleton es' e ih =>
    rw [← List.append_assoc,lastEdit_concat,lastEdit_concat,ih]
    split <;> simp

theorem mem_of_lastEdit {es : List (K × Edit K V)} {u : K} {w : Edit K V} (h : lastEdit es u = some w) :
    (u, w) ∈ es := by
  induction es using List.reverseRecOn with
  | nil => simp at h
  | append_singleton es e ih =>
    rw [lastEdit_concat] at h
    split at h
    · rename_i he
      simp [← Option.some.inj h,← he]
    · exact List.mem_append_left _ (ih h)

theorem lastEdit_eq_none {es : List (K × Edit K V)} {u : K} : lastEdit es u = none ↔ ∀ w, (u, w) ∉ es := by
  constructor
  · intro h
    induction es using List.reverseRecOn with
    | nil => simp
    | append_singleton es e ih =>
      rw [lastEdit_concat] at h
      split at h
      · simp at h
      · rename_i he
        intro w hw
        rcases List.mem_append.mp hw with hw | hw
        · exact ih h w hw
        · simp only [List.mem_singleton] at hw
          exact he (by rw [← hw])
  · intro h
    by_contra hn
    obtain ⟨w,hw⟩ := Option.ne_none_iff_exists'.mp hn
    exact h w (mem_of_lastEdit hw)

/-- When a key has at most one edit, the last one is the only one. -/
theorem lastEdit_eq_some_iff {es : List (K × Edit K V)}
    (h : ∀ k w w', (k, w) ∈ es → (k, w') ∈ es → w = w') {u : K} {w : Edit K V} :
    lastEdit es u = some w ↔ (u, w) ∈ es := by
  constructor
  · exact mem_of_lastEdit
  · intro hw
    cases hl : lastEdit es u with
    | none => exact absurd hw (lastEdit_eq_none.mp hl w)
    | some w' => rw [h u w w' hw (mem_of_lastEdit hl)]

end LastEdit

abbrev Map (K V : Type) [Ord K] := Std.ExtTreeMap K V

variable [Ord K] [Std.TransOrd K]

variable {m : Map K V} {es : List (K × Edit K V)}

theorem mem_of_getElem? {k : K} {v : V} (h : m[k]? = some v) : k ∈ m := by
  rw [← Std.ExtTreeMap.isSome_getElem?_iff_mem,h]
  rfl

def apply (m : Map K V) : K × Edit K V → Map K V
  | (k, .put v) => m.insert k v
  | (k, .drop) => m.erase k
  | (k, .moveFrom f) =>
    match m[f]? with
    | some v => (m.erase f).insert k v
    | none => m

def replay (m : Map K V) (es : List (K × Edit K V)) : Map K V := es.foldl apply m

@[simp] theorem replay_nil (m : Map K V) : replay m [] = m := rfl

@[simp] theorem replay_cons (m : Map K V) (e : K × Edit K V) (es : List (K × Edit K V)) :
    replay m (e::es) = replay (apply m e) es := rfl

theorem replay_append (m : Map K V) (es es' : List (K × Edit K V)) :
    replay m (es++es') = replay (replay m es) es' := List.foldl_append

@[simp] theorem replay_concat (m : Map K V) (es : List (K × Edit K V)) (e : K × Edit K V) :
    replay m (es++[e]) = apply (replay m es) e := by simp [replay_append]

/-- A move that changes the map it starts from. -/
def Live (m : Map K V) (k f : K) : Prop := f ∈ m ∧ k ≠ f

/-- No edit undoes, hides or feeds another one, whichever of them comes first. -/
structure Separated (m : Map K V) (es : List (K × Edit K V)) : Prop where
  source_unwritten : ∀ k f, (k, Edit.moveFrom f) ∈ es → Live m k f → ∀ w, (f, w) ∈ es → w.isWrite = false
  target_unwritten : ∀ k f, (k, Edit.moveFrom f) ∈ es → Live m k f → ∀ w, (k, w) ∈ es → w.isWrite = false
  dead_source : ∀ k f, (k, Edit.moveFrom f) ∈ es → f ∉ m → k ≠ f → ∀ v, (f, Edit.put v) ∉ es
  dead_target : ∀ k f, (k, Edit.moveFrom f) ∈ es → f ∉ m → k ≠ f → ∀ g, (f, Edit.moveFrom g) ∈ es → g ∉ m
  moves : ∀ k f l g, (k, Edit.moveFrom f) ∈ es → Live m k f → (l, Edit.moveFrom g) ∈ es → Live m l g →
    (k = l ∧ f = g) ∨ (f ≠ g ∧ k ≠ l ∧ k ≠ g ∧ l ≠ f)
  writes : ∀ k w w', (k, w) ∈ es → (k, w') ∈ es → w.isWrite = true → w'.isWrite = true → w = w'

theorem Separated.subset {es es' : List (K × Edit K V)} (h : Separated m es)
    (hs : ∀ e ∈ es', e ∈ es) : Separated m es' where
  source_unwritten k f hm hf w hw := h.source_unwritten k f (hs _ hm) hf w (hs _ hw)
  target_unwritten k f hm hf w hw := h.target_unwritten k f (hs _ hm) hf w (hs _ hw)
  dead_source k f hm hf hn v hv := h.dead_source k f (hs _ hm) hf hn v (hs _ hv)
  dead_target k f hm hf hn g hg := h.dead_target k f (hs _ hm) hf hn g (hs _ hg)
  moves k f l g hk hf hl hg := h.moves k f l g (hs _ hk) hf (hs _ hl) hg
  writes k w w' hw hw' := h.writes k w w' (hs _ hw) (hs _ hw')

theorem apply_dead {k f : K} (h : m[f]? = none) : apply m (k, .moveFrom f) = m := by
  simp [apply,h]

/-- Writes under distinct keys are separated. -/
theorem Separated.of_writes (hw : ∀ e ∈ es, e.2.isWrite = true) (hk : (es.map Prod.fst).Nodup) : Separated m es := by
  have ho : ∀ k f, (k, Edit.moveFrom f) ∉ es := by
    intro k f hm
    simpa [Edit.isWrite] using hw _ hm
  constructor
  · exact fun k f hm => absurd hm (ho k f)
  · exact fun k f hm => absurd hm (ho k f)
  · exact fun k f hm => absurd hm (ho k f)
  · exact fun k f hm => absurd hm (ho k f)
  · exact fun k f l g hm => absurd hm (ho k f)
  · intro k w w' h h' _ _
    have := List.inj_on_of_nodup_map hk h h' rfl
    exact (Prod.mk.inj this).2

/-- What a separated list leaves at every key, in terms of its members only. -/
structure Settled (m : Map K V) (es : List (K × Edit K V)) (cur : Map K V) : Prop where
  source : ∀ k f, (k, Edit.moveFrom f) ∈ es → Live m k f → cur[f]? = none
  target : ∀ k f, (k, Edit.moveFrom f) ∈ es → Live m k f → cur[k]? = m[f]?
  write : ∀ k w, (k, w) ∈ es → w.isWrite = true → cur[k]? = w.written
  other : ∀ u, (∀ k f, (k, Edit.moveFrom f) ∈ es → Live m k f → k ≠ u ∧ f ≠ u) →
    (∀ w, (u, w) ∈ es → w.isWrite = false) → cur[u]? = m[u]?

section Settle

theorem Settled.of_mem {m cur : Map K V} {es es' : List (K × Edit K V)} (hs : Settled m es cur)
    (h : ∀ e, e ∈ es' ↔ e ∈ es) : Settled m es' cur := by
  constructor
  · exact fun k f hk => hs.source k f ((h _).mp hk)
  · exact fun k f hk => hs.target k f ((h _).mp hk)
  · exact fun k w hk => hs.write k w ((h _).mp hk)
  · exact fun u hm hu => hs.other u (fun k f hk => hm k f ((h _).mpr hk)) (fun w hw => hu w ((h _).mpr hw))

variable {m cur : Map K V} {es : List (K × Edit K V)} {k f : K}

/-- A dead source stays absent. -/
theorem Settled.dead (hs : Settled m es cur) (h : Separated m (es++[(k, .moveFrom f)])) (hf : f ∉ m)
    (hk : k ≠ f) : cur[f]? = none := by
  have ha : (k, Edit.moveFrom f) ∈ es ++ [(k, Edit.moveFrom f)] := by simp
  have ho : ∀ e ∈ es, e ∈ es ++ [(k, Edit.moveFrom f)] := by
    intro e he
    simp [he]
  by_cases hw : ∃ w, (f, w) ∈ es ∧ w.isWrite = true
  · obtain ⟨w,hw,hww⟩ := hw
    rw [hs.write f w hw hww]
    cases w with
    | put v => exact absurd (ho _ hw) (h.dead_source k f ha hf hk v)
    | drop => rfl
    | moveFrom g => simp [Edit.isWrite] at hww
  · have ht : cur[f]? = m[f]? := by
      refine hs.other f ?_ ?_
      · intro l g hl hg
        refine ⟨?_,fun he => hf (he ▸ hg.1)⟩
        rintro rfl
        exact h.dead_target k l ha hf hk g (ho _ hl) hg.1
      · intro w hw'
        by_contra hn
        exact hw ⟨w,hw',by simpa using hn⟩
    simpa [ht] using hf

/-- A live source keeps its value until its own move. -/
theorem Settled.live (hs : Settled m es cur) (h : Separated m (es++[(k, .moveFrom f)])) (hf : Live m k f)
    (hn : (k, Edit.moveFrom f) ∉ es) : cur[f]? = m[f]? := by
  have ha : (k, Edit.moveFrom f) ∈ es ++ [(k, Edit.moveFrom f)] := by simp
  have ho : ∀ e ∈ es, e ∈ es ++ [(k, Edit.moveFrom f)] := by
    intro e he
    simp [he]
  refine hs.other f ?_ ?_
  · intro l g hl hg
    rcases h.moves k f l g ha hf (ho _ hl) hg with ⟨rfl,rfl⟩ | ⟨h1,-,-,h4⟩
    · exact absurd hl hn
    · exact ⟨h4,fun he => h1 he.symm⟩
  · intro w hw
    exact h.source_unwritten k f ha hf w (ho _ hw)

/-- A move that is not live leaves what is settled. -/
theorem Settled.concat_idle (hs : Settled m es cur) (h : ¬ Live m k f) : Settled m (es++[(k, .moveFrom f)]) cur := by
  have ho : ∀ l g, (l, Edit.moveFrom g) ∈ es ++ [(k, Edit.moveFrom f)] → Live m l g → (l, Edit.moveFrom g) ∈ es := by
    intro l g hl hg
    rcases List.mem_append.mp hl with hl | hl
    · exact hl
    · obtain ⟨rfl,rfl⟩ := by simpa using hl
      exact absurd hg h
  constructor
  · exact fun l g hl hg => hs.source l g (ho l g hl hg) hg
  · exact fun l g hl hg => hs.target l g (ho l g hl hg) hg
  · intro l w hl hw
    rcases List.mem_append.mp hl with hl | hl
    · exact hs.write l w hl hw
    · obtain ⟨-,rfl⟩ := by simpa using hl
      simp [Edit.isWrite] at hw
  · exact fun u hm hu => hs.other u (fun l g hl => hm l g (List.mem_append_left _ hl))
      (fun w hw => hu w (List.mem_append_left _ hw))

end Settle

variable [Std.LawfulEqOrd K]

/-- Two maps settled by the same edits are equal. -/
theorem Settled.unique {m cur cur' : Map K V} (h : Settled m es cur) (h' : Settled m es cur') : cur = cur' := by
  refine Std.ExtTreeMap.ext_getElem? (fun u => ?_)
  by_cases hs : ∃ k, (k, Edit.moveFrom u) ∈ es ∧ Live m k u
  · obtain ⟨k,hk,hu⟩ := hs
    rw [h.source k u hk hu,h'.source k u hk hu]
  by_cases ht : ∃ f, (u, Edit.moveFrom f) ∈ es ∧ Live m u f
  · obtain ⟨f,hf,hm⟩ := ht
    rw [h.target u f hf hm,h'.target u f hf hm]
  by_cases hw : ∃ w, (u, w) ∈ es ∧ w.isWrite = true
  · obtain ⟨w,hw,hww⟩ := hw
    rw [h.write u w hw hww,h'.write u w hw hww]
  have hm : ∀ k f, (k, Edit.moveFrom f) ∈ es → Live m k f → k ≠ u ∧ f ≠ u := by
    intro k f hk hf
    exact ⟨fun he => ht ⟨f,he ▸ hk,he ▸ hf⟩,fun he => hs ⟨k,he ▸ hk,he ▸ hf⟩⟩
  have hn : ∀ w, (u, w) ∈ es → w.isWrite = false := by
    intro w hw'
    by_contra hne
    exact hw ⟨w,hw',by simpa using hne⟩
  rw [h.other u hm hn,h'.other u hm hn]

variable [DecidableEq K]

theorem getElem?_foldl_erase (m : Map K V) (ks : List K) (u : K) :
    (ks.foldl (fun m k => m.erase k) m)[u]? = if u ∈ ks then none else m[u]? := by
  induction ks generalizing m with
  | nil => simp
  | cons k ks ih =>
    rw [List.foldl_cons,ih,Std.ExtTreeMap.getElem?_erase]
    by_cases hu : u ∈ ks
    · simp [hu]
    · by_cases hk : k = u
      · simp [hk]
      · simp [hu,hk,Ne.symm hk]

theorem mem_foldl_erase (m : Map K V) (ks : List K) (u : K) :
    u ∈ ks.foldl (fun m k => m.erase k) m ↔ u ∈ m ∧ u ∉ ks := by
  rw [← Std.ExtTreeMap.isSome_getElem?_iff_mem,getElem?_foldl_erase,← Std.ExtTreeMap.isSome_getElem?_iff_mem]
  by_cases hu : u ∈ ks <;> simp [hu]

@[simp] theorem getElem?_apply_put (m : Map K V) (k u : K) (v : V) :
    (apply m (k, .put v))[u]? = if k = u then some v else m[u]? := by
  simp [apply,Std.ExtTreeMap.getElem?_insert]

@[simp] theorem getElem?_apply_drop (m : Map K V) (k u : K) :
    (apply m (k, .drop))[u]? = if k = u then none else m[u]? := by
  simp [apply,Std.ExtTreeMap.getElem?_erase]

theorem getElem?_apply_live {k f : K} (h : m[f]? ≠ none) (u : K) :
    (apply m (k, .moveFrom f))[u]? = if k = u then m[f]? else if f = u then none else m[u]? := by
  obtain ⟨v,hv⟩ := Option.ne_none_iff_exists'.mp h
  simp [apply,hv,Std.ExtTreeMap.getElem?_insert,Std.ExtTreeMap.getElem?_erase]

/-- A move of a key to itself does nothing. -/
theorem apply_self (m : Map K V) (k : K) : apply m (k, .moveFrom k) = m := by
  cases h : m[k]? with
  | none => exact apply_dead h
  | some v =>
    refine Std.ExtTreeMap.ext_getElem? (fun u => ?_)
    rw [getElem?_apply_live (by simp [h])]
    by_cases hk : k = u <;> simp [hk]

theorem getElem?_apply_write (m : Map K V) {w : Edit K V} (hw : w.isWrite = true) (k u : K) :
    (apply m (k, w))[u]? = if k = u then w.written else m[u]? := by
  cases w with
  | put v => simp [Edit.written]
  | drop => simp [Edit.written]
  | moveFrom f => simp [Edit.isWrite] at hw

section Concat

variable {m cur : Map K V} {es : List (K × Edit K V)} {k f : K} {w : Edit K V}

theorem Settled.concat_write (hs : Settled m es cur) (h : Separated m (es++[(k, w)]))
    (hw : w.isWrite = true) : Settled m (es++[(k, w)]) (apply cur (k, w)) := by
  have ha : (k, w) ∈ es ++ [(k, w)] := by simp
  have ho : ∀ l g, (l, Edit.moveFrom g) ∈ es ++ [(k, w)] → (l, Edit.moveFrom g) ∈ es := by
    intro l g hm
    rcases List.mem_append.mp hm with hm | hm
    · exact hm
    · obtain ⟨-,rfl⟩ := by simpa using hm
      simp [Edit.isWrite] at hw
  constructor
  · intro l g hl hg
    have hn : k ≠ g := by
      rintro rfl
      simp [h.source_unwritten l k hl hg w ha] at hw
    simpa [getElem?_apply_write cur hw,hn] using hs.source l g (ho l g hl) hg
  · intro l g hl hg
    have hn : k ≠ l := by
      rintro rfl
      simp [h.target_unwritten k g hl hg w ha] at hw
    simpa [getElem?_apply_write cur hw,hn] using hs.target l g (ho l g hl) hg
  · intro l w' hl hw'
    by_cases hk : k = l
    · subst hk
      have hsa := h.writes k w w' ha hl hw hw'
      subst hsa
      simp [getElem?_apply_write cur hw]
    · have hd : (l, w') ∈ es := by
        rcases List.mem_append.mp hl with hl | hl
        · exact hl
        · simp [Ne.symm hk] at hl
      simpa [getElem?_apply_write cur hw,hk] using hs.write l w' hd hw'
  · intro u hm hu
    have hn : k ≠ u := by
      rintro rfl
      simp [hu w ha] at hw
    have := hs.other u (fun l g hl => hm l g (List.mem_append_left _ hl))
      (fun w' hw' => hu w' (List.mem_append_left _ hw'))
    simpa [getElem?_apply_write cur hw,hn] using this

theorem Settled.concat_live (hs : Settled m es cur) (h : Separated m (es++[(k, .moveFrom f)])) (hf : Live m k f)
    (hn : (k, Edit.moveFrom f) ∉ es) : Settled m (es++[(k, .moveFrom f)]) (apply cur (k, .moveFrom f)) := by
  have hi : cur[f]? = m[f]? := hs.live h hf hn
  have hne : cur[f]? ≠ none := by simpa [hi] using hf.1
  have he := getElem?_apply_live (k := k) hne
  have ha : (k, Edit.moveFrom f) ∈ es ++ [(k, Edit.moveFrom f)] := by simp
  have ho : ∀ l w, (l, w) ∈ es ++ [(k, Edit.moveFrom f)] → (l, w) ≠ (k, .moveFrom f) → (l, w) ∈ es := by
    intro l w hl hk
    exact (List.mem_append.mp hl).resolve_right (fun hl => hk (by simpa using hl))
  constructor
  · intro l g hl hg
    rw [he]
    rcases h.moves k f l g ha hf hl hg with ⟨rfl,rfl⟩ | ⟨h1,-,h3,-⟩
    · simp [hf.2]
    · simpa [h3,h1] using hs.source l g (ho l _ hl (by simp [Ne.symm h1])) hg
  · intro l g hl hg
    rw [he]
    rcases h.moves k f l g ha hf hl hg with ⟨rfl,rfl⟩ | ⟨h1,h2,-,h4⟩
    · simp [hi]
    · simpa [h2,Ne.symm h4] using hs.target l g (ho l _ hl (by simp [Ne.symm h1])) hg
  · intro l w hl hw
    have h1 : k ≠ l := by
      rintro rfl
      simp [h.target_unwritten k f ha hf w hl] at hw
    have h2 : f ≠ l := by
      rintro rfl
      simp [h.source_unwritten k f ha hf w hl] at hw
    simpa [he,h1,h2] using hs.write l w (ho l w hl (by simp [Ne.symm h1])) hw
  · intro u hm hu
    obtain ⟨h1,h2⟩ := hm k f ha hf
    have := hs.other u (fun l g hl => hm l g (List.mem_append_left _ hl))
      (fun w hw => hu w (List.mem_append_left _ hw))
    simpa [he,h1,h2] using this

theorem Settled.concat_move (hs : Settled m es cur) (h : Separated m (es++[(k, .moveFrom f)])) :
    Settled m (es++[(k, .moveFrom f)]) (apply cur (k, .moveFrom f)) := by
  by_cases hk : k = f
  · subst hk
    rw [apply_self]
    exact hs.concat_idle (fun hl => hl.2 rfl)
  by_cases hf : f ∈ m
  · by_cases hd : (k, Edit.moveFrom f) ∈ es
    · -- the same move was replayed before and its source is gone
      rw [apply_dead (hs.source k f hd ⟨hf,hk⟩)]
      exact hs.of_mem (by simp [hd])
    · exact hs.concat_live h ⟨hf,hk⟩ hd
  · rw [apply_dead (hs.dead h hf hk)]
    exact hs.concat_idle (fun hl => hf hl.1)

end Concat

/-- A separated list settles every key. -/
theorem Separated.settled (h : Separated m es) : Settled m es (replay m es) := by
  induction es using List.reverseRecOn with
  | nil => exact ⟨by simp,by simp,by simp,by simp⟩
  | append_singleton es e ih =>
    have hs := ih (h.subset (by simp_all))
    rw [replay_concat]
    obtain ⟨l,w⟩ := e
    by_cases hw : w.isWrite = true
    · exact hs.concat_write h hw
    · cases w with
      | put v => simp [Edit.isWrite] at hw
      | drop => simp [Edit.isWrite] at hw
      | moveFrom g => exact hs.concat_move h

/-- Separated edits may be replayed in any order. -/
theorem Separated.replay_perm {es es' : List (K × Edit K V)} (h : Separated m es)
    (hp : es'.Perm es) : replay m es' = replay m es := by
  have h' : Separated m es' := h.subset (fun e he => hp.mem_iff.mp he)
  exact (h'.settled.of_mem (fun e => hp.mem_iff.symm)).unique h.settled

theorem getElem?_replay_writes (hw : ∀ e ∈ es, e.2.isWrite = true) (u : K) :
    (replay m es)[u]? = match lastEdit es u with
      | some w => w.written
      | none => m[u]? := by
  induction es using List.reverseRecOn with
  | nil => simp
  | append_singleton es e ih =>
    have he : e.2.isWrite = true := hw e (by simp)
    have hs := ih (fun e' he' => hw e' (by simp [he']))
    obtain ⟨k,w⟩ := e
    rw [replay_concat,getElem?_apply_write _ he,lastEdit_concat,hs]
    by_cases hk : k = u <;> simp [hk]

end MapEdit
