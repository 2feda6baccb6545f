import UwuContextDb.Library.MapEdit

/-! Keeping only the last edit of every key. A list of writes followed by moves may be replaced by
its last edits, in any order, when the list is orderly. -/

namespace MapEdit

variable {K V : Type}

/-- The moves as edits; a move is a target with its source. -/
def moveEdits (moves : List (K × K)) : List (K × Edit K V) := moves.map (fun r => (r.1, .moveFrom r.2))

theorem mem_moveEdits {moves : List (K × K)} {k : K} {w : Edit K V} :
    (k, w) ∈ moveEdits moves ↔ ∃ f, (k, f) ∈ moves ∧ w = .moveFrom f := by
  simp only [moveEdits,List.mem_map,Prod.mk.injEq,Prod.exists]
  constructor
  · rintro ⟨l,f,hm,rfl,rfl⟩
    exact ⟨f,hm,rfl⟩
  · rintro ⟨f,hm,rfl⟩
    exact ⟨k,f,hm,rfl,rfl⟩

variable [Ord K] [Std.TransOrd K]

/-- What two moves, one listed before the other, may have in common if the first one is live. -/
def Apart (m : Map K V) (r r' : K × K) : Prop :=
  Live m r.1 r.2 → r = r' ∨ (r.1 ≠ r'.1 ∧ r.1 ≠ r'.2 ∧ (Live m r'.1 r'.2 → r.2 ≠ r'.2 ∧ r'.1 ≠ r.2))

variable {m : Map K V} {writes : List (K × Edit K V)} {moves : List (K × K)}

theorem apart_of_mem (h : moves.Pairwise (Apart m)) {k f l g : K} (hk : (k, f) ∈ moves) (hf : Live m k f)
    (hl : (l, g) ∈ moves) (hg : Live m l g) : (k = l ∧ f = g) ∨ (f ≠ g ∧ k ≠ l ∧ k ≠ g ∧ l ≠ f) := by
  let R : K × K → K × K → Prop := fun r r' => Live m r.1 r.2 → Live m r'.1 r'.2 →
    (r.1 = r'.1 ∧ r.2 = r'.2) ∨ (r.2 ≠ r'.2 ∧ r.1 ≠ r'.1 ∧ r.1 ≠ r'.2 ∧ r'.1 ≠ r.2)
  have hp : moves.Pairwise R := by
    refine h.imp ?_
    intro r r' hap hr hr'
    rcases hap hr with rfl | ⟨h1,h2,h3⟩
    · exact .inl ⟨rfl,rfl⟩
    · exact .inr ⟨(h3 hr').1,h1,h2,(h3 hr').2⟩
  have hi : moves.Pairwise (flip R) := by
    refine hp.imp ?_
    intro r r' hR hr' hr
    rcases hR hr hr' with ⟨h1,h2⟩ | ⟨h1,h2,h3,h4⟩
    · exact .inl ⟨h1.symm,h2.symm⟩
    · exact .inr ⟨h1.symm,h2.symm,h4,h3⟩
  have ha := hp.forall_of_forall_of_flip (fun r _ _ _ => .inl ⟨rfl,rfl⟩) hi
  exact ha hk hl hf hg

variable [DecidableEq K]

/-- Writes followed by moves, none of which is lost or changed when only the last edit of each key
is kept and their order is forgotten. -/
structure Orderly (m : Map K V) (writes : List (K × Edit K V)) (moves : List (K × K)) : Prop where
  isWrite : ∀ e ∈ writes, e.2.isWrite = true
  source : ∀ k f, (k, f) ∈ moves → Live m k f → ∀ w, (f, w) ∉ writes
  revived : ∀ k f, (k, f) ∈ moves → f ∉ m → k ≠ f → ∀ v, lastEdit writes f ≠ some (.put v)
  lost : ∀ k f, lastEdit (moveEdits moves) k = some (.moveFrom f : Edit K V) → ¬ Live m k f → ∀ w, (k, w) ∉ writes
  chained : ∀ k f, lastEdit (moveEdits moves) k = some (.moveFrom f : Edit K V) → f ∉ m → k ≠ f →
    ∀ g, (f, g) ∈ moves → ¬ Live m f g
  apart : moves.Pairwise (Apart m)

theorem lastEdit_of_live (h : moves.Pairwise (Apart m)) {k f : K} (hm : (k, f) ∈ moves) (hl : Live m k f) :
    lastEdit (moveEdits moves) k = some (.moveFrom f : Edit K V) := by
  induction moves with
  | nil => simp at hm
  | cons r moves ih =>
    obtain ⟨hr,ht⟩ := List.pairwise_cons.mp h
    have hs : moveEdits (r::moves) = [(r.1, Edit.moveFrom r.2)] ++ (moveEdits moves : List (K × Edit K V)) := rfl
    rw [hs,lastEdit_append]
    by_cases he : (k, f) ∈ moves
    · simp [ih ht he]
    · obtain rfl : (k, f) = r := (List.mem_cons.mp hm).resolve_right he
      have hn : lastEdit (moveEdits moves : List (K × Edit K V)) k = none := by
        refine lastEdit_eq_none.mpr (fun w hw => ?_)
        obtain ⟨g,hg,-⟩ := mem_moveEdits.mp hw
        rcases hr (k, g) hg hl with hq | ⟨hne,-⟩
        · exact he (hq ▸ hg)
        · exact hne rfl
      rw [hn,Option.none_or]
      simp [lastEdit]

variable [Std.LawfulEqOrd K]

/-- The map after the writes `m1` and some of the moves. -/
structure Moved (m m1 : Map K V) (moves : List (K × K)) (cur : Map K V) : Prop where
  target : ∀ k f, (k, f) ∈ moves → Live m k f → cur[k]? = m[f]?
  source : ∀ k f, (k, f) ∈ moves → Live m k f → cur[f]? = none
  other : ∀ u, (∀ k f, (k, f) ∈ moves → Live m k f → k ≠ u ∧ f ≠ u) → cur[u]? = m1[u]?

omit [DecidableEq K] [Std.LawfulEqOrd K] in
theorem Moved.idle {m1 cur : Map K V} {r : K × K} (h : Moved m m1 moves cur) (hr : Live m r.1 r.2 → r ∈ moves) :
    Moved m m1 (moves ++ [r]) cur := by
  have ho : ∀ k f, (k, f) ∈ moves ++ [r] → Live m k f → (k, f) ∈ moves := by
    intro k f hm hl
    rcases List.mem_append.mp hm with hm | hm
    · exact hm
    · obtain rfl := List.mem_singleton.mp hm
      exact hr hl
  constructor
  · exact fun k f hm hl => h.target k f (ho k f hm hl) hl
  · exact fun k f hm hl => h.source k f (ho k f hm hl) hl
  · exact fun u hu => h.other u (fun k f hm hl => hu k f (List.mem_append_left _ hm) hl)

/-- One more move, its source as the writes and the moves before it have left it. -/
theorem Moved.step {m1 cur : Map K V} {k f : K} (h : Moved m m1 moves cur)
    (ha : ∀ r ∈ moves, Apart m r (k, f)) (hs : Live m k f → m1[f]? = m[f]?)
    (hde : f ∉ m → k ≠ f → m1[f]? = none) : Moved m m1 (moves++[(k, f)]) (apply cur (k, .moveFrom f)) := by
  by_cases hk : k = f
  · subst hk
    rw [apply_self]
    exact h.idle (fun hl => absurd rfl hl.2)
  by_cases hf : f ∈ m
  · have hi : Live m k f := ⟨hf,hk⟩
    by_cases hd : (k, f) ∈ moves
    · rw [apply_dead (h.source k f hd hi)]
      exact h.idle (fun _ => hd)
    · have hr : ∀ l g, (l, g) ∈ moves → Live m l g → l ≠ k ∧ l ≠ f ∧ g ≠ f ∧ k ≠ g := by
        intro l g hm hl
        rcases ha _ hm hl with hq | ⟨h1,h2,h3⟩
        · exact absurd (hq ▸ hm) hd
        · exact ⟨h1,h2,(h3 hi).1,(h3 hi).2⟩
      have hc : cur[f]? = m[f]? := by
        rw [h.other f (fun l g hm hl => ⟨(hr l g hm hl).2.1,(hr l g hm hl).2.2.1⟩),hs hi]
      have hg := getElem?_apply_live (k := k) (m := cur) (f := f) (by simpa [hc] using hf)
      constructor
      · intro l g hm hl
        rcases List.mem_append.mp hm with hm | hm
        · obtain ⟨h1,h2,-,-⟩ := hr l g hm hl
          simpa [hg,Ne.symm h1,Ne.symm h2] using h.target l g hm hl
        · obtain ⟨rfl,rfl⟩ := by simpa using hm
          simp [hg,hc]
      · intro l g hm hl
        rcases List.mem_append.mp hm with hm | hm
        · obtain ⟨-,-,h3,h4⟩ := hr l g hm hl
          simpa [hg,h4,Ne.symm h3] using h.source l g hm hl
        · obtain ⟨rfl,rfl⟩ := by simpa using hm
          simp [hg,hk]
      · intro u hu
        obtain ⟨h1,h2⟩ := hu k f (by simp) hi
        have := h.other u (fun l g hm hl => hu l g (List.mem_append_left _ hm) hl)
        simpa [hg,h1,h2] using this
  · have hc : cur[f]? = none := by
      rw [h.other f ?_,hde hf hk]
      intro l g hm hl
      refine ⟨?_,fun he => hf (he ▸ hl.1)⟩
      rcases ha _ hm hl with hq | ⟨-,h2,-⟩
      · obtain ⟨rfl,rfl⟩ := Prod.mk.inj hq
        exact absurd hl.1 hf
      · exact h2
    rw [apply_dead hc]
    exact h.idle (fun hl => absurd hl.1 hf)

namespace Orderly

variable (h : Orderly m writes moves)

include h

theorem writes_source {k f : K} (hm : (k, f) ∈ moves) :
    (Live m k f → (replay m writes)[f]? = m[f]?) ∧ (f ∉ m → k ≠ f → (replay m writes)[f]? = none) := by
  rw [getElem?_replay_writes h.isWrite]
  constructor
  · intro hl
    simp [lastEdit_eq_none.mpr (h.source k f hm hl)]
  · intro hf hk
    cases hw : lastEdit writes f with
    | none => simpa using hf
    | some w =>
      cases w with
      | put v => exact absurd hw (h.revived k f hm hf hk v)
      | drop => rfl
      | moveFrom g => rfl

theorem moved : Moved m (replay m writes) moves (replay m (writes++moveEdits moves)) := by
  rw [replay_append]
  have hl : ∀ done, done <+: moves → Moved m (replay m writes) done (replay (replay m writes) (moveEdits done)) := by
    intro done
    induction done using List.reverseRecOn with
    | nil => exact fun _ => ⟨by simp,by simp,by simp [moveEdits]⟩
    | append_singleton done r ih =>
      intro hp
      obtain ⟨k,f⟩ := r
      obtain ⟨rest,he⟩ := hp
      have hm : (k, f) ∈ moves := by simp [← he]
      obtain ⟨hs,hd⟩ := h.writes_source hm
      have hap : ∀ r ∈ done, Apart m r (k, f) := by
        have ha := h.apart
        rw [← he,List.append_assoc,List.pairwise_append] at ha
        exact fun r hr => ha.2.2 r hr (k, f) (by simp)
      have ho : done <+: moves := ⟨(k, f)::rest,by simp [← he]⟩
      have ht := (ih ho).step hap hs hd
      have hc : (moveEdits (done++[(k, f)]) : List (K × Edit K V)) = moveEdits done ++ [(k, .moveFrom f)] := by
        simp [moveEdits]
      rwa [hc,replay_concat]
  exact hl moves (List.prefix_refl _)

variable {T : List (K × Edit K V)} (hT : ∀ u w, (u, w) ∈ T ↔ lastEdit (writes ++ moveEdits moves) u = some w)

include hT

omit [Std.LawfulEqOrd K] in
theorem mem_move {k f : K} (hm : (k, .moveFrom f) ∈ T) :
    lastEdit (moveEdits moves) k = some (.moveFrom f : Edit K V) ∧ (k, f) ∈ moves := by
  have hl := (hT k _).mp hm
  rw [lastEdit_append] at hl
  cases hv : lastEdit (moveEdits moves : List (K × Edit K V)) k with
  | none =>
    rw [hv, Option.none_or] at hl
    simpa [Edit.isWrite] using h.isWrite _ (mem_of_lastEdit hl)
  | some w =>
    rw [hv, Option.some_or, Option.some.injEq] at hl
    subst hl
    obtain ⟨g, hg, he⟩ := mem_moveEdits.mp (mem_of_lastEdit hv)
    obtain rfl := Edit.moveFrom.inj he
    exact ⟨rfl, hg⟩

omit [Ord K] [Std.TransOrd K] [Std.LawfulEqOrd K] h in
theorem mem_write {k : K} {w : Edit K V} (hm : (k, w) ∈ T) (hw : w.isWrite = true) :
    lastEdit writes k = some w ∧ ∀ f, (k, f) ∉ moves := by
  have hl := (hT k _).mp hm
  rw [lastEdit_append] at hl
  cases hv : lastEdit (moveEdits moves : List (K × Edit K V)) k with
  | none =>
    rw [hv, Option.none_or] at hl
    exact ⟨hl, fun f hf => lastEdit_eq_none.mp hv _ (mem_moveEdits.mpr ⟨f, hf, rfl⟩)⟩
  | some w' =>
    rw [hv, Option.some_or, Option.some.injEq] at hl
    subst hl
    obtain ⟨g, hg, rfl⟩ := mem_moveEdits.mp (mem_of_lastEdit hv)
    simp [Edit.isWrite] at hw

omit [Std.LawfulEqOrd K] in
theorem mem_of_live {k f : K} (hm : (k, f) ∈ moves) (hl : Live m k f) : (k, .moveFrom f) ∈ T := by
  rw [hT, lastEdit_append, lastEdit_of_live h.apart hm hl, Option.some_or]

omit [Std.LawfulEqOrd K] in
/-- The last edits of an orderly list are separated. -/
theorem separated : Separated m T := by
  constructor
  · intro k f hm hl w hw
    by_contra hn
    have hr := (mem_write hT hw (by simpa using hn)).1
    exact h.source k f (h.mem_move hT hm).2 hl w (mem_of_lastEdit hr)
  · intro k f hm hl w hw
    have hq : Edit.moveFrom f = w := by
      rw [hT] at hm hw
      exact Option.some.inj (hm.symm.trans hw)
    simp [← hq, Edit.isWrite]
  · intro k f hm hf hkf v hv
    exact h.revived k f (h.mem_move hT hm).2 hf hkf v (mem_write hT hv rfl).1
  · intro k f hm hf hkf g hg hgm
    exact h.chained k f (h.mem_move hT hm).1 hf hkf g (h.mem_move hT hg).2 ⟨hgm, fun he => hf (he ▸ hgm)⟩
  · intro k f l g hk hf hl hg
    exact apart_of_mem h.apart (h.mem_move hT hk).2 hf (h.mem_move hT hl).2 hg
  · intro k w w' hw hw' _ _
    rw [hT] at hw hw'
    exact Option.some.inj (hw.symm.trans hw')

/-- The whole list settles its last edits. -/
theorem settled : Settled m T (replay m (writes++moveEdits moves)) := by
  have ho := h.moved
  constructor
  · exact fun k f hm hl => ho.source k f (h.mem_move hT hm).2 hl
  · exact fun k f hm hl => ho.target k f (h.mem_move hT hm).2 hl
  · intro k w hm hw
    obtain ⟨ha,hn⟩ := mem_write hT hm hw
    rw [ho.other k ?_,getElem?_replay_writes h.isWrite,ha]
    intro l g hg hl
    refine ⟨?_,?_⟩
    · rintro rfl
      exact hn g hg
    · rintro rfl
      exact h.source l g hg hl w (mem_of_lastEdit ha)
  · intro u hmo hr
    rw [ho.other u (fun k f hm hl => hmo k f (h.mem_of_live hT hm hl) hl),getElem?_replay_writes h.isWrite]
    cases hw : lastEdit writes u with
    | none => rfl
    | some w =>
      exfalso
      cases hv : lastEdit (moveEdits moves : List (K × Edit K V)) u with
      | none =>
        have he : (u, w) ∈ T := by rw [hT,lastEdit_append,hv,hw,Option.none_or]
        have hi := h.isWrite _ (mem_of_lastEdit hw)
        simp [hr w he] at hi
      | some w' =>
        obtain ⟨f,-,rfl⟩ := mem_moveEdits.mp (mem_of_lastEdit hv)
        have he : (u, Edit.moveFrom f) ∈ T := by rw [hT,lastEdit_append,hv,Option.some_or]
        exact h.lost u f hv (fun hl => (hmo u f he hl).1 rfl) w (mem_of_lastEdit hw)

theorem replay_table : replay m T = replay m (writes++moveEdits moves) :=
  (h.separated hT).settled.unique (h.settled hT)

end Orderly
end MapEdit
