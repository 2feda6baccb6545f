import Mathlib.Data.List.Sort
import Mathlib.Data.List.Destutter

/-! The first rows of a list, and when they survive that the rows they are taken from are restricted:
stable sorts and filters commute with a restriction. -/

namespace TopRows

variable {α : Type}

theorem foldl_best {r : α → α → Prop} [Std.Refl r] [IsTrans α r] {choose : α → α → α}
    (hc : ∀ x y, choose x y = x ∧ r y x ∨ choose x y = y ∧ r x y) (xs : List α) (x : α) :
    xs.foldl choose x ∈ x::xs ∧ ∀ y ∈ x::xs, r y (xs.foldl choose x) := by
  induction xs generalizing x with
  | nil =>
    refine ⟨List.mem_singleton_self x,fun y hy => ?_⟩
    obtain rfl := List.mem_singleton.mp hy
    exact Std.Refl.refl y
  | cons y xs ih =>
    rw [List.foldl_cons]
    rcases hc x y with ⟨hk,hx⟩ | ⟨hk,hx⟩
    · rw [hk]
      obtain ⟨hm,ha⟩ := ih x
      obtain ⟨hf,hr⟩ := List.forall_mem_cons.mp ha
      refine ⟨List.mem_cons.mpr ((List.mem_cons.mp hm).imp_right (List.mem_cons_of_mem y)),?_⟩
      exact List.forall_mem_cons.mpr ⟨hf,List.forall_mem_cons.mpr ⟨IsTrans.trans _ _ _ hx hf,hr⟩⟩
    · rw [hk]
      obtain ⟨hm,ha⟩ := ih y
      refine ⟨List.mem_cons_of_mem x hm,List.forall_mem_cons.mpr ⟨?_,ha⟩⟩
      exact IsTrans.trans _ _ _ hx (ha y List.mem_cons_self)

section Stable

variable {r : α → α → Prop} [DecidableRel r] [IsTrans α r]

variable {l : List α}

theorem filter_orderedInsert (p : α → Bool) (a : α) (hl : l.Pairwise r) :
    (l.orderedInsert r a).filter p = if p a then (l.filter p).orderedInsert r a else l.filter p := by
  induction l with
  | nil => by_cases ha : p a <;> simp [ha]
  | cons b l ih =>
    have ht : l.Pairwise r := (List.pairwise_cons.mp hl).2
    by_cases hab : r a b
    · have he : ∀ c ∈ (b::l).filter p, r a c := by
        intro c hc
        have hm := List.mem_of_mem_filter hc
        rcases List.mem_cons.mp hm with rfl | hc'
        · exact hab
        · exact IsTrans.trans a b c hab ((List.pairwise_cons.mp hl).1 c hc')
      have hr : ((b::l).filter p).orderedInsert r a = a::(b::l).filter p := by
        cases hf : (b::l).filter p with
        | nil => rfl
        | cons c cs => exact List.orderedInsert_cons_of_le r cs (he c (by simp [hf]))
      rw [List.orderedInsert_cons_of_le r l hab,hr]
      by_cases ha : p a <;> simp [ha]
    · rw [List.orderedInsert_of_not_le r l hab]
      by_cases hb : p b
      · simp only [List.filter_cons,hb,if_true,ih ht]
        by_cases ha : p a
        · simp [ha,hab]
        · simp [ha]
      · simp only [List.filter_cons,hb,ih ht]
        rfl

/-- Sorting stably and dropping the rows outside `p` commute. -/
theorem filter_insertionSort [Std.Total r] (p : α → Bool) (l : List α) :
    (l.insertionSort r).filter p = (l.filter p).insertionSort r := by
  induction l with
  | nil => rfl
  | cons a l ih =>
    rw [List.insertionSort_cons,filter_orderedInsert p a (List.pairwise_insertionSort r l),ih]
    by_cases ha : p a <;> simp [ha]

omit [IsTrans α r] in
theorem insertionSort_append {front rest : List α} (h : ∀ a ∈ front, ∀ b ∈ rest, r a b) :
    (front ++ rest).insertionSort r = front.insertionSort r ++ rest.insertionSort r := by
  have hi : ∀ (a : α) (sorted tail : List α), (∀ b ∈ tail, r a b) →
      (sorted ++ tail).orderedInsert r a = sorted.orderedInsert r a ++ tail := by
    intro a sorted tail ha
    induction sorted with
    | nil =>
      cases tail with
      | nil => rfl
      | cons b tail => simp [ha b List.mem_cons_self]
    | cons b sorted ih => by_cases hab : r a b <;> simp [hab, ih]
  induction front with
  | nil => simp
  | cons a front ih =>
    obtain ⟨ha, hf⟩ := List.forall_mem_cons.mp h
    rw [List.cons_append, List.insertionSort_cons, List.insertionSort_cons, ih hf]
    exact hi a _ _ (fun b hb => ha b ((List.mem_insertionSort r).mp hb))

theorem insertionSort_take_iff [Std.Total r] (l : List α) (n : ℕ) :
    (l.take n).insertionSort r = (l.insertionSort r).take n ↔ ∀ a ∈ l.take n, ∀ b ∈ l.drop n, r a b := by
  constructor
  · intro h a ha b hb
    have hr : ((l.insertionSort r).take n++(l.insertionSort r).drop n).Perm (l.take n++l.drop n) := by
      rw [List.take_append_drop,List.take_append_drop]
      exact List.perm_insertionSort r l
    have hf : (l.take n).Perm ((l.insertionSort r).take n) := h ▸ (List.perm_insertionSort r (l.take n)).symm
    have he : ((l.insertionSort r).drop n).Perm (l.drop n) :=
      (List.perm_append_left_iff _).mp ((hf.append_right _).trans hr)
    have hs : ((l.insertionSort r).take n++(l.insertionSort r).drop n).Pairwise r := by
      rw [List.take_append_drop]
      exact List.pairwise_insertionSort r l
    exact (List.pairwise_append.mp hs).2.2 a (hf.subset ha) b (he.symm.subset hb)
  · intro h
    rcases Nat.le_total l.length n with hl | hl
    · have hs : (l.insertionSort r).length ≤ n := (List.length_insertionSort r l).trans_le hl
      rw [List.take_of_length_le hl,List.take_of_length_le hs]
    · have hf : ((l.take n).insertionSort r).length = n := by simp [hl]
      have hp := insertionSort_append h
      rw [List.take_append_drop] at hp
      rw [hp,List.take_left' hf]

theorem orderedInsert_comm [Std.Total r] {a b : α} (ha : ¬ r a b) (l : List α) :
    (l.orderedInsert r a).orderedInsert r b = (l.orderedInsert r b).orderedInsert r a := by
  have hba : r b a := (Std.Total.total (r := r) a b).resolve_left ha
  induction l with
  | nil => simp [ha,hba]
  | cons c l ih =>
    by_cases hc : r a c
    · have hb : r b c := IsTrans.trans b a c hba hc
      simp [ha,hba,hc,hb]
    · by_cases hb : r b c
      · simp [ha,hc,hb]
      · simp [hc,hb,ih]

theorem insertionSort_orderedInsert_append [Std.Total r] (a : α) (l rest : List α) :
    (l.orderedInsert r a++rest).insertionSort r = ((l++rest).insertionSort r).orderedInsert r a := by
  induction l with
  | nil => rfl
  | cons b l ih =>
    by_cases ha : r a b
    · simp [ha]
    · rw [List.orderedInsert_of_not_le r l ha,List.cons_append,List.insertionSort_cons,ih,orderedInsert_comm ha]
      rfl

theorem insertionSort_append_left [Std.Total r] (l rest : List α) :
    (l.insertionSort r++rest).insertionSort r = (l++rest).insertionSort r := by
  induction l with
  | nil => rfl
  | cons a l ih => rw [List.insertionSort_cons,insertionSort_orderedInsert_append,ih,List.cons_append,List.insertionSort_cons]

theorem pairwise_insertionSort_stable [Std.Total r] {s : α → α → Prop} (hl : l.Pairwise s) :
    (l.insertionSort r).Pairwise (fun a b => r a b ∧ (r b a → s a b)) := by
  have hi : ∀ (a : α) (m : List α), (∀ b ∈ m, s a b) → m.Pairwise (fun a b => r a b ∧ (r b a → s a b)) →
      (m.orderedInsert r a).Pairwise (fun a b => r a b ∧ (r b a → s a b)) := by
    intro a m hs hm
    induction m with
    | nil => simp
    | cons b m ih =>
      obtain ⟨hb,hm'⟩ := List.pairwise_cons.mp hm
      by_cases hab : r a b
      · rw [List.orderedInsert_cons_of_le r m hab]
        refine List.pairwise_cons.mpr ⟨?_,hm⟩
        intro c hc
        refine ⟨?_,fun _ => hs c hc⟩
        rcases List.mem_cons.mp hc with rfl | hc
        · exact hab
        · exact IsTrans.trans a b c hab (hb c hc).1
      · rw [List.orderedInsert_of_not_le r m hab]
        refine List.pairwise_cons.mpr ⟨?_,ih (fun c hc => hs c (List.mem_cons_of_mem b hc)) hm'⟩
        intro c hc
        rcases (List.mem_orderedInsert r).mp hc with rfl | hc
        · exact ⟨(Std.Total.total (r := r) c b).resolve_left hab,fun h => absurd h hab⟩
        · exact hb c hc
  induction l with
  | nil => simp
  | cons a l ih =>
    obtain ⟨ha,hl⟩ := List.pairwise_cons.mp hl
    exact hi a _ (fun b hb => ha b ((List.mem_insertionSort r).mp hb)) (ih hl)

/-- Of two rows with their places, the first stands before the second once all are sorted. -/
def Before (r : α → α → Prop) (a b : α × ℕ) : Prop := r a.1 b.1 ∧ (r b.1 a.1 → a.2 < b.2)

omit [DecidableRel r] in
theorem Before.trans {a b c : α × ℕ} (ha : Before r a b) (hb : Before r b c) : Before r a c := by
  refine ⟨IsTrans.trans a.1 b.1 c.1 ha.1 hb.1, ?_⟩
  intro hc
  exact (ha.2 (IsTrans.trans b.1 c.1 a.1 hb.1 hc)).trans (hb.2 (IsTrans.trans c.1 a.1 b.1 hc ha.1))

omit [DecidableRel r] [IsTrans α r] in
theorem Before.asymm {a b : α × ℕ} (ha : Before r a b) : ¬ Before r b a := by
  intro hb
  exact absurd (ha.2 hb.1) (hb.2 ha.1).asymm

omit [IsTrans α r] in
theorem insertionSort_eq_map_fst (l : List α) :
    l.insertionSort r = (l.zipIdx.insertionSort (fun a b => r a.1 b.1)).map Prod.fst := by
  rw [List.map_insertionSort (r := fun a b : α × ℕ => r a.1 b.1) (s := r) Prod.fst l.zipIdx (fun _ _ _ _ => Iff.rfl),
    List.zipIdx_map_fst]

/-- The rows of a sorted list stand in this order. -/
theorem pairwise_before [Std.Total r] (l : List α) :
    (l.zipIdx.insertionSort (fun a b => r a.1 b.1)).Pairwise (Before r) := by
  have ht : Std.Total (fun a b : α × ℕ => r a.1 b.1) := ⟨fun a b => Std.Total.total a.1 b.1⟩
  have hr : IsTrans (α × ℕ) (fun a b => r a.1 b.1) := ⟨fun a b c => IsTrans.trans a.1 b.1 c.1⟩
  have hp : l.zipIdx.Pairwise (fun a b => a.2 < b.2) := by
    rw [← List.pairwise_map (f := Prod.snd) (R := (· < ·)),List.zipIdx_map_snd]
    exact List.pairwise_lt_range'
  exact pairwise_insertionSort_stable hp

/-- Rows of a list that stand in each other's order do so in the sorted list, and no others. -/
theorem sublist_insertionSort_iff [Std.Total r] {rows : List (α × ℕ)} :
    rows.Sublist (l.zipIdx.insertionSort (fun a b => r a.1 b.1)) ↔
      (∀ a ∈ rows, a ∈ l.zipIdx) ∧ rows.Pairwise (Before r) := by
  have ht : Std.Antisymm (Before r) := ⟨fun a b hb hba => absurd hba hb.asymm⟩
  have hs := pairwise_before (r := r) l
  constructor
  · intro h
    exact ⟨fun a ha => (List.mem_insertionSort _).mp (h.subset ha),hs.sublist h⟩
  · intro h
    have hn : rows.Pairwise (· ≠ ·) := by
      apply h.2.imp
      intro a b hb he
      subst he
      exact hb.asymm hb
    have hu : rows ⊆ l.zipIdx.insertionSort (fun a b => r a.1 b.1) :=
      fun a ha => (List.mem_insertionSort _).mpr (h.1 a ha)
    exact List.sublist_of_subperm_of_pairwise (List.subperm_of_subset hn hu) h.2 hs

omit [IsTrans α r] in
instance decidableBefore (a b : α × ℕ) : Decidable (Before r a b) :=
  inferInstanceAs (Decidable (r a.1 b.1 ∧ (r b.1 a.1 → a.2 < b.2)))

omit [DecidableRel r] [IsTrans α r] in
theorem mem_take_iff {β : Type} {s : β → β → Prop} [DecidableRel s] (hs : ∀ a b, s a b → ¬ s b a) {l : List β}
    (hl : l.Pairwise s) {b : β} {n : ℕ} : b ∈ l.take n ↔ b ∈ l ∧ l.countP (fun a => s a b) < n := by
  induction l generalizing n with
  | nil => simp
  | cons c l ih =>
    obtain ⟨hc, hl⟩ := List.pairwise_cons.mp hl
    cases n with
    | zero => simp
    | succ n =>
      rw [List.take_succ_cons, List.mem_cons, List.mem_cons, ih hl]
      constructor
      · rintro (rfl | ⟨hb, ho⟩)
        · have hn : l.countP (fun a => s a b) = 0 :=
            List.countP_eq_zero.mpr (fun a ha => by simpa using hs b a (hc a ha))
          have he : ¬ s b b := fun h => hs b b h h
          exact ⟨.inl rfl, by simp [hn, he]⟩
        · exact ⟨.inr hb, by simpa [hc b hb] using ho⟩
      · rintro ⟨rfl | hb, ho⟩
        · exact .inl rfl
        · rw [List.countP_cons_of_pos (by simpa using hc b hb)] at ho
          exact .inr ⟨hb, by omega⟩

/-- The first rows of a sorted list have different keys exactly if of two rows with one key the later has enough rows
before it. -/
theorem nodup_take_iff [Std.Total r] {κ : Type} (key : α → κ) (l : List α) (n : ℕ) :
    (((l.insertionSort r).take n).map key).Nodup ↔ ∀ a ∈ l.zipIdx, ∀ b ∈ l.zipIdx, key a.1 = key b.1 → Before r a b →
      n ≤ l.zipIdx.countP (fun c => Before r c b) := by
  have hs := pairwise_before (r := r) l
  have hp := List.perm_insertionSort (fun a b : α × ℕ => r a.1 b.1) l.zipIdx
  have ht : ∀ {b}, b ∈ (l.zipIdx.insertionSort (fun a b => r a.1 b.1)).take n ↔
      b ∈ l.zipIdx ∧ l.zipIdx.countP (fun c => Before r c b) < n := by
    intro b
    rw [mem_take_iff (fun a b h => h.asymm) hs,hp.mem_iff,hp.countP_eq]
  rw [insertionSort_eq_map_fst,← List.map_take,List.map_map,List.Nodup,List.pairwise_map]
  constructor
  · intro hd a ha b hb hk hab
    by_contra hf
    have ho : l.zipIdx.countP (fun c => Before r c a) ≤ l.zipIdx.countP (fun c => Before r c b) :=
      List.countP_mono_left (fun c _ hc => by simpa using (of_decide_eq_true hc).trans hab)
    have hn : a ≠ b := by
      rintro rfl
      exact hab.asymm hab
    have hy : Std.Symm (fun a b : α × ℕ => (key ∘ Prod.fst) a ≠ (key ∘ Prod.fst) b) := ⟨fun _ _ h => h.symm⟩
    exact hd.forall (ht.mpr ⟨ha,by omega⟩) (ht.mpr ⟨hb,by omega⟩) hn hk
  · intro h
    refine (hs.sublist (List.take_sublist _ _)).imp_of_mem (fun {a b} ha hb hab hk => ?_)
    obtain ⟨ha,-⟩ := ht.mp ha
    obtain ⟨hb,ho⟩ := ht.mp hb
    exact absurd ho (not_lt.mpr (h a ha b hb hk hab))

omit [IsTrans α r] in
theorem insertionSort_congr {r' : α → α → Prop} [DecidableRel r']
    (h : ∀ a ∈ l, ∀ b ∈ l, (r a b ↔ r' a b)) : l.insertionSort r = l.insertionSort r' := by
  have hi : ∀ (a : α) (m : List α), (∀ b ∈ m, (r a b ↔ r' a b)) → m.orderedInsert r a = m.orderedInsert r' a := by
    intro a m hm
    induction m with
    | nil => rfl
    | cons b m ih =>
      obtain ⟨hb, hm⟩ := List.forall_mem_cons.mp hm
      rw [List.orderedInsert_cons, List.orderedInsert_cons, ih hm]
      simp only [hb]
  induction l with
  | nil => rfl
  | cons a l ih =>
    rw [List.insertionSort_cons, List.insertionSort_cons, ih (fun b hb c hc => h b (by simp [hb]) c (by simp [hc]))]
    exact hi a _ (fun b hb => h a (by simp) b (List.mem_cons_of_mem a ((List.mem_insertionSort r').mp hb)))

omit [IsTrans α r] in
theorem nodup_take_iff_of_mem {κ : Type} (key : α → κ) (ht : ∀ a ∈ l, ∀ b ∈ l, r a b ∨ r b a)
    (hr : ∀ a ∈ l, ∀ b ∈ l, ∀ c ∈ l, r a b → r b c → r a c) (n : ℕ) :
    (((l.insertionSort r).take n).map key).Nodup ↔ ∀ a ∈ l.zipIdx, ∀ b ∈ l.zipIdx, key a.1 = key b.1 → Before r a b →
      n ≤ l.zipIdx.countP (fun c => Before r c b) := by
  classical
  -- the rows of the list come before all others
  let r' : α → α → Prop := fun a b => b ∈ l → a ∈ l ∧ r a b
  have hg : ∀ a ∈ l, ∀ b ∈ l, (r a b ↔ r' a b) := fun a ha b hb => ⟨fun h _ => ⟨ha, h⟩, fun h => (h hb).2⟩
  have ht' : Std.Total r' := by
    refine ⟨fun a b => ?_⟩
    by_cases ha : a ∈ l
    · by_cases hb : b ∈ l
      · exact (ht a ha b hb).imp (hg a ha b hb).mp (hg b hb a ha).mp
      · exact .inl (fun h => absurd h hb)
    · exact .inr (fun h => absurd h ha)
  have hr' : IsTrans α r' := by
    refine ⟨fun a b c hab hbc hc => ?_⟩
    obtain ⟨hb, hrb⟩ := hbc hc
    obtain ⟨ha, hra⟩ := hab hb
    exact ⟨ha, hr a ha b hb c hc hra hrb⟩
  have hm : ∀ {a : α × ℕ}, a ∈ l.zipIdx → a.1 ∈ l := fun ha => List.fst_mem_of_mem_zipIdx ha
  have he : ∀ a ∈ l.zipIdx, ∀ b ∈ l.zipIdx, (Before r a b ↔ Before r' a b) := by
    intro a ha b hb
    unfold Before
    rw [hg _ (hm ha) _ (hm hb), hg _ (hm hb) _ (hm ha)]
  have ho : ∀ b ∈ l.zipIdx, l.zipIdx.countP (fun c => Before r c b) = l.zipIdx.countP (fun c => Before r' c b) := by
    intro b hb
    exact List.countP_congr (fun c hc => by simpa using he c hc b hb)
  rw [insertionSort_congr hg, nodup_take_iff key l n]
  constructor
  · intro h a ha b hb hk hab
    rw [ho b hb]
    exact h a ha b hb hk ((he a ha b hb).mp hab)
  · intro h a ha b hb hk hab
    rw [← ho b hb]
    exact h a ha b hb hk ((he a ha b hb).mpr hab)

end Stable

section Best

variable {β : Type} [LinearOrder β] (key : α → β)

/-- The element has the greatest key, and no element before it has the same. -/
def FirstBest (l : List α) (a : α) : Prop :=
  ∃ before after, l = before ++ a::after ∧ (∀ b ∈ before, key b < key a) ∧ ∀ b ∈ after, key b ≤ key a

variable {key}

theorem FirstBest.le {l : List α} {a : α} (h : FirstBest key l a) : ∀ b ∈ l, key b ≤ key a := by
  obtain ⟨before,after,rfl,he,ha⟩ := h
  intro b hb
  rcases List.mem_append.mp hb with hb | hb
  · exact (he b hb).le
  · rcases List.mem_cons.mp hb with rfl | hb
    · exact le_rfl
    · exact ha b hb

theorem firstBest_cons_iff {b : α} {l : List α} {a : α} :
    FirstBest key (b::l) a ↔ (a = b ∧ ∀ c ∈ l, key c ≤ key b) ∨ (key b < key a ∧ FirstBest key l a) := by
  constructor
  · intro h
    obtain ⟨before,after,hl,he,ha⟩ := h
    cases before with
    | nil =>
      obtain ⟨rfl,rfl⟩ := List.cons.inj hl
      exact .inl ⟨rfl,ha⟩
    | cons b' before =>
      obtain ⟨rfl,rfl⟩ := List.cons.inj hl
      exact .inr ⟨he b (by simp),before,after,rfl,fun c hc => he c (by simp [hc]),ha⟩
  · intro h
    rcases h with ⟨rfl,ha⟩ | ⟨hb,before,after,rfl,he,ha⟩
    · exact ⟨[],l,rfl,by simp,ha⟩
    · exact ⟨b::before,after,rfl,by simpa [hb] using he,ha⟩

theorem head?_insertionSort_iff {l : List α} {a : α} :
    (l.insertionSort (fun b c => key c ≤ key b)).head? = some a ↔ FirstBest key l a := by
  induction l generalizing a with
  | nil => simp [FirstBest]
  | cons b l ih =>
    rw [firstBest_cons_iff,List.insertionSort_cons]
    have hm : ∀ c, c ∈ l.insertionSort (fun b c => key c ≤ key b) ↔ c ∈ l := fun c => List.mem_insertionSort _
    cases hl : l.insertionSort (fun b c => key c ≤ key b) with
    | nil =>
      obtain rfl : l = [] := by simpa [hl] using (List.length_insertionSort (fun b c => key c ≤ key b) l).symm
      simp [FirstBest,eq_comm]
    | cons c rest =>
      rw [hl] at ih hm
      have hc : FirstBest key l c := ih.mp rfl
      have hcl : c ∈ l := (hm c).mp (by simp)
      by_cases hb : key c ≤ key b
      · rw [List.orderedInsert_cons_of_le _ rest hb]
        simp only [List.head?_cons,Option.some.injEq]
        constructor
        · intro h
          exact .inl ⟨h.symm,fun d hd => (hc.le d hd).trans hb⟩
        · intro h
          rcases h with ⟨h,-⟩ | ⟨hba,ha⟩
          · exact h.symm
          · obtain rfl : c = a := by simpa using ih.mpr ha
            exact absurd hba (not_lt.mpr hb)
      · rw [List.orderedInsert_of_not_le _ rest hb]
        simp only [List.head?_cons,Option.some.injEq]
        constructor
        · intro h
          exact .inr ⟨h ▸ not_le.mp hb,h ▸ hc⟩
        · intro h
          rcases h with ⟨-,he⟩ | ⟨-,ha⟩
          · exact absurd (he c hcl) hb
          · simpa using ih.mpr ha

end Best

/-- The first `n` rows, or all. -/
def upTo : Option ℕ → List α → List α
  | none, l => l
  | some n, l => l.take n

theorem upTo_begins (m : Option ℕ) (l : List α) : upTo m l <+: l := by
  cases m with
  | none => exact List.prefix_refl l
  | some n => exact List.take_prefix n l

theorem upTo_filter_eq_iff (p : α → Bool) (l : List α) (m : Option ℕ) :
    upTo m (l.filter p) = upTo m l ↔ ∀ a ∈ upTo m l, p a := by
  constructor
  · intro h a ha
    rw [← h] at ha
    exact (List.mem_filter.mp ((upTo_begins m _).subset ha)).2
  · intro h
    cases m with
    | none => exact List.filter_eq_self.mpr h
    | some n =>
      have hf : (l.take n).filter p = l.take n := List.filter_eq_self.mpr h
      have hs : l.filter p = l.take n ++ (l.drop n).filter p := by
        calc l.filter p = (l.take n++l.drop n).filter p := by rw [List.take_append_drop]
          _ = l.take n ++ (l.drop n).filter p := by rw [List.filter_append,hf]
      simp only [upTo]
      rcases Nat.le_total l.length n with hl | hl
      · rw [hs,List.drop_eq_nil_of_le hl,List.filter_nil,List.append_nil,List.take_take,Nat.min_self]
      · rw [hs,List.take_append_of_le_length (by simp [hl]),List.take_take,Nat.min_self]

theorem upTo_congr_of_prefix {f : List α → List α} (hf : ∀ l, l <+: f l) {m : Option ℕ} {l l' : List α}
    (h : upTo m l = upTo m l') : upTo m (f l) = upTo m (f l') := by
  cases m with
  | none => exact congrArg f h
  | some n =>
    simp only [upTo] at *
    have he : min n l.length = min n l'.length := by simpa using congrArg List.length h
    rcases Nat.lt_or_ge l.length n with hs | ho
    · have hl : l = l' := by
        calc l = l.take n := (List.take_of_length_le (by omega)).symm
          _ = l'.take n := h
          _ = l' := List.take_of_length_le (by omega)
      rw [hl]
    · obtain ⟨more,hm⟩ := hf l
      obtain ⟨more',hm'⟩ := hf l'
      rw [← hm,← hm',List.take_append_of_le_length ho,List.take_append_of_le_length (by omega),h]

section Keys

variable {κ : Type} [DecidableEq κ] (key : α → κ)

/-- The rows of `wide` whose key occurs in `narrow`. -/
def within (narrow wide : List α) : List α := wide.filter (fun a => decide (key a ∈ narrow.map key))

/-- Where keys are distinct, a first part of the rows is what they are restricted to. -/
theorem within_of_prefix {narrow wide : List α} (hd : (wide.map key).Nodup) (hb : narrow <+: wide) :
    within key narrow wide = narrow := by
  obtain ⟨rest,rfl⟩ := hb
  rw [List.map_append,List.nodup_append] at hd
  have hs : narrow.filter (fun a => decide (key a ∈ narrow.map key)) = narrow :=
    List.filter_eq_self.mpr (fun a ha => by simpa using ⟨a,ha,rfl⟩)
  have hr : rest.filter (fun a => decide (key a ∈ narrow.map key)) = [] := by
    refine List.filter_eq_nil_iff.mpr (fun a ha hi => ?_)
    exact hd.2.2 _ (by simpa using hi) _ (List.mem_map_of_mem ha) rfl
  rw [within,List.filter_append,hs,hr,List.append_nil]

theorem within_self (l : List α) : within key l l = l :=
  List.filter_eq_self.mpr (fun a ha => by simpa using ⟨a,ha,rfl⟩)

end Keys

/-- What commutes with every restriction by a key. -/
def Restricts {κ : Type} (key : α → κ) (f : List α → List α) : Prop :=
  ∀ (p : κ → Bool) (l : List α), f (l.filter (fun a => p (key a))) = (f l).filter (fun a => p (key a))

/-- The first rows of a restricting program are those it gives on a part of its input exactly if all lie in it. -/
theorem Restricts.upTo_eq_iff {κ : Type} [DecidableEq κ] {key : α → κ} {f : List α → List α} (hf : Restricts key f)
    {narrow wide : List α} (hp : within key narrow wide = narrow) (m : Option ℕ) :
    upTo m (f narrow) = upTo m (f wide) ↔ ∀ a ∈ upTo m (f wide), key a ∈ narrow.map key := by
  have hn : f narrow = (f wide).filter (fun a => decide (key a ∈ narrow.map key)) := by
    calc f narrow = f (within key narrow wide) := by rw [hp]
      _ = (f wide).filter (fun a => decide (key a ∈ narrow.map key)) := hf (fun k => decide (k ∈ narrow.map key)) wide
  rw [hn,upTo_filter_eq_iff]
  simp

end TopRows
