import Mathlib.Data.Finset.Card
import UwuContextDb.Library.TopRows

/-! Lists of which only the first of neighbours with one key is kept. -/

namespace Runs

variable {α κ : Type} [DecidableEq κ]

/-- Between two occurrences of a key no other key stands. -/
def Grouped (keys : List κ) : Prop := ∀ a b, [a, b, a].Sublist keys → b = a

theorem find?_destutter' (key : α → κ) (k : κ) (a : α) (l : List α) :
    (l.destutter' (fun a b => key a ≠ key b) a).find? (key · = k) = (a::l).find? (key · = k) := by
  induction l generalizing a with
  | nil => rfl
  | cons b l ih =>
    by_cases hb : key a = key b
    · rw [List.destutter'_cons_neg _ (by simpa using hb),ih]
      by_cases ha : key a = k
      · simp [ha]
      · simp [ha,hb ▸ ha]
    · rw [List.destutter'_cons_pos _ hb]
      by_cases ha : key a = k
      · simp [ha]
      · rw [List.find?_cons_of_neg (by simpa using ha),List.find?_cons_of_neg (by simpa using ha),ih]

theorem find?_destutter (key : α → κ) (k : κ) (l : List α) :
    (l.destutter (fun a b => key a ≠ key b)).find? (key · = k) = l.find? (key · = k) := by
  cases l with
  | nil => rfl
  | cons a l => exact find?_destutter' key k a l

theorem find?_of_nodup {key : α → κ} {l : List α} (hn : (l.map key).Nodup) {a : α} (ha : a ∈ l) :
    l.find? (key · = key a) = some a := by
  induction l with
  | nil => cases ha
  | cons b l ih =>
    obtain ⟨hb,hl⟩ := List.nodup_cons.mp hn
    rcases List.mem_cons.mp ha with rfl | ha
    · exact List.find?_cons_of_pos (by simp)
    · have he : key b ≠ key a := fun hq => hb (hq ▸ List.mem_map_of_mem ha)
      rw [List.find?_cons_of_neg (by simpa using he),ih hl ha]

theorem mem_destutter'_ne {x a : κ} {l : List κ} : x ∈ l.destutter' (· ≠ ·) a ↔ x ∈ a::l := by
  have hf := find?_destutter' id x a l
  constructor
  · intro h
    exact (List.destutter'_sublist l (· ≠ ·) a).subset h
  · intro h
    have hs : ((a::l).find? (id · = x)).isSome := List.find?_isSome.mpr ⟨x,h,by simp⟩
    rw [← hf] at hs
    obtain ⟨y,hy,hx⟩ := List.find?_isSome.mp hs
    obtain rfl : y = x := by simpa using hx
    exact hy

theorem nodup_destutter'_iff (a : κ) (l : List κ) : (l.destutter' (· ≠ ·) a).Nodup ↔ Grouped (a::l) := by
  induction l generalizing a with
  | nil =>
    constructor
    · intro _ x y h
      have he := h.length_le
      simp at he
    · intro _
      exact List.nodup_singleton a
  | cons b l ih =>
    by_cases hb : a = b
    · subst hb
      rw [List.destutter'_cons_neg _ (by simp),ih]
      constructor
      · intro h x y hs
        rcases List.sublist_cons_iff.mp hs with hs | ⟨rest,hr,hs⟩
        · exact h x y hs
        · obtain ⟨rfl,rfl⟩ := List.cons.inj hr
          rcases List.sublist_cons_iff.mp hs with hs | ⟨rest,hr,hs⟩
          · exact h x y (hs.cons_cons x)
          · exact (List.cons.inj hr).1
      · intro h x y hs
        exact h x y (hs.cons a)
    · rw [List.destutter'_cons_pos _ hb,List.nodup_cons,mem_destutter'_ne,ih]
      constructor
      · intro h x y hs
        rcases List.sublist_cons_iff.mp hs with hs | ⟨rest,hr,hs⟩
        · exact h.2 x y hs
        · obtain ⟨rfl,rfl⟩ := List.cons.inj hr
          exact absurd (hs.subset (by simp)) h.1
      · intro h
        refine ⟨?_,fun x y hs => h x y (hs.cons a)⟩
        intro ha
        have hl : a ∈ l := (List.mem_cons.mp ha).resolve_left hb
        exact hb (h a b (((List.singleton_sublist.mpr hl).cons_cons b).cons_cons a)).symm

theorem nodup_destutter_iff (keys : List κ) : (keys.destutter (· ≠ ·)).Nodup ↔ Grouped keys := by
  cases keys with
  | nil =>
    constructor
    · intro _ x y h
      have hl := h.length_le
      simp at hl
    · intro _
      exact .nil
  | cons a l => exact nodup_destutter'_iff a l

theorem destutter'_eq_cons (a : κ) (l : List κ) : ∃ rest, l.destutter' (· ≠ ·) a = a::rest := by
  induction l with
  | nil => exact ⟨[],rfl⟩
  | cons b l ih =>
    by_cases ha : a = b
    · rw [List.destutter'_cons_neg _ (by simpa using ha)]
      exact ih
    · rw [List.destutter'_cons_pos _ ha]
      exact ⟨_,rfl⟩

variable {before : List κ} {k : κ}

theorem destutter'_append {a k : κ} (h : k ∉ a::before) (after : List κ) :
    (before++k::after).destutter' (· ≠ ·) a = before.destutter' (· ≠ ·) a ++ after.destutter' (· ≠ ·) k := by
  induction before generalizing a with
  | nil =>
    have hk : a ≠ k := fun hk => h (by simp [hk])
    exact List.destutter'_cons_pos _ hk
  | cons b before ih =>
    rw [List.mem_cons,not_or] at h
    rw [List.cons_append]
    by_cases ha : a = b
    · rw [List.destutter'_cons_neg _ (by simpa using ha),List.destutter'_cons_neg _ (by simpa using ha)]
      exact ih (by simp_all)
    · rw [List.destutter'_cons_pos _ ha,List.destutter'_cons_pos _ ha,ih h.2,List.cons_append]

theorem destutter_append (h : k ∉ before) (after : List κ) :
    (before++k::after).destutter (· ≠ ·) = before.destutter (· ≠ ·) ++ after.destutter' (· ≠ ·) k := by
  cases before with
  | nil => rfl
  | cons a before => exact destutter'_append h after

/-- A key is among the first `n` that are kept exactly if fewer runs stand ahead of it. -/
theorem mem_take_destutter_iff {keys : List κ} (h : k ∈ keys) (n : ℕ) :
    k ∈ (keys.destutter (· ≠ ·)).take n ↔ ((keys.takeWhile (· ≠ k)).destutter (· ≠ ·)).length < n := by
  obtain ⟨before,after,rfl,hb⟩ := List.eq_append_cons_of_mem h
  have hh : (before++k::after).takeWhile (· ≠ k) = before := by
    rw [List.takeWhile_append_of_pos (fun a ha => by simpa using fun hak : a = k => hb (hak ▸ ha))]
    simp
  obtain ⟨rest,hr⟩ := destutter'_eq_cons k after
  have hn : k ∉ before.destutter (· ≠ ·) := fun hk => hb ((List.destutter_sublist _ before).subset hk)
  rw [hh,destutter_append hb,hr,List.take_append]
  constructor
  · intro hk
    rcases List.mem_append.mp hk with hk | hk
    · exact absurd (List.mem_of_mem_take hk) hn
    · by_contra hl
      rw [Nat.sub_eq_zero_of_le (not_lt.mp hl)] at hk
      simp at hk
  · intro ht
    obtain ⟨m,hm⟩ := Nat.exists_eq_add_of_lt ht
    apply List.mem_append_right
    rw [hm,Nat.add_assoc,Nat.add_sub_cancel_left]
    simp

theorem destutter'_concat (a : κ) (l : List κ) (k : κ) : (l++[k]).destutter' (· ≠ ·) a =
    if (a::l).getLast? = some k then l.destutter' (· ≠ ·) a else l.destutter' (· ≠ ·) a ++ [k] := by
  induction l generalizing a with
  | nil => by_cases hk : a = k <;> simp [hk]
  | cons b l ih =>
    have hl : (a::b::l).getLast? = (b::l).getLast? := List.getLast?_cons_cons
    rw [List.cons_append,hl]
    by_cases ha : a = b
    · subst ha
      rw [List.destutter'_cons_neg _ (by simp),List.destutter'_cons_neg _ (by simp),ih]
    · rw [List.destutter'_cons_pos _ ha,List.destutter'_cons_pos _ ha,ih]
      split <;> rfl

theorem destutter_concat (keys : List κ) (k : κ) : (keys++[k]).destutter (· ≠ ·) =
    if keys.getLast? = some k then keys.destutter (· ≠ ·) else keys.destutter (· ≠ ·) ++ [k] := by
  cases keys with
  | nil => rfl
  | cons a l => exact destutter'_concat a l k

theorem mem_destutter_ne {keys : List κ} : k ∈ keys.destutter (· ≠ ·) ↔ k ∈ keys := by
  cases keys with
  | nil => rfl
  | cons a l => exact mem_destutter'_ne

/-- The key occurs in the list, and another one behind it. -/
def ComesBack (before : List κ) (k : κ) : Prop := ∃ b, b ≠ k ∧ [k, b].Sublist before

omit [DecidableEq κ] in
theorem comesBack_concat_self (h : ComesBack (before ++ [k]) k) : ComesBack before k := by
  obtain ⟨b, hb, hs⟩ := h
  refine ⟨b, hb, ?_⟩
  rcases List.sublist_append_iff.mp hs with ⟨front, back, he, hf, ha⟩
  rcases List.sublist_singleton.mp ha with rfl | rfl
  · rw [List.append_nil] at he
    exact he ▸ hf
  · have hl : b = k := by simpa using congrArg List.getLast? he
    exact absurd hl hb

omit [DecidableEq κ] in
theorem comesBack_of_mem (h : k ∈ before) (hl : before.getLast? ≠ some k) : ComesBack before k := by
  rcases List.eq_nil_or_concat before with rfl | ⟨front, b, rfl⟩
  · cases h
  · rw [List.concat_eq_append] at h hl ⊢
    have hb : b ≠ k := fun he => hl (by simp [he])
    have hf : k ∈ front := by
      rcases List.mem_append.mp h with hf | hs
      · exact hf
      · exact absurd (List.mem_singleton.mp hs).symm hb
    exact ⟨b, hb, (List.singleton_sublist.mpr hf).append (List.Sublist.refl [b])⟩

/-- The first `n` keys that are kept are distinct exactly if no key comes back before `n` distinct ones have occurred. -/
theorem nodup_take_destutter_iff (keys : List κ) (n : ℕ) : ((keys.destutter (· ≠ ·)).take n).Nodup ↔
    ∀ before k after, keys = before ++ k::after → ComesBack before k → n ≤ before.toFinset.card := by
  induction keys using List.reverseRecOn with
  | nil =>
    refine iff_of_true (by simp) (fun before k after h => ?_)
    exact absurd h.symm (by simp)
  | append_singleton keys x ih =>
    have hr : (∀ before k after, keys++[x] = before++k::after → ComesBack before k → n ≤ before.toFinset.card) ↔
        (∀ before k after, keys = before++k::after → ComesBack before k → n ≤ before.toFinset.card) ∧
          (ComesBack keys x → n ≤ keys.toFinset.card) := by
      constructor
      · intro h
        refine ⟨fun before k after he => h before k (after++[x]) (by simp [he]),h keys x [] rfl⟩
      · intro h before k after he
        rcases List.eq_nil_or_concat after with rfl | ⟨rest,y,rfl⟩
        · obtain ⟨rfl,hk⟩ := List.append_inj' he rfl
          obtain rfl := (List.cons.inj hk).1
          exact h.2
        · rw [List.concat_eq_append,← List.cons_append,← List.append_assoc] at he
          exact h.1 before k rest (List.append_inj' he rfl).1
    rw [hr,← ih,destutter_concat]
    by_cases hl : keys.getLast? = some x
    · rw [if_pos hl]
      refine ⟨fun h => ⟨h,fun hb => ?_⟩,fun h => h.1⟩
      -- the key came back already, where its run begins
      obtain ⟨front,rfl⟩ := List.getLast?_eq_some_iff.mp hl
      have hle := ih.mp h front x [] rfl (comesBack_concat_self hb)
      exact hle.trans (Finset.card_le_card (fun k hk => by simp_all))
    · rw [if_neg hl]
      rcases Nat.lt_or_ge (keys.destutter (· ≠ ·)).length n with hs | ho
      · have hc : keys.toFinset.card < n := by
          refine lt_of_le_of_lt ?_ hs
          have ha : keys.toFinset = (keys.destutter (· ≠ ·)).toFinset := by
            ext k
            simp [mem_destutter_ne]
          rw [ha]
          exact List.toFinset_card_le _
        have hb : ComesBack keys x ↔ x ∈ keys := by
          constructor
          · intro h
            obtain ⟨b,-,hu⟩ := h
            exact hu.subset (by simp)
          · intro h
            exact comesBack_of_mem h hl
        have hn : (keys.destutter (· ≠ ·)++[x]).length ≤ n := by
          rw [List.length_append,List.length_singleton]
          omega
        rw [List.take_of_length_le hn,List.take_of_length_le hs.le,hb,List.nodup_append]
        constructor
        · intro h
          refine ⟨h.1,fun hx => ?_⟩
          exact absurd rfl (h.2.2 x (mem_destutter_ne.mpr hx) x (by simp))
        · intro h
          refine ⟨h.1,by simp,fun k hk y hy => ?_⟩
          rw [List.mem_singleton.mp hy]
          rintro rfl
          have := h.2 (mem_destutter_ne.mp hk)
          omega
      · rw [List.take_append_of_le_length ho]
        refine ⟨fun h => ⟨h,fun _ => ?_⟩,fun h => h.1⟩
        have hn : ((keys.destutter (· ≠ ·)).take n).toFinset.card = n := by
          rw [List.toFinset_card_of_nodup h,List.length_take,Nat.min_eq_left ho]
        rw [← hn]
        refine Finset.card_le_card (fun k hk => ?_)
        exact List.mem_toFinset.mpr (mem_destutter_ne.mp (List.mem_of_mem_take (List.mem_toFinset.mp hk)))

end Runs

/-! Rows that are sorted stably, thinned to the first of neighbours with one key, and cut. -/

namespace RankedRuns

open Runs
open TopRows

variable {α κ : Type} [DecidableEq κ] {r : α → α → Prop} [DecidableRel r]

omit [DecidableEq κ] in
theorem keys_of_sorted (key : α → κ) (l : List α) : (l.insertionSort r).map key =
    (l.zipIdx.insertionSort (fun a b => r a.1 b.1)).map (fun row => key row.1) := by
  rw [insertionSort_eq_map_fst, List.map_map]
  rfl

section Order

variable [IsTrans α r] [Std.Total r]

theorem pairwise_before (l : List α) : (l.zipIdx.insertionSort (fun a b => r a.1 b.1)).Pairwise (Before r) :=
  (sublist_insertionSort_iff.mp (List.Sublist.refl _)).2

/-- The rows in front of a row of the sorted list are those that stand before it. -/
theorem mem_front_iff {l : List α} {front back : List (α × ℕ)} {c : α × ℕ}
    (h : l.zipIdx.insertionSort (fun a b => r a.1 b.1) = front++c::back) (row : α × ℕ) :
    row ∈ front ↔ row ∈ l.zipIdx ∧ Before r row c := by
  have hp := pairwise_before (r := r) l
  rw [h,List.pairwise_append] at hp
  have hm : row ∈ l.zipIdx ↔ row ∈ front ++ c::back := by rw [← h,List.mem_insertionSort]
  rw [hm]
  constructor
  · intro hf
    exact ⟨List.mem_append_left _ hf,hp.2.2 row hf c List.mem_cons_self⟩
  · intro ho
    obtain ⟨hr,hb⟩ := ho
    rcases List.mem_append.mp hr with hf | he
    · exact hf
    · rcases List.mem_cons.mp he with rfl | ha
      · exact absurd hb hb.asymm
      · exact absurd hb ((List.pairwise_cons.mp hp.2.1).1 row ha).asymm

/-- The first `n` that are kept have distinct keys exactly if ahead of each row that comes back, behind one of another
key, `n` keys occur. -/
theorem nodup_take_iff (key : α → κ) (l : List α) (n : ℕ) :
    ((((l.insertionSort r).map key).destutter (· ≠ ·)).take n).Nodup ↔
      ∀ a ∈ l.zipIdx, ∀ b ∈ l.zipIdx, ∀ c ∈ l.zipIdx, Before r a b → Before r b c → key a.1 = key c.1 →
        key b.1 ≠ key c.1 → n ≤
        ((l.zipIdx.filter (fun row => Before r row c)).map (fun row => key row.1)).toFinset.card := by
  have hh {front back : List (α × ℕ)} {c : α × ℕ}
      (h : l.zipIdx.insertionSort (fun a b => r a.1 b.1) = front++c::back) :
      ((l.zipIdx.filter (fun row => Before r row c)).map (fun row => key row.1)).toFinset =
        (front.map (fun row => key row.1)).toFinset := by
    ext k
    simp only [List.mem_toFinset,List.mem_map,List.mem_filter,decide_eq_true_eq,← mem_front_iff h]
  rw [nodup_take_destutter_iff,keys_of_sorted]
  constructor
  · intro hy a ha b hb c hc hab hbc hm ht
    have hin : c ∈ l.zipIdx.insertionSort (fun a b => r a.1 b.1) := (List.mem_insertionSort _).mpr hc
    obtain ⟨front,back,hs⟩ := List.append_of_mem hin
    rw [hh hs]
    refine hy _ (key c.1) (back.map (fun row => key row.1)) (by rw [hs,List.map_append,List.map_cons]) ?_
    have hr : [a,b].Sublist front := by
      have hf : front.Pairwise (Before r) := by
        have hl := pairwise_before (r := r) l
        rw [hs] at hl
        exact (List.pairwise_append.mp hl).1
      have ha' : a ∈ front := (mem_front_iff hs a).mpr ⟨ha,hab.trans hbc⟩
      have hb' : b ∈ front := (mem_front_iff hs b).mpr ⟨hb,hbc⟩
      have han : Std.Antisymm (Before r) := ⟨fun a b hab hba => absurd hba hab.asymm⟩
      have hne : a ≠ b := by
        rintro rfl
        exact hab.asymm hab
      refine List.sublist_of_subperm_of_pairwise (List.subperm_of_subset ?_ ?_) (by simpa using hab) hf
      · simpa using hne
      · intro row ho
        rcases List.mem_cons.mp ho with rfl | ho
        · exact ha'
        · rw [List.mem_singleton.mp ho]
          exact hb'
    have hu := hr.map (fun row : α × ℕ => key row.1)
    exact ⟨key b.1,ht,hm ▸ hu⟩
  · intro hr before k after hs hbac
    obtain ⟨front,rest,he,rfl,hre⟩ := List.map_eq_append_iff.mp hs
    obtain ⟨c,back,rfl,rfl,-⟩ := List.map_eq_cons_iff.mp hre
    obtain ⟨k,hk,hu⟩ := hbac
    obtain ⟨rows,hsb,hw⟩ := List.sublist_map_iff.mp hu
    obtain ⟨a,tail,rfl,ha,hi⟩ := List.map_eq_cons_iff.mp hw.symm
    obtain ⟨b,more,rfl,hb,hmo⟩ := List.map_eq_cons_iff.mp hi
    obtain rfl := List.map_eq_nil_iff.mp hmo
    obtain ⟨hn,hac⟩ := (mem_front_iff he a).mp (hsb.subset (by simp))
    obtain ⟨hinb,hbc⟩ := (mem_front_iff he b).mp (hsb.subset (by simp))
    have hinc : c ∈ l.zipIdx := by
      rw [← List.mem_insertionSort (fun a b : α × ℕ => r a.1 b.1),he]
      simp
    have hab : Before r a b := by
      have hl := pairwise_before (r := r) l
      rw [he] at hl
      simpa using (List.pairwise_append.mp hl).1.sublist hsb
    rw [← hh he]
    exact hr a hn b hinb c hinc hab hbc ha (hb ▸ hk)

end Order

end RankedRuns
