import Mathlib.Data.List.Basic
import Mathlib.Order.Lattice

/-! Paging by keys: a page begins after the key it is asked to go on from, and hands out the key of its last item
if there are more. Following the keys visits a list as it is exactly when its keys increase. -/

namespace Keyset

variable {α K : Type} [LinearOrder K] (key : α → K)

/-- The items that come after a key. -/
def remaining (after : Option K) (items : List α) : List α :=
  items.filter (fun a => after.all (fun c => decide (c < key a)))

/-- A page of `limit` items, and the key to go on from. -/
def page (limit : ℕ) (after : Option K) (items : List α) : List α × Option K :=
  let selected := (remaining key after items).take limit
  (selected, if limit < (remaining key after items).length then selected.getLast?.map key else none)

/-- The items seen by going on from page to page until a page hands out no key. -/
inductive Follows (limit : ℕ) (items : List α) : Option K → List α → Prop
  | last (after : Option K) (h : (page key limit after items).2 = none) :
    Follows limit items after (page key limit after items).1
  | more (after : Option K) (c : K) (rest : List α) (h : (page key limit after items).2 = some c)
    (hrest : Follows limit items (some c) rest) : Follows limit items after ((page key limit after items).1 ++ rest)

/-- From the first page on, the pages are the list. -/
def Partitions (limit : ℕ) (items : List α) : Prop := Follows key limit items none items

variable {key} {limit : ℕ} {items out : List α} {after : Option K}

@[simp] theorem remaining_none : remaining key none items = items := by
  simp [remaining]

theorem mem_remaining {a : α} {c : K} : a ∈ remaining key (some c) items ↔ a ∈ items ∧ c < key a := by
  simp [remaining]

theorem Follows.after_lt (h : Follows key limit items after out) : ∀ a ∈ out, ∀ c, after = some c → c < key a := by
  induction h with
  | last after hn =>
    rintro a ha c rfl
    exact (mem_remaining.mp (List.mem_of_mem_take ha)).2
  | more after d rest hs hr ih =>
    rintro a ha c rfl
    rcases List.mem_append.mp ha with ha | ha
    · exact (mem_remaining.mp (List.mem_of_mem_take ha)).2
    · have hd := ih a ha d rfl
      have hm : ∃ b ∈ (remaining key (some c) items).take limit, key b = d := by
        unfold page at hs
        dsimp only at hs
        split at hs
        · obtain ⟨b,hb,hk⟩ := Option.map_eq_some_iff.mp hs
          exact ⟨b,List.mem_of_getLast? hb,hk⟩
        · cases hs
      obtain ⟨b,hb,rfl⟩ := hm
      exact lt_trans (mem_remaining.mp (List.mem_of_mem_take hb)).2 hd

/-- Pages of one item are seen in the order of their keys. -/
theorem Follows.increasing (h : Follows key 1 items after out) : out.Pairwise (fun a b => key a < key b) := by
  have ho : ∀ after : Option K, (page key 1 after items).1.Pairwise (fun a b => key a < key b) := by
    intro after
    unfold page
    dsimp only
    cases remaining key after items with
    | nil => simp
    | cons a rest => simp
  induction h with
  | last after hn => exact ho after
  | more after c rest hs he ih =>
    refine List.pairwise_append.mpr ⟨ho after,ih,fun a ha b hb => ?_⟩
    have hl := he.after_lt b hb c rfl
    unfold page at hs ha
    dsimp only at hs ha
    split at hs
    · cases hr : remaining key after items with
      | nil => simp [hr] at ha
      | cons d ds =>
        rw [hr] at hs ha
        obtain rfl : a = d := by simpa using ha
        obtain rfl : key a = c := by simpa using hs
        exact hl
    · cases hs

theorem remaining_getLast {before rest : List α} (h : (before++rest).Pairwise (fun a b => key a < key b)) :
    remaining key (before.getLast?.map key) (before++rest) = rest := by
  cases hl : before.getLast? with
  | none =>
    obtain rfl := List.getLast?_eq_none_iff.mp hl
    simp
  | some a =>
    obtain ⟨first,rfl⟩ := List.getLast?_eq_some_iff.mp hl
    obtain ⟨he,-,hc⟩ := List.pairwise_append.mp h
    simp only [Option.map_some,remaining,Option.all_some,List.filter_append]
    have hn : first.filter (fun b => decide (key a < key b)) = [] := by
      refine List.filter_eq_nil_iff.mpr (fun b hb => ?_)
      have ht : key b < key a := (List.pairwise_append.mp he).2.2 b hb a List.mem_cons_self
      simpa using ht.le
    have ha : rest.filter (fun b => decide (key a < key b)) = rest := by
      refine List.filter_eq_self.mpr (fun b hb => ?_)
      simpa using hc a (by simp) b hb
    simp [hn,ha]

theorem follows_of_increasing (hpo : 0 < limit) {before rest : List α}
    (h : (before++rest).Pairwise (fun a b => key a < key b)) :
    Follows key limit (before++rest) (before.getLast?.map key) rest := by
  induction hn : rest.length using Nat.strongRecOn generalizing before rest with
  | _ n ih =>
    have hr := remaining_getLast h
    have hp : (page key limit (before.getLast?.map key) (before++rest)).1 = rest.take limit := by
      simp only [page,hr]
    by_cases hm : limit < rest.length
    · have hne : rest.take limit ≠ [] := by
        intro hi
        have he := congrArg List.length hi
        simp only [List.length_take,List.length_nil] at he
        omega
      obtain ⟨last,hl⟩ := Option.ne_none_iff_exists'.mp (fun ho => hne (List.getLast?_eq_none_iff.mp ho))
      have hs : before ++ rest = (before++rest.take limit) ++ rest.drop limit := by
        rw [List.append_assoc,List.take_append_drop]
      have hc : (page key limit (before.getLast?.map key) (before++rest)).2 = some (key last) := by
        simp only [page,hr,hm,if_true,hl,Option.map_some]
      have hg : ((before++rest.take limit).getLast?).map key = some (key last) := by
        rw [List.getLast?_append,hl]
        rfl
      have hre : Follows key limit (before++rest) (some (key last)) (rest.drop limit) := by
        have hh : (rest.drop limit).length < n := by
          rw [List.length_drop]
          omega
        have hgo := ih _ hh (hs ▸ h) rfl
        rwa [hg,← hs] at hgo
      have hf := Follows.more _ _ _ hc hre
      rwa [hp,List.take_append_drop] at hf
    · have hc : (page key limit (before.getLast?.map key) (before++rest)).2 = none := by
        simp only [page,hr,hm,if_false]
      have hf : Follows key limit (before++rest) (before.getLast?.map key)
        (page key limit (before.getLast?.map key) (before++rest)).1 := .last _ hc
      rwa [hp,List.take_of_length_le (by omega)] at hf

/-- Every page size partitions a list exactly if its keys increase. -/
theorem partitions_iff : (∀ limit, 0 < limit → Partitions key limit items) ↔
    items.Pairwise (fun a b => key a < key b) := by
  constructor
  · intro h
    exact (h 1 Nat.one_pos).increasing
  · intro h limit hp
    have hi : ([]++items : List α).Pairwise (fun a b => key a < key b) := h
    exact follows_of_increasing hp hi

end Keyset
