import Mathlib.Data.List.Basic
import Mathlib.Tactic.Linarith

/-! Binary search of a slice, as the standard library does it: the loop never ends early, and of several matches it comes
to the last. -/

namespace BinarySearch

variable {α : Type}

/-- The loop over `base` and `size`; `f` compares an element with what is sought. The size falls at every step. -/
def searchLoop (f : α → Ordering) (l : List α) : ℕ → ℕ → ℕ → ℕ
  | 0, base, _ => base
  | fuel+1, base, size =>
    if size ≤ 1 then base
    else
      let half := size / 2
      let mid := base + half
      searchLoop f l fuel (if (l[mid]?).map f = some .gt then base else mid) (size - half)

/-- `binary_search_by`: the index of a match, or where one could be inserted. -/
def binarySearchBy (f : α → Ordering) (l : List α) : Except ℕ ℕ :=
  let base := searchLoop f l l.length 0 l.length
  match (l[base]?).map f with
  | none => .error 0
  | some .eq => .ok base
  | some .lt => .error (base + 1)
  | some .gt => .error base

/-- `unwrap_or_else(|index| index)`. -/
def position : Except ℕ ℕ → ℕ
  | .ok i => i
  | .error i => i

def partitionPoint (p : α → Bool) (l : List α) : ℕ :=
  position (binarySearchBy (fun a => if p a then .lt else .gt) l)

variable {f : α → Ordering}

/-- In a list that splits into elements not above what is sought and elements above it, the loop comes to the last of
the former. -/
theorem searchLoop_eq {front rest : List α} (hf : ∀ a ∈ front, f a ≠ .gt) (hr : ∀ a ∈ rest, f a = .gt)
    {fuel base size : ℕ} (hu : size ≤ fuel) (hs : 0 < size) (hb : base < front.length ∨ base = 0)
    (he : front.length ≤ base+size) (hn : base+size ≤ (front++rest).length) :
    searchLoop f (front++rest) fuel base size = front.length - 1 := by
  induction fuel generalizing base size with
  | zero => omega
  | succ fuel ih =>
    unfold searchLoop
    by_cases ho : size ≤ 1
    · rw [if_pos ho]
      omega
    · rw [if_neg ho]
      have hm : base + size / 2 < (front++rest).length := by omega
      have hg : (front++rest)[base+size / 2]? = some ((front++rest)[base+size / 2]) := List.getElem?_eq_getElem hm
      by_cases hi : base + size / 2 < front.length
      · have hl : f ((front++rest)[base+size / 2]) ≠ .gt := by
          rw [List.getElem_append_left hi]
          exact hf _ (List.getElem_mem hi)
        simp only [hg,Option.map_some,Option.some.injEq,if_neg hl]
        exact ih (by omega) (by omega) (.inl hi) (by omega) (by omega)
      · have ht : f ((front++rest)[base+size / 2]) = .gt := by
          rw [List.getElem_append_right (by omega)]
          exact hr _ (List.getElem_mem _)
        simp only [hg,Option.map_some,if_pos (congrArg some ht)]
        exact ih (by omega) (by omega) hb (by omega) (by omega)

/-- Where a match is found, and where one could be inserted. -/
theorem binarySearchBy_eq {less equal greater : List α} (he : ∀ a ∈ less, f a = .lt) (hq : ∀ a ∈ equal, f a = .eq)
    (hg : ∀ a ∈ greater, f a = .gt) : binarySearchBy f (less++equal++greater) =
      if equal = [] then .error less.length else .ok (less.length+(equal.length - 1)) := by
  have hf : ∀ a ∈ less ++ equal, f a ≠ .gt := by
    intro a ha
    rcases List.mem_append.mp ha with ha | ha
    · simp [he a ha]
    · simp [hq a ha]
  unfold binarySearchBy
  rcases Nat.eq_zero_or_pos (less++equal++greater).length with hz | hp
  · have hn : less = [] ∧ equal = [] ∧ greater = [] := by simpa [List.length_eq_zero_iff] using hz
    obtain ⟨rfl,rfl,rfl⟩ := hn
    rfl
  · have hb := searchLoop_eq hf hg (Nat.le_refl _) hp (.inr rfl) (by simp) (by simp)
    simp only [hb]
    cases equal with
    | nil =>
      simp only [List.append_nil,if_true]
      rcases List.eq_nil_or_concat less with rfl | ⟨init,last,rfl⟩
      · cases greater with
        | nil => simp at hp
        | cons g greater => simp [hg g List.mem_cons_self]
      · have hl : f last = .lt := he last (by simp)
        simp [hl]
    | cons e equal =>
      have ht : (less++e::equal++greater)[(less++e::equal).length - 1]? = (e::equal)[equal.length]? := by
        rw [List.getElem?_append_left (by simp),List.getElem?_append_right (by simp)]
        congr 1
        simp
      have hl : (e::equal)[equal.length]? = some ((e::equal)[equal.length]) := List.getElem?_eq_getElem (by simp)
      have heq : f ((e::equal)[equal.length]) = .eq := hq _ (List.getElem_mem _)
      rw [ht,hl,Option.map_some,heq]
      simp

theorem partitionPoint_eq {p : α → Bool} {front rest : List α} (hf : ∀ a ∈ front, p a = true)
    (hr : ∀ a ∈ rest, p a = false) :
    partitionPoint p (front++rest) = front.length := by
  have hs := @binarySearchBy_eq α (fun a => if p a then .lt else .gt) front [] rest
    (fun a ha => by simp [hf a ha]) (by simp) (fun a ha => by simp [hr a ha])
  rw [List.append_nil,if_pos rfl] at hs
  rw [partitionPoint,hs]
  rfl

end BinarySearch
