import UwuContextDb.Library.Keyset

/-! Going through a list in batches. The pages are cut by a key; of a page only what is ahead of the cursor is taken, and
the next page begins after the last item taken. -/

namespace Sweep

variable {α K : Type} [LinearOrder K] (key : α → K) (ahead : α → α → Bool) (limit : ℕ) (items : List α)

/-- What is taken of the page after a cursor. -/
def batch (cursor : Option α) : List α :=
  ((Keyset.remaining key (cursor.map key) items).take limit).filter (fun a => cursor.all (fun c => ahead c a))

/-- The batches of some rounds: the cursor goes to the last item of a batch, and back to the start after an empty one. -/
def batches : ℕ → Option α → List (List α)
  | 0, _ => []
  | n + 1, cursor => batch key ahead limit items cursor :: batches n (batch key ahead limit items cursor).getLast?

/-- The batches before the first empty one. -/
def sweep (rounds : List (List α)) : List (List α) := rounds.takeWhile (fun batch => !batch.isEmpty)

/-- The last item of each full page, counted from the start, has all the later items ahead of it. -/
def PagesAhead : Prop :=
  ∀ front a back, items = front ++ a :: back → limit ∣ front.length + 1 → ∀ b ∈ back, ahead a b = true

variable {key} {ahead} {limit} {items} {cursor : Option α}

variable {rounds : List (List α)} {before rest : List α}

theorem sweep_empty : sweep ([] :: rounds) = [] := rfl

theorem sweep_cons {first : List α} (h : first ≠ []) : sweep (first :: rounds) = first :: sweep rounds := by
  simp [sweep,h]

/-- What is not ahead of the cursor is passed over by the rest of the sweep. -/
theorem skipped (ht : ∀ a b c, ahead a b = true → ahead b c = true → ahead a c = true) {c a : α}
    (h : ahead c a = false) (n : ℕ) :
    a ∉ (sweep (batches key ahead limit items n (some c))).flatten := by
  induction n generalizing c with
  | zero => simp [batches,sweep]
  | succ n ih =>
    have hh : ∀ b ∈ batch key ahead limit items (some c), ahead c b = true := fun b hb => (List.mem_filter.mp hb).2
    unfold batches
    cases hl : (batch key ahead limit items (some c)).getLast? with
    | none =>
      rw [List.getLast?_eq_none_iff.mp hl,sweep_empty]
      simp
    | some last =>
      have hm := List.mem_of_getLast? hl
      rw [sweep_cons (List.ne_nil_of_mem hm),List.flatten_cons,List.mem_append,not_or]
      constructor
      · intro ha
        rw [hh a ha] at h
        cases h
      · apply ih
        rw [← Bool.not_eq_true]
        intro hla
        rw [ht c last a (hh last hm) hla] at h
        cases h

theorem remaining_next (hs : items.Pairwise (fun a b => key a < key b)) {c : α}
    (hi : items = before++c :: rest) : Keyset.remaining key (some (key c)) items = rest := by
  rw [hi,List.pairwise_append,List.pairwise_cons] at hs
  obtain ⟨-,⟨hr,-⟩,he⟩ := hs
  unfold Keyset.remaining
  rw [hi,List.filter_append,List.filter_cons_of_neg (by simp),List.filter_eq_nil_iff.mpr,List.nil_append,
    List.filter_eq_self.mpr]
  · exact fun b hb => decide_eq_true (hr b hb)
  · exact fun b hb => by simpa using (he b hb c List.mem_cons_self).le

theorem pagesAhead_short (h : items.length < limit) : PagesAhead ahead limit items := by
  intro front a back hi hd
  have hl := Nat.le_of_dvd (Nat.succ_pos _) hd
  rw [hi,List.length_append,List.length_cons] at h
  omega

theorem pagesAhead_full {first rest : List α} {c : α} (hi : items = first++c :: rest)
    (hf : first.length+1 = limit) :
    PagesAhead ahead limit items ↔ (∀ b ∈ rest, ahead c b = true) ∧ PagesAhead ahead limit rest := by
  constructor
  · intro h
    refine ⟨h first c rest hi (hf ▸ Nat.dvd_refl limit),fun front a back hr hd => ?_⟩
    apply h (first++c :: front) a back
    · rw [hi,hr,List.append_assoc,List.cons_append]
    · have hl : (first++c :: front).length + 1 = limit + (front.length+1) := by
        rw [List.length_append,List.length_cons]
        omega
      rw [hl]
      exact (Nat.dvd_add_right (Nat.dvd_refl limit)).mpr hd
  · rintro ⟨hc,hr⟩ front a back hs hd
    rw [hi] at hs
    by_cases hl : front.length + 1 = limit
    · obtain ⟨-,ht⟩ := List.append_inj hs (by omega)
      obtain ⟨rfl,rfl⟩ := List.cons.inj ht
      exact hc
    · have he := Nat.le_of_dvd (Nat.succ_pos _) hd
      apply hr (front.drop limit) a back
      · have ho := congrArg (List.drop limit) hs
        rwa [← hf,List.drop_length_add_append,List.drop_one,List.tail_cons,hf,
          List.drop_append_of_le_length (by omega)] at ho
      · rw [List.length_drop]
        have hu : front.length - limit + 1 = front.length + 1 - limit := by omega
        rw [hu]
        exact Nat.dvd_sub hd (Nat.dvd_refl limit)

theorem exists_page {rest : List α} (hl : 0 < limit) (h : limit ≤ rest.length) :
    ∃ first c later, rest = first ++ c :: later ∧ first.length + 1 = limit := by
  cases hd : rest.drop (limit - 1) with
  | nil =>
    have he := List.drop_eq_nil_iff.mp hd
    omega
  | cons c later =>
    refine ⟨rest.take (limit - 1),c,later,?_,?_⟩
    · rw [← hd,List.take_append_drop]
    · rw [List.length_take]
      omega

/-- From a cursor that all the rest is ahead of, the sweep comes to all of it exactly if the pages are ahead of one
another. -/
theorem covers_rest_iff (hs : items.Pairwise (fun a b => key a < key b))
    (ht : ∀ a b c, ahead a b = true → ahead b c = true → ahead a c = true) (hi : 0 < limit) {n : ℕ}
    (he : items = before++rest) (hre : Keyset.remaining key (cursor.map key) items = rest)
    (hah : ∀ a ∈ rest, cursor.all (fun c => ahead c a) = true) (hn : rest.length ≤ n) :
    (∀ a ∈ rest, a ∈ (sweep (batches key ahead limit items n cursor)).flatten) ↔ PagesAhead ahead limit rest := by
  induction n generalizing cursor before rest with
  | zero =>
    obtain rfl := List.length_eq_zero_iff.mp (Nat.le_zero.mp hn)
    exact iff_of_true (fun a ha => nomatch ha) (pagesAhead_short hi)
  | succ n ih =>
    have hb : batch key ahead limit items cursor = rest.take limit := by
      unfold batch
      rw [hre]
      exact List.filter_eq_self.mpr (fun a ha => hah a (List.mem_of_mem_take ha))
    unfold batches
    rw [hb]
    by_cases hh : rest.length < limit
    · refine iff_of_true (fun a ha => ?_) (pagesAhead_short hh)
      rw [List.take_of_length_le hh.le,sweep_cons (List.ne_nil_of_mem ha),List.flatten_cons]
      exact List.mem_append_left _ ha
    · obtain ⟨first,c,later,hp,hf⟩ := exists_page hi (Nat.not_lt.mp hh)
      have hk : rest.take limit = first ++ [c] := by
        rw [hp,← hf,List.take_length_add_append,List.take_one,List.head?_cons,Option.toList_some]
      have hsp : items = (before++first) ++ c :: later := by rw [he,hp,List.append_assoc]
      have hx : Keyset.remaining key ((some c).map key) items = later := remaining_next hs hsp
      have ho : ∀ a ∈ later, a ∉ first ++ [c] := by
        rw [hsp,List.append_assoc,List.pairwise_append] at hs
        have hl := hs.2.1
        rw [List.append_cons,List.pairwise_append] at hl
        exact fun a ha hm => lt_irrefl _ (hl.2.2 a hm a ha)
      rw [hk,sweep_cons (by simp),List.getLast?_concat,pagesAhead_full hp hf]
      have hle : later.length ≤ n := by
        rw [hp,List.length_append,List.length_cons] at hn
        omega
      have hr : (∀ a ∈ later, ahead c a = true) →
          ((∀ a ∈ later, a ∈ (sweep (batches key ahead limit items n (some c))).flatten) ↔ PagesAhead ahead limit later) :=
        fun h => ih (hsp.trans (List.append_cons _ _ _)) hx h hle
      constructor
      · intro h
        have hl : ∀ a ∈ later, a ∈ (sweep (batches key ahead limit items n (some c))).flatten := by
          intro a ha
          have hm := h a (by rw [hp]; simp [ha])
          rw [List.flatten_cons,List.mem_append] at hm
          exact hm.resolve_left (ho a ha)
        have hc : ∀ a ∈ later, ahead c a = true := by
          intro a ha
          by_contra hno
          exact skipped ht (Bool.eq_false_iff.mpr hno) n (hl a ha)
        exact ⟨hc,(hr hc).mp hl⟩
      · rintro ⟨hc,hg⟩ a ha
        rw [hp,List.append_cons,List.mem_append] at ha
        rw [List.flatten_cons,List.mem_append]
        exact ha.imp_right ((hr hc).mpr hg a)

/-- A sweep from the start comes to all items exactly if the pages are ahead of one another. -/
theorem covers_iff (hs : items.Pairwise (fun a b => key a < key b))
    (ht : ∀ a b c, ahead a b = true → ahead b c = true → ahead a c = true) (hl : 0 < limit) {n : ℕ}
    (hn : items.length ≤ n) :
    (∀ a ∈ items, a ∈ (sweep (batches key ahead limit items n none)).flatten) ↔ PagesAhead ahead limit items :=
  covers_rest_iff hs ht hl (List.nil_append items).symm Keyset.remaining_none (fun _ _ => rfl) hn

theorem length_remaining_lt {last : α} (h : (batch key ahead limit items cursor).getLast? = some last) :
    (Keyset.remaining key (some (key last)) items).length < (Keyset.remaining key (cursor.map key) items).length := by
  have hm : last ∈ Keyset.remaining key (cursor.map key) items :=
    List.mem_of_mem_take (List.mem_of_mem_filter (List.mem_of_getLast? h))
  have ha : ∀ c ∈ cursor, key c < key last := by
    rintro c rfl
    exact (Keyset.mem_remaining.mp hm).2
  have hf : Keyset.remaining key (some (key last)) items =
      (Keyset.remaining key (cursor.map key) items).filter (fun a => decide (key last < key a)) := by
    unfold Keyset.remaining
    rw [List.filter_filter]
    apply List.filter_congr
    intro a _
    cases cursor with
    | none => simp
    | some c => simpa using fun hl : key last < key a => (ha c rfl).trans hl
  rw [hf,List.length_filter_lt_length_iff_exists]
  exact ⟨last,hm,by simp⟩

theorem length_sweep_le (n : ℕ) (cursor : Option α) :
    (sweep (batches key ahead limit items n cursor)).length ≤ (Keyset.remaining key (cursor.map key) items).length := by
  induction n generalizing cursor with
  | zero => simp [batches,sweep]
  | succ n ih =>
    unfold batches
    cases hl : (batch key ahead limit items cursor).getLast? with
    | none =>
      rw [List.getLast?_eq_none_iff.mp hl,sweep_empty]
      exact Nat.zero_le _
    | some last =>
      have hn := List.ne_nil_of_mem (List.mem_of_getLast? hl)
      rw [sweep_cons hn,List.length_cons]
      exact Nat.lt_of_le_of_lt (ih (some last)) (length_remaining_lt hl)

end Sweep
