import Mathlib.Data.Prod.Lex
import UwuContextDb.Content.SqliteTables
import UwuContextDb.Library.SqlLogic

/-! The times of the outbox on SQLite are columns of text. Their order as texts is the order of the instants they were
written from. -/

namespace UwuContextDb.Content

open FixedWidth SqlLogic

def isLeapYear (year : ℕ) : Bool := year % 4 = 0 && (year % 100 ≠ 0 || year % 400 = 0)

def monthLengths (year : ℕ) : List ℕ := [31, if isLeapYear year then 29 else 28, 31, 30, 31, 30, 31, 31, 30, 31, 30, 31]

@[ext] structure UtcInstant where
  year : ℕ
  /-- The day of the year, from 0 on. -/
  ordinal : ℕ
  secs : ℕ
  frac : ℕ
  year_le : year ≤ 9999
  ordinal_lt : ordinal < (monthLengths year).sum
  secs_lt : secs < 86400
  frac_lt : frac < 1000000000 ∨ secs % 60 = 59 ∧ frac < 2000000000

namespace UtcInstant

def chronology (t : UtcInstant) : ℕ ×ₗ ℕ ×ₗ ℕ ×ₗ ℕ := toLex (t.year, toLex (t.ordinal, toLex (t.secs, t.frac)))

theorem chronology_injective : Function.Injective chronology := by
  intro a b h
  simp only [chronology,toLex_inj,Prod.mk.injEq] at h
  exact UtcInstant.ext h.1 h.2.1 h.2.2.1 h.2.2.2

instance : LinearOrder UtcInstant := LinearOrder.lift' chronology chronology_injective

theorem lt_iff {a b : UtcInstant} : a < b ↔ a.year < b.year ∨ a.year = b.year ∧ (a.ordinal < b.ordinal ∨
    a.ordinal = b.ordinal ∧ (a.secs < b.secs ∨ a.secs = b.secs ∧ a.frac < b.frac)) := by
  change a.chronology < b.chronology ↔ _
  simp only [chronology,Prod.Lex.lt_iff,ofLex_toLex]

end UtcInstant

def monthDay : List ℕ → ℕ → ℕ × ℕ
  | [], day => (1, day + 1)
  | length::rest, day => if day < length then (1, day + 1) else ((monthDay rest (day - length)).1 + 1, (monthDay rest (day - length)).2)

def padded (width n : ℕ) : List Char := (digits 10 width n).map Nat.digitChar

def fraction (nano : ℕ) : List Char :=
  if nano = 0 then []
  else if nano % 1000000 = 0 then '.'::padded 3 (nano / 1000000)
  else if nano % 1000 = 0 then '.'::padded 6 (nano / 1000)
  else '.'::padded 9 nano

def offset : List Char := ['+', '0', '0', ':', '0', '0']

def timeText (secs frac : ℕ) : List Char :=
  padded 2 (secs / 3600) ++ ':'::(padded 2 (secs / 60 % 60) ++ ':'::(padded 2 (secs % 60 + frac / 1000000000) ++
    (fraction (frac % 1000000000) ++ offset)))

def dateText (year : ℕ) (md : ℕ × ℕ) : List Char := padded 4 year ++ '-'::(padded 2 md.1 ++ '-'::padded 2 md.2)

def UtcInstant.text (t : UtcInstant) : List Char :=
  dateText t.year (monthDay (monthLengths t.year) t.ordinal) ++ 'T'::timeText t.secs t.frac

def FormatsRfc3339 (toRfc3339 : UtcInstant → String) : Prop := ∀ t, (toRfc3339 t).toList = t.text

section Fields

variable {w a b : ℕ} {s t : List Char}

theorem length_padded : (padded w a).length = w := by simp [padded]

theorem padded_lt (h : a < b) (hb : b < 10 ^ w) : padded w a < padded w b :=
  map_lt (digits_lt (by decide) h hb) (digits_lt_base (by decide) (h.trans hb)) (digits_lt_base (by decide) hb)
    (fun d d' hl hd => digitChar_lt d d' hl (by omega))

/-- A field decides if it differs, and what follows it decides if not. -/
theorem field_lt (hb : b < 10 ^ w) (h : a < b ∨ a = b ∧ s < t) : padded w a ++ s < padded w b ++ t := by
  rcases h with h | ⟨rfl,h⟩
  · exact append_lt (by simp [length_padded]) (padded_lt h hb) s t
  · exact List.Lex.append_left (· < ·) h (padded w a)

theorem cons_lt (c : Char) (h : s < t) : c::s < c::t := List.Lex.cons h

end Fields

section Fractions

def grouped : ℕ → ℕ → List Char
  | 0, _ => offset
  | k + 1, n => if n = 0 then offset else padded 3 (n / 1000 ^ k) ++ grouped k (n % 1000 ^ k)

/-- The sign of the offset comes before every digit, so a fraction that ends is before one that goes on. -/
theorem offset_lt_padded (w n : ℕ) (h : n < 10 ^ (w+1)) (s : List Char) : offset < padded (w+1) n ++ s := by
  have hd : ∀ d < 10, '+' < Nat.digitChar d := by decide
  have hn : n / 10 ^ w < 10 := Nat.div_lt_of_lt_mul (by rwa [← Nat.pow_succ])
  exact List.Lex.rel (hd _ hn)

theorem grouped_lt (k : ℕ) {a b : ℕ} (h : a < b) (hb : b < 1000 ^ k) : grouped k a < grouped k b := by
  induction k generalizing a b with
  | zero =>
    rw [Nat.pow_zero] at hb
    omega
  | succ k ih =>
    have hp : 0 < 1000 ^ k := Nat.pow_pos (by decide)
    have hg : b / 1000 ^ k < 10 ^ 3 := Nat.div_lt_of_lt_mul (by rwa [Nat.pow_succ] at hb)
    rw [grouped,grouped,if_neg (show b ≠ 0 by omega)]
    by_cases ha : a = 0
    · rw [if_pos ha]
      exact offset_lt_padded 2 _ hg _
    · rw [if_neg ha]
      apply field_lt hg
      rcases Nat.lt_or_eq_of_le (Nat.div_le_div_right (c := 1000 ^ k) h.le) with hh | hh
      · exact .inl hh
      · refine .inr ⟨hh,ih ?_ (Nat.mod_lt _ hp)⟩
        have ha := Nat.div_add_mod a (1000 ^ k)
        have hb := Nat.div_add_mod b (1000 ^ k)
        rw [← hh] at hb
        omega

theorem padded_six (n : ℕ) : padded 6 n = padded 3 (n / 1000) ++ padded 3 (n % 1000) := by
  simp only [padded,digits,List.map_cons,List.map_nil,List.cons_append,List.nil_append,List.cons.injEq]
  refine ⟨?_,?_,?_,?_,?_,?_,trivial⟩ <;> congr 1 <;> omega

theorem padded_nine (n : ℕ) : padded 9 n = padded 3 (n / 1000000) ++ padded 6 (n % 1000000) := by
  simp only [padded,digits,List.map_cons,List.map_nil,List.cons_append,List.nil_append,List.cons.injEq]
  refine ⟨?_,?_,?_,?_,?_,?_,?_,?_,?_,trivial⟩ <;> congr 1 <;> omega

theorem fraction_offset (n : ℕ) : fraction n ++ offset = if n = 0 then offset else '.'::grouped 3 n := by
  have hl : n % 1000000 % 1000 = n % 1000 := by omega
  have hd : n / 1000 / 1000 = n / 1000000 ∧ n / 1000 % 1000 = n % 1000000 / 1000 := by omega
  by_cases h0 : n = 0
  · simp [h0,fraction]
  by_cases hm : n % 1000000 = 0
  · simp [fraction,grouped,h0,hm]
  by_cases hi : n % 1000 = 0
  · simp [fraction,grouped,h0,hm,hi,hl,padded_six,hd]
  · simp [fraction,grouped,h0,hm,hi,hl,padded_nine,padded_six]

end Fractions

section Order

/-- The fraction and the offset follow the order of the nanoseconds: the offset begins with a sign before the point. -/
theorem fraction_lt {n m : ℕ} (h : n < m) (hm : m < 1000000000) : fraction n ++ offset < fraction m ++ offset := by
  rw [fraction_offset,fraction_offset,if_neg (show m ≠ 0 by omega)]
  split_ifs
  · exact List.Lex.rel (by decide)
  · exact cons_lt '.' (grouped_lt 3 h hm)

/-- The time of the day. In a leap second the seconds are written as 60. -/
theorem timeText_lt {s n s' n' : ℕ} (h : s < s' ∨ s = s' ∧ n < n') (hs' : s' < 86400)
    (hn : n < 1000000000 ∨ s % 60 = 59 ∧ n < 2000000000) (hn' : n' < 1000000000 ∨ s' % 60 = 59 ∧ n' < 2000000000) :
    timeText s n < timeText s' n' := by
  apply field_lt (by omega)
  rcases Nat.lt_or_eq_of_le (show s / 3600 ≤ s' / 3600 by omega) with hh | hh
  · exact .inl hh
  refine .inr ⟨hh,cons_lt ':' (field_lt (by omega) ?_)⟩
  rcases Nat.lt_or_eq_of_le (show s / 60 % 60 ≤ s' / 60 % 60 by omega) with hm | hm
  · exact .inl hm
  refine .inr ⟨hm,cons_lt ':' (field_lt (by omega) ?_)⟩
  by_cases he : s % 60 + n / 1000000000 < s' % 60 + n' / 1000000000
  · exact .inl he
  · exact .inr ⟨by omega,fraction_lt (by omega) (Nat.mod_lt _ (by decide))⟩

theorem month_pos (lengths : List ℕ) (day : ℕ) : 0 < (monthDay lengths day).1 := by
  cases lengths with
  | nil => exact Nat.one_pos
  | cons length rest =>
    rw [monthDay]
    split_ifs
    · exact Nat.one_pos
    · exact Nat.succ_pos _

/-- A later day of a year has a later month, or a later day in the same month. -/
theorem monthDay_lt (lengths : List ℕ) {day day' : ℕ} (h : day < day') (h' : day' < lengths.sum) :
    (monthDay lengths day).1 < (monthDay lengths day').1 ∨
      (monthDay lengths day).1 = (monthDay lengths day').1 ∧ (monthDay lengths day).2 < (monthDay lengths day').2 := by
  induction lengths generalizing day day' with
  | nil => simp at h'
  | cons length rest ih =>
    rw [List.sum_cons] at h'
    by_cases hd' : day' < length
    · simpa [monthDay,hd',h.trans hd'] using h
    · by_cases hd : day < length
      · have := month_pos rest (day' - length)
        simp only [monthDay,if_pos hd,if_neg hd']
        omega
      · simp only [monthDay,if_neg hd,if_neg hd']
        have := ih (show day - length < day' - length by omega) (by omega)
        omega

theorem monthDay_le (lengths : List ℕ) {day : ℕ} (h : day < lengths.sum) :
    (monthDay lengths day).1 ≤ lengths.length ∧ ∃ length ∈ lengths, (monthDay lengths day).2 ≤ length := by
  induction lengths generalizing day with
  | nil => simp at h
  | cons length rest ih =>
    rw [List.sum_cons] at h
    simp only [monthDay]
    split_ifs with hd
    · simp
      omega
    · obtain ⟨hm,last,hl,he⟩ := ih (show day - length < rest.sum by omega)
      exact ⟨by simpa using hm,last,List.mem_cons_of_mem _ hl,he⟩

theorem length_text_date (year : ℕ) (md : ℕ × ℕ) : (dateText year md).length = 10 := by
  simp [dateText,length_padded]

theorem monthDay_lt_hundred {year day : ℕ} (h : day < (monthLengths year).sum) :
    (monthDay (monthLengths year) day).1 < 100 ∧ (monthDay (monthLengths year) day).2 < 100 := by
  obtain ⟨hm,length,hl,hd⟩ := monthDay_le _ h
  have ha : ∀ length ∈ monthLengths year, length ≤ 31 := by
    unfold monthLengths
    cases isLeapYear year <;> decide
  have := ha length hl
  have : (monthLengths year).length = 12 := rfl
  omega

theorem dateText_lt {year year' : ℕ} {md md' : ℕ × ℕ}
    (h : year < year' ∨ year = year' ∧ (md.1 < md'.1 ∨ md.1 = md'.1 ∧ md.2 < md'.2))
    (hy : year' ≤ 9999) (hm : md'.1 < 100) (hd : md'.2 < 100) : dateText year md < dateText year' md' := by
  apply field_lt (by omega)
  rcases h with h | ⟨rfl,h⟩
  · exact .inl h
  refine .inr ⟨rfl,cons_lt '-' (field_lt hm ?_)⟩
  rcases h with h | ⟨he,h⟩
  · exact .inl h
  · exact .inr ⟨he,cons_lt '-' (padded_lt h hd)⟩

theorem text_lt {a b : UtcInstant} (h : a < b) : a.text < b.text := by
  have hb := monthDay_lt_hundred b.ordinal_lt
  have hl : ∀ md md', (dateText a.year md).length = (dateText b.year md').length := by simp [length_text_date]
  rcases UtcInstant.lt_iff.mp h with hy | ⟨hy,hd | ⟨hd,ht⟩⟩
  · exact append_lt (hl _ _) (dateText_lt (.inl hy) b.year_le hb.1 hb.2) _ _
  · have ha := monthDay_lt (monthLengths b.year) hd b.ordinal_lt
    rw [UtcInstant.text,UtcInstant.text,hy]
    exact append_lt (by simp [length_text_date]) (dateText_lt (.inr ⟨rfl,ha⟩) b.year_le hb.1 hb.2) _ _
  · rw [UtcInstant.text,UtcInstant.text,hy,hd]
    exact List.Lex.append_left (· < ·) (cons_lt 'T' (timeText_lt ht b.secs_lt a.frac_lt b.frac_lt)) _

end Order

/-- The columns that the claim statement compares with the present: instants, or the texts that are stored. -/
structure RowTimes (τ : Type) where
  status : OutboxStatus
  availableAt : τ
  leaseUntil : Option τ
  createdAt : τ

namespace RowTimes

variable {τ σ : Type} [LinearOrder τ] [LinearOrder σ]

def map (f : τ → σ) (row : RowTimes τ) : RowTimes σ :=
  ⟨row.status, f row.availableAt, row.leaseUntil.map f, f row.createdAt⟩

/-- `(status IN ('pending','failed') AND available_at <= ?) OR (status='processing' AND lease_until < ?)`. -/
def isReady (now : τ) (row : RowTimes τ) : Truth :=
  or3 (and3 (some (row.status = .pending || row.status = .failed)) (some (row.availableAt ≤ now)))
    (and3 (some (row.status = .processing)) (compare3 (fun lease t => decide (lease < t)) row.leaseUntil (some now)))

/-- `older.created_at < context_index_outbox.created_at`. -/
def isOlder (older row : RowTimes τ) : Bool := older.createdAt < row.createdAt

theorem isReady_map {f : τ → σ} (hf : StrictMono f) (now : τ) (row : RowTimes τ) :
    (row.map f).isReady (f now) = row.isReady now := by
  have hl (a b) : decide (f a < f b) = decide (a < b) := decide_eq_decide.mpr hf.lt_iff_lt
  have he (a b) : decide (f a ≤ f b) = decide (a ≤ b) := decide_eq_decide.mpr hf.le_iff_le
  have hd := congrArg some (he row.availableAt now)
  rcases row with ⟨status,available,_ | lease,created⟩
  · exact congrArg₂ or3 (congrArg₂ and3 rfl hd) rfl
  · exact congrArg₂ or3 (congrArg₂ and3 rfl hd) (congrArg₂ and3 rfl (congrArg some (hl lease now)))

theorem isOlder_map {f : τ → σ} (hf : StrictMono f) (older row : RowTimes τ) :
    (older.map f).isOlder (row.map f) = older.isOlder row := by
  simp [map,isOlder,hf.lt_iff_lt]

end RowTimes

/-- The texts of the formatter stand in the order of the instants, so the conditions of the claim statement say of the
stored texts what they say of the instants. -/
theorem stored_times_ordered (toRfc3339 : UtcInstant → String) (hformat : FormatsRfc3339 toRfc3339) :
    (∀ a b, (toRfc3339 a < toRfc3339 b ↔ a < b) ∧ (toRfc3339 a ≤ toRfc3339 b ↔ a ≤ b)) ∧
    (∀ now row, (RowTimes.map toRfc3339 row).isReady (toRfc3339 now) = row.isReady now) ∧
    ∀ older row, (RowTimes.map toRfc3339 older).isOlder (row.map toRfc3339) = older.isOlder row := by
  have hm : StrictMono toRfc3339 := by
    intro a b h
    rw [String.lt_iff_toList_lt, hformat a, hformat b]
    exact text_lt h
  exact ⟨fun a b => ⟨hm.lt_iff_lt, hm.le_iff_le⟩, RowTimes.isReady_map hm, RowTimes.isOlder_map hm⟩

/-- A second of 2024, a millisecond later and a leap second: texts of different lengths. -/
theorem stored_times_sample :
    String.ofList (UtcInstant.text ⟨2024, 59, 3599, 0, by decide, by decide, by decide, by decide⟩) =
      "2024-02-29T00:59:59+00:00" ∧
    String.ofList (UtcInstant.text ⟨2024, 59, 3599, 1001000000, by decide, by decide, by decide, by decide⟩) =
      "2024-02-29T00:59:60.001+00:00" ∧
    ("2024-02-29T00:59:59+00:00" < "2024-02-29T00:59:60.001+00:00" ↔
      (⟨2024, 59, 3599, 0, by decide, by decide, by decide, by decide⟩ : UtcInstant) <
        ⟨2024, 59, 3599, 1001000000, by decide, by decide, by decide, by decide⟩) := by
  have h := (stored_times_ordered (fun t => String.ofList t.text) (fun t => by simp)).1
    ⟨2024, 59, 3599, 0, by decide, by decide, by decide, by decide⟩
    ⟨2024, 59, 3599, 1001000000, by decide, by decide, by decide, by decide⟩
  exact ⟨by decide, by decide, h.1⟩

end UwuContextDb.Content
