import Mathlib.Data.List.Forall2
import Mathlib.Data.List.Infix

/-! Wildcard patterns with an escape letter, over letters compared up to a given relation. -/

namespace Like

variable {α : Type}

inductive Token (α : Type)
  | lit (a : α)
  | one
  | many

variable (same : α → α → Bool)

/-- Texts that a pattern stands for: `one` is any letter, `many` any text. -/
def accepts : List (Token α) → List α → Bool
  | [], text => text.isEmpty
  | .lit a::tokens, text =>
    match text with
    | [] => false
    | b::rest => same a b && accepts tokens rest
  | .one::tokens, text =>
    match text with
    | [] => false
    | _::rest => accepts tokens rest
  | .many::tokens, text => text.tails.any (accepts tokens)

/-- A text that begins as `as`, letter by letter up to `same`. -/
def Begins (as text : List α) : Prop := ∃ front rest, text = front ++ rest ∧ List.Forall₂ (fun a b => same a b) as front

theorem accepts_many_nil (text : List α) : accepts same [.many] text := by
  have hm : [] ∈ text.tails := (List.mem_tails _ _).mpr List.nil_suffix
  exact List.any_eq_true.mpr ⟨[],hm,rfl⟩

theorem accepts_lits_many (as text : List α) :
    accepts same (as.map .lit++[.many]) text = true ↔ Begins same as text := by
  induction as generalizing text with
  | nil =>
    refine iff_of_true (accepts_many_nil same text) ⟨[],text,rfl, .nil⟩
  | cons a as ih =>
    cases text with
    | nil =>
      refine iff_of_false (by simp [accepts]) ?_
      rintro ⟨front,rest,ht,hf⟩
      cases hf
      simp at ht
    | cons b text =>
      simp only [List.map_cons,List.cons_append,accepts,Bool.and_eq_true,ih]
      constructor
      · rintro ⟨ha,front,rest,rfl,hf⟩
        exact ⟨b::front,rest,rfl, .cons ha hf⟩
      · rintro ⟨front,rest,ht,hf⟩
        cases hf with
        | cons ha hf =>
          obtain ⟨rfl,hi⟩ := List.cons.inj ht
          exact ⟨ha,_,rest,hi,hf⟩

theorem Begins.append {as text : List α} (h : Begins same as text) (more : List α) : Begins same as (text++more) := by
  obtain ⟨front,rest,rfl,hf⟩ := h
  exact ⟨front,rest++more,List.append_assoc _ _ _,hf⟩

theorem Begins.length_le {as text : List α} (h : Begins same as text) : as.length ≤ text.length := by
  obtain ⟨front,rest,rfl,hf⟩ := h
  rw [hf.length_eq,List.length_append]
  omega

section Reading

variable [DecidableEq α]

/-- The letters of a pattern language. -/
structure Signs (α : Type) where
  escape : α
  one : α
  many : α

variable (signs : Signs α)

/-- A pattern text as tokens: a letter after `escape` stands for itself. -/
def read : List α → Option (List (Token α))
  | [] => some []
  | a::text =>
    if a = signs.escape then
      match text with
      | [] => none
      | b::text => (read text).map (.lit b::·)
    else if a = signs.many then (read text).map (.many::·)
    else if a = signs.one then (read text).map (.one::·)
    else (read text).map (.lit a::·)

/-- `text LIKE pattern ESCAPE escape`. -/
def like (pattern text : List α) : Bool :=
  match read signs pattern with
  | some tokens => accepts same tokens text
  | none => false

/-- A letter as a pattern that stands for it alone. -/
def quoteOne (a : α) : List α := if a = signs.escape ∨ a = signs.many ∨ a = signs.one then [signs.escape, a] else [a]

/-- A text as a pattern that stands for it alone. -/
def quote (text : List α) : List α := text.flatMap (quoteOne signs)

theorem read_quoteOne (a : α) (text : List α) :
    read signs (quoteOne signs a++text) = (read signs text).map (.lit a::·) := by
  unfold quoteOne
  split
  · simp [read]
  · rename_i h
    rw [not_or,not_or] at h
    rw [List.singleton_append,read.eq_def]
    simp only [if_neg h.1,if_neg h.2.1,if_neg h.2.2]

theorem read_quote (as text : List α) :
    read signs (quote signs as++text) = (read signs text).map (as.map .lit ++ ·) := by
  induction as with
  | nil => simp [quote]
  | cons a as ih =>
    have hc : quote signs (a::as) = quoteOne signs a ++ quote signs as := rfl
    rw [hc,List.append_assoc,read_quoteOne,ih,Option.map_map]
    rfl

theorem like_quote_many (hn : signs.many ≠ signs.escape) (as text : List α) :
    like same signs (quote signs as++[signs.many]) text = true ↔ Begins same as text := by
  have hr : read signs [signs.many] = some [.many] := by simp [read,hn]
  unfold like
  rw [read_quote,hr]
  exact accepts_lits_many same as text

end Reading

end Like
