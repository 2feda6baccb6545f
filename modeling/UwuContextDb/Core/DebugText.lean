import Mathlib.Data.Nat.Digits.Defs

/-! How `{:?}` prints characters and strings, and that a printed text can be read back. -/

namespace UwuContextDb.Text

/-- `char::to_digit` backwards, for sixteen digits. -/
def hexDigit (d : ℕ) : Char := "0123456789abcdef".toList.getD d '0'

/-- How `{:?}` prints a character; `unprinted` tells those that it writes by their number. -/
def escapeDebug (unprinted : Char → Bool) (c : Char) : List Char :=
  if c = '\x00' then ['\\', '0']
  else if c = '\t' then ['\\', 't']
  else if c = '\r' then ['\\', 'r']
  else if c = '\n' then ['\\', 'n']
  else if c = '\\' then ['\\', '\\']
  else if c = '"' then ['\\', '"']
  else if unprinted c then ['\\', 'u', '\x7b'] ++ ((Nat.digits 16 c.toNat).map hexDigit).reverse ++ ['\x7d']
  else [c]

/-- `{:?}` of a string. -/
def debugText (unprinted : Char → Bool) (text : String) : List Char :=
  '"' :: text.toList.flatMap (escapeDebug unprinted) ++ ['"']

/-- `{:?}` of a value around a string. -/
def debugAround (unprinted : Char → Bool) (opening text closing : String) : List Char :=
  opening.toList ++ debugText unprinted text ++ closing.toList

variable {unp : Char → Bool}

def hexValue (c : Char) : ℕ := "0123456789abcdef".toList.idxOf c

theorem hexValue_hexDigit {d : ℕ} (hd : d < 16) : hexValue (hexDigit d) = d := by
  have ha : ∀ a : Fin 16, hexValue (hexDigit a) = a := by decide
  exact ha ⟨d,hd⟩

theorem hexDigit_ne_brace {d : ℕ} (hd : d < 16) : hexDigit d ≠ '\x7d' := by
  have ha : ∀ a : Fin 16, hexDigit a ≠ '\x7d' := by decide
  exact ha ⟨d,hd⟩

def unescapeOne : List Char → Option (Char × List Char)
  | '\\' :: '0' :: text => some ('\x00', text)
  | '\\' :: 't' :: text => some ('\t', text)
  | '\\' :: 'r' :: text => some ('\r', text)
  | '\\' :: 'n' :: text => some ('\n', text)
  | '\\' :: '\\' :: text => some ('\\', text)
  | '\\' :: '"' :: text => some ('"', text)
  | '\\' :: 'u' :: '\x7b' :: text =>
    let digits := text.takeWhile (· != '\x7d')
    some (Char.ofNat (Nat.ofDigits 16 (digits.reverse.map hexValue)), text.drop (digits.length + 1))
  | c::text => some (c, text)
  | [] => none

theorem unescapeOne_escapeDebug (unp : Char → Bool) (c : Char) (text : List Char) :
    unescapeOne (escapeDebug unp c++text) = some (c, text) := by
  unfold escapeDebug
  split_ifs with hn ht hr hl hs hq hu
  · subst hn
    rfl
  · subst ht
    rfl
  · subst hr
    rfl
  · subst hl
    rfl
  · subst hs
    rfl
  · subst hq
    rfl
  · have hi : ∀ d ∈ Nat.digits 16 c.toNat, d < 16 := fun d hd => Nat.digits_lt_base (by norm_num) hd
    have hb : ∀ x ∈ ((Nat.digits 16 c.toNat).map hexDigit).reverse, (x != '\x7d') = true := by
      intro x hx
      obtain ⟨d,hd,rfl⟩ := List.mem_map.mp (List.mem_reverse.mp hx)
      simpa using hexDigit_ne_brace (hi d hd)
    have ha : (((Nat.digits 16 c.toNat).map hexDigit).reverse ++ '\x7d' :: text).takeWhile (· != '\x7d') =
        ((Nat.digits 16 c.toNat).map hexDigit).reverse := by
      rw [List.takeWhile_append_of_pos hb]
      simp
    have hv : ((Nat.digits 16 c.toNat).map hexDigit).map hexValue = Nat.digits 16 c.toNat := by
      have hid : ∀ d ∈ Nat.digits 16 c.toNat, (hexValue ∘ hexDigit) d = id d := fun d hd => hexValue_hexDigit (hi d hd)
      rw [List.map_map,List.map_congr_left hid,List.map_id]
    have hvl : Char.ofNat
        (Nat.ofDigits 16 ((((Nat.digits 16 c.toNat).map hexDigit).reverse).reverse.map hexValue)) = c := by
      rw [List.reverse_reverse,hv,Nat.ofDigits_digits,Char.ofNat_toNat]
    simp only [List.cons_append,List.nil_append,List.append_assoc,unescapeOne]
    rw [ha,hvl]
    simp [List.drop_append]
  · have hba : ∀ rest : List Char, unescapeOne (c::rest) = some (c, rest) := by
      intro rest
      unfold unescapeOne
      split <;> simp_all
    exact hba text

theorem escapeDebug_append_inj {c c' : Char} {text text' : List Char}
    (h : escapeDebug unp c++text = escapeDebug unp c'++text') : c = c' ∧ text = text' := by
  have ho := unescapeOne_escapeDebug unp c text
  rw [h,unescapeOne_escapeDebug] at ho
  exact ⟨(Prod.mk.inj (Option.some.inj ho)).1.symm,(Prod.mk.inj (Option.some.inj ho)).2.symm⟩

theorem quote_of_mem_escapeDebug {c : Char} (h : '"' ∈ escapeDebug unp c) : c = '"' := by
  by_contra hc
  unfold escapeDebug at h
  split_ifs at h with hn ht hr hl hs hu <;> simp at h
  · obtain ⟨d,hd,hq⟩ := h
    have ha : ∀ a : Fin 16, hexDigit a ≠ '"' := by decide
    exact ha ⟨d,Nat.digits_lt_base (by norm_num) hd⟩ hq
  · exact hc h.symm

theorem escapeDebug_quote : escapeDebug unp '"' = ['\\', '"'] := rfl

def escapeText (unprinted : Char → Bool) (text : List Char) : List Char := text.flatMap (escapeDebug unprinted)

theorem backslash_of_escapeText {text before after : List Char} (h : escapeText unp text = before ++ '"' :: after) :
    before.getLast? = some '\\' := by
  induction text generalizing before with
  | nil => simp [escapeText] at h
  | cons c text ih =>
    have hs : escapeDebug unp c ++ escapeText unp text = before ++ '"' :: after := h
    rcases List.append_eq_append_iff.mp hs with ⟨rest,hb,ht⟩ | ⟨rest,ho,ha⟩
    · have hl := ih ht
      rw [hb,List.getLast?_append,hl]
      rfl
    · cases rest with
      | nil =>
        have hl : [].getLast? = some '\\' := ih ha.symm
        cases hl
      | cons q rest =>
        obtain ⟨rfl,-⟩ := List.cons.inj ha
        have hc : c = '"' := quote_of_mem_escapeDebug (by rw [ho]; simp)
        rw [hc,escapeDebug_quote] at ho
        cases before with
        | nil => simp at ho
        | cons b before =>
          obtain ⟨rfl,ho⟩ := List.cons.inj ho
          cases before with
          | nil => rfl
          | cons b' before => simp at ho

theorem escapeText_append_inj {text text' after after' : List Char}
    (h : escapeText unp text ++ '"' :: after = escapeText unp text' ++ '"' :: after') :
    text = text' ∧ after = after' := by
  have he : ∀ (c : Char) (rest rest' : List Char), '"' :: rest ≠ escapeDebug unp c ++ rest' := by
    intro c rest rest' hq
    have ho := unescapeOne_escapeDebug unp c rest'
    rw [← hq] at ho
    have hc : '"' = c := (Prod.mk.inj (Option.some.inj ho)).1
    rw [← hc,escapeDebug_quote] at hq
    exact absurd (List.cons.inj hq).1 (by decide)
  induction text generalizing text' with
  | nil =>
    cases text' with
    | nil => exact ⟨rfl,(List.cons.inj h).2⟩
    | cons c' text' =>
      refine absurd ?_ (he c' after (escapeText unp text' ++ '"' :: after'))
      simpa [escapeText,List.append_assoc] using h
  | cons c text ih =>
    cases text' with
    | nil =>
      refine absurd ?_ (he c after' (escapeText unp text ++ '"' :: after))
      simpa [escapeText,List.append_assoc] using h.symm
    | cons c' text' =>
      have hs : escapeDebug unp c ++ (escapeText unp text ++ '"' :: after) =
          escapeDebug unp c' ++ (escapeText unp text' ++ '"' :: after') := by
        simpa [escapeText,List.append_assoc] using h
      obtain ⟨rfl,hr⟩ := escapeDebug_append_inj hs
      obtain ⟨rfl,rfl⟩ := ih hr
      exact ⟨rfl,rfl⟩

theorem newline_notMem_escapeDebug (c : Char) : '\n' ∉ escapeDebug unp c := by
  intro h
  unfold escapeDebug at h
  split_ifs at h with hu ht hr hl hs hq hp <;> simp at h
  · obtain ⟨d,hd,hn⟩ := h
    have ha : ∀ a : Fin 16, hexDigit a ≠ '\n' := by decide
    exact ha ⟨d,Nat.digits_lt_base (by norm_num) hd⟩ hn
  · exact hl h.symm

theorem newline_notMem_debugText (text : String) : '\n' ∉ debugText unp text := by
  intro h
  rcases List.mem_append.mp h with h | h
  · rcases List.mem_cons.mp h with h | h
    · exact absurd h (by decide)
    · obtain ⟨c,-,hc⟩ := List.mem_flatMap.mp h
      exact newline_notMem_escapeDebug c hc
  · exact absurd h (by decide)

theorem debugText_inj {text text' : String} (h : debugText unp text = debugText unp text') : text = text' :=
  String.toList_inj.mp (escapeText_append_inj (List.cons.inj h).2).1

end UwuContextDb.Text
