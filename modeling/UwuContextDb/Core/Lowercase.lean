import Mathlib.Data.List.Basic

/-! `str::to_lowercase`, over the Unicode tables it reads. -/

namespace UwuContextDb.Text

structure CaseTables where
  toLower : Char → List Char
  cased : Char → Bool
  caseIgnorable : Char → Bool

def CaseTables.ascii : CaseTables := ⟨fun c => [c.toLower], Char.isAlpha, fun c => "'.:^`".toList.contains c⟩

variable (tables : CaseTables)

def caseIgnorableThenCased (text : List Char) : Bool := (text.dropWhile tables.caseIgnorable).head?.any tables.cased

/-- The character after `before`, read backwards, and before `after`: a sigma at the end of a word is a final one. -/
def lowercaseAt (before : List Char) (c : Char) (after : List Char) : List Char :=
  if c = 'Σ' then
    if caseIgnorableThenCased tables before && !caseIgnorableThenCased tables after then ['ς'] else ['σ']
  else tables.toLower c

def lowercaseFrom : List Char → List Char → List Char
  | _, [] => []
  | before, c::text => lowercaseAt tables before c text ++ lowercaseFrom (c::before) text

def toLowercase (text : List Char) : List Char := lowercaseFrom tables [] text

structure CaseTables.Lawful : Prop where
  ascii : ∀ c, c.val < 128 → tables.toLower c = [c.toLower]
  space : ∀ c, c ≠ ' ' → ' ' ∉ tables.toLower c

theorem toLower_cases (c : Char) : c.toLower = c ∨ 97 ≤ c.toLower.val.toNat ∧ c.toLower.val.toNat ≤ 122 := by
  unfold Char.toLower
  split
  · rename_i hu
    have hl : 65 ≤ c.val.toNat := hu.1
    have hh : c.val.toNat ≤ 90 := hu.2
    have hs : ('a'.val - 'A'.val).toNat = 32 := by decide
    refine .inr ?_
    simp only [UInt32.toNat_add,hs]
    omega
  · exact .inl rfl

theorem CaseTables.ascii_lawful : CaseTables.ascii.Lawful := by
  refine ⟨fun _ _ => rfl,fun c hc hp => ?_⟩
  have hl : c.toLower = ' ' := (List.mem_singleton.mp hp).symm
  rcases toLower_cases c with ha | ⟨hs,-⟩
  · exact hc (ha.symm.trans hl)
  · rw [hl] at hs
    exact absurd hs (by decide)

def foldSigma (c : Char) : Char := if c = 'ς' then 'σ' else c

def lowered (c : Char) : List Char := (if c = 'Σ' then ['σ'] else tables.toLower c).map foldSigma

theorem map_foldSigma_toLowercase (text : List Char) :
    (toLowercase tables text).map foldSigma = text.flatMap (lowered tables) := by
  have ht : ∀ before c after, (lowercaseAt tables before c after).map foldSigma = lowered tables c := by
    intro before c after
    unfold lowercaseAt lowered
    split
    · split <;> rfl
    · rfl
  have ha : ∀ before, (lowercaseFrom tables before text).map foldSigma = text.flatMap (lowered tables) := by
    induction text with
    | nil => exact fun _ => rfl
    | cons c text ih =>
      intro before
      rw [lowercaseFrom,List.map_append,ht,ih,List.flatMap_cons]
  exact ha []

theorem infix_toLowercase_iff {pattern : List Char} (hp : ∀ c ∈ pattern, c ≠ 'ς' ∧ c ≠ 'σ') (text : List Char) :
    pattern <:+: toLowercase tables text ↔ pattern <:+: text.flatMap (lowered tables) := by
  rw [← map_foldSigma_toLowercase,List.infix_map_iff]
  have hs : ∀ other : List Char, pattern = other.map foldSigma → other = pattern := by
    intro other he
    have hb : ∀ c ∈ other, foldSigma c = c := by
      intro c hc
      unfold foldSigma
      split
      · rename_i hi
        have hm : foldSigma c ∈ pattern := he ▸ List.mem_map_of_mem hc
        exact absurd (by rw [hi]; rfl) (hp _ hm).2
      · rfl
    rw [he,List.map_congr_left hb,List.map_id']
  constructor
  · intro h
    refine ⟨pattern,h,?_⟩
    have hd : pattern.map foldSigma = pattern := by
      conv_rhs => rw [← List.map_id' pattern]
      exact List.map_congr_left (fun c hc => if_neg (hp c hc).1)
    exact hd.symm
  · rintro ⟨other,ho,he⟩
    rw [← hs other he]
    exact ho

variable {tables}

theorem lowered_ascii (h : tables.Lawful) {c : Char} (hc : c.val < 128) : lowered tables c = [c.toLower] := by
  have hn : c ≠ 'Σ' := by
    rintro rfl
    exact absurd hc (by decide)
  have hi : c.toLower ≠ 'ς' := by
    intro hl
    rcases toLower_cases c with ha | ⟨-,hs⟩
    · rw [ha.symm.trans hl] at hc
      exact absurd hc (by decide)
    · rw [hl] at hs
      exact absurd hs (by decide)
  rw [lowered,if_neg hn,h.ascii c hc]
  simp [foldSigma,hi]

theorem flatMap_lowered_ascii (h : tables.Lawful) {text : List Char} (ht : ∀ c ∈ text, c.val < 128) :
    text.flatMap (lowered tables) = text.map Char.toLower := by
  induction text with
  | nil => rfl
  | cons c text ih =>
    rw [List.forall_mem_cons] at ht
    rw [List.flatMap_cons,lowered_ascii h ht.1,ih ht.2]
    rfl

theorem toLowercase_ascii (h : tables.Lawful) {text : List Char} (ht : ∀ c ∈ text, c.val < 128) :
    toLowercase tables text = text.map Char.toLower := by
  have ha : ∀ before, lowercaseFrom tables before text = text.map Char.toLower := by
    induction text with
    | nil => exact fun _ => rfl
    | cons c text ih =>
      intro before
      rw [List.forall_mem_cons] at ht
      have hn : c ≠ 'Σ' := by
        rintro rfl
        exact absurd ht.1 (by decide)
      rw [lowercaseFrom,lowercaseAt,if_neg hn,h.ascii c ht.1,ih ht.2]
      rfl
  exact ha []

end UwuContextDb.Text
