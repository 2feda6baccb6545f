import UwuContextDb.Core.Redaction
import UwuContextDb.Llm.PromptSplit

/-! What is read out of a model's answer: the whole text, or else what stands from its first opening to its last closing
brace. The cut is made at bytes. -/

namespace UwuContextDb.Core

open Text (isWhitespace)
open WriteSecurity (trimMatches trimMatches_spec)
open Words (append_cons_inj_left append_cons_inj_right)
open Llm (utf8Bytes splitAtByte splitAtByte_eq_some_iff findText findText_none_iff utf8Bytes_append utf8Bytes_cons)

/-- `str::rfind` of one character: the byte at which it last occurs. -/
def rfindChar (c : Char) : List Char → Option ℕ
  | [] => none
  | d::text => ((rfindChar c text).map (d.utf8Size + ·)).or (if d = c then some 0 else none)

/-- `text[start..=end]`, which panics where the slice ends before it starts, and where a character is split. -/
def sliceInclusive (text : List Char) (start end_ : ℕ) : Option (List Char) :=
  if end_ + 1 < start then none
  else (splitAtByte (end_ + 1) text).bind (fun parts => (splitAtByte start parts.1).map (·.2))

/-- `extract_json_object`, of a trimmed text. -/
def cutObject (trimmed : List Char) : Option (List Char) :=
  match findText ['{'] trimmed, rfindChar '}' trimmed with
  | some start, some end_ => sliceInclusive trimmed start end_
  | _, _ => some trimmed

/-- `extract_json_object`; none where it panics. -/
def extractJsonObject (text : List Char) : Option (List Char) := cutObject (trimMatches isWhitespace text)

/-- `from_str(raw).or_else(|_| from_str(&extract_json_object(raw))).ok()`; none where it panics. -/
def fromAnswer {V : Type} (fromStr : List Char → Option V) (raw : List Char) : Option (Option V) :=
  match fromStr raw with
  | some value => some (some value)
  | none => (extractJsonObject raw).map fromStr

/-- The last closing brace stands before the first opening one, with something between them. -/
def Crossed (text : List Char) : Prop :=
  ∃ front mid rest, text = front ++ '}'::(mid ++ '{'::rest) ∧ mid ≠ [] ∧ '{' ∉ front ++ mid ∧ '}' ∉ mid ++ rest

section Find

variable {c : Char} {front back : List Char}

theorem findText_char (h : c ∉ front) : findText [c] (front++c::back) = some (utf8Bytes front) := by
  induction front with
  | nil => simp [findText]
  | cons d front ih =>
    obtain ⟨hn,hf⟩ := not_or.mp (List.mem_cons.not.mp h)
    rw [List.cons_append,findText,if_neg (by simpa using hn),ih hf]
    rfl

theorem findText_char_none {text : List Char} (h : c ∉ text) : findText [c] text = none := by
  rw [findText_none_iff]
  exact fun ho => h (ho.subset List.mem_cons_self)

theorem rfindChar_none {text : List Char} (h : c ∉ text) : rfindChar c text = none := by
  induction text with
  | nil => rfl
  | cons d text ih =>
    obtain ⟨hn,ht⟩ := not_or.mp (List.mem_cons.not.mp h)
    rw [rfindChar,ih ht,if_neg (Ne.symm hn)]
    rfl

theorem rfindChar_last (h : c ∉ back) : rfindChar c (front++c::back) = some (utf8Bytes front) := by
  induction front with
  | nil =>
    rw [List.nil_append,rfindChar,rfindChar_none h,if_pos rfl]
    rfl
  | cons d front ih =>
    rw [List.cons_append,rfindChar,ih]
    rfl

theorem splitAtByte_append (front back : List Char) :
    splitAtByte (utf8Bytes front) (front++back) = some (front, back) :=
  splitAtByte_eq_some_iff.mpr ⟨rfl,rfl⟩

end Find

section Braces

variable {front mid rest body text : List Char}

theorem exists_last {c : Char} (h : c ∈ text) : ∃ front rest, text = front ++ c::rest ∧ c ∉ rest := by
  obtain ⟨rest,front,hs,hr⟩ := List.eq_append_cons_of_mem (List.mem_reverse.mpr h)
  refine ⟨front.reverse,rest.reverse,?_,by simpa using hr⟩
  rw [← List.reverse_reverse text,hs]
  simp

theorem braces_cases (text : List Char) : ('{' ∉ text ∨ '}' ∉ text) ∨
    (∃ front body rest, text = front ++ '{'::(body ++ '}'::rest) ∧ '{' ∉ front ∧ '}' ∉ rest) ∨
    ∃ front mid rest, text = front ++ '}'::(mid ++ '{'::rest) ∧ '{' ∉ front ++ mid ∧ '}' ∉ mid ++ rest := by
  by_cases ho : '{' ∈ text
  · by_cases hc : '}' ∈ text
    · obtain ⟨front,rest,rfl,hf⟩ := List.eq_append_cons_of_mem ho
      refine .inr ?_
      by_cases hr : '}' ∈ rest
      · obtain ⟨body,rest,rfl,hl⟩ := exists_last hr
        exact .inl ⟨front,body,rest,rfl,hf,hl⟩
      · have hb : '}' ∈ front := by simpa [hr] using hc
        obtain ⟨before,mid,rfl,hm⟩ := exists_last hb
        refine .inr ⟨before,mid,rest,by simp,?_,by simp [hm,hr]⟩
        simp only [List.mem_append,List.mem_cons,not_or] at hf ⊢
        exact ⟨hf.1,hf.2.2⟩
    · exact .inl (.inr hc)
  · exact .inl (.inl ho)

theorem cutObject_missing (h : '{' ∉ text ∨ '}' ∉ text) : cutObject text = some text := by
  unfold cutObject
  rcases h with h | h
  · rw [findText_char_none h]
  · rw [rfindChar_none h]
    cases findText ['{'] text <;> rfl

theorem cutObject_ordered (hf : '{' ∉ front) (hr : '}' ∉ rest) :
    cutObject (front ++ '{'::(body ++ '}'::rest)) = some ('{'::(body++['}'])) := by
  have hl : rfindChar '}' (front ++ '{'::(body ++ '}'::rest)) = some (utf8Bytes (front ++ '{'::body)) := by
    have ha := @rfindChar_last '}' (front ++ '{'::body) rest hr
    rwa [List.append_assoc,List.cons_append] at ha
  have ht : splitAtByte (utf8Bytes (front ++ '{'::body)+1) (front ++ '{'::(body ++ '}'::rest)) =
      some (front ++ '{'::(body++['}']), rest) :=
    splitAtByte_eq_some_iff.mpr ⟨by simp,by simp [Nat.add_assoc]; rfl⟩
  unfold cutObject
  rw [findText_char hf,hl]
  dsimp only
  rw [sliceInclusive,if_neg (by rw [utf8Bytes_append]; omega),ht,Option.bind_some,splitAtByte_append]
  rfl

theorem cutObject_crossed (ho : '{' ∉ front++mid) (hc : '}' ∉ mid++rest) :
    cutObject (front ++ '}'::(mid ++ '{'::rest)) = if mid = [] then some [] else none := by
  have hf : findText ['{'] (front ++ '}'::(mid ++ '{'::rest)) = some (utf8Bytes (front ++ '}'::mid)) := by
    have he : '{' ∉ front ++ '}'::mid := by
      simp only [List.mem_append,List.mem_cons,not_or] at ho ⊢
      exact ⟨ho.1,by decide,ho.2⟩
    have ht := @findText_char '{' (front ++ '}'::mid) rest he
    rwa [List.append_assoc,List.cons_append] at ht
  have ha : '}' ∉ mid ++ '{'::rest := by
    simp only [List.mem_append,List.mem_cons,not_or] at hc ⊢
    exact ⟨hc.1,by decide,hc.2⟩
  have hb : '}'.utf8Size = 1 := rfl
  unfold cutObject
  rw [hf,rfindChar_last ha]
  dsimp only
  cases mid with
  | nil =>
    have hto : splitAtByte (utf8Bytes front+1) (front ++ '}'::([] ++ '{'::rest)) = some (front++['}'], '{'::rest) :=
      splitAtByte_eq_some_iff.mpr ⟨by simp,by simp [hb]⟩
    have hn : splitAtByte (utf8Bytes (front++['}'])) (front++['}']) = some (front++['}'], []) :=
      splitAtByte_eq_some_iff.mpr ⟨by simp,rfl⟩
    rw [sliceInclusive,if_neg (by simp [hb]),hto,Option.bind_some,hn,if_pos rfl]
    rfl
  | cons d mid =>
    have hp := d.utf8Size_pos
    rw [sliceInclusive,if_pos (by simp [hb]; omega),if_neg (List.cons_ne_nil _ _)]

end Braces

section Extract

variable {front rest body text : List Char}

theorem trim_braces (text : List Char) : ∃ before after, text = before ++ trimMatches isWhitespace text ++ after ∧
    ('{' ∉ before ∧ '}' ∉ before) ∧ '{' ∉ after ∧ '}' ∉ after := by
  obtain ⟨before,after,hs,hb,ha⟩ := @trimMatches_spec isWhitespace text
  have hn : ∀ {c : Char}, isWhitespace c = false → c ∉ before ∧ c ∉ after :=
    fun hc => ⟨fun h => by simp [hb _ h] at hc,fun h => by simp [ha _ h] at hc⟩
  have ho := @hn '{' (by decide)
  have hl := @hn '}' (by decide)
  exact ⟨before,after,hs,⟨ho.1,hl.1⟩,ho.2,hl.2⟩

theorem extractJsonObject_eq_none_iff : extractJsonObject text = none ↔ Crossed text := by
  obtain ⟨before,after,hp,⟨ho,hc⟩,ho',hc'⟩ := trim_braces text
  unfold extractJsonObject
  generalize trimMatches isWhitespace text = trimmed at hp ⊢
  subst hp
  rcases braces_cases trimmed with hm | ⟨front,body,rest,rfl,hr,hre⟩ |
    ⟨front,mid,rest,rfl,hf,hl⟩
  · rw [cutObject_missing hm]
    refine iff_of_false (by simp) ?_
    rintro ⟨front,mid,rest,he,-,-,-⟩
    have hn : '{' ∈ before ++ trimmed ++ after := by simp [he]
    have hcl : '}' ∈ before ++ trimmed ++ after := by simp [he]
    rcases hm with hm | hm
    · simp [ho,ho',hm] at hn
    · simp [hc,hc',hm] at hcl
  · rw [cutObject_ordered hr hre]
    refine iff_of_false (by simp) ?_
    rintro ⟨front',mid',rest',he,-,hf,hl⟩
    have hs : (before++front) ++ '{'::(body ++ '}'::(rest++after)) = (front' ++ '}'::mid') ++ '{'::rest' := by
      simpa using he
    have hb : '{' ∉ front' ++ '}'::mid' := by
      simp only [List.mem_append,List.mem_cons,not_or] at hf ⊢
      exact ⟨hf.1,by decide,hf.2⟩
    obtain ⟨-,rfl⟩ := append_cons_inj_left (by simp [ho,hr]) hb hs
    simp at hl
  · rw [cutObject_crossed hf hl]
    constructor
    · intro h
      refine ⟨before++front,mid,rest++after,by simp,fun hi => by simp [hi] at h,?_,?_⟩
      · simp only [List.mem_append,not_or] at hf ⊢
        exact ⟨⟨ho,hf.1⟩,hf.2⟩
      · simp only [List.mem_append,not_or] at hl ⊢
        exact ⟨hl.1,hl.2,hc'⟩
    · rintro ⟨front',mid',rest',he,hne,hf',hl'⟩
      simp only [List.mem_append,not_or] at hf hl hf' hl'
      have hs : (before++front ++ '}'::mid) ++ '{'::(rest++after) = (front' ++ '}'::mid') ++ '{'::rest' := by
        simpa using he
      obtain ⟨hfr,-⟩ := append_cons_inj_left (by simp [ho,hf.1,hf.2])
        (by simp [hf'.1,hf'.2]) hs
      obtain ⟨-,rfl⟩ := append_cons_inj_right hl.1 hl'.1 hfr
      rw [if_neg hne]

theorem extractJsonObject_around (hf : '{' ∉ front) (hr : '}' ∉ rest) :
    extractJsonObject (front ++ '{'::(body ++ '}'::rest)) = some ('{'::(body++['}'])) := by
  obtain ⟨before,after,hs,⟨ho,hc⟩,ho',hc'⟩ := trim_braces (front ++ '{'::(body ++ '}'::rest))
  unfold extractJsonObject
  generalize trimMatches isWhitespace (front ++ '{'::(body ++ '}'::rest)) = trimmed at hs ⊢
  rcases braces_cases trimmed with hm | ⟨front',body',rest',rfl,hf',hr'⟩ |
    ⟨front',mid,rest',rfl,hi,hla⟩
  · have hp : '{' ∈ before ++ trimmed ++ after := by simp [← hs]
    have hl : '}' ∈ before ++ trimmed ++ after := by simp [← hs]
    rcases hm with hm | hm
    · simp [ho,ho',hm] at hp
    · simp [hc,hc',hm] at hl
  · rw [cutObject_ordered hf' hr']
    have ha : front ++ '{'::(body ++ '}'::rest) = (before++front') ++ '{'::(body' ++ '}'::(rest'++after)) := by
      simpa using hs
    obtain ⟨-,hb⟩ := append_cons_inj_left hf (by simp [ho,hf']) ha
    obtain ⟨rfl,-⟩ := append_cons_inj_right hr (by simp [hr',hc']) hb
    rfl
  · simp only [List.mem_append,not_or] at hi hla
    have ha : front ++ '{'::(body ++ '}'::rest) = (before++front' ++ '}'::mid) ++ '{'::(rest'++after) := by
      simpa using hs
    obtain ⟨-,hb⟩ := append_cons_inj_left hf (by simp [ho,hi.1,hi.2]) ha
    have hl : '}' ∈ rest' ++ after := hb ▸ (by simp)
    simp [hla.2,hc'] at hl

end Extract

section Answer

def JsonBlank (text : List Char) : Prop := ∀ c ∈ text, c ∈ [' ', '\t', '\n', '\r']

def SkipsBlanks {V : Type} (fromStr : List Char → Option V) : Prop :=
  ∀ before text after, JsonBlank before → JsonBlank after → fromStr (before ++ text ++ after) = fromStr text

def InBraces (text : List Char) : Prop :=
  ∃ before body after, JsonBlank before ∧ JsonBlank after ∧ text = before ++ '{'::(body ++ '}'::after)

def BraceFree (text : List Char) : Prop := '{' ∉ text ∧ '}' ∉ text

variable {V : Type} {fromStr : List Char → Option V} {before object after raw : List Char}

theorem JsonBlank.braceFree {text : List Char} (h : JsonBlank text) : BraceFree text :=
  ⟨fun hm => absurd (h _ hm) (by decide),fun hm => absurd (h _ hm) (by decide)⟩

theorem fromAnswer_eq_none_iff : fromAnswer fromStr raw = none ↔ fromStr raw = none ∧ Crossed raw := by
  unfold fromAnswer
  cases hr : fromStr raw with
  | some v => simp
  | none => rw [Option.map_eq_none_iff,extractJsonObject_eq_none_iff,and_iff_right rfl]

theorem fromAnswer_of_some {v : V} (h : fromStr raw = some v) : fromAnswer fromStr raw = some (some v) := by
  rw [fromAnswer,h]

theorem fromAnswer_around (hb : SkipsBlanks fromStr) (ho : InBraces object) (he : BraceFree before)
    (ha : BraceFree after) (hw : fromStr (before++object++after) = none) :
    fromAnswer fromStr (before++object++after) = some (fromStr object) := by
  obtain ⟨front,body,rest,hf,hr,rfl⟩ := ho
  have hc : extractJsonObject (before++(front ++ '{'::(body ++ '}'::rest))++after) = some ('{'::(body++['}'])) := by
    have hp : '{' ∉ before ++ front := by simp [he.1,hf.braceFree.1]
    have hl : '}' ∉ rest ++ after := by simp [ha.2,hr.braceFree.2]
    have h := @extractJsonObject_around (before++front) (rest++after) body hp hl
    simpa using h
  have hs := hb front ('{'::(body++['}'])) rest hf hr
  rw [fromAnswer,hw,hc,Option.map_some,← hs]
  simp

theorem fromAnswer_object (hb : SkipsBlanks fromStr) (ho : InBraces object) :
    fromAnswer fromStr object = some (fromStr object) := by
  cases hr : fromStr object with
  | some v => exact fromAnswer_of_some hr
  | none =>
    have h := @fromAnswer_around _ fromStr [] object [] hb ho ⟨by simp,by simp⟩ ⟨by simp,by simp⟩
    simpa [hr] using h

theorem InBraces.blank_around (ho : InBraces object) (hb : BraceFree before) (ha : BraceFree after)
    (hw : InBraces (before++object++after)) : JsonBlank before ∧ JsonBlank after := by
  obtain ⟨front,body,rest,hf,hr,rfl⟩ := ho
  obtain ⟨front',body',rest',hf',hr',he⟩ := hw
  have hs : (before++front) ++ '{'::(body ++ '}'::(rest++after)) = front' ++ '{'::(body' ++ '}'::rest') := by
    simpa using he
  obtain ⟨rfl,hd⟩ := append_cons_inj_left (by simp [hb.1,hf.braceFree.1]) hf'.braceFree.1 hs
  obtain ⟨-,rfl⟩ := append_cons_inj_right (by simp [ha.2,hr.braceFree.2]) hr'.braceFree.2 hd
  exact ⟨fun c hc => hf' c (List.mem_append_left _ hc),fun c hc => hr' c (List.mem_append_right _ hc)⟩

end Answer

end UwuContextDb.Core
