import UwuContextDb.Core.CachingLlm
import UwuContextDb.Core.Json
import UwuContextDb.Core.Text

/-! The messages of a prompt, which is split where a provider may cache its first part. -/

namespace UwuContextDb.Llm

open UwuContextDb.Core (LlmError)
open Text (isWhitespace)

section Bytes

def utf8Bytes (text : List Char) : ℕ := (text.map Char.utf8Size).sum

/-- `str::split_at`, which panics where there is no text or where a character is split. -/
def splitAtByte : ℕ → List Char → Option (List Char × List Char)
  | 0, text => some ([], text)
  | _ + 1, [] => none
  | n + 1, c::text =>
    if c.utf8Size ≤ n + 1 then (splitAtByte (n + 1 - c.utf8Size) text).map (fun parts => (c::parts.1, parts.2)) else none

/-- `str::find`: the byte at which the text first occurs. -/
def findText (needle : List Char) : List Char → Option ℕ
  | [] => if needle.isEmpty then some 0 else none
  | c::text => if needle.isPrefixOf (c::text) then some 0 else (findText needle text).map (c.utf8Size + ·)

@[simp] theorem utf8Bytes_nil : utf8Bytes [] = 0 := rfl

@[simp] theorem utf8Bytes_cons (c : Char) (text : List Char) : utf8Bytes (c::text) = c.utf8Size + utf8Bytes text := by
  simp [utf8Bytes]

@[simp] theorem utf8Bytes_append (front back : List Char) :
    utf8Bytes (front++back) = utf8Bytes front + utf8Bytes back := by
  simp [utf8Bytes]

theorem splitAtByte_eq_some_iff {n : ℕ} {text front back : List Char} : splitAtByte n text = some (front, back) ↔
    text = front ++ back ∧ utf8Bytes front = n := by
  induction text generalizing n front with
  | nil =>
    cases n with
    | zero =>
      simp only [splitAtByte,Option.some.injEq,Prod.mk.injEq]
      constructor
      · rintro ⟨rfl,rfl⟩
        simp
      · rintro ⟨h,-⟩
        exact ⟨(List.append_eq_nil_iff.mp h.symm).1.symm,(List.append_eq_nil_iff.mp h.symm).2.symm⟩
    | succ n =>
      refine iff_of_false (by simp [splitAtByte]) (fun h => ?_)
      rw [(List.append_eq_nil_iff.mp h.1.symm).1] at h
      simp at h
  | cons c text ih =>
    have ho := c.utf8Size_pos
    cases n with
    | zero =>
      simp only [splitAtByte,Option.some.injEq,Prod.mk.injEq]
      constructor
      · rintro ⟨rfl,rfl⟩
        simp
      · rintro ⟨h,hb⟩
        cases front with
        | nil => exact ⟨rfl,h⟩
        | cons d front =>
          have hd := d.utf8Size_pos
          rw [utf8Bytes_cons] at hb
          omega
    | succ n =>
      unfold splitAtByte
      constructor
      · intro h
        split at h
        · rename_i hf
          obtain ⟨parts,hp,he⟩ := Option.map_eq_some_iff.mp h
          obtain ⟨rfl,rfl⟩ := Prod.mk.injEq _ _ _ _ ▸ he
          obtain ⟨hs,hb⟩ := ih.mp hp
          refine ⟨by rw [hs,List.cons_append],?_⟩
          rw [utf8Bytes_cons]
          omega
        · cases h
      · rintro ⟨h,hb⟩
        cases front with
        | nil => simp at hb
        | cons d front =>
          obtain ⟨rfl,hr⟩ := List.cons.inj h
          rw [utf8Bytes_cons] at hb
          rw [if_pos (by omega),ih.mpr ⟨hr,(by omega : utf8Bytes front = n+1 - c.utf8Size)⟩]
          rfl

variable {needle : List Char}

theorem findText_some {text : List Char} {n : ℕ} (h : findText needle text = some n) :
    ∃ front back, text = front ++ back ∧ utf8Bytes front = n := by
  induction text generalizing n with
  | nil =>
    unfold findText at h
    split at h
    · exact ⟨[],[],rfl,Option.some.inj h⟩
    · cases h
  | cons c text ih =>
    unfold findText at h
    split at h
    · exact ⟨[],c::text,rfl,Option.some.inj h⟩
    · obtain ⟨m,hm,rfl⟩ := Option.map_eq_some_iff.mp h
      obtain ⟨front,back,hs,hb⟩ := ih hm
      exact ⟨c::front,back,by rw [hs,List.cons_append],by rw [utf8Bytes_cons,hb]⟩

theorem findText_none_iff (text : List Char) : findText needle text = none ↔ ¬ needle <:+: text := by
  induction text with
  | nil => simp [findText]
  | cons c text ih =>
    rw [List.infix_cons_iff,findText]
    split
    · rename_i hh
      simp [List.isPrefixOf_iff_prefix.mp hh]
    · rename_i hh
      have hn : ¬ needle <+: c::text := fun h => hh (List.isPrefixOf_iff_prefix.mpr h)
      simp [ih,hn]

theorem findText_zero_iff (text : List Char) : findText needle text = some 0 ↔ needle <+: text := by
  cases text with
  | nil => simp [findText]
  | cons c text =>
    have hp := c.utf8Size_pos
    rw [findText]
    split
    · rename_i hh
      simp [List.isPrefixOf_iff_prefix.mp hh]
    · rename_i hh
      refine iff_of_false (fun h => ?_) (fun h => hh (List.isPrefixOf_iff_prefix.mpr h))
      obtain ⟨m,-,hm⟩ := Option.map_eq_some_iff.mp h
      omega

end Bytes

inductive PromptCacheMode | off | providerDefault | force deriving DecidableEq

structure PromptOptimization where
  cacheMode : PromptCacheMode
  cachePrefixTokens : ℕ

inductive Outcome (α : Type)
  | panicked
  | failed (error : LlmError)
  | returned (value : α)

section Messages

variable (countTokens : String → Except String ℕ)

/-- The first blank line behind the start of the prompt, or a fixed number of bytes. -/
def splitPoint (prompt : List Char) : ℕ :=
  ((findText ['\n', '\n'] prompt).filter (fun idx => decide (0 < idx))).getD (min (utf8Bytes prompt) 2048)

/-- `split_cacheable_prompt`; the error of a count is its text. -/
def splitCacheablePrompt (prompt : String) (opts : PromptOptimization) : Outcome (Option String × String) :=
  if opts.cacheMode = .off then .returned (none, prompt)
  else
    match countTokens prompt with
    | .error message => .failed (.provider message)
    | .ok promptTokens =>
      if opts.cachePrefixTokens = 0 ∨ promptTokens < opts.cachePrefixTokens then .returned (none, prompt)
      else
        match splitAtByte (splitPoint prompt.toList) prompt.toList with
        | none => .panicked
        | some parts =>
          match countTokens (String.ofList parts.1) with
          | .error message => .failed (.provider message)
          | .ok prefixTokens =>
            if prefixTokens < opts.cachePrefixTokens / 2 then .returned (none, prompt)
            else .returned (some (String.ofList parts.1), String.ofList (parts.2.dropWhile isWhitespace))

def Outcome.map {α β : Type} (f : α → β) : Outcome α → Outcome β
  | .panicked => .panicked
  | .failed error => .failed error
  | .returned value => .returned (f value)

def ephemeral : Json := .obj [("type", .str "ephemeral")]

def wholePrompt (prompt : String) : Json := .arr [.obj [("content", .str prompt), ("role", .str "user")]]

def openaiMessages (prompt : String) (opts : PromptOptimization) : Outcome Json :=
  (splitCacheablePrompt countTokens prompt opts).map (fun parts =>
    match parts.1 with
    | some front => .arr [.obj [("cache_control", ephemeral), ("content", .str front), ("role", .str "system")],
        .obj [("content", .str parts.2), ("role", .str "user")]]
    | none => wholePrompt prompt)

def anthropicMessages (prompt : String) (opts : PromptOptimization) : Outcome Json :=
  (splitCacheablePrompt countTokens prompt opts).map (fun parts =>
    match parts.1 with
    | some front => .arr [.obj [("content", .arr [
          .obj [("cache_control", ephemeral), ("text", .str front), ("type", .str "text")],
          .obj [("text", .str parts.2), ("type", .str "text")]]), ("role", .str "user")]]
    | none => wholePrompt prompt)

end Messages

section Texts

def contentTexts : Json → List String
  | .str text => [text]
  | .arr parts => parts.filterMap (fun part => (part.get? "text").bind Json.asString)
  | _ => []

def messageTexts : Json → List String
  | .arr messages => messages.flatMap (fun message => ((message.get? "content").map contentTexts).getD [])
  | _ => []

def Lossless (prompt : String) (messages : Json) : Prop :=
  ∃ front space back, prompt.toList = front ++ space ++ back ∧ (∀ c ∈ space, isWhitespace c = true) ∧
    (messageTexts messages).flatMap String.toList = front ++ back

def Outcome.LosesNothing (prompt : String) (messages : Outcome Json) : Prop :=
  messages ≠ .panicked ∧ ∀ built, messages = .returned built → Lossless prompt built

variable (countTokens : String → Except String ℕ) (prompt : String) (opts : PromptOptimization)

def SplitsCharacter : Prop :=
  opts.cacheMode ≠ .off ∧ 0 < opts.cachePrefixTokens ∧
    (∃ tokens, countTokens prompt = .ok tokens ∧ opts.cachePrefixTokens ≤ tokens) ∧
    (['\n', '\n'] <+: prompt.toList ∨ ¬ ['\n', '\n'] <:+: prompt.toList) ∧ 2048 < utf8Bytes prompt.toList ∧
    ¬ ∃ front back, prompt.toList = front ++ back ∧ utf8Bytes front = 2048

variable {countTokens prompt opts}

theorem splitAtByte_none_iff (prompt : List Char) : splitAtByte (splitPoint prompt) prompt = none ↔
    (['\n', '\n'] <+: prompt ∨ ¬ ['\n', '\n'] <:+: prompt) ∧ 2048 < utf8Bytes prompt ∧
      ¬ ∃ front back, prompt = front ++ back ∧ utf8Bytes front = 2048 := by
  have ho : ∀ n, splitAtByte n prompt = none ↔ ¬ ∃ front back, prompt = front ++ back ∧ utf8Bytes front = n := by
    intro n
    cases hs : splitAtByte n prompt with
    | none =>
      refine iff_of_true rfl ?_
      rintro ⟨front,back,h⟩
      rw [splitAtByte_eq_some_iff.mpr h] at hs
      cases hs
    | some parts =>
      refine iff_of_false (by simp) (fun h => h ⟨parts.1,parts.2,?_⟩)
      exact splitAtByte_eq_some_iff.mp hs
  by_cases hi : ∃ n, 0 < n ∧ findText ['\n', '\n'] prompt = some n
  · obtain ⟨n,hn,hf⟩ := hi
    have hp : splitPoint prompt = n := by simp [splitPoint,hf,Option.filter,hn]
    rw [hp,ho]
    refine iff_of_false (fun h => h (findText_some hf)) (fun h => ?_)
    rcases h.1 with ht | ha
    · rw [← findText_zero_iff,hf] at ht
      exact hn.ne' (Option.some.inj ht)
    · rw [← findText_none_iff,hf] at ha
      cases ha
  · have hp : splitPoint prompt = min (utf8Bytes prompt) 2048 := by
      unfold splitPoint
      cases hf : findText ['\n', '\n'] prompt with
      | none => rfl
      | some n =>
        have hz : n = 0 := by
          by_contra he
          exact hi ⟨n,Nat.pos_of_ne_zero he,hf⟩
        simp [hz,Option.filter]
    have hpl : ['\n', '\n'] <+: prompt ∨ ¬ ['\n', '\n'] <:+: prompt := by
      cases hf : findText ['\n', '\n'] prompt with
      | none => exact .inr ((findText_none_iff prompt).mp hf)
      | some n =>
        refine .inl ((findText_zero_iff prompt).mp ?_)
        rw [hf]
        by_contra he
        exact hi ⟨n,Nat.pos_of_ne_zero (fun h => he (congrArg some h)),hf⟩
    rw [hp,ho]
    by_cases hl : 2048 < utf8Bytes prompt
    · rw [Nat.min_eq_right hl.le]
      simp [hpl,hl]
    · rw [Nat.min_eq_left (not_lt.mp hl)]
      refine iff_of_false (fun h => h ⟨prompt,[],by simp⟩) (fun h => hl h.2.1)

theorem split_panicked_iff : splitCacheablePrompt countTokens prompt opts = .panicked ↔
    SplitsCharacter countTokens prompt opts := by
  unfold splitCacheablePrompt SplitsCharacter
  rw [← splitAtByte_none_iff]
  by_cases ho : opts.cacheMode = .off
  · simp [ho]
  · rw [if_neg ho]
    cases hu : countTokens prompt with
    | error message => simp
    | ok tokens =>
      dsimp only
      by_cases hf : opts.cachePrefixTokens = 0 ∨ tokens < opts.cachePrefixTokens
      · rw [if_pos hf]
        refine iff_of_false (by simp) ?_
        rintro ⟨-,hp,⟨n,hn,hl⟩,-⟩
        cases hn
        omega
      · rw [if_neg hf]
        rw [not_or,not_lt] at hf
        have hc : opts.cacheMode ≠ .off ∧ 0 < opts.cachePrefixTokens ∧
            ∃ n, Except.ok (ε := String) tokens = .ok n ∧ opts.cachePrefixTokens ≤ n :=
          ⟨ho,Nat.pos_of_ne_zero hf.1,tokens,rfl,hf.2⟩
        cases hs : splitAtByte (splitPoint prompt.toList) prompt.toList with
        | none => simpa using hc
        | some parts =>
          refine iff_of_false ?_ (by simp)
          dsimp only
          cases countTokens (String.ofList parts.1) with
          | error message => simp
          | ok prefixTokens =>
            dsimp only
            split <;> simp

theorem split_returned {parts : Option String × String}
    (h : splitCacheablePrompt countTokens prompt opts = .returned parts) {front : String} (hf : parts.1 = some front) :
    ∃ space, prompt.toList = front.toList ++ space ++ parts.2.toList ∧ ∀ c ∈ space, isWhitespace c = true := by
  unfold splitCacheablePrompt at h
  split at h
  · cases h
    cases hf
  · split at h
    · cases h
    · split at h
      · cases h
        cases hf
      · split at h
        · cases h
        · rename_i cut hu
          split at h
          · cases h
          · split at h
            · cases h
              cases hf
            · cases h
              obtain rfl := Option.some.inj hf
              refine ⟨cut.2.takeWhile isWhitespace,?_,fun c hc => ?_⟩
              · rw [String.toList_ofList,String.toList_ofList,List.append_assoc,List.takeWhile_append_dropWhile]
                exact (splitAtByte_eq_some_iff.mp hu).1
              · exact List.all_eq_true.mp List.all_takeWhile c hc

theorem Outcome.map_returned {α β : Type} {f : α → β} {out : Outcome α} {b : β} (h : out.map f = .returned b) :
    ∃ a, out = .returned a ∧ f a = b := by
  cases out with
  | panicked => cases h
  | failed error => cases h
  | returned a => exact ⟨a,rfl,Outcome.returned.inj h⟩

theorem Outcome.map_panicked {α β : Type} {f : α → β} {out : Outcome α} :
    out.map f = .panicked ↔ out = .panicked := by
  cases out <;> simp [Outcome.map]

theorem lossless_whole (prompt : String) : Lossless prompt (wholePrompt prompt) :=
  ⟨prompt.toList,[],[],by simp,by simp,by simp [messageTexts,wholePrompt,contentTexts,Json.get?]⟩

/-- Messages with the texts of the split prompt, or with the whole prompt, lose nothing unless the splitting panics. -/
theorem losesNothing_iff {build : Option String × String → Json}
    (hs : ∀ parts front, parts.1 = some front → messageTexts (build parts) = [front,parts.2])
    (hw : ∀ parts, parts.1 = none → build parts = wholePrompt prompt) :
    ((splitCacheablePrompt countTokens prompt opts).map build).LosesNothing prompt ↔
      ¬ SplitsCharacter countTokens prompt opts := by
  rw [← split_panicked_iff,Outcome.LosesNothing,ne_eq,Outcome.map_panicked,and_iff_left_iff_imp]
  intro _ built hb
  obtain ⟨parts,hp,rfl⟩ := Outcome.map_returned hb
  cases hf : parts.1 with
  | none =>
    rw [hw parts hf]
    exact lossless_whole prompt
  | some front =>
    obtain ⟨space,hr,ha⟩ := split_returned hp hf
    refine ⟨front.toList,space,parts.2.toList,hr,ha,?_⟩
    rw [hs parts front hf]
    simp

theorem messages_lose_nothing_iff (countTokens : String → Except String ℕ) (prompt : String) (opts : PromptOptimization) :
    (openaiMessages countTokens prompt opts).LosesNothing prompt ∧
      (anthropicMessages countTokens prompt opts).LosesNothing prompt ↔ ¬ SplitsCharacter countTokens prompt opts := by
  have ho : (openaiMessages countTokens prompt opts).LosesNothing prompt ↔
      ¬ SplitsCharacter countTokens prompt opts := by
    apply losesNothing_iff
    · intro parts front hf
      simp [hf, messageTexts, contentTexts, Json.get?, List.lookup_cons]
    · intro parts hn
      simp [hn]
  have ha : (anthropicMessages countTokens prompt opts).LosesNothing prompt ↔
      ¬ SplitsCharacter countTokens prompt opts := by
    apply losesNothing_iff
    · intro parts front hf
      simp [hf, messageTexts, contentTexts, Json.get?, Json.asString, List.lookup_cons]
    · intro parts hn
      simp [hn]
  rw [ho, ha, and_self]

/-- Among characters of three bytes none ends at byte 2048. -/
theorem character_cut_panics : let prompt := String.ofList (List.replicate 1000 '你');
    let opts : PromptOptimization := ⟨.providerDefault, 512⟩;
    openaiMessages (fun _ => .ok 1000) prompt opts = .panicked ∧
      ¬ (openaiMessages (fun _ => .ok 1000) prompt opts).LosesNothing prompt := by
  have hp : openaiMessages (fun _ => .ok 1000) (String.ofList (List.replicate 1000 '你')) ⟨.providerDefault, 512⟩ =
      .panicked := by
    rw [openaiMessages, Outcome.map_panicked, split_panicked_iff, SplitsCharacter, String.toList_ofList]
    have hs : ('你').utf8Size = 3 := by decide
    refine ⟨by decide, by decide, ⟨1000, rfl, by decide⟩, .inr (fun h => ?_), ?_, ?_⟩
    · have hl : '\n' ∈ List.replicate 1000 '你' := h.subset (by simp)
      exact absurd (List.eq_of_mem_replicate hl) (by decide)
    · rw [utf8Bytes, List.map_replicate, List.sum_replicate_nat, hs]
      decide
    · rintro ⟨front, back, hr, hb⟩
      have hf := (List.append_eq_replicate_iff.mp hr.symm).2.1
      rw [hf, utf8Bytes, List.map_replicate, List.sum_replicate_nat, hs] at hb
      omega
  exact ⟨hp, fun h => h.1 hp⟩

end Texts

end UwuContextDb.Llm
