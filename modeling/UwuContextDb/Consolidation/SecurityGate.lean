import UwuContextDb.Core.Lowercase
import UwuContextDb.Core.Redaction

/-! `SecurityGate`: which entries it lets through, and what is left in their texts. -/

namespace UwuContextDb.Consolidation

open Text Words WriteSecurity

inductive ThreatType | injection | hallucination | misinformation | promptLeak deriving DecidableEq

inductive ThreatVerdict
  | safe
  | redacted (findings : Findings)
  | suspicious (reason : String)
  | blocked (threatType : ThreatType) (confidence : ℚ)

structure SecurityGate where
  blockedPatterns : List String

namespace SecurityGate

def new : SecurityGate := ⟨["ignore previous instructions", "system prompt:", "<|im_start|>"]⟩

variable (tables : CaseTables) (gate : SecurityGate)

def blocks (text : String) : Bool :=
  gate.blockedPatterns.any (fun pattern => contains (toLowercase tables pattern.toList) (toLowercase tables text.toList))

def scan (entry : ContextEntry) : ThreatVerdict :=
  if gate.blocks tables entry.l0Text then .blocked .injection (9 / 10)
  else if isBlank (String.ofList (toLowercase tables entry.l0Text.toList)) then .suspicious "empty content"
  else if (scanSensitiveEntry entry).isEmpty then .safe
  else .redacted (scanSensitiveEntry entry)

def redactEntry (entry : ContextEntry) : Except ContextError (ContextEntry × Findings) := redactSensitiveEntry entry

def sanitizeForWrite (entry : ContextEntry) : Except ContextError (Except ThreatVerdict ContextEntry) :=
  match gate.scan tables entry with
  | .safe | .suspicious _ => .ok (.ok entry)
  | .redacted _ => do
    let redacted ← redactEntry entry
    return .ok redacted.1
  | .blocked threatType confidence => .ok (.error (.blocked threatType confidence))

def Sound (entry : ContextEntry) : Prop :=
  ∀ written, gate.sanitizeForWrite tables entry = .ok (.ok written) →
    scanSensitiveEntry written = [] ∧ ∀ text ∈ written.payload.texts, gate.blocks tables text = false

def Spelled (text : String) : Prop :=
  ∃ run, run <:+: words isWhitespace text.toList ∧ (∀ token ∈ run, tokenKind token = none) ∧
    gate.blocks tables (String.ofList ([' '].intercalate run)) = true

def LetsThrough (entry : ContextEntry) : Prop :=
  if (scanSensitiveEntry entry).isEmpty then ∀ text ∈ entry.payload.texts, gate.blocks tables text = false
  else isBlank (String.ofList (toLowercase tables entry.l0Text.toList)) = false ∧
    ∀ text ∈ entry.payload.texts, .privateKey ∈ textKinds text ∨ ¬ gate.Spelled tables text

end SecurityGate

section Patterns

theorem patterns_facts : ∀ pattern ∈ SecurityGate.new.blockedPatterns,
    pattern.toList ≠ [] ∧ (∀ c ∈ pattern.toList, c.val < 128 ∧ c.toLower = c) ∧
      ∀ w ∈ pattern.toList.splitOn ' ', ' ' ∉ w ∧ '[' ∉ w ∧ ']' ∉ w ∧ w.all isAsciiPunctuation = false ∧
        ∀ kind ∈ [SensitiveKind.email, .apiKey, .phoneOrLongId, .privateKey],
          ¬ w <:+: ((mark kind).tail.dropLast.map Char.toLower) := by
  have ha : ∀ pattern ∈ SecurityGate.new.blockedPatterns,
      pattern.toList.all (fun c => decide (c.val < 128 ∧ c.toLower = c)) = true := by
    decide +kernel
  have hw : ∀ pattern ∈ SecurityGate.new.blockedPatterns, pattern.toList ≠ [] ∧
      ∀ w ∈ pattern.toList.splitOn ' ', ' ' ∉ w ∧ '[' ∉ w ∧ ']' ∉ w ∧ w.all isAsciiPunctuation = false ∧
        ∀ kind ∈ [SensitiveKind.email, .apiKey, .phoneOrLongId, .privateKey],
          ¬ w <:+: ((mark kind).tail.dropLast.map Char.toLower) := by
    decide +kernel
  intro pattern hp
  refine ⟨(hw pattern hp).1,fun c hc => ?_,(hw pattern hp).2⟩
  exact of_decide_eq_true (List.all_eq_true.mp (ha pattern hp) c hc)

theorem mark_ascii (kind : SensitiveKind) : ∀ c ∈ mark kind, c.val < 128 := by
  have ha : (mark kind).all (fun c => decide (c.val < 128)) = true := by
    cases kind <;> decide +kernel
  exact fun c hc => of_decide_eq_true (List.all_eq_true.mp ha c hc)

theorem punctuation_lower {c : Char} (hc : isAsciiPunctuation c = true) : c.val < 128 ∧ c.toLower = c := by
  have hr : c.val.toNat < 128 ∧ ¬ (65 ≤ c.val.toNat ∧ c.val.toNat ≤ 90) := by
    simp only [isAsciiPunctuation,Bool.or_eq_true,Bool.and_eq_true,decide_eq_true_eq,UInt32.le_iff_toNat_le] at hc
    simp only [UInt32.reduceToNat] at hc
    omega
  refine ⟨UInt32.lt_iff_toNat_lt.mpr hr.1,?_⟩
  unfold Char.toLower
  exact dif_neg (fun hu => hr.2 ⟨hu.1,hu.2⟩)

theorem privateKey_mem_textKinds (text : String) : .privateKey ∈ textKinds text ↔
    hasKey (joinedTokens text.toList) = true := by
  have ht : ∀ token, tokenKind token ≠ some .privateKey := by
    intro token
    unfold tokenKind
    dsimp only
    split
    · simp
    · split
      · simp
      · split <;> simp
  unfold textKinds
  rw [List.mem_append]
  constructor
  · rintro (hm | hm)
    · obtain ⟨token,-,hi⟩ := List.mem_flatMap.mp hm
      exact absurd (Option.mem_toList.mp hi) (ht token)
    · by_contra hk
      rw [if_neg hk] at hm
      cases hm
  · intro hk
    rw [if_pos hk]
    exact .inr List.mem_cons_self

variable {tables : CaseTables} (h : tables.Lawful)
include h

theorem blocks_iff (text : String) : SecurityGate.new.blocks tables text = true ↔
    ∃ pattern ∈ SecurityGate.new.blockedPatterns, pattern.toList <:+: text.toList.flatMap (lowered tables) := by
  rw [SecurityGate.blocks,List.any_eq_true]
  refine exists_congr (fun pattern => and_congr_right (fun hp => ?_))
  obtain ⟨-,ha,-⟩ := patterns_facts pattern hp
  have hl : toLowercase tables pattern.toList = pattern.toList := by
    rw [toLowercase_ascii h (fun c hc => (ha c hc).1)]
    conv_rhs => rw [← List.map_id' pattern.toList]
    exact List.map_congr_left (fun c hc => (ha c hc).2)
  have hs : ∀ c ∈ pattern.toList, c ≠ 'ς' ∧ c ≠ 'σ' := by
    intro c hc
    refine ⟨?_,?_⟩
    · rintro rfl
      exact absurd (ha _ hc).1 (by decide)
    · rintro rfl
      exact absurd (ha _ hc).1 (by decide)
  rw [contains_iff,hl,infix_toLowercase_iff tables hs]

theorem flatMap_lowered_intercalate (tokens : List (List Char)) :
    ([' '].intercalate tokens).flatMap (lowered tables) =
    [' '].intercalate (tokens.map (fun token => token.flatMap (lowered tables))) := by
  have hs : lowered tables ' ' = [' '] := lowered_ascii h (by decide)
  induction tokens with
  | nil => rfl
  | cons token tokens ih =>
    by_cases ho : tokens = []
    · subst ho
      simp
    · rw [intercalate_cons_ne ho,List.map_cons,intercalate_cons_ne (by simpa using ho),List.flatMap_append,
        List.flatMap_cons,hs,ih]
      rfl

theorem space_notMem_lowered {token : List Char} (ht : ' ' ∉ token) : ' ' ∉ token.flatMap (lowered tables) := by
  intro hm
  obtain ⟨c,hc,hm⟩ := List.mem_flatMap.mp hm
  obtain ⟨d,hd,hf⟩ := List.mem_map.mp hm
  have hd' : d = ' ' := by
    unfold foldSigma at hf
    split at hf
    · exact absurd hf (by decide)
    · exact hf
  subst hd'
  split at hd
  · exact absurd hd (by decide)
  · exact h.space c (fun he => ht (he ▸ hc)) hd

theorem not_infix_redactedToken {pattern : String} (ha : pattern ∈ SecurityGate.new.blockedPatterns) {w : List Char}
    (hw : w ∈ pattern.toList.splitOn ' ') {token : List Char} {kind : SensitiveKind}
    (ht : tokenKind token = some kind) :
    ¬ w <:+: (redactedToken token).flatMap (lowered tables) := by
  obtain ⟨-,-,hr⟩ := patterns_facts pattern ha
  obtain ⟨-,he,hg,hl,hm⟩ := hr w hw
  obtain ⟨before,after,hd,-,hb,hf⟩ := redactedToken_spec ht
  have hp : ∀ cs : List Char, (∀ c ∈ cs, isAsciiPunctuation c = true) → ¬ w <:+: cs.flatMap (lowered tables) := by
    intro cs hs ho
    have hsa : cs.flatMap (lowered tables) = cs := by
      rw [flatMap_lowered_ascii h (fun c hc => (punctuation_lower (hs c hc)).1)]
      conv_rhs => rw [← List.map_id' cs]
      exact List.map_congr_left (fun c hc => (punctuation_lower (hs c hc)).2)
    rw [hsa] at ho
    have hal : w.all isAsciiPunctuation = true := List.all_eq_true.mpr (fun c hc => hs c (ho.subset hc))
    rw [hal] at hl
    cases hl
  have hk : (mark kind).flatMap (lowered tables) = '['::((mark kind).tail.dropLast.map Char.toLower++[']']) := by
    rw [flatMap_lowered_ascii h (mark_ascii kind)]
    cases kind <;> decide +kernel
  rw [hd,List.flatMap_append,List.flatMap_append,hk,List.append_assoc,List.cons_append,List.append_assoc,
    List.singleton_append]
  intro ho
  rcases infix_append_cons he ho with hi | hi
  · exact hp before hb hi
  · rcases infix_append_cons hg hi with hi | hi
    · exact hm kind (by cases kind <;> simp) hi
    · exact hp after hf hi

theorem infix_joinedTokens_iff {pattern : String} (hp : pattern ∈ SecurityGate.new.blockedPatterns)
    (text : List Char) :
    pattern.toList <:+: (joinedTokens text).flatMap (lowered tables) ↔
      ∃ run, run <:+: words isWhitespace text ∧ (∀ token ∈ run, tokenKind token = none) ∧
        pattern.toList <:+: ([' '].intercalate run).flatMap (lowered tables) := by
  obtain ⟨he,-,hwo⟩ := patterns_facts pattern hp
  have hl : ∀ run : List (List Char), (∀ token ∈ run, tokenKind token = none) → run.map redactedToken = run := by
    intro run hr
    conv_rhs => rw [← List.map_id' run]
    exact List.map_congr_left (fun token ht => redactedToken_of_none (hr token ht))
  have hs : [' '].intercalate (pattern.toList.splitOn ' ') = pattern.toList := List.intercalate_splitOn ' '
  constructor
  · intro ho
    rw [joinedTokens,flatMap_lowered_intercalate h,List.map_map] at ho
    rw [← hs] at ho he
    have ha : ∀ v ∈ (words isWhitespace text).map
        ((fun token => token.flatMap (lowered tables)) ∘ redactedToken), ' ' ∉ v := by
      intro v hv
      obtain ⟨token,ht,rfl⟩ := List.mem_map.mp hv
      refine space_notMem_lowered h (fun hme => ?_)
      have hno := (isWord_of_mem_redacted (List.mem_map_of_mem ht)).2 ' ' hme
      exact absurd hno (by decide)
    obtain ⟨_,hm,hal,hj⟩ := occurs_joined he (fun w hw => (hwo w hw).1) ha ho
    obtain ⟨run,hr,rfl⟩ := List.infix_map_iff.mp hm
    have hn : ∀ token ∈ run, tokenKind token = none := by
      intro token ht
      cases hk : tokenKind token with
      | none => rfl
      | some kind =>
        obtain ⟨w,hw,hi⟩ := exists_of_mem_right hal _ (List.mem_map_of_mem ht)
        exact absurd hi (not_infix_redactedToken h hp hw hk)
    refine ⟨run,hr,hn,?_⟩
    rw [hs,← List.map_map,hl run hn] at hj
    rw [flatMap_lowered_intercalate h]
    exact hj
  · rintro ⟨run,hr,hn,ho⟩
    have hj : [' '].intercalate run <:+: joinedTokens text := by
      have hm : [' '].intercalate (run.map redactedToken) <:+: joinedTokens text :=
        intercalate_infix (hr.map redactedToken)
      rw [hl run hn] at hm
      exact hm
    exact ho.trans (infix_flatMap hj)

theorem blocks_redactedText (text : String) : SecurityGate.new.blocks tables (redactedText text) = true ↔
    .privateKey ∉ textKinds text ∧ SecurityGate.new.Spelled tables text := by
  rw [privateKey_mem_textKinds,blocks_iff h]
  by_cases hk : hasKey (joinedTokens text.toList) = true
  · refine iff_of_false ?_ (fun hc => hc.1 hk)
    have ha : ∀ c ∈ keyMark, c.val < 128 := mark_ascii .privateKey
    rintro ⟨pattern,hp,ho⟩
    rw [redactedText,if_pos hk,String.toList_ofList,flatMap_lowered_ascii h ha] at ho
    have hc : ∀ pattern ∈ SecurityGate.new.blockedPatterns, ¬ pattern.toList <:+: keyMark.map Char.toLower := by
      decide +kernel
    exact hc pattern hp ho
  · have ht : (redactedText text).toList = joinedTokens text.toList := by
      rw [redactedText,if_neg hk,String.toList_ofList]
    rw [ht]
    constructor
    · rintro ⟨pattern,hp,ho⟩
      obtain ⟨run,hr,hn,hs⟩ := (infix_joinedTokens_iff h hp _).mp ho
      refine ⟨hk,run,hr,hn,(blocks_iff h _).mpr ⟨pattern,hp,?_⟩⟩
      rw [String.toList_ofList]
      exact hs
    · rintro ⟨-,run,hr,hn,hb⟩
      obtain ⟨pattern,hp,hs⟩ := (blocks_iff h _).mp hb
      rw [String.toList_ofList] at hs
      exact ⟨pattern,hp,(infix_joinedTokens_iff h hp _).mpr ⟨run,hr,hn,hs⟩⟩

end Patterns

section Verdicts

variable {tables : CaseTables} {gate : SecurityGate} {e : ContextEntry}

theorem sanitizeForWrite_blocked (hb : gate.blocks tables e.l0Text = true) :
    gate.sanitizeForWrite tables e = .ok (.error (.blocked .injection (9 / 10))) := by
  rw [SecurityGate.sanitizeForWrite,SecurityGate.scan,if_pos hb]

theorem sanitizeForWrite_same (hl : gate.blocks tables e.l0Text = false)
    (h : isBlank (String.ofList (toLowercase tables e.l0Text.toList)) = true ∨ scanSensitiveEntry e = []) :
    gate.sanitizeForWrite tables e = .ok (.ok e) := by
  rw [SecurityGate.sanitizeForWrite,SecurityGate.scan,if_neg (by simp [hl])]
  by_cases hb : isBlank (String.ofList (toLowercase tables e.l0Text.toList)) = true
  · rw [if_pos hb]
  · rw [if_neg hb,if_pos (by simp [h.resolve_left hb])]

theorem sanitizeForWrite_redacted (hb : gate.blocks tables e.l0Text = false)
    (hl : isBlank (String.ofList (toLowercase tables e.l0Text.toList)) = false)
    (hf : scanSensitiveEntry e ≠ []) :
    ∃ redacted, gate.sanitizeForWrite tables e = .ok (.ok redacted) ∧
      redacted.payload = e.payload.mapTexts redactedText := by
  have he : ¬ (scanSensitiveEntry e).isEmpty = true := by simpa using hf
  rw [SecurityGate.sanitizeForWrite,SecurityGate.scan,if_neg (by simp [hb]),if_neg (by simp [hl]),if_neg he]
  refine ⟨_,by rw [SecurityGate.redactEntry,redactSensitiveEntry_eq,if_neg he]; rfl,rfl⟩

end Verdicts

/-- The gate keeps its promise for an entry exactly if it blocks it, or has to let through what is clean then. -/
theorem sanitizeForWrite_sound_iff (tables : CaseTables) (h : tables.Lawful) (entry : ContextEntry) :
    SecurityGate.new.Sound tables entry ↔
      SecurityGate.new.blocks tables entry.l0Text = true ∨ SecurityGate.new.LetsThrough tables entry := by
  cases hb : SecurityGate.new.blocks tables entry.l0Text with
  | true =>
    refine iff_of_true (fun written hw => ?_) (.inl rfl)
    rw [sanitizeForWrite_blocked hb] at hw
    cases hw
  | false =>
    have ha : SecurityGate.new.sanitizeForWrite tables entry = .ok (.ok entry) → (SecurityGate.new.Sound tables entry ↔
        scanSensitiveEntry entry = [] ∧ ∀ text ∈ entry.payload.texts, SecurityGate.new.blocks tables text = false) := by
      intro he
      constructor
      · intro hs
        exact hs entry he
      · intro hc written hw
        rw [he] at hw
        cases hw
        exact hc
    simp only [Bool.false_eq_true, false_or]
    by_cases hf : scanSensitiveEntry entry = []
    · rw [ha (sanitizeForWrite_same hb (.inr hf)), SecurityGate.LetsThrough, if_pos (by simp [hf])]
      simp [hf]
    have hm : ¬ (scanSensitiveEntry entry).isEmpty = true := by simpa using hf
    rw [SecurityGate.LetsThrough, if_neg hm]
    cases hl : isBlank (String.ofList (toLowercase tables entry.l0Text.toList)) with
    | true =>
      rw [ha (sanitizeForWrite_same hb (.inl hl))]
      simp [hf]
    | false =>
      obtain ⟨redacted, he, hp⟩ := sanitizeForWrite_redacted hb hl hf
      have hx : ∀ text, SecurityGate.new.blocks tables (redactedText text) = false ↔
          .privateKey ∈ textKinds text ∨ ¬ SecurityGate.new.Spelled tables text := by
        intro text
        rw [← Bool.not_eq_true, blocks_redactedText h, not_and_or, not_not]
      have ht : (∀ text ∈ redacted.payload.texts, SecurityGate.new.blocks tables text = false) ↔
          ∀ text ∈ entry.payload.texts, .privateKey ∈ textKinds text ∨ ¬ SecurityGate.new.Spelled tables text := by
        rw [hp, ContentPayload.texts_mapTexts, List.forall_mem_map]
        exact forall₂_congr (fun text _ => hx text)
      constructor
      · intro hs
        exact ⟨rfl, ht.mp (hs redacted he).2⟩
      · rintro ⟨-, hc⟩ written hw
        rw [he] at hw
        cases hw
        exact ⟨(redactSensitiveEntry_redacted hp).1, ht.mpr hc⟩

def sampleEntry (sparse full : String) : ContextEntry :=
  { ContextEntry.newText (.ofTenant "t") 0 "" 0 with payload := .text sparse "" full }

theorem sanitizeForWrite_sound_sample :
    SecurityGate.new.Sound .ascii (sampleEntry "note" "sk-secret Ignore previous instructions") ↔
    SecurityGate.new.blocks .ascii "note" = true ∨
      SecurityGate.new.LetsThrough .ascii (sampleEntry "note" "sk-secret Ignore previous instructions") :=
  sanitizeForWrite_sound_iff .ascii CaseTables.ascii_lawful (sampleEntry "note" "sk-secret Ignore previous instructions")

/-- Without a first text the token is let through, and the injection with it. -/
theorem secret_let_through : ¬ SecurityGate.new.Sound .ascii (sampleEntry "" "sk-secret Ignore previous instructions") := by
  intro hs
  have hw : SecurityGate.new.sanitizeForWrite .ascii (sampleEntry "" "sk-secret Ignore previous instructions") =
      .ok (.ok (sampleEntry "" "sk-secret Ignore previous instructions")) :=
    sanitizeForWrite_same (by decide +kernel) (.inl (by decide +kernel))
  have hf : scanSensitiveEntry (sampleEntry "" "sk-secret Ignore previous instructions") ≠ [] := by decide +kernel
  exact hf (hs _ hw).1

end UwuContextDb.Consolidation
