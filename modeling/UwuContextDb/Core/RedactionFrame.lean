import UwuContextDb.Core.Redaction

/-! What redaction is to leave alone: the text around the tokens and key blocks it finds. -/

namespace UwuContextDb.WriteSecurity

open Text Words

def tokensInPlace (text : List Char) : List Char := mapWords isWhitespace redactedToken text

def breakOn (pattern : List Char) : List Char → Option (List Char × List Char)
  | [] => none
  | c::text =>
    if pattern.isPrefixOf (c::text) then some ([], (c::text).drop pattern.length)
    else (breakOn pattern text).map (fun parts => (c::parts.1, parts.2))

def afterKeyBlock (text : List Char) : Option (List Char) :=
  (breakOn keyMarker text).map (fun header =>
    (((breakOn endMarker header.2).bind (fun body => breakOn keyMarker body.2)).map Prod.snd).getD [])

def keyBlock (text : List Char) : Option (List Char × List Char) :=
  (breakOn beginMarker text).bind (fun parts => (afterKeyBlock parts.2).map (fun after => (parts.1, after)))

theorem breakOn_length {pattern text before after : List Char} (ha : 0 < pattern.length)
    (h : breakOn pattern text = some (before, after)) : after.length < text.length := by
  induction text generalizing before with
  | nil => cases h
  | cons c text ih =>
    unfold breakOn at h
    split at h
    · cases h
      rw [List.length_drop,List.length_cons]
      omega
    · obtain ⟨parts,hp,he⟩ := Option.map_eq_some_iff.mp h
      cases he
      have hl := ih hp
      rw [List.length_cons]
      omega

theorem afterKeyBlock_length {text after : List Char} (h : afterKeyBlock text = some after) :
    after.length ≤ text.length := by
  have hm : 0 < keyMarker.length := by decide
  have he : 0 < endMarker.length := by decide
  obtain ⟨header,hh,rfl⟩ := Option.map_eq_some_iff.mp h
  have hl := breakOn_length hm hh
  cases hb : breakOn endMarker header.2 with
  | none => simp
  | some body =>
    have hbody_len := breakOn_length he hb
    cases hf : breakOn keyMarker body.2 with
    | none => simp [hf]
    | some foot =>
      have hfoot_len := breakOn_length hm hf
      simp only [Option.bind_some,hf,Option.map_some,Option.getD_some]
      omega

theorem keyBlock_length {text before after : List Char} (h : keyBlock text = some (before, after)) :
    after.length < text.length := by
  have hb : 0 < beginMarker.length := by decide
  obtain ⟨parts,hp,ha⟩ := Option.bind_eq_some_iff.mp h
  obtain ⟨after',hl,he⟩ := Option.map_eq_some_iff.mp ha
  cases he
  have hr := breakOn_length hb hp
  have hn := afterKeyBlock_length hl
  omega

def blocksInPlace (text : List Char) : List Char :=
  match _h : keyBlock text with
  | none => tokensInPlace text
  | some (before, after) => tokensInPlace before ++ keyMark ++ blocksInPlace after
termination_by text.length
decreasing_by exact keyBlock_length _h

def framedText (text : String) : String :=
  String.ofList (if hasKey (joinedTokens text.toList) then blocksInPlace text.toList else tokensInPlace text.toList)

/-- An entry is changed only where something is found. That something was found is recorded in its metadata. -/
structure Framed (entry out : ContextEntry) : Prop where
  clean : scanSensitiveEntry entry = [] → out = entry
  frame : out = { entry with
    payload := entry.payload.mapTexts framedText
    metadata := { entry.metadata with custom := out.metadata.custom } }
  custom : ∀ key, key ≠ "security_redactions" → entry.metadata.custom.isObject = true →
    out.metadata.custom.get? key = entry.metadata.custom.get? key

/-- A text that redaction leaves alone around what it finds: one with single spaces between its tokens and none
around them, or where a private key is found, one that is a key block as a whole. -/
def Framable (text : String) : Prop :=
  if hasKey (joinedTokens text.toList) then keyBlock text.toList = some ([], [])
  else [' '].intercalate (words isWhitespace text.toList) = text.toList

theorem tokensInPlace_eq_nil {text : List Char} (h : tokensInPlace text = []) : text = [] :=
  mapWords_eq_nil (fun _ hw => isWord_redactedToken hw) h

theorem blocksInPlace_eq_nil {text : List Char} (h : blocksInPlace text = []) : text = [] := by
  rw [blocksInPlace] at h
  split at h
  · exact tokensInPlace_eq_nil h
  · rw [List.append_eq_nil_iff,List.append_eq_nil_iff] at h
    exact absurd h.1.2 (by decide)

theorem blocksInPlace_nil : blocksInPlace [] = [] := by
  rw [blocksInPlace]
  split
  · rfl
  · rename_i before after h
    have hl := keyBlock_length h
    simp at hl

theorem blocksInPlace_eq_keyMark {text : List Char} (hk : hasKey (joinedTokens text) = true) :
    blocksInPlace text = keyMark ↔ keyBlock text = some ([], []) := by
  rw [blocksInPlace]
  split
  · rename_i hn
    refine iff_of_false (fun h => ?_) (by rw [hn]; simp)
    have ho : words isWhitespace (tokensInPlace text) = (words isWhitespace text).map redactedToken :=
      words_mapWords (fun _ hw => isWord_redactedToken hw) text
    have he : words isWhitespace keyMark = [keyMark] := by decide
    have hj : joinedTokens text = keyMark := by
      unfold joinedTokens
      rw [← ho,h,he]
      rfl
    rw [hj] at hk
    revert hk
    decide
  · rename_i before after hs
    rw [hs]
    constructor
    · intro h
      have hl := congrArg List.length h
      simp only [List.length_append] at hl
      have hb : before = [] := tokensInPlace_eq_nil (List.length_eq_zero_iff.mp (by omega))
      have ha : after = [] := blocksInPlace_eq_nil (List.length_eq_zero_iff.mp (by omega))
      rw [hb,ha]
    · intro h
      obtain ⟨rfl,rfl⟩ := Prod.mk.inj (Option.some.inj h)
      rw [blocksInPlace_nil,List.append_nil]
      rfl

theorem redactedText_framed_iff (text : String) : redactedText text = framedText text ↔ Framable text := by
  unfold redactedText framedText Framable
  rw [String.ofList_inj]
  by_cases hk : hasKey (joinedTokens text.toList) = true
  · rw [if_pos hk,if_pos hk,if_pos hk,eq_comm]
    exact blocksInPlace_eq_keyMark hk
  · rw [if_neg hk,if_neg hk,if_neg hk]
    exact intercalate_map_eq_mapWords_iff (by decide) (fun _ hw => isWord_redactedToken hw) text.toList

theorem framedText_clean {text : String} (h : textKinds text = []) : framedText text = text := by
  unfold textKinds at h
  obtain ⟨ht,hk⟩ := List.append_eq_nil_iff.mp h
  have ho : ¬hasKey (joinedTokens text.toList) = true := by
    intro hy
    rw [if_pos hy] at hk
    cases hk
  have hw : ∀ token ∈ words isWhitespace text.toList, redactedToken token = token := by
    intro token htk
    refine redactedToken_of_none ?_
    cases hi : tokenKind token with
    | none => rfl
    | some kind =>
      have hn := List.flatMap_eq_nil_iff.mp ht token htk
      rw [hi] at hn
      cases hn
  unfold framedText tokensInPlace
  rw [if_neg ho,mapWords_eq_self hw,String.ofList_toList]

theorem lookup_insertField {key key' : String} (hn : key' ≠ key) (v : Json) (fs : List (String × Json)) :
    (insertField key v fs).lookup key' = fs.lookup key' := by
  have hb : (key' == key) = false := beq_eq_false_iff_ne.mpr hn
  induction fs with
  | nil => simp [insertField,List.lookup_cons,hb]
  | cons field fs ih =>
    obtain ⟨own,held⟩ := field
    unfold insertField
    dsimp only
    split
    · rename_i hk
      subst hk
      simp [List.lookup_cons,hb]
    · split
      · simp [List.lookup_cons,hb]
      · rw [List.lookup_cons,List.lookup_cons,ih]

theorem setCustomField_get {md : ContextMeta} {key key' : String} (hn : key' ≠ key) (v : Json)
    (ho : md.custom.isObject = true) :
    (setCustomField md key v).custom.get? key' = md.custom.get? key' := by
  unfold setCustomField
  cases hc : md.custom with
  | obj fs => exact lookup_insertField hn v fs
  | _ =>
    rw [hc] at ho
    cases ho

theorem setCustomField_eq (md : ContextMeta) (key : String) (v : Json) :
    setCustomField md key v = { md with custom := (setCustomField md key v).custom } := by
  unfold setCustomField
  split <;> rfl

theorem sanitizeEntryForWrite_eq (e : ContextEntry) :
    sanitizeEntryForWrite e = .ok
      (if (scanSensitiveEntry e).isEmpty then { e with payload := e.payload.mapTexts redactedText }
        else { e with
          payload := e.payload.mapTexts redactedText
          metadata := setCustomField e.metadata "security_redactions"
            (findingsToJson (scanSensitiveEntry e)) }) := by
  unfold sanitizeEntryForWrite
  rw [redactSensitiveEntry_eq]
  rfl

/-- Redaction leaves an entry alone around what it finds exactly where it does so in each of its texts. -/
theorem sanitizeEntryForWrite_framed_iff (entry : ContextEntry) :
    (∃ out, sanitizeEntryForWrite entry = .ok out ∧ Framed entry out) ↔ ∀ text ∈ entry.payload.texts, Framable text := by
  rw [sanitizeEntryForWrite_eq]
  constructor
  · rintro ⟨out, ho, hr⟩
    have hp : out.payload = entry.payload.mapTexts redactedText := by
      rw [← Except.ok.inj ho]
      split <;> rfl
    have hm : out.payload = entry.payload.mapTexts framedText := by
      rw [hr.frame]
    have hs := (ContentPayload.mapTexts_eq_iff _ _ _).mp (hp.symm.trans hm)
    exact fun text ht => (redactedText_framed_iff text).mp (hs text ht)
  · intro h
    have hp : entry.payload.mapTexts redactedText = entry.payload.mapTexts framedText :=
      (ContentPayload.mapTexts_eq_iff _ _ _).mpr (fun text ht => (redactedText_framed_iff text).mpr (h text ht))
    refine ⟨_, rfl, ?_⟩
    rw [hp]
    split
    · refine ⟨fun hc => ?_, rfl, fun _ _ _ => rfl⟩
      have hi : entry.payload.mapTexts framedText = entry.payload.mapTexts id := by
        rw [ContentPayload.mapTexts_eq_iff]
        exact fun text ht => framedText_clean ((scanSensitiveEntry_eq_nil entry).mp hc text ht)
      rw [hi, ContentPayload.mapTexts_id]
    · rename_i hf
      refine ⟨fun hc => ?_, ?_, fun key hk hb => setCustomField_get hk _ hb⟩
      · rw [hc] at hf
        exact absurd rfl hf
      · conv_lhs => rw [setCustomField_eq]

def sampleEntry : ContextEntry := .newText (.ofTenant "t1") 0 "a  b" 0

theorem sanitizeEntryForWrite_not_framed : ¬ ∃ out, sanitizeEntryForWrite sampleEntry = .ok out ∧
    Framed sampleEntry out := by
  rintro ⟨out, ho, hf⟩
  have hc : scanSensitiveEntry sampleEntry = [] := by decide
  have ht : (sanitizeEntryForWrite sampleEntry).toOption.map (fun out => out.payload.texts) =
      some ["a b", "a b", "a b"] := by
    decide
  rw [ho, hf.clean hc] at ht
  revert ht
  decide

end UwuContextDb.WriteSecurity
