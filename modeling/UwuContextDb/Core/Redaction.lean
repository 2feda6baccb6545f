import Mathlib.Data.List.Infix
import UwuContextDb.Core.WriteSecurity

/-! What redaction does to the texts of an entry, text by text; its output has nothing left to find. -/

namespace UwuContextDb

open Text Words

namespace Json

mutual
def strings : Json → List String
  | .str s => [s]
  | .arr items => itemStrings items
  | .obj fields => fieldStrings fields
  | _ => []

def itemStrings : List Json → List String
  | [] => []
  | item::items => item.strings ++ itemStrings items

def fieldStrings : List (String × Json) → List String
  | [] => []
  | (_, value)::fields => value.strings ++ fieldStrings fields
end

mutual
def mapStrings (f : String → String) : Json → Json
  | .str s => .str (f s)
  | .arr items => .arr (mapItems f items)
  | .obj fields => .obj (mapFields f fields)
  | value => value

def mapItems (f : String → String) : List Json → List Json
  | [] => []
  | item::items => item.mapStrings f::mapItems f items

def mapFields (f : String → String) : List (String × Json) → List (String × Json)
  | [] => []
  | (key, value)::fields => (key, value.mapStrings f)::mapFields f fields
end

variable (f g : String → String)

mutual
theorem strings_mapStrings : ∀ value : Json, (value.mapStrings f).strings = value.strings.map f
  | .str _ => rfl
  | .arr items => itemStrings_mapItems items
  | .obj fields => fieldStrings_mapFields fields
  | .null => rfl
  | .bool _ => rfl
  | .num _ => rfl

theorem itemStrings_mapItems : ∀ items : List Json, itemStrings (mapItems f items) = (itemStrings items).map f
  | [] => rfl
  | item::items => by simp [mapItems,itemStrings,strings_mapStrings item,itemStrings_mapItems items]

theorem fieldStrings_mapFields : ∀ fs : List (String × Json),
    fieldStrings (mapFields f fs) = (fieldStrings fs).map f
  | [] => rfl
  | (key, v)::fs => by simp [mapFields,fieldStrings,strings_mapStrings v,fieldStrings_mapFields fs]
end

mutual
theorem mapStrings_eq_iff : ∀ value : Json, value.mapStrings f = value.mapStrings g ↔ ∀ s ∈ value.strings, f s = g s
  | .str s => by simp [mapStrings, strings]
  | .arr items => by simp [mapStrings, strings, mapItems_eq_iff items]
  | .obj fields => by simp [mapStrings, strings, mapFields_eq_iff fields]
  | .null => by simp [mapStrings, strings]
  | .bool _ => by simp [mapStrings, strings]
  | .num _ => by simp [mapStrings, strings]

theorem mapItems_eq_iff : ∀ items : List Json, mapItems f items = mapItems g items ↔ ∀ s ∈ itemStrings items, f s = g s
  | [] => by simp [mapItems,itemStrings]
  | item::items => by
    simp [mapItems,itemStrings,mapStrings_eq_iff item,mapItems_eq_iff items,or_imp,forall_and]

theorem mapFields_eq_iff : ∀ fs : List (String × Json),
    mapFields f fs = mapFields g fs ↔ ∀ s ∈ fieldStrings fs, f s = g s
  | [] => by simp [mapFields,fieldStrings]
  | (key, v)::fs => by
    simp [mapFields,fieldStrings,mapStrings_eq_iff v,mapFields_eq_iff fs,or_imp,forall_and]
end

mutual
theorem mapStrings_id : ∀ value : Json, value.mapStrings id = value
  | .str _ => rfl
  | .arr items => by simp [mapStrings, mapItems_id items]
  | .obj fields => by simp [mapStrings, mapFields_id fields]
  | .null => rfl
  | .bool _ => rfl
  | .num _ => rfl

theorem mapItems_id : ∀ items : List Json, mapItems id items = items
  | [] => rfl
  | item::items => by simp [mapItems,mapStrings_id item,mapItems_id items]

theorem mapFields_id : ∀ fs : List (String × Json), mapFields id fs = fs
  | [] => rfl
  | (key, v)::fs => by simp [mapFields,mapStrings_id v,mapFields_id fs]
end

end Json

namespace ContentPayload

mutual
def texts : ContentPayload → List String
  | .text sparse dense full => [sparse, dense, full]
  | .image _ _ _ => []
  | .audio transcript _ _ => [transcript]
  | .structured summary _ data => summary::data.strings
  | .composite summary parts => summary::partsTexts parts

def partsTexts : List ContentPart → List String
  | [] => []
  | part::parts => partTexts part ++ partsTexts parts

def partTexts : ContentPart → List String
  | .text payload => payload.texts
  | .image payload => payload.texts
  | .audio payload => payload.texts
  | .reference _ => []
end

mutual
def mapTexts (f : String → String) : ContentPayload → ContentPayload
  | .text sparse dense full => .text (f sparse) (f dense) (f full)
  | .image thumbnail features raw => .image thumbnail features raw
  | .audio transcript embedding raw => .audio (f transcript) embedding raw
  | .structured summary schema data => .structured (f summary) schema (data.mapStrings f)
  | .composite summary parts => .composite (f summary) (mapParts f parts)

def mapParts (f : String → String) : List ContentPart → List ContentPart
  | [] => []
  | part::parts => mapPart f part::mapParts f parts

def mapPart (f : String → String) : ContentPart → ContentPart
  | .text payload => .text (payload.mapTexts f)
  | .image payload => .image (payload.mapTexts f)
  | .audio payload => .audio (payload.mapTexts f)
  | .reference uri => .reference uri
end

variable (f g : String → String)

mutual
theorem texts_mapTexts : ∀ payload : ContentPayload, (payload.mapTexts f).texts = payload.texts.map f
  | .text _ _ _ => rfl
  | .image _ _ _ => rfl
  | .audio _ _ _ => rfl
  | .structured _ _ data => by simp [mapTexts, texts, Json.strings_mapStrings f data]
  | .composite _ parts => by simp [mapTexts, texts, partsTexts_mapParts parts]

theorem partsTexts_mapParts : ∀ parts : List ContentPart, partsTexts (mapParts f parts) = (partsTexts parts).map f
  | [] => rfl
  | part::parts => by simp [mapParts,partsTexts,partTexts_mapPart part,partsTexts_mapParts parts]

theorem partTexts_mapPart : ∀ part : ContentPart, partTexts (mapPart f part) = (partTexts part).map f
  | .text payload => texts_mapTexts payload
  | .image payload => texts_mapTexts payload
  | .audio payload => texts_mapTexts payload
  | .reference _ => rfl
end

mutual
theorem mapTexts_eq_iff : ∀ payload : ContentPayload,
    payload.mapTexts f = payload.mapTexts g ↔ ∀ text ∈ payload.texts, f text = g text
  | .text _ _ _ => by simp [mapTexts, texts]
  | .image _ _ _ => by simp [mapTexts, texts]
  | .audio _ _ _ => by simp [mapTexts, texts]
  | .structured _ _ data => by simp [mapTexts, texts, Json.mapStrings_eq_iff f g data]
  | .composite _ parts => by simp [mapTexts, texts, mapParts_eq_iff parts]

theorem mapParts_eq_iff : ∀ parts : List ContentPart,
    mapParts f parts = mapParts g parts ↔ ∀ text ∈ partsTexts parts, f text = g text
  | [] => by simp [mapParts,partsTexts]
  | part::parts => by
    simp [mapParts,partsTexts,mapPart_eq_iff part,mapParts_eq_iff parts,or_imp,forall_and]

theorem mapPart_eq_iff : ∀ part : ContentPart, mapPart f part = mapPart g part ↔ ∀ text ∈ partTexts part, f text = g text
  | .text payload => by simp [mapPart,partTexts,mapTexts_eq_iff payload]
  | .image payload => by simp [mapPart,partTexts,mapTexts_eq_iff payload]
  | .audio payload => by simp [mapPart,partTexts,mapTexts_eq_iff payload]
  | .reference _ => by simp [mapPart,partTexts]
end

mutual
theorem mapTexts_id : ∀ payload : ContentPayload, payload.mapTexts id = payload
  | .text _ _ _ => rfl
  | .image _ _ _ => rfl
  | .audio _ _ _ => rfl
  | .structured _ _ data => by simp [mapTexts, Json.mapStrings_id data]
  | .composite _ parts => by simp [mapTexts, mapParts_id parts]

theorem mapParts_id : ∀ parts : List ContentPart, mapParts id parts = parts
  | [] => rfl
  | part::parts => by simp [mapParts,mapPart_id part,mapParts_id parts]

theorem mapPart_id : ∀ part : ContentPart, mapPart id part = part
  | .text payload => by simp [mapPart,mapTexts_id payload]
  | .image payload => by simp [mapPart,mapTexts_id payload]
  | .audio payload => by simp [mapPart,mapTexts_id payload]
  | .reference _ => rfl
end

end ContentPayload

namespace WriteSecurity

theorem contains_iff {pattern text : List Char} : contains pattern text = true ↔ pattern <:+: text := by
  rw [contains,List.any_eq_true,List.infix_iff_prefix_suffix]
  constructor
  · rintro ⟨rest,hr,hb⟩
    exact ⟨rest,List.isPrefixOf_iff_prefix.mp hb,(List.mem_tails _ _).mp hr⟩
  · rintro ⟨rest,hb,hr⟩
    exact ⟨rest,(List.mem_tails _ _).mpr hr,List.isPrefixOf_iff_prefix.mpr hb⟩

theorem run_bind {α β : Type} (x : Scan α) (f : α → Scan β) (findings : Findings) :
    (x >>= f).run findings = (f (x.run findings).1).run (x.run findings).2 := rfl

theorem run_pure {α : Type} (a : α) (findings : Findings) : (pure a : Scan α).run findings = (a, findings) := rfl

theorem run_discard {α : Type} (x : Scan α) (findings : Findings) :
    (discard x).run findings = ((), (x.run findings).2) := rfl

def pushAll (kinds : List SensitiveKind) (findings : Findings) : Findings :=
  kinds.foldl (fun findings kind => pushFinding kind findings) findings

@[simp] theorem pushAll_nil (findings : Findings) : pushAll [] findings = findings := rfl

theorem pushAll_append (ks ks' : List SensitiveKind) (findings : Findings) :
    pushAll (ks++ks') findings = pushAll ks' (pushAll ks findings) := List.foldl_append

theorem pushFinding_ne_nil (kind : SensitiveKind) (findings : Findings) : pushFinding kind findings ≠ [] := by
  cases findings with
  | nil => simp [pushFinding]
  | cons f findings =>
    unfold pushFinding
    split <;> simp

theorem pushAll_eq_nil {ks : List SensitiveKind} : pushAll ks [] = [] ↔ ks = [] := by
  have hk : ∀ (ks : List SensitiveKind) (findings : Findings), findings ≠ [] → pushAll ks findings ≠ [] := by
    intro ks
    induction ks with
    | nil => exact fun _ h => h
    | cons kind ks ih => exact fun findings _ => ih _ (pushFinding_ne_nil kind findings)
  cases ks with
  | nil => simp
  | cons kind ks => simpa [pushAll] using hk ks _ (pushFinding_ne_nil kind [])

def tokenKind (token : List Char) : Option SensitiveKind :=
  let trimmed := trimMatches isAsciiPunctuation token
  if looksLikeEmail trimmed then some .email
  else if looksLikeApiKey trimmed then some .apiKey
  else if looksLikePhoneOrLongId trimmed then some .phoneOrLongId
  else none

def mark : SensitiveKind → List Char
  | .email => "[REDACTED_EMAIL]".toList
  | .apiKey => "[REDACTED_SECRET]".toList
  | .phoneOrLongId => "[REDACTED_ID]".toList
  | .privateKey => keyMark

def redactedToken (token : List Char) : List Char :=
  match tokenKind token with
  | none => token
  | some kind => replace (trimMatches isAsciiPunctuation token) (mark kind) token

theorem redactToken_run (token : List Char) (findings : Findings) :
    (redactToken token).run findings = (redactedToken token, pushAll (tokenKind token).toList findings) := by
  unfold redactToken redactedToken tokenKind
  dsimp only
  split
  · rfl
  · split
    · rfl
    · split <;> rfl

theorem mapM_redactToken_run (tokens : List (List Char)) (findings : Findings) :
    (tokens.mapM redactToken).run findings =
      (tokens.map redactedToken, pushAll (tokens.flatMap (fun token => (tokenKind token).toList)) findings) := by
  induction tokens generalizing findings with
  | nil => rfl
  | cons token tokens ih =>
    rw [List.mapM_cons,List.flatMap_cons,pushAll_append,List.map_cons]
    simp only [run_bind,run_pure,redactToken_run,ih]

section Trim

variable {p : Char → Bool}

theorem trimMatches_spec (text : List Char) : ∃ before after, text = before ++ trimMatches p text ++ after ∧
    (∀ c ∈ before, p c = true) ∧ ∀ c ∈ after, p c = true := by
  refine ⟨text.takeWhile p,((text.dropWhile p).reverse.takeWhile p).reverse,?_,fun c hc => ?_,fun c hc => ?_⟩
  · have hb := congrArg List.reverse (@List.takeWhile_append_dropWhile _ p (text.dropWhile p).reverse)
    rw [List.reverse_append,List.reverse_reverse] at hb
    unfold trimMatches
    rw [List.append_assoc,hb,List.takeWhile_append_dropWhile]
  · exact List.all_eq_true.mp List.all_takeWhile c hc
  · exact List.all_eq_true.mp List.all_takeWhile c (List.mem_reverse.mp hc)

theorem trimMatches_cons {text rest : List Char} {c : Char} (h : trimMatches p text = c::rest) : p c = false := by
  unfold trimMatches at h
  have hne : text.dropWhile p ≠ [] := by
    intro hn
    rw [hn] at h
    cases h
  obtain ⟨d,tail,hr⟩ := List.exists_cons_of_ne_nil hne
  have hd : p d = false := by
    have hh := List.head?_dropWhile_not p text
    rw [hr] at hh
    simpa using hh
  have hk : (tail.reverse++[d]).dropWhile p = tail.reverse.dropWhile p ++ [d] := by
    rw [List.dropWhile_append]
    split
    · rename_i he
      rw [List.isEmpty_iff.mp he]
      simp [hd]
    · rfl
  rw [hr,List.reverse_cons,hk,List.reverse_append,List.reverse_singleton,List.singleton_append] at h
  obtain ⟨rfl,-⟩ := List.cons.inj h
  exact hd

theorem trimMatches_around {before core after : List Char} (hb : ∀ c ∈ before, p c = true)
    (ha : ∀ c ∈ after, p c = true) (ho : core.dropWhile p ≠ []) :
    trimMatches p (before++core++after) = trimMatches p core := by
  have hf : (core++after).dropWhile p = core.dropWhile p ++ after := by
    rw [List.dropWhile_append,if_neg (by simpa using ho)]
  unfold trimMatches
  rw [List.append_assoc,List.dropWhile_append_of_pos hb,hf,List.reverse_append,
    List.dropWhile_append_of_pos (fun c hc => ha c (List.mem_reverse.mp hc))]

end Trim

section Replace

variable {p : Char → Bool}

theorem replaceFrom_skip (pattern by_ skipped text : List Char) :
    replaceFrom pattern by_ skipped.length (skipped++text) = replaceFrom pattern by_ 0 text := by
  induction skipped with
  | nil => rfl
  | cons c skipped ih => exact ih

theorem replaceFrom_trimmed {c : Char} {rest by_ : List Char} (hc : p c = false) {before : List Char}
    (hb : ∀ d ∈ before, p d = true) (text : List Char) :
    replaceFrom (c::rest) by_ 0 (before++text) = before ++ replaceFrom (c::rest) by_ 0 text := by
  induction before with
  | nil => rfl
  | cons d before ih =>
    rw [List.forall_mem_cons] at hb
    have hn : (c == d) = false := by
      rw [beq_eq_false_iff_ne]
      rintro rfl
      rw [hc] at hb
      exact Bool.false_ne_true hb.1
    have he : (c::rest).isPrefixOf (d::(before++text)) = false := by
      simp [List.isPrefixOf,hn]
    rw [List.cons_append,replaceFrom,if_neg (by simp [he]),ih hb.2]
    rfl

theorem replace_trimmed {c : Char} {rest by_ before after : List Char} (hc : p c = false)
    (hb : ∀ d ∈ before, p d = true) (ha : ∀ d ∈ after, p d = true) :
    replace (c::rest) by_ (before++c::rest++after) = before ++ by_ ++ after := by
  have hm : (c::rest).isPrefixOf (c::rest++after) = true := List.isPrefixOf_iff_prefix.mpr (List.prefix_append _ _)
  have hafter_kept := @replaceFrom_trimmed p c rest by_ hc after ha []
  rw [List.append_nil] at hafter_kept
  have he : replaceFrom (c::rest) by_ 0 [] = [] := rfl
  unfold replace
  rw [List.append_assoc,replaceFrom_trimmed hc hb,List.cons_append,replaceFrom,← List.cons_append,if_pos hm]
  show before ++ (by_++replaceFrom (c::rest) by_ rest.length (rest++after)) = _
  rw [replaceFrom_skip,hafter_kept,he,List.append_nil,List.append_assoc]

end Replace

section Tokens

variable {token : List Char} {kind : SensitiveKind}

theorem redactedToken_spec (h : tokenKind token = some kind) :
    ∃ before after, redactedToken token = before ++ mark kind ++ after ∧ before ++ after ⊆ token ∧
      (∀ c ∈ before, isAsciiPunctuation c = true) ∧ ∀ c ∈ after, isAsciiPunctuation c = true := by
  obtain ⟨before,after,hs,hb,ha⟩ := @trimMatches_spec isAsciiPunctuation token
  have hr : redactedToken token = replace (trimMatches isAsciiPunctuation token) (mark kind) token := by
    unfold redactedToken
    rw [h]
  cases ht : trimMatches isAsciiPunctuation token with
  | nil =>
    have hn : tokenKind token = none := by
      unfold tokenKind
      rw [ht]
      decide
    rw [hn] at h
    cases h
  | cons c rest =>
    rw [ht] at hs hr
    refine ⟨before,after,?_,?_,hb,ha⟩
    · rw [hr]
      conv_lhs => rw [hs]
      exact replace_trimmed (trimMatches_cons ht) hb ha
    · rw [hs]
      intro d hd
      rcases List.mem_append.mp hd with hd | hd
      · exact List.mem_append_left _ (List.mem_append_left _ hd)
      · exact List.mem_append_right _ hd

theorem tokenKind_mark (kind : SensitiveKind) {before after : List Char}
    (hb : ∀ c ∈ before, isAsciiPunctuation c = true) (hf : ∀ c ∈ after, isAsciiPunctuation c = true) :
    tokenKind (before++mark kind++after) = none := by
  have hc : (mark kind).dropWhile isAsciiPunctuation ≠ [] := by cases kind <;> decide
  have ha : tokenKind (mark kind) = none := by cases kind <;> decide
  unfold tokenKind at ha ⊢
  rw [trimMatches_around hb hf hc]
  exact ha

theorem tokenKind_redactedToken (token : List Char) : tokenKind (redactedToken token) = none := by
  cases h : tokenKind token with
  | none =>
    unfold redactedToken
    rw [h]
    exact h
  | some kind =>
    obtain ⟨before,after,hr,-,hb,ha⟩ := redactedToken_spec h
    rw [hr]
    exact tokenKind_mark kind hb ha

theorem redactedToken_of_none (h : tokenKind token = none) : redactedToken token = token := by
  unfold redactedToken
  rw [h]

theorem isWord_redactedToken (h : IsWord isWhitespace token) : IsWord isWhitespace (redactedToken token) := by
  cases hk : tokenKind token with
  | none =>
    rw [redactedToken_of_none hk]
    exact h
  | some kind =>
    obtain ⟨before,after,hr,hs,-,-⟩ := redactedToken_spec hk
    have hp : (mark kind).all (fun c => !isWhitespace c) = true := by cases kind <;> decide
    have hm : mark kind ≠ [] ∧ ∀ c ∈ mark kind, isWhitespace c = false :=
      ⟨by cases kind <;> decide,fun c hc => by simpa using List.all_eq_true.mp hp c hc⟩
    rw [hr]
    refine ⟨by simp [hm.1],fun c hc => ?_⟩
    rw [List.mem_append,List.mem_append] at hc
    rcases hc with (hc | hc) | hc
    · exact h.2 c (hs (List.mem_append_left _ hc))
    · exact hm.2 c hc
    · exact h.2 c (hs (List.mem_append_right _ hc))

end Tokens

def joinedTokens (text : List Char) : List Char := [' '].intercalate ((words isWhitespace text).map redactedToken)

def hasKey (text : List Char) : Bool := contains beginMarker text && contains keyMarker text

def redactedText (text : String) : String :=
  String.ofList (if hasKey (joinedTokens text.toList) then keyMark else joinedTokens text.toList)

def textKinds (text : String) : List SensitiveKind :=
  (words isWhitespace text.toList).flatMap (fun token => (tokenKind token).toList) ++
    if hasKey (joinedTokens text.toList) then [.privateKey] else []

theorem isWord_of_mem_redacted {text w : List Char} (h : w ∈ (words isWhitespace text).map redactedToken) :
    IsWord isWhitespace w := by
  obtain ⟨token,ht,rfl⟩ := List.mem_map.mp h
  exact isWord_redactedToken (isWord_of_mem_words ht)

theorem not_mem_joinedTokens {c : Char} (hc : isWhitespace c = true) (hs : c ≠ ' ') (text : List Char) :
    c ∉ joinedTokens text := by
  refine not_mem_intercalate (by simpa using hs) (fun w hw hm => ?_)
  have hn := (isWord_of_mem_redacted hw).2 c hm
  rw [hc] at hn
  cases hn

theorem redactPrivateKeyBlocks_run {text : List Char} (hn : '\n' ∉ text) (hr : '\r' ∉ text)
    (findings : Findings) :
    (redactPrivateKeyBlocks text).run findings =
      (if hasKey text then keyMark else text, pushAll (if hasKey text then [.privateKey] else []) findings) := by
  unfold redactPrivateKeyBlocks
  by_cases hk : hasKey text = true
  · have he : text ≠ [] := by
      rintro rfl
      revert hk
      decide
    have hl : text.getLast? ≠ some '\r' := fun hl => hr (List.mem_of_getLast? hl)
    have hi : lines text = [text] := by
      unfold lines
      rw [List.splitOn_eq_singleton hn]
      simp [he,hl]
    have hc : (contains beginMarker text && contains keyMarker text) = true := hk
    have hln : redactLine ([], false) text = (keyMark++['\n'], true) := by
      unfold redactLine
      rw [if_pos hc]
      rfl
    have ht : trimEnd (keyMark++['\n']) = keyMark := by decide
    rw [if_pos hc,if_pos hk,if_pos hk,run_bind,run_pure,hi,List.foldl_cons,List.foldl_nil,hln,ht]
    rfl
  · have hc : ¬(contains beginMarker text && contains keyMarker text) = true := hk
    rw [if_neg hc,if_neg hk,if_neg hk]
    rfl

theorem redactText_run (text : String) (findings : Findings) :
    (redactText text).run findings = (redactedText text, pushAll (textKinds text) findings) := by
  have hn : '\n' ∉ joinedTokens text.toList := not_mem_joinedTokens (by decide) (by decide) _
  have hr : '\r' ∉ joinedTokens text.toList := not_mem_joinedTokens (by decide) (by decide) _
  have hk := redactPrivateKeyBlocks_run hn hr
  unfold redactText
  rw [run_bind,mapM_redactToken_run,run_bind,run_pure]
  unfold joinedTokens at hk
  rw [hk]
  unfold redactedText textKinds joinedTokens
  rw [pushAll_append]

theorem joinedTokens_joinedTokens (text : List Char) :
    words isWhitespace (joinedTokens text) = (words isWhitespace text).map redactedToken ∧
    joinedTokens (joinedTokens text) = joinedTokens text := by
  have ho : words isWhitespace (joinedTokens text) = (words isWhitespace text).map redactedToken :=
    words_intercalate (by decide) (fun w hw => isWord_of_mem_redacted hw)
  refine ⟨ho,?_⟩
  have hs : (words isWhitespace text).map (redactedToken ∘ redactedToken) =
      (words isWhitespace text).map redactedToken :=
    List.map_congr_left (fun token _ => redactedToken_of_none (tokenKind_redactedToken token))
  show [' '].intercalate ((words isWhitespace (joinedTokens text)).map redactedToken) = _
  rw [ho,List.map_map,hs]
  rfl

theorem keyMark_clean : redactedText (String.ofList keyMark) = String.ofList keyMark ∧
    textKinds (String.ofList keyMark) = [] := by
  decide

theorem textKinds_redactedText (text : String) : textKinds (redactedText text) = [] := by
  obtain ⟨hw,hj⟩ := joinedTokens_joinedTokens text.toList
  by_cases hk : hasKey (joinedTokens text.toList) = true
  · unfold redactedText
    rw [if_pos hk]
    exact keyMark_clean.2
  · unfold redactedText textKinds
    rw [if_neg hk,String.toList_ofList,hj,if_neg hk,List.append_nil,hw,List.flatMap_map]
    exact List.flatMap_eq_nil_iff.mpr (fun token _ => by rw [tokenKind_redactedToken]; rfl)

theorem redactedText_redactedText (text : String) : redactedText (redactedText text) = redactedText text := by
  obtain ⟨-,hj⟩ := joinedTokens_joinedTokens text.toList
  by_cases hk : hasKey (joinedTokens text.toList) = true
  · have hm : redactedText text = String.ofList keyMark := by
      unfold redactedText
      rw [if_pos hk]
    rw [hm]
    exact keyMark_clean.1
  · unfold redactedText
    rw [if_neg hk,String.toList_ofList,hj,if_neg hk]

def allKinds (texts : List String) : List SensitiveKind := texts.flatMap textKinds

@[simp] theorem allKinds_nil : allKinds [] = [] := rfl

@[simp] theorem allKinds_cons (text : String) (texts : List String) :
    allKinds (text::texts) = textKinds text ++ allKinds texts := rfl

@[simp] theorem allKinds_append (texts texts' : List String) :
    allKinds (texts++texts') = allKinds texts ++ allKinds texts' :=
  List.flatMap_append

section Payloads

open ContentPayload

mutual
theorem redactJson_run : ∀ (value : Json) (findings : Findings),
    (redactJson value).run findings = (value.mapStrings redactedText, pushAll (allKinds value.strings) findings)
  | .str s, findings => by
    simp only [redactJson, run_bind, run_pure, redactText_run, Json.mapStrings, Json.strings, allKinds_cons, allKinds_nil,
      List.append_nil]
  | .arr items, findings => by
    simp only [redactJson, run_bind, run_pure, redactItems_run items findings, Json.mapStrings, Json.strings]
  | .obj fields, findings => by
    simp only [redactJson, run_bind, run_pure, redactFields_run fields findings, Json.mapStrings, Json.strings]
  | .null, _ => rfl
  | .bool _, _ => rfl
  | .num _, _ => rfl

theorem redactItems_run : ∀ (items : List Json) (findings : Findings),
    (redactItems items).run findings =
      (Json.mapItems redactedText items, pushAll (allKinds (Json.itemStrings items)) findings)
  | [], _ => rfl
  | item::items, findings => by
    simp only [redactItems,run_bind,run_pure,redactJson_run item,redactItems_run items,Json.mapItems,Json.itemStrings,
      allKinds_append,pushAll_append]

theorem redactFields_run : ∀ (fs : List (String × Json)) (findings : Findings),
    (redactFields fs).run findings =
      (Json.mapFields redactedText fs, pushAll (allKinds (Json.fieldStrings fs)) findings)
  | [], _ => rfl
  | (key, v)::fs, findings => by
    simp only [redactFields,run_bind,run_pure,redactJson_run v,redactFields_run fs,Json.mapFields,
      Json.fieldStrings,allKinds_append,pushAll_append]
end

mutual
theorem scanJson_run : ∀ (value : Json) (findings : Findings),
    (scanJson value).run findings = ((), pushAll (allKinds value.strings) findings)
  | .str s, findings => by
    simp only [scanJson, run_discard, redactText_run, Json.strings, allKinds_cons, allKinds_nil, List.append_nil]
  | .arr items, findings => scanItems_run items findings
  | .obj fields, findings => scanFields_run fields findings
  | .null, _ => rfl
  | .bool _, _ => rfl
  | .num _, _ => rfl

theorem scanItems_run : ∀ (items : List Json) (findings : Findings),
    (scanItems items).run findings = ((), pushAll (allKinds (Json.itemStrings items)) findings)
  | [], _ => rfl
  | item::items, findings => by
    simp only [scanItems,run_bind,scanJson_run item,scanItems_run items,Json.itemStrings,
      allKinds_append,pushAll_append]

theorem scanFields_run : ∀ (fs : List (String × Json)) (findings : Findings),
    (scanFields fs).run findings = ((), pushAll (allKinds (Json.fieldStrings fs)) findings)
  | [], _ => rfl
  | (key, v)::fs, findings => by
    simp only [scanFields,run_bind,scanJson_run v,scanFields_run fs,Json.fieldStrings,allKinds_append,
      pushAll_append]
end

mutual
theorem redactPayload_run : ∀ (payload : ContentPayload) (findings : Findings),
    (redactPayload payload).run findings = (payload.mapTexts redactedText, pushAll (allKinds payload.texts) findings)
  | .text sparse dense full, findings => by
    simp only [redactPayload, run_bind, run_pure, redactText_run, mapTexts, texts, allKinds_cons, allKinds_nil,
      List.append_nil, pushAll_append]
  | .image _ _ _, _ => rfl
  | .audio transcript embedding raw, findings => by
    simp only [redactPayload, run_bind, run_pure, redactText_run, mapTexts, texts, allKinds_cons, allKinds_nil,
      List.append_nil]
  | .structured summary schema data, findings => by
    simp only [redactPayload, run_bind, run_pure, redactText_run, redactJson_run, mapTexts, texts, allKinds_cons,
      pushAll_append]
  | .composite summary parts, findings => by
    simp only [redactPayload, run_bind, run_pure, redactText_run, redactParts_run parts, mapTexts, texts, allKinds_cons,
      pushAll_append]

theorem redactParts_run : ∀ (parts : List ContentPart) (findings : Findings),
    (redactParts parts).run findings = (mapParts redactedText parts, pushAll (allKinds (partsTexts parts)) findings)
  | [], _ => rfl
  | part::parts, findings => by
    simp only [redactParts,run_bind,run_pure,redactPart_run part,redactParts_run parts,mapParts,partsTexts,
      allKinds_append,pushAll_append]

theorem redactPart_run : ∀ (part : ContentPart) (findings : Findings),
    (redactPart part).run findings = (mapPart redactedText part, pushAll (allKinds (partTexts part)) findings)
  | .text payload, findings => by
    simp only [redactPart,run_bind,run_pure,redactPayload_run payload,mapPart,partTexts]
  | .image payload, findings => by
    simp only [redactPart,run_bind,run_pure,redactPayload_run payload,mapPart,partTexts]
  | .audio payload, findings => by
    simp only [redactPart,run_bind,run_pure,redactPayload_run payload,mapPart,partTexts]
  | .reference _, _ => rfl
end

mutual
theorem scanPayload_run : ∀ (payload : ContentPayload) (findings : Findings),
    (scanPayload payload).run findings = ((), pushAll (allKinds payload.texts) findings)
  | .text sparse dense full, findings => by
    simp only [scanPayload, run_bind, run_discard, redactText_run, texts, allKinds_cons, allKinds_nil, List.append_nil,
      pushAll_append]
  | .image _ _ _, _ => rfl
  | .audio transcript _ _, findings => by
    simp only [scanPayload, run_discard, redactText_run, texts, allKinds_cons, allKinds_nil, List.append_nil]
  | .structured summary _ data, findings => by
    simp only [scanPayload, run_bind, run_discard, redactText_run, scanJson_run, texts, allKinds_cons, pushAll_append]
  | .composite summary parts, findings => by
    simp only [scanPayload, run_bind, run_discard, redactText_run, scanParts_run parts, texts,
      allKinds_cons, pushAll_append]

theorem scanParts_run : ∀ (parts : List ContentPart) (findings : Findings),
    (scanParts parts).run findings = ((), pushAll (allKinds (partsTexts parts)) findings)
  | [], _ => rfl
  | part::parts, findings => by
    simp only [scanParts,run_bind,scanPart_run part,scanParts_run parts,partsTexts,allKinds_append,pushAll_append]

theorem scanPart_run : ∀ (part : ContentPart) (findings : Findings),
    (scanPart part).run findings = ((), pushAll (allKinds (partTexts part)) findings)
  | .text payload, findings => scanPayload_run payload findings
  | .image payload, findings => scanPayload_run payload findings
  | .audio payload, findings => scanPayload_run payload findings
  | .reference _, _ => rfl
end

end Payloads

theorem redactSensitiveEntry_eq (e : ContextEntry) :
    redactSensitiveEntry e = .ok
      (if (scanSensitiveEntry e).isEmpty then { e with payload := e.payload.mapTexts redactedText }
        else { e with
          payload := e.payload.mapTexts redactedText
          metadata := setCustomField e.metadata "security_redactions" (findingsToJson (scanSensitiveEntry e)) },
        scanSensitiveEntry e) := by
  unfold redactSensitiveEntry scanSensitiveEntry
  rw [scanPayload_run,redactPayload_run]
  dsimp only
  split <;> rfl

theorem scanSensitiveEntry_eq_nil (e : ContextEntry) :
    scanSensitiveEntry e = [] ↔ ∀ text ∈ e.payload.texts, textKinds text = [] := by
  unfold scanSensitiveEntry
  rw [scanPayload_run]
  exact pushAll_eq_nil.trans List.flatMap_eq_nil_iff

theorem redactSensitiveEntry_redacted {payload : ContentPayload} {redacted : ContextEntry}
    (h : redacted.payload = payload.mapTexts redactedText) :
    scanSensitiveEntry redacted = [] ∧ redactSensitiveEntry redacted = .ok (redacted, []) := by
  have hc : scanSensitiveEntry redacted = [] := by
    rw [scanSensitiveEntry_eq_nil,h,ContentPayload.texts_mapTexts]
    intro text ht
    obtain ⟨original,-,rfl⟩ := List.mem_map.mp ht
    exact textKinds_redactedText original
  have hs : redacted.payload.mapTexts redactedText = redacted.payload := by
    have hi : redacted.payload.mapTexts redactedText = redacted.payload.mapTexts id := by
      rw [ContentPayload.mapTexts_eq_iff,h,ContentPayload.texts_mapTexts]
      intro text ht
      obtain ⟨original,-,rfl⟩ := List.mem_map.mp ht
      exact redactedText_redactedText original
    rw [hi,ContentPayload.mapTexts_id]
  refine ⟨hc,?_⟩
  rw [redactSensitiveEntry_eq,hc,hs]
  rfl

/-- The output of the redactor has nothing in it that the scanner finds, and is not changed by redacting it again. -/
theorem redactSensitiveEntry_complete (entry : ContextEntry) : ∃ redacted findings,
    redactSensitiveEntry entry = .ok (redacted, findings) ∧ scanSensitiveEntry redacted = [] ∧
      redactSensitiveEntry redacted = .ok (redacted, []) := by
  refine ⟨_, _, redactSensitiveEntry_eq entry, ?_⟩
  split
  · exact redactSensitiveEntry_redacted rfl
  · exact redactSensitiveEntry_redacted rfl

end WriteSecurity

end UwuContextDb
