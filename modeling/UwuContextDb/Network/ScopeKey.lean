import UwuContextDb.Network.Privacy

/-! The text that keys a budget window tells its actor and its scope. -/

namespace UwuContextDb.Network

open Text

variable {unprinted : Char → Bool}

namespace BudgetScope

structure Quotes (unprinted : Char → Bool) (text opening content closing : List Char) : Prop where
  text_eq : text = opening ++ '"' :: (escapeText unprinted content ++ '"' :: closing)
  opening_colon : ':' ∉ opening
  opening_last : opening.getLast? = some '('
  closing_quote : '"' ∉ closing
  closing_last : closing.getLast? = some ')'

theorem Quotes.getLast {text opening content closing : List Char} (h : Quotes unprinted text opening content closing) :
    text.getLast? = some ')' := by
  have ha : text = (opening ++ '"' :: (escapeText unprinted content++['"'])) ++ closing := by
    rw [h.text_eq]
    simp
  rw [ha,List.getLast?_append,h.closing_last]
  rfl

theorem quotes_debugAround {opening closing : String} (text : String) (hc : ':' ∉ opening.toList)
    (ho : opening.toList.getLast? = some '(') (hq : '"' ∉ closing.toList)
    (hl : closing.toList.getLast? = some ')') :
    Quotes unprinted (debugAround unprinted opening text closing) opening.toList text.toList closing.toList := by
  refine ⟨?_,hc,ho,hq,hl⟩
  simp [debugAround,debugText,escapeText]

theorem debug_quotes (unprinted : Char → Bool) (sc : BudgetScope) :
    sc = .query ∨ ∃ opening content closing, Quotes unprinted (sc.debug unprinted) opening content closing := by
  cases sc with
  | query => exact .inl rfl
  | peer agent => exact .inr ⟨_,_,_,quotes_debugAround agent (by decide) (by decide) (by decide) (by decide)⟩
  | domain name => exact .inr ⟨_,_,_,quotes_debugAround name (by decide) (by decide) (by decide) (by decide)⟩
  | path text => exact .inr ⟨_,_,_,quotes_debugAround text (by decide) (by decide) (by decide) (by decide)⟩

theorem debugAround_inj {opening closing text text' : String}
    (h : debugAround unprinted opening text closing = debugAround unprinted opening text' closing) : text = text' := by
  have hq : escapeText unprinted text.toList ++ '"' :: closing.toList =
      escapeText unprinted text'.toList ++ '"' :: closing.toList := by
    simpa [debugAround,debugText,escapeText] using h
  exact String.toList_inj.mp (escapeText_append_inj hq).1

def variantLetters : BudgetScope → List Char
  | .query => ['Q', 'u']
  | .peer _ => ['P', 'e']
  | .domain _ => ['D', 'o']
  | .path _ => ['P', 'a']

theorem take_debug (unprinted : Char → Bool) (sc : BudgetScope) :
    (sc.debug unprinted).take 2 = sc.variantLetters := by
  have ht : ∀ opening text closing : String, 2 ≤ opening.toList.length →
      (debugAround unprinted opening text closing).take 2 = opening.toList.take 2 := by
    intro opening text closing h
    rw [debugAround,List.append_assoc,List.take_append_of_le_length h]
  have hp : "Peer(AgentId(".toList.take 2 = ['P', 'e'] := by decide
  have hd : "Domain(".toList.take 2 = ['D', 'o'] := by decide
  have ha : "Path(".toList.take 2 = ['P', 'a'] := by decide
  cases sc with
  | query => rfl
  | peer agent => exact (ht "Peer(AgentId(" agent "))" (by decide)).trans hp
  | domain name => exact (ht "Domain(" name ")" (by decide)).trans hd
  | path text => exact (ht "Path(" text ")" (by decide)).trans ha

theorem debug_inj {scope scope' : BudgetScope} (h : scope.debug unprinted = scope'.debug unprinted) : scope = scope' := by
  have hl : scope.variantLetters = scope'.variantLetters := by
    rw [← take_debug unprinted scope,← take_debug unprinted scope',h]
  cases scope <;> cases scope' <;> simp only [variantLetters] at hl
  case query.query => rfl
  case peer.peer agent agent' => rw [debugAround_inj h]
  case domain.domain name name' => rw [debugAround_inj h]
  case path.path text text' => rw [debugAround_inj h]
  all_goals simp at hl

theorem debug_ne_separated (sc sc' : BudgetScope) (before : List Char) :
    sc.debug unprinted ≠ before ++ ':' :: ':' :: sc'.debug unprinted := by
  intro h
  rcases debug_quotes unprinted sc with rfl | ⟨opening,content,closing,hq⟩
  · have hm : ':' ∈ ['Q', 'u', 'e', 'r', 'y'] := by
      have hu : ['Q', 'u', 'e', 'r', 'y'] = before ++ ':' :: ':' :: sc'.debug unprinted := h
      rw [hu]
      simp
    exact absurd hm (by decide)
  · rcases debug_quotes unprinted sc' with rfl | ⟨opening',content',closing',hq'⟩
    · have hl := hq.getLast
      have hu : (debug unprinted .query).getLast? = some 'y' := rfl
      have ht : before ++ ':' :: ':' :: debug unprinted .query = (before++[':', ':']) ++
          debug unprinted .query := by simp
      rw [h,ht,List.getLast?_append,hu,Option.some_or] at hl
      exact absurd hl (by decide)
    · have hp : opening ++ '"' :: (escapeText unprinted content ++ '"' :: closing) =
          (before ++ ':' :: ':' :: opening') ++ '"' :: (escapeText unprinted content' ++ '"' :: closing') := by
        rw [← hq.text_eq,h,hq'.text_eq]
        simp
      have ho : ':' ∈ before ++ ':' :: ':' :: opening' := by simp
      have hb : (before ++ ':' :: ':' :: opening').getLast? = some '(' := by
        have ht : before ++ ':' :: ':' :: opening' = (before++[':', ':']) ++ opening' := by simp
        rw [ht,List.getLast?_append,hq'.opening_last]
        rfl
      rcases List.append_eq_append_iff.mp hp with ⟨rest,he,hr⟩ | ⟨rest,hop,-⟩
      · cases rest with
        | nil =>
          rw [he,List.append_nil] at ho
          exact hq.opening_colon ho
        | cons q rest =>
          obtain ⟨rfl,hd⟩ := List.cons.inj hr
          rw [he,List.getLast?_append,List.getLast?_cons] at hb
          have hl : rest.getLast? = some '(' := by
            cases hn : rest.getLast? with
            | none => simp [hn] at hb
            | some last => simpa [hn] using hb
          -- the quote of `sc'` stands in the printed content, or after it
          rcases List.append_eq_append_iff.mp hd with ⟨more,hco,hc⟩ | ⟨more,hco,hc⟩
          · cases more with
            | nil =>
              refine hq.closing_quote ?_
              rw [(List.cons.inj hc).2]
              simp
            | cons q more =>
              refine hq.closing_quote ?_
              rw [(List.cons.inj hc).2]
              simp
          · cases more with
            | nil =>
              refine hq.closing_quote ?_
              rw [← (List.cons.inj hc).2]
              simp
            | cons q more =>
              obtain ⟨rfl,-⟩ := List.cons.inj hc
              have hs := backslash_of_escapeText hco
              rw [hl] at hs
              exact absurd hs (by decide)
      · refine hq.opening_colon ?_
        rw [hop]
        exact List.mem_append_left _ ho

end BudgetScope

theorem InMemoryPrivacyBudgetLedger.key_inj {K : Type} [Field K] [LinearOrder K] {cfg : LedgerConfig K}
    {ag ag' : AgentId} {scope scope' : BudgetScope} (h : key cfg ag scope = key cfg ag' scope') :
    ag = ag' ∧ scope = scope' := by
  have hi : ag.toList ++ ':' :: ':' :: scope.debug cfg.unprinted = ag'.toList ++
      ':' :: ':' :: scope'.debug cfg.unprinted := by
    have hal := String.ofList_injective h
    simpa using hal
  have hs : ∀ {first second : AgentId} {scope scope' : BudgetScope} {rest : List Char},
      second.toList = first.toList ++ rest →
      ':' :: ':' :: scope.debug cfg.unprinted = rest ++ ':' :: ':' :: scope'.debug cfg.unprinted →
        first = second ∧ scope = scope' := by
    intro first second scope scope' rest he hr
    match rest, hr with
    | [], hr =>
      rw [List.append_nil] at he
      refine ⟨String.toList_inj.mp he.symm,@BudgetScope.debug_inj cfg.unprinted scope scope' ?_⟩
      simpa using hr
    | [c], hr =>
      have hc : scope.debug cfg.unprinted = ':' :: scope'.debug cfg.unprinted := by
        simpa using (List.cons.inj hr).2
      have hl := BudgetScope.take_debug cfg.unprinted scope
      rw [hc] at hl
      cases scope <;> simp [BudgetScope.variantLetters] at hl
    | c::d::rest, hr =>
      have ht : scope.debug cfg.unprinted = rest ++ ':' :: ':' :: scope'.debug cfg.unprinted := by
        simpa using (List.cons.inj (List.cons.inj hr).2).2
      exact absurd ht (BudgetScope.debug_ne_separated scope scope' rest)
  rcases List.append_eq_append_iff.mp hi with ⟨rest,ha',hr⟩ | ⟨rest,ha,hr⟩
  · exact hs ha' hr
  · obtain ⟨hct,ho⟩ := hs ha hr
    exact ⟨hct.symm,ho.symm⟩

end UwuContextDb.Network
