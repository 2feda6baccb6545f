import Mathlib.Data.List.Forall2

/-! Texts as words and the separators between them: splitting, joining with one separator, and changing the words
where they stand. -/

namespace Words

open List (forall_mem_cons cons_append mem_cons mem_map map_cons map_map map_id cons_prefix_cons count append_assoc
  suffix_append Forall₂ intercalate_singleton)

variable {α : Type} (p : α → Bool)

/-- The words of a text: its pieces between separators, without the empty ones. -/
def words (xs : List α) : List (List α) := (xs.splitOnP p).filter (fun w => !w.isEmpty)

/-- A text as its first piece and, for each separator, the piece after it. -/
def pieces : List α → List α × List (α × List α)
  | [] => ([], [])
  | x::xs => if p x then ([], (x, (pieces xs).1)::(pieces xs).2) else (x::(pieces xs).1, (pieces xs).2)

/-- The text with these pieces. -/
def lay (first : List α) (rest : List (α × List α)) : List α := first ++ rest.flatMap (fun q => q.1::q.2)

/-- A function of words, on pieces that may be empty. -/
def onWord (f : List α → List α) (w : List α) : List α := if w.isEmpty then [] else f w

/-- The text with every word changed where it stands. -/
def mapWords (f : List α → List α) (xs : List α) : List α :=
  lay (onWord f (pieces p xs).1) ((pieces p xs).2.map (fun q => (q.1, onWord f q.2)))

/-- A word of some text. -/
def IsWord (w : List α) : Prop := w ≠ [] ∧ ∀ x ∈ w, p x = false

/-- A text splits in one way at the last of its separators. -/
theorem append_cons_inj_right {sep : α} {before before' last last' : List α} (hl : sep ∉ last) (hl' : sep ∉ last')
    (h : before++sep::last = before'++sep::last') : before = before' ∧ last = last' := by
  have hs : ∀ {xs ys rest : List α}, sep ∉ xs → sep::xs = rest ++ sep::ys → rest = [] := by
    intro xs ys rest hx he
    cases rest with
    | nil => rfl
    | cons x rest =>
      rw [(List.cons.inj he).2] at hx
      simp at hx
  rcases List.append_eq_append_iff.mp h with ⟨rest,hb,he⟩ | ⟨rest,hb,he⟩
  · obtain rfl := hs hl he
    exact ⟨by simpa using hb.symm,(List.cons.inj he).2⟩
  · obtain rfl := hs hl' he
    exact ⟨by simpa using hb,(List.cons.inj he).2.symm⟩

theorem not_mem_intercalate {sep : List α} {x : α} (hs : x ∉ sep) {ws : List (List α)} (h : ∀ w ∈ ws, x ∉ w) :
    x ∉ sep.intercalate ws := by
  induction ws with
  | nil => simp
  | cons w ws ih =>
    rw [forall_mem_cons] at h
    cases ws with
    | nil => simpa using h.1
    | cons v ws =>
      rw [List.intercalate_cons_cons,List.mem_append,List.mem_append,not_or,not_or]
      exact ⟨⟨h.1,hs⟩,ih h.2⟩

section Pieces

variable {p}

@[simp] theorem lay_nil (first : List α) : lay first [] = first := List.append_nil first

@[simp] theorem lay_cons (first : List α) (q : α × List α) (rest : List (α × List α)) :
    lay first (q::rest) = first ++ q.1::lay q.2 rest := by
  simp [lay]

theorem lay_pieces (xs : List α) : lay (pieces p xs).1 (pieces p xs).2 = xs := by
  induction xs with
  | nil => rfl
  | cons x xs ih =>
    unfold pieces
    split
    · rw [lay_cons,ih]
      rfl
    · show x::lay (pieces p xs).1 (pieces p xs).2 = x::xs
      rw [ih]

theorem pieces_append {first : List α} (h : ∀ x ∈ first, p x = false) (xs : List α) :
    pieces p (first++xs) = (first++(pieces p xs).1, (pieces p xs).2) := by
  induction first with
  | nil => rfl
  | cons x first ih =>
    rw [forall_mem_cons] at h
    rw [cons_append,pieces,if_neg (by simp [h.1]),ih h.2]
    rfl

/-- The pieces of a text are determined by it. -/
theorem pieces_lay {first : List α} {rest : List (α × List α)} (hf : ∀ x ∈ first, p x = false)
    (hr : ∀ q ∈ rest, p q.1 = true ∧ ∀ x ∈ q.2, p x = false) : pieces p (lay first rest) = (first, rest) := by
  induction rest generalizing first with
  | nil =>
    rw [lay_nil]
    have ha := @pieces_append _ p _ hf []
    simpa [pieces] using ha
  | cons q rest ih =>
    rw [forall_mem_cons] at hr
    rw [lay_cons,pieces_append hf,pieces,if_pos hr.1.1,ih hr.1.2 hr.2]
    simp

theorem pieces_spec (xs : List α) :
    (∀ x ∈ (pieces p xs).1, p x = false) ∧ ∀ q ∈ (pieces p xs).2, p q.1 = true ∧ ∀ x ∈ q.2, p x = false := by
  induction xs with
  | nil => simp [pieces]
  | cons x xs ih =>
    unfold pieces
    split
    · rename_i hx
      refine ⟨by simp,fun q hq => ?_⟩
      rcases mem_cons.mp hq with rfl | hq
      · exact ⟨hx,ih.1⟩
      · exact ih.2 q hq
    · rename_i hx
      refine ⟨fun y hy => ?_,ih.2⟩
      rcases mem_cons.mp hy with rfl | hy
      · simpa using hx
      · exact ih.1 y hy

theorem splitOnP_eq_pieces (xs : List α) : xs.splitOnP p = (pieces p xs).1::(pieces p xs).2.map Prod.snd := by
  induction xs with
  | nil => rfl
  | cons x xs ih =>
    rw [List.splitOnP_cons_eq_if_modifyHead,ih,pieces]
    split <;> rfl

theorem words_eq_pieces (xs : List α) :
    words p xs = ((pieces p xs).1::(pieces p xs).2.map Prod.snd).filter (fun w => !w.isEmpty) := by
  rw [words,splitOnP_eq_pieces]

theorem isWord_of_mem_words {xs w : List α} (h : w ∈ words p xs) : IsWord p w := by
  rw [words_eq_pieces] at h
  obtain ⟨hm,hn⟩ := List.mem_filter.mp h
  obtain ⟨hf,hr⟩ := @pieces_spec _ p xs
  refine ⟨by simpa using hn,?_⟩
  rcases mem_cons.mp hm with rfl | hm
  · exact hf
  · obtain ⟨q,hq,rfl⟩ := mem_map.mp hm
    exact (hr q hq).2

end Pieces

section Join

variable {p} {sep : α} {f : List α → List α}

theorem intercalate_cons_eq_lay (w : List α) (ws : List (List α)) :
    [sep].intercalate (w::ws) = lay w (ws.map (fun v => (sep, v))) := by
  induction ws generalizing w with
  | nil => simp
  | cons v ws ih =>
    rw [List.intercalate_cons_cons,ih v,map_cons,lay_cons]
    simp

theorem pieces_intercalate (hs : p sep = true) {w : List α} {ws : List (List α)} (h : ∀ v ∈ w::ws, IsWord p v) :
    pieces p ([sep].intercalate (w::ws)) = (w, ws.map (fun v => (sep, v))) := by
  rw [forall_mem_cons] at h
  rw [intercalate_cons_eq_lay]
  refine pieces_lay h.1.2 (fun q hq => ?_)
  obtain ⟨v,hv,rfl⟩ := mem_map.mp hq
  exact ⟨hs,(h.2 v hv).2⟩

theorem words_intercalate (hs : p sep = true) {ws : List (List α)} (h : ∀ w ∈ ws, IsWord p w) :
    words p ([sep].intercalate ws) = ws := by
  cases ws with
  | nil => rfl
  | cons w ws =>
    have hi : (ws.map (fun v => (sep, v))).map Prod.snd = ws := by
      rw [map_map]
      exact map_id ws
    rw [words_eq_pieces,pieces_intercalate hs h,hi,List.filter_eq_self]
    intro v hv
    simpa using (h v hv).1

theorem onWord_of_ne {w : List α} (h : w ≠ []) : onWord f w = f w := by
  simp [onWord,h]

/-- Changing the words of a text changes no separator. -/
theorem pieces_mapWords (hf : ∀ w, IsWord p w → IsWord p (f w)) (xs : List α) :
    pieces p (mapWords p f xs) = (onWord f (pieces p xs).1, (pieces p xs).2.map (fun q => (q.1, onWord f q.2))) := by
  obtain ⟨hi,hr⟩ := @pieces_spec _ p xs
  have ho : ∀ w : List α, (∀ x ∈ w, p x = false) → ∀ x ∈ onWord f w, p x = false := by
    intro w hw
    by_cases hn : w = []
    · simp [onWord,hn]
    · rw [onWord_of_ne hn]
      exact (hf w ⟨hn,hw⟩).2
  refine pieces_lay (ho _ hi) (fun q hq => ?_)
  obtain ⟨q',hq',rfl⟩ := mem_map.mp hq
  exact ⟨(hr q' hq').1,ho _ (hr q' hq').2⟩

theorem mapWords_eq_nil (hf : ∀ w, IsWord p w → IsWord p (f w)) {xs : List α} (h : mapWords p f xs = []) : xs = [] := by
  have hp := @pieces_mapWords _ p f hf xs
  rw [h] at hp
  obtain ⟨hi,hr⟩ := Prod.mk.inj hp
  have hl : (pieces p xs).2 = [] := List.map_eq_nil_iff.mp hr.symm
  have he : (pieces p xs).1 = [] := by
    by_contra hn
    rw [onWord_of_ne hn] at hi
    exact (hf _ ⟨hn,(@pieces_spec _ p xs).1⟩).1 hi.symm
  rw [← @lay_pieces _ p xs,hl,he,lay_nil]

theorem words_mapWords (hf : ∀ w, IsWord p w → IsWord p (f w)) (xs : List α) :
    words p (mapWords p f xs) = (words p xs).map f := by
  rw [words_eq_pieces,words_eq_pieces,pieces_mapWords hf]
  have hi : ∀ ws : List (List α), (∀ w ∈ ws, ∀ x ∈ w, p x = false) →
      (ws.map (onWord f)).filter (fun w => !w.isEmpty) = (ws.filter (fun w => !w.isEmpty)).map f := by
    intro ws
    induction ws with
    | nil => simp
    | cons w ws ih =>
      intro hs
      rw [forall_mem_cons] at hs
      by_cases hn : w = []
      · simpa [hn,onWord] using ih hs.2
      · have he : f w ≠ [] := (hf w ⟨hn,hs.1⟩).1
        simpa [hn,onWord,he] using ih hs.2
  obtain ⟨hr,hre⟩ := @pieces_spec _ p xs
  have ha : ∀ w ∈ (pieces p xs).1::(pieces p xs).2.map Prod.snd, ∀ x ∈ w, p x = false := by
    rw [forall_mem_cons]
    refine ⟨hr,fun w hw => ?_⟩
    obtain ⟨q,hq,rfl⟩ := mem_map.mp hw
    exact (hre q hq).2
  rw [← hi _ ha,map_cons,map_map,map_map]
  rfl

theorem mapWords_eq_self {xs : List α} (h : ∀ w ∈ words p xs, f w = w) : mapWords p f xs = xs := by
  have ho : ∀ w ∈ (pieces p xs).1::(pieces p xs).2.map Prod.snd, onWord f w = w := by
    intro w hw
    by_cases hn : w = []
    · simp [hn,onWord]
    · rw [onWord_of_ne hn]
      refine h w ?_
      rw [words_eq_pieces,List.mem_filter]
      exact ⟨hw,by simpa using hn⟩
  rw [forall_mem_cons] at ho
  have hr : (pieces p xs).2.map (fun q => (q.1, onWord f q.2)) = (pieces p xs).2 := by
    conv_rhs => rw [← map_id (pieces p xs).2]
    refine List.map_congr_left (fun q hq => ?_)
    show (q.1, onWord f q.2) = q
    rw [ho.2 q.2 (List.mem_map_of_mem hq)]
  unfold mapWords
  rw [ho.1,hr,lay_pieces]

theorem intercalate_map_eq_mapWords_iff (he : p sep = true) (hf : ∀ w, IsWord p w → IsWord p (f w)) (xs : List α) :
    [sep].intercalate ((words p xs).map f) = mapWords p f xs ↔ [sep].intercalate (words p xs) = xs := by
  have ho : ∀ w ∈ words p xs, IsWord p w := fun w hw => isWord_of_mem_words hw
  have hi : ∀ w ∈ (words p xs).map f, IsWord p w := by
    intro w hw
    obtain ⟨v,hv,rfl⟩ := mem_map.mp hw
    exact hf v (ho v hv)
  constructor
  · intro h
    cases hws : words p xs with
    | nil =>
      rw [hws] at h
      have hn := mapWords_eq_nil hf h.symm
      rw [hn]
      rfl
    | cons w ws =>
      rw [hws,map_cons] at h
      rw [hws,map_cons] at hi
      have hp := congrArg (pieces p) h
      rw [pieces_intercalate he hi,pieces_mapWords hf,map_map] at hp
      obtain ⟨hr,hre⟩ := Prod.mk.inj hp
      rw [forall_mem_cons] at hi
      have hfirst_ne : (pieces p xs).1 ≠ [] := by
        intro hn
        rw [hn] at hr
        exact hi.1.1 hr
      have ha : ∀ q ∈ (pieces p xs).2, q.1 = sep ∧ q.2 ≠ [] := by
        intro q hq
        have hm : (q.1, onWord f q.2) ∈ (pieces p xs).2.map (fun q => (q.1, onWord f q.2)) := List.mem_map_of_mem hq
        rw [← hre] at hm
        obtain ⟨v,hv,heq⟩ := mem_map.mp hm
        obtain ⟨hs,hw⟩ := Prod.mk.inj heq
        refine ⟨hs.symm,fun hn => ?_⟩
        rw [hn] at hw
        exact (hi.2 (f v) (List.mem_map_of_mem hv)).1 hw
      have hk : words p xs = (pieces p xs).1::(pieces p xs).2.map Prod.snd := by
        rw [words_eq_pieces,List.filter_eq_self,forall_mem_cons]
        refine ⟨by simpa using hfirst_ne,fun v hv => ?_⟩
        obtain ⟨q,hq,rfl⟩ := mem_map.mp hv
        simpa using (ha q hq).2
      have hsp : ((pieces p xs).2.map Prod.snd).map (fun v => (sep, v)) = (pieces p xs).2 := by
        rw [map_map]
        conv_rhs => rw [← map_id (pieces p xs).2]
        refine List.map_congr_left (fun q hq => ?_)
        show (sep, q.2) = q
        rw [← (ha q hq).1]
      rw [← hws,hk,intercalate_cons_eq_lay,hsp,lay_pieces]
  · intro h
    cases hws : words p xs with
    | nil =>
      rw [hws] at h
      obtain rfl : xs = [] := h.symm
      rfl
    | cons w ws =>
      rw [hws] at h ho
      have hp := pieces_intercalate he ho
      rw [h] at hp
      have hon : ∀ v ∈ w::ws, onWord f v = f v := fun v hv => onWord_of_ne (ho v hv).1
      rw [forall_mem_cons] at hon
      unfold mapWords
      rw [hp,map_cons,intercalate_cons_eq_lay,map_map,map_map,hon.1]
      congr 1
      refine List.map_congr_left (fun v hv => ?_)
      show (sep, f v) = (sep, onWord f v)
      rw [hon.2 v hv]

end Join

section Occurrences

variable {sep : α}

variable {l xs ys : List α} {first first' after after' : List α} {ws vs : List (List α)}

theorem infix_append_cases (h : l <:+: xs++ys) :
    (∃ before after, xs = before++after ∧ l <+: after++ys) ∨ l <:+: ys := by
  induction xs with
  | nil => exact .inr h
  | cons x xs ih =>
    rcases List.infix_cons_iff.mp h with hh | hl
    · exact .inl ⟨[],x::xs,rfl,hh⟩
    · rcases ih hl with ⟨before,after,rfl,ha⟩ | hy
      · exact .inl ⟨x::before,after,rfl,ha⟩
      · exact .inr hy

/-- What has no separator in it begins a text only up to the first one. -/
theorem begins_word (hl : sep ∉ l) (h : l <+: xs++sep::ys) : l <+: xs := by
  rcases List.prefix_or_prefix_of_prefix h (List.prefix_append xs (sep::ys)) with hs | ⟨rest,rfl⟩
  · exact hs
  · have hr : rest <+: sep::ys := (List.prefix_append_right_inj xs).mp h
    cases rest with
    | nil => simp
    | cons c rest =>
      obtain ⟨rfl,-⟩ := cons_prefix_cons.mp hr
      exact absurd (by simp) hl

/-- A text splits in one way at the first of its separators. -/
theorem append_cons_inj_left (hf : sep ∉ first) (hf' : sep ∉ first')
    (h : first++sep::after = first'++sep::after') : first = first' ∧ after = after' := by
  have hb : after.reverse ++ sep::first.reverse = after'.reverse ++ sep::first'.reverse := by
    simpa using congrArg List.reverse h
  obtain ⟨ha,he⟩ := append_cons_inj_right (by simpa using hf) (by simpa using hf') hb
  exact ⟨List.reverse_inj.mp he,List.reverse_inj.mp ha⟩

theorem append_cons_inj_of_count [DecidableEq α]
    (hc : first.count sep = first'.count sep) (h : first++sep::after = first'++sep::after') :
    first = first' ∧ after = after' := by
  induction first generalizing first' with
  | nil =>
    cases first' with
    | nil => exact ⟨rfl,(List.cons.inj h).2⟩
    | cons c first' =>
      obtain ⟨rfl,-⟩ := List.cons.inj h
      simp at hc
  | cons c first ih =>
    cases first' with
    | nil =>
      obtain ⟨rfl,-⟩ := List.cons.inj h
      simp at hc
    | cons d first' =>
      obtain ⟨rfl,hr⟩ := List.cons.inj h
      rw [List.count_cons,List.count_cons] at hc
      obtain ⟨rfl,ha⟩ := ih (by omega) hr
      exact ⟨rfl,ha⟩

theorem intercalate_inj_of_counts [DecidableEq α]
    (h : [sep].intercalate ws = [sep].intercalate vs) (hc : ws.map (count sep) = vs.map (count sep)) :
    ws = vs := by
  induction ws generalizing vs with
  | nil => exact (List.map_eq_nil_iff.mp hc.symm).symm
  | cons w ws ih =>
    cases vs with
    | nil => cases hc
    | cons v vs =>
      obtain ⟨hn,ht⟩ := List.cons.inj hc
      cases ws with
      | nil =>
        obtain rfl := List.map_eq_nil_iff.mp ht.symm
        simpa using h
      | cons w' ws =>
        cases vs with
        | nil => cases ht
        | cons v' vs =>
          rw [List.intercalate_cons_cons,List.intercalate_cons_cons,append_assoc,append_assoc] at h
          obtain ⟨rfl,hr⟩ := append_cons_inj_of_count hn h
          rw [ih hr ht]

/-- What has no separator in it does not occur across one. -/
theorem infix_append_cons (hl : sep ∉ l) (h : l <:+: xs++sep::ys) : l <:+: xs ∨ l <:+: ys := by
  rcases infix_append_cases h with ⟨before,after,rfl,ha⟩ | hy
  · exact .inl ((begins_word hl ha).isInfix.trans (suffix_append before after).isInfix)
  · rcases List.infix_cons_iff.mp hy with hh | ht
    · have hn : l <+: [] := begins_word hl hh
      rw [List.prefix_nil.mp hn]
      exact .inl List.nil_infix
    · exact .inr ht

theorem intercalate_cons_ne {w : List α} {ws : List (List α)} (h : ws ≠ []) :
    [sep].intercalate (w::ws) = w ++ sep::[sep].intercalate ws := by
  rw [List.intercalate_cons_of_ne_nil h]
  simp

theorem begins_joined (hs : ws ≠ []) (hvs : vs ≠ []) (hw : ∀ w ∈ ws, sep ∉ w)
    (hv : ∀ v ∈ vs, sep ∉ v) (h : [sep].intercalate ws <+: [sep].intercalate vs) :
    ∃ run, run <+: vs ∧ Forall₂ (fun w v => w <+: v) ws run ∧ [sep].intercalate ws <+: [sep].intercalate run := by
  induction ws generalizing vs with
  | nil => exact absurd rfl hs
  | cons w ws ih =>
    cases vs with
    | nil => exact absurd rfl hvs
    | cons v vs =>
      rw [forall_mem_cons] at hw hv
      by_cases hl : ws = []
      · subst hl
        have hf : w <+: v := by
          rw [intercalate_singleton] at h
          by_cases ho : vs = []
          · subst ho
            rw [intercalate_singleton] at h
            exact h
          · rw [intercalate_cons_ne ho] at h
            exact begins_word hw.1 h
        refine ⟨[v],by simp, .cons hf .nil,?_⟩
        rw [intercalate_singleton,intercalate_singleton]
        exact hf
      · rw [intercalate_cons_ne hl] at h
        have hm : vs ≠ [] := by
          rintro rfl
          rw [intercalate_singleton] at h
          exact hv.1 (h.subset (by simp))
        rw [intercalate_cons_ne hm] at h
        obtain ⟨rest,hr⟩ := h
        rw [append_assoc,cons_append] at hr
        obtain ⟨rfl,ht⟩ := append_cons_inj_left hw.1 hv.1 hr
        obtain ⟨run,hu,ha,hj⟩ := ih hl hm hw.2 hv.2 ⟨rest,ht⟩
        have hn : run ≠ [] := by
          rintro rfl
          exact hl (List.forall₂_nil_right_iff.mp ha)
        refine ⟨w::run,cons_prefix_cons.mpr ⟨rfl,hu⟩, .cons (List.prefix_refl w) ha,?_⟩
        rw [intercalate_cons_ne hl,intercalate_cons_ne hn]
        exact (List.prefix_append_right_inj w).mpr (cons_prefix_cons.mpr ⟨rfl,hj⟩)

theorem occurs_joined (hn : [sep].intercalate ws ≠ []) (hw : ∀ w ∈ ws, sep ∉ w)
    (hv : ∀ v ∈ vs, sep ∉ v) (h : [sep].intercalate ws <:+: [sep].intercalate vs) :
    ∃ run, run <:+: vs ∧ Forall₂ (fun w v => w <:+: v) ws run ∧ [sep].intercalate ws <:+: [sep].intercalate run := by
  have hs : ws ≠ [] := fun hi => hn (by rw [hi]; rfl)
  induction vs with
  | nil => exact absurd (List.infix_nil.mp h) hn
  | cons v vs ih =>
    rw [forall_mem_cons] at hv
    -- it begins inside the first word, or comes after it
    have hh : (∃ before after, v = before++after ∧ [sep].intercalate ws <+: [sep].intercalate (after::vs)) ∨
        [sep].intercalate ws <:+: [sep].intercalate vs := by
      by_cases ho : vs = []
      · subst ho
        rw [intercalate_singleton] at h
        obtain ⟨before,after,hv⟩ := h
        refine .inl ⟨before,[sep].intercalate ws++after,by rw [← hv,append_assoc],?_⟩
        rw [intercalate_singleton]
        exact List.prefix_append _ _
      · rw [intercalate_cons_ne ho] at h
        rcases infix_append_cases h with ⟨before,after,he,ha⟩ | hl
        · exact .inl ⟨before,after,he,by rw [intercalate_cons_ne ho]; exact ha⟩
        · rcases List.infix_cons_iff.mp hl with hhe | hl
          · exact .inl ⟨v,[],by simp,by rw [intercalate_cons_ne ho]; exact hhe⟩
          · exact .inr hl
    rcases hh with ⟨before,after,rfl,hb⟩ | hl
    · have ha : ∀ v ∈ after::vs, sep ∉ v := by
        rw [forall_mem_cons]
        exact ⟨fun hm => hv.1 (List.mem_append_right _ hm),hv.2⟩
      obtain ⟨run,hr,hal,hj⟩ := begins_joined hs (by simp) hw ha hb
      cases hal with
      | nil => exact absurd rfl hs
      | @cons w first ws' run hf hre =>
        obtain ⟨he,hr⟩ := cons_prefix_cons.mp hr
        rw [he] at hf hj
        refine ⟨(before++after)::run,(cons_prefix_cons.mpr ⟨rfl,hr⟩).isInfix,?_,?_⟩
        · refine .cons (hf.isInfix.trans (suffix_append before after).isInfix) ?_
          exact hre.imp (fun _ _ hvw => hvw.isInfix)
        · have ht : [sep].intercalate ((before++after)::run) = before ++ [sep].intercalate (after::run) := by
            by_cases ho : run = []
            · subst ho
              simp
            · rw [intercalate_cons_ne ho,intercalate_cons_ne ho,append_assoc]
          rw [ht]
          exact hj.isInfix.trans (suffix_append _ _).isInfix
    · obtain ⟨run,hr,hal⟩ := ih hv.2 hl
      exact ⟨run,hr.trans (List.suffix_cons v vs).isInfix,hal⟩

theorem intercalate_begins (run after : List (List α)) : [sep].intercalate run <+: [sep].intercalate (run++after) := by
  induction run with
  | nil => exact List.nil_prefix
  | cons w run ih =>
    by_cases ho : run = []
    · subst ho
      rw [intercalate_singleton]
      by_cases hl : after = []
      · subst hl
        simp
      · rw [List.singleton_append,intercalate_cons_ne hl]
        exact List.prefix_append _ _
    · rw [cons_append,intercalate_cons_ne ho,intercalate_cons_ne (by simp [ho])]
      exact (List.prefix_append_right_inj w).mpr (cons_prefix_cons.mpr ⟨rfl,ih⟩)

theorem intercalate_ends (before run : List (List α)) : [sep].intercalate run <:+ [sep].intercalate (before++run) := by
  induction before with
  | nil => exact List.suffix_refl _
  | cons v before ih =>
    by_cases hn : before ++ run = []
    · rw [(List.append_eq_nil_iff.mp hn).2]
      exact List.nil_suffix
    · rw [cons_append,intercalate_cons_ne hn]
      exact ih.trans ((List.suffix_cons _ _).trans (suffix_append _ _))

theorem intercalate_infix {run vs : List (List α)} (h : run <:+: vs) : [sep].intercalate run <:+: [sep].intercalate vs := by
  obtain ⟨before,after,rfl⟩ := h
  exact (intercalate_ends before run).isInfix.trans (intercalate_begins (before++run) after).isInfix

theorem exists_of_mem_right {β γ : Type} {R : β → γ → Prop} {ws : List β} {run : List γ} (h : Forall₂ R ws run) :
    ∀ v ∈ run, ∃ w ∈ ws, R w v := by
  induction h with
  | nil => simp
  | cons hf _ ih =>
    intro v hv
    rcases mem_cons.mp hv with rfl | hv
    · exact ⟨_,List.mem_cons_self,hf⟩
    · obtain ⟨w,hw,hwv⟩ := ih v hv
      exact ⟨w,List.mem_cons_of_mem _ hw,hwv⟩

theorem infix_flatMap {f : α → List α} {l xs : List α} (h : l <:+: xs) : l.flatMap f <:+: xs.flatMap f := by
  obtain ⟨before,after,rfl⟩ := h
  exact ⟨before.flatMap f,after.flatMap f,by rw [List.flatMap_append,List.flatMap_append]⟩

end Occurrences

end Words

/-! Texts that say where they end: such a text is told from whatever follows it. -/

namespace Delimited

variable {α γ : Type}

/-- What is printed is told from what follows it. -/
def Delimits (print : α → List γ) : Prop :=
  ∀ ⦃a b : α⦄ ⦃rest rest' : List γ⦄, print a ++ rest = print b ++ rest' → a = b ∧ rest = rest'

variable {print : α → List γ}

theorem delimits_of_read {read : List γ → Option (α × List γ)} (h : ∀ a rest, read (print a++rest) = some (a, rest)) :
    Delimits print := by
  intro a b rest rest' hq
  have hr := h a rest
  rw [hq,h b rest'] at hr
  obtain ⟨hb,he⟩ := Prod.mk.inj (Option.some.inj hr)
  exact ⟨hb.symm,he.symm⟩

theorem Delimits.cons (h : Delimits print) (c : γ) : Delimits (fun a => c::print a) :=
  fun _ _ _ _ he => h (List.cons.inj he).2

/-- Texts up to a mark with which none of them begins. -/
theorem Delimits.many {stop : γ} (h : Delimits print) (hs : ∀ a rest rest', print a++rest ≠ stop::rest') :
    Delimits (fun as : List α => as.flatMap print++[stop]) := by
  intro as
  induction as with
  | nil =>
    intro bs rest rest' he
    cases bs with
    | nil => exact ⟨rfl,(List.cons.inj he).2⟩
    | cons b bs =>
      refine absurd ?_ (hs b (bs.flatMap print++[stop]++rest') rest)
      simpa using he.symm
  | cons a as ih =>
    intro bs rest rest' he
    cases bs with
    | nil =>
      refine absurd ?_ (hs a (as.flatMap print++[stop]++rest) rest')
      simpa using he
    | cons b bs =>
      have hp : print a ++ (as.flatMap print++[stop]++rest) = print b ++ (bs.flatMap print++[stop]++rest') := by
        simpa using he
      obtain ⟨rfl,ht⟩ := h hp
      obtain ⟨rfl,hr⟩ := ih ht
      exact ⟨rfl,hr⟩

end Delimited
