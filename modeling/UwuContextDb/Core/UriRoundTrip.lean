import UwuContextDb.Core.UriQuery
import UwuContextDb.Library.Words
import Mathlib.Logic.Equiv.Nat

/-! When a `uwu://` address is read back from its own text, over every chain of operations that build one. -/

namespace UwuContextDb

open StateMachine

namespace UriInner

open ContextUri

variable {chrono : Chrono}

/-- A path element that is read back as one: what `splitPath` makes of text. -/
def GoodSegment (seg : String) : Prop := seg ≠ "" ∧ '/' ∉ seg.toList ∧ '?' ∉ seg.toList

/-- `parse(uri.to_string())` gives the address back. -/
def RoundTrips (chrono : Chrono) (u : UriInner) : Prop := fromString chrono u.canonical = .ok u

inductive Op
  | join (seg : String)
  | parent
  | withQuery (q : QueryParams)
  | withoutQuery

def step (chrono : Chrono) (u : UriInner) : Op → UriInner
  | .join seg => u.join seg
  | .parent => u.parent.getD u
  | .withQuery q => u.withQuery chrono q
  | .withoutQuery => u.withoutQuery chrono

def Survives (chrono : Chrono) (u : UriInner) : Op → Prop
  | .join seg => GoodSegment seg ∧ '?' ∉ u.canonical.toList
  | .withQuery q => q.Printable chrono
  | _ => True

theorem splitQuery_of_not_mem {rest : List Char} (h : '?' ∉ rest) : splitQuery rest = (rest, none) := by
  have ha := bne_of_not_mem h
  have hd := @List.dropWhile_append_of_pos _ _ rest [] ha
  have ht := @List.takeWhile_append_of_pos _ _ rest [] ha
  rw [List.append_nil] at hd ht
  unfold splitQuery
  rw [hd,ht]
  simp

theorem splitQuery_append {before : List Char} (h : '?' ∉ before) (after : List Char) :
    splitQuery (before ++ '?'::after) = (before, some after) := by
  have ha := bne_of_not_mem h
  have hd : (before ++ '?'::after).dropWhile (· != '?') = '?'::after := by
    rw [List.dropWhile_append_of_pos ha]
    rfl
  have ht : (before ++ '?'::after).takeWhile (· != '?') = before := by
    rw [List.takeWhile_append_of_pos ha]
    simp
  unfold splitQuery
  rw [hd,ht]

theorem splitPath_append (xs ys : List Char) : splitPath (xs ++ '/'::ys) = splitPath xs ++ splitPath ys := by
  unfold splitPath
  rw [List.splitOn_append_cons_self,List.filter_append,List.map_append]

theorem splitPath_segment {seg : String} (h : GoodSegment seg) : splitPath seg.toList = [seg] := by
  have hn : seg.toList.isEmpty = false := by simpa using h.1
  unfold splitPath
  rw [List.splitOn_eq_singleton h.2.1]
  simp [hn]

theorem goodSegment_of_mem {xs : List Char} (hx : '?' ∉ xs) {seg : String} (h : seg ∈ splitPath xs) : GoodSegment seg := by
  unfold splitPath at h
  obtain ⟨l,hl,rfl⟩ := List.mem_map.mp h
  obtain ⟨hs,he⟩ := List.mem_filter.mp hl
  have hp := mem_splitOn hs
  refine ⟨fun hq => ?_,by simpa using hp.1,by simpa using fun hm => hx (hp.2.subset hm)⟩
  have hn : l = [] := by simpa using congrArg String.toList hq
  simp [hn] at he

theorem splitPath_slashes (xs : List Char) {slashes : List Char} (h : ∀ c ∈ slashes, c = '/') :
    splitPath (xs++slashes) = splitPath xs := by
  induction slashes generalizing xs with
  | nil => rw [List.append_nil]
  | cons c slashes ih =>
    rw [List.forall_mem_cons] at h
    obtain ⟨rfl,hr⟩ := h
    have hn := ih [] hr
    rw [List.nil_append] at hn
    rw [splitPath_append,hn]
    exact List.append_nil _

theorem splitPath_intercalate {segs : List String} (h : ∀ seg ∈ segs, GoodSegment seg) (hn : segs ≠ []) :
    splitPath ("/".intercalate segs).toList = segs := by
  have he : ∀ l ∈ segs.map String.toList, '/' ∉ l := by
    intro l hl
    obtain ⟨seg,hs,rfl⟩ := List.mem_map.mp hl
    exact (h seg hs).2.1
  have hk : (segs.map String.toList).filter (fun seg => !seg.isEmpty) = segs.map String.toList := by
    rw [List.filter_eq_self]
    intro l hl
    obtain ⟨seg,hs,rfl⟩ := List.mem_map.mp hl
    simpa using (h seg hs).1
  have ht : ("/".intercalate segs).toList = ['/'].intercalate (segs.map String.toList) := by
    rw [String.toList_intercalate]
    rfl
  unfold splitPath
  rw [ht,List.splitOn_intercalate '/' he (by simpa using hn),hk,List.map_map]
  simp

theorem trimEnd_spec (s : String) :
    ∃ slashes, (∀ c ∈ slashes, c = '/') ∧ s.toList = (trimEndMatches '/' s).toList ++ slashes := by
  refine ⟨(s.toList.reverse.takeWhile (· == '/')).reverse,fun c hc => ?_,?_⟩
  · have ha := List.all_takeWhile (p := (· == '/')) (l := s.toList.reverse)
    simpa using List.all_eq_true.mp ha c (List.mem_reverse.mp hc)
  · have hs := congrArg List.reverse (@List.takeWhile_append_dropWhile _ (· == '/') s.toList.reverse)
    rw [List.reverse_append,List.reverse_reverse] at hs
    unfold trimEndMatches
    rw [String.toList_ofList,hs]

theorem splitQuery_fst (rest : List Char) : (splitQuery rest).1 = rest.takeWhile (· != '?') := by
  unfold splitQuery
  split <;> rfl

theorem not_mem_splitQuery (rest : List Char) : '?' ∉ (splitQuery rest).1 := by
  rw [splitQuery_fst]
  intro hm
  have ha := List.all_takeWhile (p := (· != '?')) (l := rest)
  simpa using List.all_eq_true.mp ha '?' hm

/-- The address is what its text says: `rest` is the text after the scheme. -/
structure Spelled (chrono : Chrono) (u : UriInner) (rest : List Char) : Prop where
  canonical : u.canonical.toList = scheme.toList ++ rest
  path : splitPath (splitQuery rest).1 = u.path
  tenant : u.path.head? = some u.tenant
  query : u.query = (splitQuery rest).2.bind (QueryParams.parse chrono)

theorem fromString_canonical {s : String} {u : UriInner} (h : fromString chrono s = .ok u) : u.canonical = s := by
  unfold fromString at h
  split at h
  · dsimp only at h
    split at h
    · cases h
    · split at h
      · cases h
      · cases h
        rfl
  · cases h

theorem roundTrips_iff {u : UriInner} : u.RoundTrips chrono ↔ ∃ rest, Spelled chrono u rest := by
  constructor
  · intro h
    unfold RoundTrips fromString at h
    split at h
    · rename_i hs
      obtain ⟨rest,hr⟩ := List.isPrefixOf_iff_prefix.mp hs
      have hd : u.canonical.toList.drop scheme.length = rest := by
        rw [← hr]
        exact List.drop_left' rfl
      dsimp only at h
      rw [hd] at h
      split at h
      · cases h
      · split at h
        · cases h
        · rename_i tenant path hp
          have hu := Except.ok.inj h
          refine ⟨rest,hr.symm,?_,?_,?_⟩
          · rw [hp,← hu]
          · rw [← hu]
            rfl
          · rw [← hu]
    · cases h
  · rintro ⟨rest,hc,hp,ht,hq⟩
    have hs : scheme.toList.isPrefixOf u.canonical.toList = true := List.isPrefixOf_iff_prefix.mpr ⟨rest,hc.symm⟩
    have hd : u.canonical.toList.drop scheme.length = rest := by
      rw [hc]
      exact List.drop_left' rfl
    have hn : rest.isEmpty = false := by
      cases rest with
      | nil =>
        rw [← hp] at ht
        cases ht
      | cons c rest => rfl
    unfold RoundTrips fromString
    rw [if_pos hs]
    dsimp only
    rw [hd,hn,hp,← hq]
    obtain ⟨tenant,path,query,canonical⟩ := u
    cases path with
    | nil => cases ht
    | cons first path =>
      obtain rfl : first = tenant := by simpa using ht
      rfl

section Steps

variable {u : UriInner} {rest : List Char}

theorem Spelled.goodSegment (h : Spelled chrono u rest) {seg : String} (hs : seg ∈ u.path) : GoodSegment seg := by
  rw [← h.path] at hs
  exact goodSegment_of_mem (not_mem_splitQuery rest) hs

theorem Spelled.path_ne_nil (h : Spelled chrono u rest) : u.path ≠ [] := by
  intro hn
  have ht := h.tenant
  rw [hn] at ht
  cases ht

theorem Spelled.join_canonical (h : Spelled chrono u rest) (seg : String) :
    ∃ kept slashes, (∀ c ∈ slashes, c = '/') ∧ rest = kept ++ slashes ∧
      (u.join seg).canonical.toList = scheme.toList ++ (kept ++ '/'::seg.toList) := by
  obtain ⟨slashes,hs,hp⟩ := trimEnd_spec u.canonical
  rw [h.canonical,List.append_eq_append_iff] at hp
  obtain ⟨kept,hk,hr⟩ : ∃ kept, (trimEndMatches '/' u.canonical).toList = scheme.toList ++ kept ∧
      rest = kept ++ slashes := by
    rcases hp with ⟨kept,hk,hr⟩ | ⟨more,hh,hm⟩
    · exact ⟨kept,hk,hr⟩
    · exfalso
      have ha : ∀ c ∈ rest, c = '/' := fun c hc => hs c (by rw [hm]; exact List.mem_append_right _ hc)
      have ho : '?' ∉ rest := fun he => absurd (ha '?' he) (by decide)
      have ht := h.path
      rw [splitQuery_of_not_mem ho] at ht
      have hn := splitPath_slashes [] ha
      rw [List.nil_append] at hn
      exact h.path_ne_nil (ht.symm.trans hn)
  refine ⟨kept,slashes,hs,hr,?_⟩
  show (trimEndMatches '/' u.canonical ++ "/" ++ seg).toList = _
  rw [String.toList_append,String.toList_append,hk,List.append_assoc,List.append_assoc]
  rfl

theorem Spelled.rest_eq {rest' : List Char} (h : Spelled chrono u rest)
    (hc : u.canonical.toList = scheme.toList++rest') :
    rest = rest' := List.append_cancel_left (h.canonical.symm.trans hc)

theorem Spelled.question (h : Spelled chrono u rest) : '?' ∉ u.canonical.toList ↔ '?' ∉ rest := by
  have hs : '?' ∉ scheme.toList := by decide
  rw [h.canonical,List.mem_append,not_or]
  exact ⟨And.right,fun hn => ⟨hs,hn⟩⟩

theorem Spelled.join (h : Spelled chrono u rest) (seg : String) :
    (u.join seg).RoundTrips chrono ↔ GoodSegment seg ∧ '?' ∉ u.canonical.toList := by
  obtain ⟨kept,slashes,hl,hr,hc⟩ := h.join_canonical seg
  rw [h.question,roundTrips_iff]
  constructor
  · rintro ⟨rest',hs⟩
    obtain rfl := hs.rest_eq hc
    have hg : GoodSegment seg := hs.goodSegment (List.mem_append_right _ List.mem_cons_self)
    refine ⟨hg,fun hm => ?_⟩
    have hk : '?' ∈ kept := by
      rw [hr,List.mem_append] at hm
      exact hm.resolve_right (fun hi => absurd (hl '?' hi) (by decide))
    obtain ⟨before,after,hsp,hb⟩ := List.eq_append_cons_of_mem hk
    have hq : none = (splitQuery (kept ++ '/'::seg.toList)).2.bind (QueryParams.parse chrono) := hs.query
    rw [hsp,List.append_assoc,List.cons_append,splitQuery_append hb] at hq
    simp [QueryParams.parse] at hq
  · rintro ⟨hg,ho⟩
    have hk : '?' ∉ kept := fun hm => ho (by rw [hr]; exact List.mem_append_left _ hm)
    have hn : '?' ∉ kept ++ '/'::seg.toList := by
      rw [List.mem_append,List.mem_cons,not_or,not_or]
      exact ⟨hk,by decide,hg.2.2⟩
    have hp := h.path
    rw [splitQuery_of_not_mem ho,hr,splitPath_slashes kept hl] at hp
    refine ⟨_,hc,?_,?_,?_⟩
    · rw [splitQuery_of_not_mem hn,splitPath_append,hp,splitPath_segment hg]
      rfl
    · show (u.path++[seg]).head? = some u.tenant
      rw [List.head?_append,h.tenant]
      rfl
    · rw [splitQuery_of_not_mem hn]
      rfl

theorem Spelled.parent (h : Spelled chrono u rest) : (u.parent.getD u).RoundTrips chrono := by
  unfold UriInner.parent
  split
  · exact roundTrips_iff.mpr ⟨rest,h⟩
  · rename_i he
    have hg : ∀ seg ∈ u.path.dropLast, GoodSegment seg := fun seg hs => h.goodSegment (u.path.dropLast_subset hs)
    have hne : u.path.dropLast ≠ [] := by
      intro hi
      have hz := congrArg List.length hi
      rw [List.length_dropLast,List.length_nil] at hz
      omega
    have hn : '?' ∉ ("/".intercalate u.path.dropLast).toList := by
      rw [String.toList_intercalate]
      refine Words.not_mem_intercalate (by decide) (fun l hl => ?_)
      obtain ⟨seg,hs,rfl⟩ := List.mem_map.mp hl
      exact (hg seg hs).2.2
    refine roundTrips_iff.mpr ⟨("/".intercalate u.path.dropLast).toList,?_,?_,?_,?_⟩
    · exact String.toList_append
    · rw [splitQuery_of_not_mem hn]
      exact splitPath_intercalate hg hne
    · show u.path.dropLast.head? = some (u.path.headD "")
      cases hp : u.path with
      | nil => exact absurd hp h.path_ne_nil
      | cons first path =>
        cases path with
        | nil => simp [hp] at he
        | cons second path => rfl
    · rw [splitQuery_of_not_mem hn]
      rfl

theorem Spelled.base (h : Spelled chrono u rest) : u.base.toList = scheme.toList ++ (splitQuery rest).1 := by
  have ha : ∀ c ∈ scheme.toList, (c != '?') = true := List.all_eq_true.mp (by decide)
  unfold UriInner.base
  rw [String.toList_ofList,h.canonical,List.takeWhile_append_of_pos ha,splitQuery_fst]

theorem Spelled.withQuery (hh : chrono.Documented) (h : Spelled chrono u rest) (q : QueryParams) :
    (u.withQuery chrono q).RoundTrips chrono ↔ q.Printable chrono := by
  have hc : (u.withQuery chrono q).canonical.toList =
      scheme.toList ++ ((splitQuery rest).1 ++ '?'::(q.toText chrono).toList) := by
    show (u.base ++ "?" ++ q.toText chrono).toList = _
    rw [String.toList_append,String.toList_append,h.base,List.append_assoc,List.append_assoc]
    rfl
  have hs := splitQuery_append (not_mem_splitQuery rest) (q.toText chrono).toList
  rw [← QueryParams.parse_toText_iff hh,roundTrips_iff]
  constructor
  · rintro ⟨rest',hp⟩
    obtain rfl := hp.rest_eq hc
    have hq := hp.query
    rw [hs] at hq
    exact hq.symm
  · intro hr
    refine ⟨_,hc,?_,h.tenant,?_⟩
    · rw [hs]
      exact h.path
    · rw [hs]
      exact hr.symm

theorem Spelled.withoutQuery (h : Spelled chrono u rest) : (u.withoutQuery chrono).RoundTrips chrono := by
  unfold UriInner.withoutQuery
  split
  · exact roundTrips_iff.mpr ⟨rest,h⟩
  · split
    · rename_i uri hp
      unfold RoundTrips
      rw [fromString_canonical hp]
      exact hp
    · exact roundTrips_iff.mpr ⟨rest,h⟩

theorem step_roundTrips (hc : chrono.Documented) (u : UriInner) (op : Op) (h : u.RoundTrips chrono) :
    (step chrono u op).RoundTrips chrono ↔ Survives chrono u op := by
  obtain ⟨rest,hs⟩ := roundTrips_iff.mp h
  cases op with
  | join seg => exact hs.join seg
  | parent => exact iff_of_true hs.parent trivial
  | withQuery q => exact hs.withQuery hc q
  | withoutQuery => exact iff_of_true hs.withoutQuery trivial

end Steps

inductive Source
  | parse (s : String)
  | deserialize (value : Json)

def Source.obtain (chrono : Chrono) : Source → Except ContextError UriInner
  | .parse s => fromString chrono s
  | .deserialize value => UriInner.deserialize chrono value

theorem Source.roundTrips {src : Source} {u : UriInner} (h : src.obtain chrono = .ok u) : u.RoundTrips chrono := by
  have hp : ∀ s, fromString chrono s = .ok u → u.RoundTrips chrono := by
    intro s hs
    unfold RoundTrips
    rw [fromString_canonical hs]
    exact hs
  cases src with
  | parse s => exact hp s h
  | deserialize v =>
    cases v with
    | str s => exact hp s h
    | _ => cases h

/-- Every address of a chain is read back from its text, exactly where every operation survives. -/
theorem chain_roundTrips_iff (hchrono : chrono.Documented) (source : Source) (u : UriInner)
    (h : source.obtain chrono = .ok u) (ops : List Op) :
    (∀ ops', ops' <+: ops → (run (step chrono) u ops').RoundTrips chrono) ↔
      Meets (step chrono) (Survives chrono) u ops :=
  meets_iff_invariant (step_roundTrips hchrono) (Source.roundTrips h)

def numberChrono : Chrono where
  parse s := if !s.toList.isEmpty && s.toList.all Char.isDigit then
    some (Equiv.intEquivNat.symm (Nat.ofDigitChars 10 s.toList 0)) else none
  toRfc3339 ts := (Equiv.intEquivNat ts).repr

theorem numberChrono_documented : numberChrono.Documented := by
  have hd : ∀ (ts : DateTime), ∀ c ∈ (numberChrono.toRfc3339 ts).toList, c.isDigit = true := by
    intro ts c hc
    unfold numberChrono at hc
    rw [Nat.toList_repr] at hc
    exact Nat.isDigit_of_mem_toDigits (by decide) (by decide) hc
  have hn : ∀ ts : DateTime, (numberChrono.toRfc3339 ts).toList ≠ [] := by
    intro ts
    unfold numberChrono
    rw [Nat.toList_repr]
    exact Nat.toDigits_ne_nil
  refine ⟨fun ts => ?_,fun ts he => hn ts (by rw [he]; rfl),fun ts c hc => .inl (hd ts c hc)⟩
  have ho : (!(numberChrono.toRfc3339 ts).toList.isEmpty && (numberChrono.toRfc3339 ts).toList.all Char.isDigit) =
      true := by
    rw [Bool.and_eq_true,List.all_eq_true]
    exact ⟨by simpa using hn ts,hd ts⟩
  have hv : Nat.ofDigitChars 10 (numberChrono.toRfc3339 ts).toList 0 = Equiv.intEquivNat ts := by
    unfold numberChrono
    rw [Nat.toList_repr]
    exact Nat.ofDigitChars_ten_toDigits
  show (if _ then _ else _) = some ts
  rw [if_pos ho,hv,Equiv.symm_apply_apply]

def sampleText : String := "uwu://t1/agent?level=l0"

def sampleUri : UriInner := ⟨"t1", ["t1", "agent"], some ⟨none, some .l0, none, none⟩, sampleText⟩

def sampleOps : List Op :=
  [.withoutQuery, .join "state", .withQuery ⟨some (.commit "head"), none, some "main", none⟩, .parent]

theorem chain_roundTrips_sample : Meets (step numberChrono) (Survives numberChrono) sampleUri sampleOps ∧
    ∀ ops', ops' <+: sampleOps → (run (step numberChrono) sampleUri ops').RoundTrips numberChrono := by
  have hm : Meets (step numberChrono) (Survives numberChrono) sampleUri sampleOps := by
    refine ⟨trivial, ⟨⟨by decide, by decide, by decide⟩, by decide⟩, ⟨⟨fun asOf h => ?_, fun branch h => ?_⟩, by decide⟩,
      trivial, trivial⟩
    · cases h
      exact ⟨by decide, by decide, by decide, by decide⟩
    · cases h
      exact ⟨by decide, by decide⟩
  exact ⟨hm, (chain_roundTrips_iff numberChrono_documented (.parse sampleText) sampleUri
    (by decide) sampleOps).mpr hm⟩

/-- A segment with a slash in it is read back as two. -/
theorem join_not_roundTrips : ∃ u, Source.obtain numberChrono (.parse sampleText) = .ok u ∧
    ¬ (run (step numberChrono) u [.withoutQuery, .join "a/b"]).RoundTrips numberChrono :=
  ⟨sampleUri, by decide, by unfold RoundTrips; decide⟩

end UriInner

end UwuContextDb
