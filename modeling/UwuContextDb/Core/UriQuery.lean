import UwuContextDb.Core.UriCodec

/-! When the query of an address is read back from its text. -/

namespace UwuContextDb

open String (toList_append toList)

theorem mem_splitOn {a : Char} {xs l : List Char} (h : l ∈ xs.splitOn a) : a ∉ l ∧ l.Sublist xs := by
  induction xs generalizing l with
  | nil =>
    obtain rfl : l = [] := by simpa using h
    exact ⟨List.not_mem_nil,List.Sublist.slnil⟩
  | cons x xs ih =>
    rw [List.splitOn_cons_eq_if_modifyHead] at h
    split at h
    · rcases List.mem_cons.mp h with rfl | ht
      · exact ⟨List.not_mem_nil,List.nil_sublist _⟩
      · exact ⟨(ih ht).1,(ih ht).2.cons x⟩
    · rename_i hx
      obtain ⟨first,rest,hs⟩ := List.exists_cons_of_ne_nil (List.splitOn_ne_nil a xs)
      have hf := ih (show first ∈ xs.splitOn a by rw [hs]; exact List.mem_cons_self)
      rw [hs,List.modifyHead_cons,List.mem_cons] at h
      rcases h with rfl | ht
      · refine ⟨fun hm => ?_,hf.2.cons_cons x⟩
        rcases List.mem_cons.mp hm with rfl | hi
        · simp at hx
        · exact hf.1 hi
      · have hr := ih (show l ∈ xs.splitOn a by rw [hs]; exact List.mem_cons_of_mem _ ht)
        exact ⟨hr.1,hr.2.cons x⟩

theorem bne_of_not_mem {c : Char} {l : List Char} (h : c ∉ l) : ∀ d ∈ l, (d != c) = true := by
  intro d hd
  rw [bne_iff_ne]
  rintro rfl
  exact h hd

namespace QueryParams

variable {chr : Chrono}

def AsOfPrintable (chrono : Chrono) : AsOfTime → Prop
  | .commit hash => hash ≠ "" ∧ hash ≠ "latest" ∧ '&' ∉ hash.toList ∧ chrono.parse hash = none
  | _ => True

structure Carried (chrono : Chrono) (q : QueryParams) : Prop where
  asOf : ∀ asOf, q.asOf = some asOf → AsOfPrintable chrono asOf
  branch : ∀ branch, q.branch = some branch → branch ≠ "" ∧ '&' ∉ branch.toList

structure Printable (chrono : Chrono) (q : QueryParams) : Prop extends Carried chrono q where
  nonempty : q ≠ empty

theorem splitPair {key val : List Char} (hk : '=' ∉ key) :
    (key ++ '='::val).takeWhile (· != '=') = key ∧ ((key ++ '='::val).dropWhile (· != '=')).tail = val := by
  have ha := bne_of_not_mem hk
  constructor
  · rw [List.takeWhile_append_of_pos ha]
    simp
  · rw [List.dropWhile_append_of_pos ha]
    simp

theorem parseUsize_repr (n : UInt64) : parseUsize n.toNat.repr.toList = some n := by
  have hd : ∀ c ∈ Nat.toDigits 10 n.toNat, c.isDigit = true :=
    fun c hc => Nat.isDigit_of_mem_toDigits (by decide) (by decide) hc
  have hs : (Nat.toDigits 10 n.toNat).head? ≠ .some '+' := by
    intro hh
    have hp := hd '+' (List.mem_of_mem_head? hh)
    revert hp
    decide
  have hn : (Nat.toDigits 10 n.toNat).isEmpty = false := by simp [Nat.toDigits_ne_nil]
  have hl : n.toNat < 2 ^ 64 := n.toNat_lt
  rw [Nat.toList_repr]
  unfold parseUsize
  simp only [if_neg hs,hn,Nat.ofDigitChars_ten_toDigits]
  simp only [Bool.not_false,Bool.true_and,UInt64.ofNat_toNat]
  rw [if_pos]
  rw [Bool.and_eq_true,List.all_eq_true,decide_eq_true_eq]
  exact ⟨hd,hl⟩

theorem applyPair_asOf (params : QueryParams) (val : List Char) :
    applyPair chr params ("as_of=".toList++val) = { params with asOf := some (parseAsOf chr val) } := by
  obtain ⟨hk,hv⟩ := @splitPair "as_of".toList val (by decide)
  have hp : "as_of=".toList ++ val = "as_of".toList ++ '='::val := rfl
  unfold applyPair
  simp only [hp,hk,hv,if_true]

theorem applyPair_level (params : QueryParams) (level : ContentLevel) :
    applyPair chr params ("level=".toList++(levelText level).toList) = { params with level := some level } := by
  cases level <;> rfl

theorem applyPair_branch (params : QueryParams) {branch : String} (hn : branch ≠ "") :
    applyPair chr params ("branch=".toList++branch.toList) = { params with branch := some branch } := by
  obtain ⟨hk,hv⟩ := @splitPair "branch".toList branch.toList (by decide)
  have hp : "branch=".toList ++ branch.toList = "branch".toList ++ '='::branch.toList := rfl
  have he : branch.toList.isEmpty = false := by simpa using hn
  unfold applyPair
  simp only [hp,hk,hv]
  simp [he]

theorem applyPair_limit (params : QueryParams) (n : UInt64) :
    applyPair chr params ("limit=".toList++n.toNat.repr.toList) = { params with limit := some n } := by
  obtain ⟨hk,hv⟩ := @splitPair "limit".toList n.toNat.repr.toList (by decide)
  have hp : "limit=".toList ++ n.toNat.repr.toList = "limit".toList ++ '='::n.toNat.repr.toList := rfl
  unfold applyPair
  simp only [hp,hk,hv,parseUsize_repr]
  simp

theorem parseAsOf_text (hc : chr.Documented) {asOf : AsOfTime} (h : AsOfPrintable chr asOf) :
    parseAsOf chr (asOfText chr asOf).toList = asOf := by
  cases asOf with
  | latest => simp [asOfText,parseAsOf]
  | commit hash =>
    obtain ⟨hne,ha,-,hn⟩ := h
    have hv : (hash.toList.isEmpty || hash.toList == "latest".toList) = false := by
      rw [Bool.or_eq_false_iff,beq_eq_false_iff_ne]
      exact ⟨by simpa using hne,fun he => ha (String.toList_injective he)⟩
    simp only [asOfText,parseAsOf,hv,String.ofList_toList,hn]
    rfl
  | timestamp ts =>
    have hh := hc.print_chars ts
    have ha : chr.toRfc3339 ts ≠ "latest" := by
      intro he
      have hl := hh 'l' (by rw [he]; decide)
      revert hl
      decide
    have hv : ((chr.toRfc3339 ts).toList.isEmpty || (chr.toRfc3339 ts).toList == "latest".toList) = false := by
      rw [Bool.or_eq_false_iff,beq_eq_false_iff_ne]
      exact ⟨by simpa using hc.print_ne ts,fun he => ha (String.toList_injective he)⟩
    simp only [asOfText,parseAsOf,hv,String.ofList_toList,hc.parse_print ts]
    rfl

theorem not_mem_parts (hc : chr.Documented) {q : QueryParams} (h : Printable chr q) :
    ∀ part ∈ parts chr q, '&' ∉ part.toList := by
  intro part hp
  simp only [parts,List.mem_append,List.mem_map,Option.mem_toList] at hp
  rcases hp with ((⟨asOf,hq,rfl⟩ | ⟨lvl,hq,rfl⟩) | ⟨br,hq,rfl⟩) | ⟨n,hq,rfl⟩ <;>
    rw [toList_append,List.mem_append,not_or]
  · refine ⟨by decide,?_⟩
    have hr := h.asOf asOf hq
    cases asOf with
    | latest => simp [asOfText]
    | commit hash => exact hr.2.2.1
    | timestamp ts =>
      intro hm
      have hl := hc.print_chars ts '&' hm
      revert hl
      decide
  · refine ⟨by decide,?_⟩
    cases lvl <;> decide
  · exact ⟨by decide,(h.branch br hq).2⟩
  · refine ⟨by decide,fun hm => ?_⟩
    rw [Nat.toList_repr] at hm
    have hd := Nat.isDigit_of_mem_toDigits (by decide) (by decide) hm
    revert hd
    decide

theorem foldl_parts (hc : chr.Documented) {q : QueryParams} (h : Printable chr q) :
    ((parts chr q).map toList).foldl (applyPair chr) empty = q := by
  obtain ⟨asOf,level,branch,limit⟩ := q
  have ha : ∀ params :
      QueryParams, ((asOf.toList.map (fun asOf => "as_of=" ++ asOfText chr asOf)).map toList).foldl
      (applyPair chr) params = { params with asOf := asOf.or params.asOf } := by
    intro params
    cases asOf with
    | none => rfl
    | some asOf =>
      simp only [Option.toList_some,List.map_cons,List.map_nil,List.foldl_cons,List.foldl_nil,toList_append,
        applyPair_asOf,parseAsOf_text hc (h.asOf asOf rfl),Option.some_or]
  have hl : ∀ params : QueryParams, ((level.toList.map (fun level => "level=" ++ levelText level)).map toList).foldl
      (applyPair chr) params = { params with level := level.or params.level } := by
    intro params
    cases level with
    | none => rfl
    | some level =>
      simp only [Option.toList_some,List.map_cons,List.map_nil,List.foldl_cons,List.foldl_nil,toList_append,
        applyPair_level,Option.some_or]
  have hb : ∀ params : QueryParams, ((branch.toList.map (fun branch => "branch=" ++ branch)).map toList).foldl
      (applyPair chr) params = { params with branch := branch.or params.branch } := by
    intro params
    cases branch with
    | none => rfl
    | some branch =>
      simp only [Option.toList_some,List.map_cons,List.map_nil,List.foldl_cons,List.foldl_nil,toList_append,
        applyPair_branch params (h.branch branch rfl).1,Option.some_or]
  have hi : ∀ params : QueryParams, ((limit.toList.map (fun n => "limit=" ++ n.toNat.repr)).map toList).foldl
      (applyPair chr) params = { params with limit := limit.or params.limit } := by
    intro params
    cases limit with
    | none => rfl
    | some n =>
      simp only [Option.toList_some,List.map_cons,List.map_nil,List.foldl_cons,List.foldl_nil,toList_append,
        applyPair_limit,Option.some_or]
  simp only [parts,List.map_append,List.foldl_append,ha,hl,hb,hi]
  simp [empty]

theorem parts_ne_nil {q : QueryParams} (h : q ≠ empty) : parts chr q ≠ [] := by
  intro hn
  apply h
  obtain ⟨asOf,lvl,br,lim⟩ := q
  simp only [parts,List.append_eq_nil_iff,List.map_eq_nil_iff,Option.toList_eq_nil_iff] at hn
  obtain ⟨⟨⟨rfl,rfl⟩,rfl⟩,rfl⟩ := hn
  rfl

theorem parse_toText_of_printable (hc : chr.Documented) {q : QueryParams} (h : Printable chr q) :
    parse chr (q.toText chr).toList = some q := by
  have hne : (parts chr q).map toList ≠ [] := by simpa using @parts_ne_nil chr q h.nonempty
  have he : ∀ l ∈ (parts chr q).map toList, '&' ∉ l := by
    intro l hl
    obtain ⟨part,hp,rfl⟩ := List.mem_map.mp hl
    exact not_mem_parts hc h part hp
  have ht : (q.toText chr).toList = ['&'].intercalate ((parts chr q).map toList) := by
    unfold toText
    rw [String.toList_intercalate]
    rfl
  have hs : ((q.toText chr).toList.splitOn '&').foldl (applyPair chr) empty = q := by
    rw [ht,List.splitOn_intercalate '&' he hne]
    exact foldl_parts hc h
  unfold parse
  split
  · rename_i hn
    rw [List.isEmpty_iff.mp hn] at hs
    exact absurd hs.symm h.nonempty
  · rw [hs]

theorem asOfPrintable_parseAsOf {val : List Char} (h : '&' ∉ val) : AsOfPrintable chr (parseAsOf chr val) := by
  unfold parseAsOf
  split
  · trivial
  · rename_i hv
    split
    · trivial
    · rename_i hn
      rw [Bool.or_eq_true,not_or,beq_iff_eq,List.isEmpty_iff] at hv
      refine ⟨fun he => hv.1 ?_,fun he => hv.2 ?_,by simpa using h,hn⟩
      · simpa using congrArg toList he
      · rw [← he,String.toList_ofList]

theorem carried_applyPair {params : QueryParams} {pair : List Char} (h : Carried chr params) (hp : '&' ∉ pair) :
    Carried chr (applyPair chr params pair) := by
  have hv : '&' ∉ (pair.dropWhile (· != '=')).tail :=
    fun hm => hp ((List.dropWhile_sublist _).subset (List.mem_of_mem_tail hm))
  unfold applyPair
  dsimp only
  split
  · exact ⟨fun asOf ha => by cases ha; exact asOfPrintable_parseAsOf hv,h.branch⟩
  · split
    · exact ⟨h.asOf,h.branch⟩
    · split
      · split
        · exact h
        · rename_i hn
          refine ⟨h.asOf,fun br hb => ?_⟩
          cases hb
          refine ⟨fun he => hn ?_,by simpa using hv⟩
          rw [List.isEmpty_iff]
          simpa using congrArg toList he
      · split
        · split
          · exact ⟨h.asOf,h.branch⟩
          · exact h
        · exact h

theorem parse_toText_iff (hc : chr.Documented) (q : QueryParams) :
    parse chr (q.toText chr).toList = some q ↔ Printable chr q := by
  refine ⟨fun h => ?_,parse_toText_of_printable hc⟩
  have hr : Carried chr q := by
    have hf : ∀ (pairs : List (List Char)) (params : QueryParams), (∀ pair ∈ pairs, '&' ∉ pair) → Carried chr params →
        Carried chr (pairs.foldl (applyPair chr) params) := by
      intro pairs
      induction pairs with
      | nil => exact fun params _ hp => hp
      | cons pair pairs ih =>
        intro params ha hp
        rw [List.forall_mem_cons] at ha
        exact ih _ ha.2 (carried_applyPair hp ha.1)
    unfold parse at h
    split at h
    · cases h
    · rw [← Option.some.inj h]
      have hs : Carried chr empty := by constructor <;> intro _ hn <;> cases hn
      exact hf _ _ (fun pair hpr => (mem_splitOn hpr).1) hs
  refine ⟨hr,?_⟩
  rintro rfl
  cases h

end QueryParams

end UwuContextDb
