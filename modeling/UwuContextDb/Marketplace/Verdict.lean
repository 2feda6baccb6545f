import Mathlib.Data.List.TakeWhile
import UwuContextDb.Marketplace.SecureAggregation
import UwuContextDb.Version.NeuralExtraction

/-! `parse_verdict`, and what both parsers of a model's answers make of any text. -/

namespace UwuContextDb.Marketplace

open Core Version

structure DebateVerdict (K : Type) where
  resolution : String
  reason : String
  merged : Option String
  confidence : K
  hiddenAssumptions : List String
  deriving DecidableEq

/-- What the verdict takes from the floats of both widths: `as_f64`, `is_finite`, `as f32`. -/
structure VerdictFloats (F K : Type) where
  asF64 : Number → F
  isFinite : F → Bool
  asF32 : F → K

/-- `as f32` rounds. -/
structure VerdictFloats.Documented {F K : Type} [LE F] [Zero F] [One F] [LE K] [Zero K] [One K]
    (floats : VerdictFloats F K) : Prop where
  monotone : ∀ x y, x ≤ y → floats.asF32 x ≤ floats.asF32 y
  zero : floats.asF32 0 = 0
  one : floats.asF32 1 = 1

/-- What `serde_json::from_str` reads in a text: any value, and an extraction. -/
structure AnswerReaders (K : Type) where
  value : List Char → Option Json
  extraction : List Char → Option (RawNeuralBeliefExtraction K)

structure AnswerReaders.Documented {K : Type} (readers : AnswerReaders K) : Prop where
  value_blanks : SkipsBlanks readers.value
  extraction_blanks : SkipsBlanks readers.extraction
  object : ∀ text fields, readers.value text = some (.obj fields) → InBraces text

section Parsers

variable {F K : Type} [LinearOrder F] [Zero F] [One F]
variable (floats : VerdictFloats F K) (readers : AnswerReaders K) (isAlphanumeric : Char → Bool)

def confidenceOf (value : Json) : Option K :=
  match value.get? "confidence" with
  | some (.num n) =>
    if !floats.isFinite (floats.asF64 n) || !decide (0 ≤ floats.asF64 n ∧ floats.asF64 n ≤ 1) then none
    else some (floats.asF32 (floats.asF64 n))
  | _ => none

/-- What `parse_verdict` makes of a value. -/
def verdictOf (value : Json) : Option (DebateVerdict K) := do
  let resolution ← (value.get? "resolution").bind Json.asString
  let confidence ← confidenceOf floats value
  return {
    resolution := resolution.map Char.toLower
    reason := ((value.get? "reason").bind Json.asString).getD "debate judged"
    merged := (value.get? "merged").bind Json.asString
    confidence := confidence
    hiddenAssumptions := (((value.get? "hidden_assumptions").bind Json.asList).map (·.filterMap Json.asString)).getD [] }

/-- `parse_verdict`; none where it panics. -/
def parseVerdict (raw : List Char) : Option (Option (DebateVerdict K)) :=
  (fromAnswer readers.value raw).map (·.bind (verdictOf floats))

def IsVerdict (value : Json) : Prop :=
  (∃ resolution, value.get? "resolution" = some (.str resolution)) ∧
  ∃ n, value.get? "confidence" = some (.num n) ∧ floats.isFinite (floats.asF64 n) = true ∧
    0 ≤ floats.asF64 n ∧ floats.asF64 n ≤ 1

def Surrounds (raw before object after : List Char) : Prop :=
  raw = before ++ object ++ after ∧ BraceFree before ∧ BraceFree after ∧ ∃ fields, readers.value object = some (.obj fields)

variable {floats readers isAlphanumeric}

variable {value : Json}

theorem get?_of_not_object (h : value.isObject = false) (key : String) : value.get? key = none := by
  cases value <;> first | rfl | cases h

theorem confidenceOf_isSome_iff : (confidenceOf floats value).isSome ↔
    ∃ n, value.get? "confidence" = some (.num n) ∧ floats.isFinite (floats.asF64 n) = true ∧
      0 ≤ floats.asF64 n ∧ floats.asF64 n ≤ 1 := by
  unfold confidenceOf
  cases value.get? "confidence" with
  | none => simp
  | some confidence =>
    cases confidence with
    | num n =>
      simp
    | _ => simp

theorem verdictOf_isSome_iff : (verdictOf floats value).isSome ↔ IsVerdict floats value := by
  unfold verdictOf IsVerdict
  rw [← confidenceOf_isSome_iff]
  cases value.get? "resolution" with
  | none => simp
  | some resolution => cases resolution <;> cases confidenceOf floats value <;> simp [Json.asString]

theorem verdictOf_not_object (h : value.isObject = false) : verdictOf floats value = none := by
  rw [verdictOf,get?_of_not_object h]
  rfl

variable [LinearOrder K] [Zero K] [One K]

variable (readers) in
/-- A parser returns; what it returns has its confidence in the unit interval; and it makes the same of a text around an
object as of the object. -/
structure Parses {R : Type} (confidence : R → K) (parse : List Char → Option (Option R)) (raw : List Char) : Prop where
  total : parse raw ≠ none
  bounded : ∀ result, parse raw = some (some result) → 0 ≤ confidence result ∧ confidence result ≤ 1
  prose : ∀ before object after, Surrounds readers raw before object after → parse raw = parse object

theorem verdictOf_confidence (hf : floats.Documented) {verdict : DebateVerdict K}
    (h : verdictOf floats value = some verdict) : 0 ≤ verdict.confidence ∧ verdict.confidence ≤ 1 := by
  unfold verdictOf confidenceOf at h
  obtain ⟨resolution,-,h⟩ := Option.bind_eq_some_iff.mp h
  obtain ⟨confidence,hc,h⟩ := Option.bind_eq_some_iff.mp h
  obtain rfl := Option.some.inj h
  cases hv : value.get? "confidence" with
  | none => simp [hv] at hc
  | some field =>
    cases field with
    | num n =>
      rw [hv] at hc
      dsimp only at hc
      split_ifs at hc with hr
      obtain rfl := Option.some.inj hc
      simp only [Bool.or_eq_true,Bool.not_eq_true',decide_eq_false_iff_not,not_or,not_not] at hr
      have hl := hf.monotone 0 _ hr.2.1
      have hh := hf.monotone _ 1 hr.2.2
      rw [hf.zero] at hl
      rw [hf.one] at hh
      exact ⟨hl,hh⟩
    | _ => simp [hv] at hc

theorem verdict_parses_iff (hl : floats.Documented) (he : readers.Documented) (raw : List Char) :
    Parses readers DebateVerdict.confidence (parseVerdict floats readers) raw ↔
      (readers.value raw = none → ¬ Crossed raw) ∧
      ∀ value, readers.value raw = some value → value.isObject = false → ∀ before object after fs,
        Surrounds readers raw before object after → readers.value object = some (.obj fs) →
        ¬ IsVerdict floats (.obj fs) := by
  constructor
  · rintro ⟨ht,-,hp⟩
    refine ⟨fun hn hc => ht ?_,?_⟩
    · rw [parseVerdict,fromAnswer_eq_none_iff.mpr ⟨hn,hc⟩]
      rfl
    · intro value hv hk before object after fs hu ho hve
      have hs := hp before object after hu
      rw [parseVerdict,parseVerdict,fromAnswer_of_some hv,fromAnswer_of_some ho] at hs
      have hn : verdictOf floats (.obj fs) = none := by
        simpa [verdictOf_not_object hk] using hs.symm
      rw [← verdictOf_isSome_iff,hn] at hve
      cases hve
  · rintro ⟨hc,hh⟩
    refine ⟨fun hn => ?_,fun result hre => ?_,?_⟩
    · obtain ⟨hd,hcr⟩ := fromAnswer_eq_none_iff.mp (Option.map_eq_none_iff.mp hn)
      exact hc hd hcr
    · obtain ⟨read,-,hd⟩ := Option.map_eq_some_iff.mp hre
      obtain ⟨value,-,hv⟩ := Option.bind_eq_some_iff.mp hd
      exact verdictOf_confidence hl hv
    · rintro before object after ⟨rfl,hf,ha,fs,ho⟩
      have hbr := he.object object fs ho
      unfold parseVerdict
      cases hr : readers.value (before++object++after) with
      | none =>
        rw [fromAnswer_around he.value_blanks hbr hf ha hr,fromAnswer_object he.value_blanks hbr]
      | some value =>
        rw [fromAnswer_of_some hr,fromAnswer_of_some ho]
        cases hk : value.isObject with
        | true =>
          -- the whole text is that object between blanks
          obtain ⟨others,rfl⟩ : ∃ others, value = .obj others := by
            cases value <;> first | exact ⟨_,rfl⟩ | cases hk
          obtain ⟨hb,hb'⟩ := hbr.blank_around hf ha (he.object _ _ hr)
          rw [he.value_blanks before object after hb hb',ho] at hr
          rw [hr]
        | false =>
          have hno := hh value hr hk before object after fs ⟨rfl,hf,ha,fs,ho⟩ ho
          rw [← verdictOf_isSome_iff,Option.not_isSome_iff_eq_none] at hno
          rw [Option.map_some,Option.map_some,Option.bind_some,Option.bind_some,verdictOf_not_object hk,hno]

theorem extraction_parses_iff [ZeroLEOneClass K] (hr : readers.Documented) (raw : List Char) :
    Parses readers NeuralBeliefExtraction.confidence (parseNeuralExtraction isAlphanumeric readers.extraction) raw ↔
      (readers.extraction raw = none → ¬ Crossed raw) ∧
      ∀ json, readers.extraction raw = some json → ∀ before object after, Surrounds readers raw before object after →
        ¬ (JsonBlank before ∧ JsonBlank after) → json.Alike isAlphanumeric (readers.extraction object) := by
  have hbj : ∀ before object after, Surrounds readers raw before object after →
      parseNeuralExtraction isAlphanumeric readers.extraction object =
        some ((readers.extraction object).bind (·.extraction isAlphanumeric)) := by
    rintro before object after ⟨-,-,-,fs,ho⟩
    rw [parseNeuralExtraction,fromAnswer_object hr.extraction_blanks (hr.object object fs ho),Option.map_some]
  constructor
  · rintro ⟨ht,-,hp⟩
    refine ⟨fun hn hc => ht ?_,?_⟩
    · rw [parseNeuralExtraction,fromAnswer_eq_none_iff.mpr ⟨hn,hc⟩]
      rfl
    · intro json hj before object after hs _
      have hm := hp before object after hs
      rw [hbj before object after hs,parseNeuralExtraction,fromAnswer_of_some hj] at hm
      exact alike_iff.mpr (Option.some.inj hm)
  · rintro ⟨hc,hh⟩
    refine ⟨fun hn => ?_,fun result hre => ?_,?_⟩
    · obtain ⟨hd,hcr⟩ := fromAnswer_eq_none_iff.mp (Option.map_eq_none_iff.mp hn)
      exact hc hd hcr
    · obtain ⟨read,-,hd⟩ := Option.map_eq_some_iff.mp hre
      obtain ⟨json,-,hj⟩ := Option.bind_eq_some_iff.mp hd
      exact extraction_confidence hj
    · intro before object after hs
      rw [hbj before object after hs]
      obtain ⟨rfl,he,hf,fs,ho⟩ := hs
      have hbr := hr.object object fs ho
      unfold parseNeuralExtraction
      cases ha : readers.extraction (before++object++after) with
      | none => rw [fromAnswer_around hr.extraction_blanks hbr he hf ha,Option.map_some]
      | some json =>
        rw [fromAnswer_of_some ha,Option.map_some,Option.bind_some]
        by_cases hb : JsonBlank before ∧ JsonBlank after
        · rw [hr.extraction_blanks before object after hb.1 hb.2] at ha
          rw [ha,Option.bind_some]
        · rw [alike_iff.mp (hh json ha before object after ⟨rfl,he,hf,fs,ho⟩ hb)]

/-- Both parsers return, with a bounded confidence, and read the object out of the prose, exactly if the text is read as a
whole or its braces are not crossed, and no other JSON value around the object is read in place of it. -/
theorem model_answer_iff [ZeroLEOneClass K] (hfloats : floats.Documented) (hreaders : readers.Documented)
    (raw : List Char) :
    (Parses readers DebateVerdict.confidence (parseVerdict floats readers) raw ↔
      (readers.value raw = none → ¬ Crossed raw) ∧
      ∀ value, readers.value raw = some value → value.isObject = false → ∀ before object after fields,
        Surrounds readers raw before object after → readers.value object = some (.obj fields) →
        ¬ IsVerdict floats (.obj fields)) ∧
    (Parses readers NeuralBeliefExtraction.confidence (parseNeuralExtraction isAlphanumeric readers.extraction) raw ↔
      (readers.extraction raw = none → ¬ Crossed raw) ∧
      ∀ json, readers.extraction raw = some json → ∀ before object after, Surrounds readers raw before object after →
        ¬ (JsonBlank before ∧ JsonBlank after) → json.Alike isAlphanumeric (readers.extraction object)) :=
  ⟨verdict_parses_iff hfloats hreaders raw, extraction_parses_iff hreaders raw⟩

end Parsers

def exactFloats : VerdictFloats ℚ ℚ where
  asF64
    | .int n => n
    | .float q => q
  isFinite _ := true
  asF32 q := q

def sampleObject : List Char := "\x7b\"confidence\":1,\"resolution\":\"defer\"\x7d".toList

def sampleBody : List Char := "\"confidence\":1,\"resolution\":\"defer\"".toList

theorem sampleObject_eq : sampleObject = '{'::(sampleBody++['}']) := by decide

def isJsonBlank (c : Char) : Bool := [' ', '\t', '\n', '\r'].contains c

def sampleReaders : AnswerReaders ℚ where
  value text :=
    if WriteSecurity.trimMatches isJsonBlank text = sampleObject then
      some (.obj [("confidence", .num (.int 1)), ("resolution", .str "defer")])
    else none
  extraction _ := none

theorem sampleReaders_documented : sampleReaders.Documented := by
  refine ⟨fun before text after hb ha => ?_,fun _ _ _ _ _ => rfl,fun text fs h => ?_⟩
  · have hl : ∀ {text : List Char}, JsonBlank text → ∀ c ∈ text, isJsonBlank c = true :=
      fun h c hc => List.contains_iff_mem.mpr (h c hc)
    have ht : WriteSecurity.trimMatches isJsonBlank (before++text++after) =
        WriteSecurity.trimMatches isJsonBlank text := by
      by_cases ho : text.dropWhile isJsonBlank = []
      · have hal : (before++text++after).dropWhile isJsonBlank = [] := by
          rw [List.dropWhile_eq_nil_iff] at ho ⊢
          simp only [List.mem_append]
          rintro c ((hc | hc) | hc)
          · exact hl hb c hc
          · exact ho c hc
          · exact hl ha c hc
        rw [WriteSecurity.trimMatches,WriteSecurity.trimMatches,hal,ho]
      · exact WriteSecurity.trimMatches_around (hl hb) (hl ha) ho
    simp only [sampleReaders,ht]
  · obtain ⟨before,after,hs,hb,ha⟩ := @WriteSecurity.trimMatches_spec isJsonBlank text
    have hj : WriteSecurity.trimMatches isJsonBlank text = sampleObject := by
      by_contra hn
      simp [sampleReaders,hn] at h
    refine ⟨before,sampleBody,after,
      fun c hc => List.contains_iff_mem.mp (hb c hc),fun c hc => List.contains_iff_mem.mp (ha c hc),?_⟩
    rw [hj,sampleObject_eq] at hs
    simpa using hs

theorem exactFloats_documented : exactFloats.Documented := ⟨fun _ _ h => h,rfl,rfl⟩

theorem model_answer_sample :
    let raw := "Verdict: ".toList ++ sampleObject ++ ", done.".toList
    Parses sampleReaders DebateVerdict.confidence (parseVerdict exactFloats sampleReaders) raw ∧
    Parses sampleReaders NeuralBeliefExtraction.confidence
      (parseNeuralExtraction Char.isAlphanum sampleReaders.extraction) raw := by
  have hc : ¬ Crossed ("Verdict: ".toList ++ sampleObject ++ ", done.".toList) := by
    rw [← extractJsonObject_eq_none_iff]
    decide
  have hv : sampleReaders.value ("Verdict: ".toList ++ sampleObject ++ ", done.".toList) = none := by decide
  have h := @model_answer_iff ℚ ℚ _ _ _ exactFloats sampleReaders Char.isAlphanum _ _ _ _ exactFloats_documented
    sampleReaders_documented ("Verdict: ".toList ++ sampleObject ++ ", done.".toList)
  refine ⟨h.1.mpr ⟨fun _ => hc, fun value hs => ?_⟩, h.2.mpr ⟨fun _ => hc, fun json hs => ?_⟩⟩
  · rw [hv] at hs
    cases hs
  · cases hs

/-- A closing brace, a blank and an opening brace. -/
theorem crossed_braces_panic : let raw := "\x7d \x7b".toList
    parseVerdict exactFloats sampleReaders raw = none ∧
    parseNeuralExtraction Char.isAlphanum sampleReaders.extraction raw = none := by
  refine ⟨Option.map_eq_none_iff.mpr ?_, Option.map_eq_none_iff.mpr ?_⟩
  · decide
  · decide

end UwuContextDb.Marketplace
