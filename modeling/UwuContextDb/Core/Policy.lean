import Mathlib.Data.Prod.Lex
import Mathlib.Data.String.Basic
import UwuContextDb.Core.Redaction
import UwuContextDb.Library.TopRows

/-! What is executed on behalf of a request: its kind, its context, the request and the response. -/

namespace UwuContextDb

inductive ExecutionKind
  | llm
  | tool (name : String)
  | skill (name : String)
  deriving DecidableEq

structure ExecutionContext where
  tenantId : String
  actorId : String
  sessionId : Option String
  requestId : String
  kind : ExecutionKind
  attributes : List (String × String)
  deriving DecidableEq

structure ExecutionRequest where
  operation : String
  content : String
  attributes : List (String × String)
  deriving DecidableEq

structure ExecutionResponse where
  content : String
  attributes : List (String × String)
  deriving DecidableEq

def ExecutionRequest.new (operation content : String) : ExecutionRequest := ⟨operation, content, []⟩

def ExecutionResponse.new (content : String) : ExecutionResponse := ⟨content, []⟩

end UwuContextDb

/-! `RuleExecutionGate`: which rule a request selects, and what the rules do to its text and to the answer. -/

namespace UwuContextDb

open WriteSecurity

inductive PolicyEffect | allow | deny | require | rewriteRequest | rewriteResponse deriving DecidableEq

inductive PolicyStrength | soft | hard deriving DecidableEq

inductive PolicySource | persona | system | explicitUser deriving DecidableEq

structure PolicyRule where
  id : String
  effect : PolicyEffect
  strength : PolicyStrength
  source : PolicySource
  priority : ℤ
  operation : Option String
  contentContains : Option String
  replacement : Option String
  reason : String
  deriving DecidableEq

structure PolicyAudit where
  ruleId : String
  matched : Bool
  selected : Bool
  reason : String
  deriving DecidableEq

structure PolicyDecision where
  allowed : Bool
  required : Bool
  policyVersion : ℕ
  request : ExecutionRequest
  response : Option ExecutionResponse
  selectedRule : Option String
  audit : List PolicyAudit

inductive PolicyError
  | denied (rule : String)
  | requirement (rule : String)
  | evaluation (message : String)

def PolicyError.text : PolicyError → String
  | .denied rule => "execution denied by policy: " ++ rule
  | .requirement rule => "policy requirement not satisfied: " ++ rule
  | .evaluation message => "policy evaluation failed: " ++ message

/-- `str::replace`; an empty pattern is found before each character and at the end. -/
def replaceText (needle replacement text : List Char) : List Char :=
  match needle with
  | [] => replacement ++ text.flatMap (fun c => c::replacement)
  | c::rest => replace (c::rest) replacement text

namespace PolicyRule

def matches_ (rule : PolicyRule) (request : ExecutionRequest) : Bool :=
  rule.operation.all (· = request.operation) &&
    rule.contentContains.all (fun needle => contains needle.toList request.content.toList)

/-- The first component of `rank`. -/
def precedence (rule : PolicyRule) : ℕ :=
  match rule.strength, rule.effect, rule.source with
  | .hard, .deny, _ => 4
  | .hard, .require, _ => 3
  | _, _, .explicitUser => 2
  | _, _, .persona => 0
  | _, _, .system => 1

/-- The rank of `b` is no more than that of `a`: precedence, then priority, then id. -/
def outranks (a b : PolicyRule) : Prop :=
  b.precedence < a.precedence ∨ b.precedence = a.precedence ∧
    (b.priority < a.priority ∨ b.priority = a.priority ∧ ¬ a.id < b.id)

instance : DecidableRel outranks := fun a b =>
  inferInstanceAs (Decidable (b.precedence < a.precedence ∨ b.precedence = a.precedence ∧
    (b.priority < a.priority ∨ b.priority = a.priority ∧ ¬ a.id < b.id)))

def rewrite (rule : PolicyRule) (text : String) : String :=
  match rule.contentContains, rule.replacement with
  | some needle, some replacement => String.ofList (replaceText needle.toList replacement.toList text.toList)
  | _, _ => text

/-- Whether a rewriting rule finds something in a text that it replaces by something else. -/
def changes (rule : PolicyRule) (text : String) : Bool :=
  match rule.contentContains, rule.replacement with
  | some needle, some replacement => contains needle.toList text.toList && decide (needle ≠ replacement)
  | _, _ => false

end PolicyRule

structure RuleExecutionGate where
  version : ℕ
  rules : List PolicyRule

namespace RuleExecutionGate

variable (gate : RuleExecutionGate)

def selected (request : ExecutionRequest) : Option PolicyRule :=
  ((gate.rules.filter (·.matches_ request)).insertionSort PolicyRule.outranks).head?

def rewriteRequest (request : ExecutionRequest) : ExecutionRequest :=
  match gate.selected request with
  | some rule => if rule.effect = .rewriteRequest then { request with content := rule.rewrite request.content } else request
  | none => request

def decision (request : ExecutionRequest) : PolicyDecision where
  allowed := (gate.selected request).map (·.effect) ≠ some .deny
  required := (gate.selected request).map (·.effect) = some .require
  policyVersion := gate.version
  request := gate.rewriteRequest request
  response := none
  selectedRule := (gate.selected request).map (·.id)
  audit := gate.rules.map (fun rule =>
    ⟨rule.id, rule.matches_ (gate.rewriteRequest request), (gate.selected request).map (·.id) = some rule.id, rule.reason⟩)

def preflight (_ : ExecutionContext) (request : ExecutionRequest) : Except PolicyError PolicyDecision :=
  .ok (gate.decision request)

def responseRule (request : ExecutionRequest) : Option PolicyRule :=
  ((gate.rules.filter (fun rule => rule.effect = .rewriteResponse && rule.matches_ request)).insertionSort
    PolicyRule.outranks).head?

def postflight (_ : ExecutionContext) (decision : PolicyDecision) (response : ExecutionResponse) :
    Except PolicyError ExecutionResponse :=
  if !decision.allowed then .error (.denied (decision.selectedRule.getD ""))
  else
    match gate.responseRule decision.request with
    | some rule => .ok { response with content := rule.rewrite response.content }
    | none => .ok response

end RuleExecutionGate

section Rewriting

variable {needle replacement : List Char}

theorem le_length_replaceFrom (hn : needle ≠ []) (h : needle.length ≤ replacement.length) (skip : ℕ) (text : List Char) :
    text.length ≤ (replaceFrom needle replacement skip text).length + skip := by
  have hp : 0 < needle.length := List.length_pos_iff.mpr hn
  induction text generalizing skip with
  | nil => simp
  | cons c text ih =>
    cases skip with
    | succ skip =>
      have hs := ih skip
      simp only [replaceFrom,List.length_cons]
      omega
    | zero =>
      unfold replaceFrom
      split
      · have hm := ih (needle.length - 1)
        simp only [List.length_append,List.length_cons]
        omega
      · have hk := ih 0
        simp only [List.length_cons]
        omega

theorem length_replaceFrom_le (hn : needle ≠ []) (h : replacement.length ≤ needle.length) {skip : ℕ} {text : List Char}
    (hs : skip ≤ text.length) : (replaceFrom needle replacement skip text).length + skip ≤ text.length := by
  have hp : 0 < needle.length := List.length_pos_iff.mpr hn
  induction text generalizing skip with
  | nil => simpa [replaceFrom] using hs
  | cons c text ih =>
    rw [List.length_cons] at hs
    cases skip with
    | succ skip =>
      have hr := @ih skip (by omega)
      simp only [replaceFrom,List.length_cons]
      omega
    | zero =>
      unfold replaceFrom
      split
      · rename_i hm
        have hl := (List.isPrefixOf_iff_prefix.mp hm).length_le
        rw [List.length_cons] at hl
        have hr := @ih (needle.length - 1) (by omega)
        simp only [List.length_append,List.length_cons]
        omega
      · have hr := @ih 0 (by omega)
        simp only [List.length_cons]
        omega

theorem replaceFrom_self (hn : needle ≠ []) (skip : ℕ) (text : List Char) :
    replaceFrom needle needle skip text = text.drop skip := by
  have hp : 0 < needle.length := List.length_pos_iff.mpr hn
  induction text generalizing skip with
  | nil => simp [replaceFrom]
  | cons c text ih =>
    cases skip with
    | succ skip => exact ih skip
    | zero =>
      unfold replaceFrom
      split
      · rename_i hm
        obtain ⟨rest,hr⟩ := List.isPrefixOf_iff_prefix.mp hm
        have hd : text.drop (needle.length - 1) = rest := by
          have hl : (c::text).drop needle.length = rest := by rw [← hr,List.drop_left]
          rwa [← Nat.sub_add_cancel hp,List.drop_succ_cons] at hl
        rw [ih,hd,hr]
        rfl
      · rw [ih]
        rfl

theorem replaceFrom_of_not_contains {text : List Char} (h : contains needle text = false) :
    replaceFrom needle replacement 0 text = text := by
  induction text with
  | nil => rfl
  | cons c text ih =>
    have hn : ¬ needle <:+: c::text := by
      rw [← contains_iff,h]
      simp
    rw [List.infix_cons_iff,not_or] at hn
    have hr : contains needle text = false := by
      rw [← Bool.not_eq_true,contains_iff]
      exact hn.2
    rw [replaceFrom,if_neg (fun hm => hn.1 (List.isPrefixOf_iff_prefix.mp hm)),ih hr]

theorem eq_of_replaceFrom_eq (hn : needle ≠ []) {text : List Char} (hf : contains needle text = true)
    (h : replaceFrom needle replacement 0 text = text) : needle = replacement := by
  induction text with
  | nil => exact absurd (List.infix_nil.mp (contains_iff.mp hf)) hn
  | cons c text ih =>
    by_cases hm : needle.isPrefixOf (c::text) = true
    · obtain ⟨rest,hr⟩ := List.isPrefixOf_iff_prefix.mp hm
      have hi : replaceFrom needle replacement 0 (c::text) = replacement ++ replaceFrom needle replacement 0 rest := by
        cases needle with
        | nil => exact absurd rfl hn
        | cons d needle =>
          rw [List.cons_append] at hr
          obtain ⟨rfl,rfl⟩ := List.cons.inj hr
          rw [replaceFrom,if_pos hm]
          exact congrArg (replacement ++ ·) (replaceFrom_skip (d::needle) replacement needle rest)
      have hq : needle ++ rest = replacement ++ replaceFrom needle replacement 0 rest := by
        rw [← hi,h,hr]
      have hs : needle.length = replacement.length := by
        have ht := congrArg List.length hq
        rw [List.length_append,List.length_append] at ht
        rcases Nat.le_total needle.length replacement.length with he | he
        · have hr := le_length_replaceFrom hn he 0 rest
          omega
        · have hr := @length_replaceFrom_le _ _ hn he 0 rest (Nat.zero_le _)
          omega
      exact (List.append_inj hq hs).1
    · rw [replaceFrom,if_neg hm] at h
      have hl : needle <:+: text := by
        rcases List.infix_cons_iff.mp (contains_iff.mp hf) with hh | hl
        · exact absurd (List.isPrefixOf_iff_prefix.mpr hh) hm
        · exact hl
      exact ih (contains_iff.mpr hl) (List.cons.inj h).2

theorem length_le_spread (replacement text : List Char) :
    text.length ≤ (text.flatMap (fun c => c::replacement)).length := by
  induction text with
  | nil => simp
  | cons c text ih =>
    simp only [List.flatMap_cons,List.length_append,List.length_cons]
    omega

theorem replaceText_eq_self_iff (text : List Char) :
    replaceText needle replacement text = text ↔ (contains needle text && decide (needle ≠ replacement)) = false := by
  cases needle with
  | nil =>
    have hf : contains [] text = true := contains_iff.mpr List.nil_infix
    rw [hf,Bool.true_and,decide_eq_false_iff_not,not_not]
    constructor
    · intro h
      have hl := congrArg List.length h
      rw [replaceText,List.length_append] at hl
      have hs := length_le_spread replacement text
      exact (List.length_eq_zero_iff.mp (by omega)).symm
    · rintro rfl
      simp [replaceText]
  | cons c rest =>
    by_cases hf : contains (c::rest) text = true
    · rw [hf,Bool.true_and,decide_eq_false_iff_not,not_not]
      constructor
      · intro h
        exact eq_of_replaceFrom_eq (by simp) hf h
      · rintro rfl
        exact replaceFrom_self (by simp) 0 text
    · have hn := Bool.eq_false_iff.mpr hf
      rw [hn]
      exact iff_of_true (replaceFrom_of_not_contains hn) rfl

theorem PolicyRule.rewrite_eq_self_iff (rule : PolicyRule) (text : String) : rule.rewrite text = text ↔
    rule.changes text = false := by
  unfold PolicyRule.rewrite PolicyRule.changes
  split
  · rename_i needle replacement hn hr
    rw [← String.toList_inj,String.toList_ofList,replaceText_eq_self_iff]
    simp [String.toList_inj]
  · simp

end Rewriting

end UwuContextDb

/-! What a preflight decides, against the rules that match the request as it came in. -/

namespace UwuContextDb

open TopRows WriteSecurity

namespace PolicyRule

def rank (rule : PolicyRule) : ℕ ×ₗ ℤ ×ₗ String := toLex (rule.precedence, toLex (rule.priority, rule.id))

theorem outranks_iff (a b : PolicyRule) : a.outranks b ↔ b.rank ≤ a.rank := by
  unfold outranks rank
  rw [Prod.Lex.toLex_le_toLex,Prod.Lex.toLex_le_toLex,not_lt]

theorem precedence_le_of_rank_le {a b : PolicyRule} (h : b.rank ≤ a.rank) : b.precedence ≤ a.precedence := by
  rcases (outranks_iff a b).mpr h with hl | ⟨he,-⟩
  · exact hl.le
  · exact he.le

def hardDeny (rule : PolicyRule) : Bool := decide (rule.strength = .hard ∧ rule.effect = .deny)

theorem hardDeny_iff (rule : PolicyRule) : rule.hardDeny = true ↔ 4 ≤ rule.precedence := by
  obtain ⟨id,effect,strength,src,priority,operation,contentContains,replacement,reason⟩ := rule
  cases strength <;> cases effect <;> cases src <;> simp [hardDeny,precedence]

end PolicyRule

/-- The decision on a request: the highest rule that matches it is the selected one, the request that goes on is
matched by no hard denial, and the audit marks the rules that were ranked. -/
structure PolicyDecision.Sound (decision : PolicyDecision) (rules : List PolicyRule) (request : ExecutionRequest) :
    Prop where
  selects : (∃ rule ∈ rules, rule.matches_ request = true ∧ decision.selectedRule = some rule.id ∧
      decision.allowed = decide (rule.effect ≠ .deny) ∧ decision.required = decide (rule.effect = .require) ∧
      ∀ other ∈ rules, other.matches_ request = true → other.rank ≤ rule.rank) ∨
    (∀ rule ∈ rules, rule.matches_ request = false) ∧ decision.selectedRule = none ∧ decision.allowed = true
  denies : decision.allowed = true → ∀ rule ∈ rules, rule.hardDeny = true → rule.matches_ decision.request = false
  audits : decision.audit.map (fun entry => (entry.ruleId, entry.matched)) =
    rules.map (fun rule => (rule.id, rule.matches_ request))
  marks : ∀ id, decision.selectedRule = some id →
    ∃ entry ∈ decision.audit, entry.ruleId = id ∧ entry.selected = true ∧ entry.matched = true

namespace RuleExecutionGate

variable (gate : RuleExecutionGate) (request : ExecutionRequest)

def Leads (rule : PolicyRule) : Prop := FirstBest PolicyRule.rank (gate.rules.filter (·.matches_ request)) rule

theorem selected_iff (rule : PolicyRule) : gate.selected request = some rule ↔ gate.Leads request rule := by
  have hs : ∀ rules : List PolicyRule, rules.insertionSort PolicyRule.outranks =
      rules.insertionSort (fun a b => b.rank ≤ a.rank) := by
    intro rules
    congr!
    exact PolicyRule.outranks_iff _ _
  rw [Leads,← head?_insertionSort_iff,selected,hs]

theorem selected_none_iff : gate.selected request = none ↔ ∀ rule ∈ gate.rules, rule.matches_ request = false := by
  rw [selected,List.head?_eq_none_iff,← List.length_eq_zero_iff,List.length_insertionSort,List.length_eq_zero_iff,
    List.filter_eq_nil_iff]
  simp

variable {gate request}

theorem Leads.mem {rule : PolicyRule} (h : gate.Leads request rule) : rule ∈ gate.rules ∧ rule.matches_ request = true := by
  obtain ⟨before,after,hs,-⟩ := h
  have hm : rule ∈ gate.rules.filter (·.matches_ request) := by simp [hs]
  exact List.mem_filter.mp hm

theorem Leads.rank_le {rule other : PolicyRule} (h : gate.Leads request rule) (ho : other ∈ gate.rules)
    (hm : other.matches_ request = true) : other.rank ≤ rule.rank :=
  FirstBest.le h other (List.mem_filter.mpr ⟨ho,hm⟩)

theorem Leads.hardDeny {rule other : PolicyRule} (h : gate.Leads request rule) (ho : other ∈ gate.rules)
    (hm : other.matches_ request = true) (hd : other.hardDeny = true) : rule.hardDeny = true := by
  rw [PolicyRule.hardDeny_iff] at hd ⊢
  exact hd.trans (PolicyRule.precedence_le_of_rank_le (h.rank_le ho hm))

variable (gate request)

def RewriteKeepsMatches : Prop :=
  ∀ leader, gate.Leads request leader → leader.effect = .rewriteRequest → ∀ rule ∈ gate.rules,
    rule.matches_ { request with content := leader.rewrite request.content } = rule.matches_ request

theorem matches_rewriteRequest_iff : gate.RewriteKeepsMatches request ↔
    ∀ rule ∈ gate.rules, rule.matches_ (gate.rewriteRequest request) = rule.matches_ request := by
  unfold RewriteKeepsMatches rewriteRequest
  simp only [← selected_iff]
  cases hs : gate.selected request with
  | none => simp
  | some leader =>
    by_cases he : leader.effect = .rewriteRequest
    · simp [he]
    · simp [he]

theorem decision_selects :
    (∃ rule ∈ gate.rules, rule.matches_ request = true ∧ (gate.decision request).selectedRule = some rule.id ∧
      (gate.decision request).allowed = decide (rule.effect ≠ .deny) ∧
      (gate.decision request).required = decide (rule.effect = .require) ∧
      ∀ other ∈ gate.rules, other.matches_ request = true → other.rank ≤ rule.rank) ∨
    (∀ rule ∈ gate.rules, rule.matches_ request = false) ∧ (gate.decision request).selectedRule = none ∧
      (gate.decision request).allowed = true := by
  cases hs : gate.selected request with
  | none => exact .inr ⟨(gate.selected_none_iff request).mp hs,by simp [decision,hs],by
      simp [decision,hs]⟩
  | some rule =>
    have hl := (gate.selected_iff request rule).mp hs
    exact .inl ⟨rule,hl.mem.1,hl.mem.2,by simp [decision,hs],by simp [decision,hs],
      by simp [decision,hs],fun other ho hm => hl.rank_le ho hm⟩

theorem audit_matched_iff : (gate.decision request).audit.map (fun e => (e.ruleId, e.matched)) =
    gate.rules.map (fun rule => (rule.id, rule.matches_ request)) ↔ gate.RewriteKeepsMatches request := by
  rw [matches_rewriteRequest_iff]
  simp only [decision,List.map_map]
  rw [List.map_inj_left]
  simp

/-- A preflight is sound exactly where the rewrite changes no rule's match. -/
theorem preflight_sound_iff (ctx : ExecutionContext) : (∃ decision, gate.preflight ctx request = .ok decision ∧
    decision.Sound gate.rules request) ↔ gate.RewriteKeepsMatches request := by
  constructor
  · intro h
    obtain ⟨decision, he, ho⟩ := h
    cases he
    exact (gate.audit_matched_iff request).mp ho.audits
  · intro h
    have hk := (gate.matches_rewriteRequest_iff request).mp h
    refine ⟨gate.decision request, rfl, gate.decision_selects request, ?_, (gate.audit_matched_iff request).mpr h, ?_⟩
    · intro ha rule hr hn
      by_contra hm
      have hb : rule.matches_ request = true := by
        rw [← hk rule hr]
        simpa [decision] using hm
      cases hs : gate.selected request with
      | none => simp [(gate.selected_none_iff request).mp hs rule hr] at hb
      | some leader =>
        have hl := (gate.selected_iff request leader).mp hs
        have hd := hl.hardDeny hr hb hn
        simp only [PolicyRule.hardDeny, decide_eq_true_eq] at hd
        simp [decision, hs, hd.2] at ha
    · intro id hi
      cases hs : gate.selected request with
      | none => simp [decision, hs] at hi
      | some leader =>
        have hl := (gate.selected_iff request leader).mp hs
        obtain rfl : leader.id = id := by simpa [decision, hs] using hi
        refine ⟨_, List.mem_map.mpr ⟨leader, hl.mem.1, rfl⟩, rfl, by simp [hs], ?_⟩
        simp only [hk leader hl.mem.1, hl.mem.2]

/-- A rule turns the word that another denies out of the one that came in. -/
theorem rewrite_passes_denial :
    let mask : PolicyRule := ⟨"mask", .rewriteRequest, .soft, .system, 0, none, some "key", some "pin", "mask keys"⟩
    let stop : PolicyRule := ⟨"stop", .deny, .hard, .system, 0, none, some "pin", none, "no pins"⟩
    let ctx : ExecutionContext := ⟨"t", "a", none, "r", .tool "x", []⟩
    ¬ ∃ decision, (RuleExecutionGate.mk 1 [mask, stop]).preflight ctx (.new "run" "my key") = .ok decision ∧
      decision.Sound [mask, stop] (.new "run" "my key") := by
  intro mask stop ctx h
  obtain ⟨decision, hd, hs⟩ := h
  cases hd
  have ht : stop ∈ [mask, stop] := by simp
  have hm := hs.denies (by decide +kernel) stop ht (by decide +kernel)
  exact absurd hm (by decide +kernel)

def authorize (ctx : ExecutionContext) (request : ExecutionRequest) : Except PolicyError PolicyDecision := do
  let decision ← gate.preflight ctx request
  if decision.allowed then .ok decision else .error (.denied (decision.selectedRule.getD ""))

end RuleExecutionGate

end UwuContextDb
