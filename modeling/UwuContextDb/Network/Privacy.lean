import Mathlib.Algebra.Order.Field.Basic
import Std.Data.ExtTreeMap
import UwuContextDb.Core.DebugText
import UwuContextDb.Core.Model

/-! Differential privacy of federated queries: the cost of a query, and the ledger that reserves it.
Numbers are those of an ordered field. -/

namespace UwuContextDb.Network

open Text

abbrev AgentId := String

inductive KnowledgeNetworkError
  | privacyBudgetExhausted (message : String)
  | policyDenied (message : String)
  | transport (message : String)
  | planner (message : String)
  deriving DecidableEq

def KnowledgeNetworkError.text : KnowledgeNetworkError → String
  | .privacyBudgetExhausted message => s!"privacy budget exhausted: {message}"
  | .policyDenied message => s!"policy denied: {message}"
  | .transport message => s!"transport: {message}"
  | .planner message => s!"planner: {message}"

/-- What the accounting takes from the standard library: two functions of numbers, and `format!` with `{:.4}`. -/
structure Floats (K : Type) where
  ln : K → K
  sqrt : K → K
  fixed4 : WithTop K → String

inductive DpMechanismKind | gaussian | laplace deriving DecidableEq

structure DpPolicy (K : Type) where
  enabled : Bool
  queryEpsilon : K
  responseEpsilon : K
  relayEpsilon : K
  delta : K
  clipNorm : K
  projectedDims : ℕ
  minKAnonymity : ℕ

section Numerals

-- Every module finds these numerals of a field by name.
scoped instance two_atLeastTwo : Nat.AtLeastTwo 2 := ⟨by decide⟩
scoped instance three_atLeastTwo : Nat.AtLeastTwo 3 := ⟨by decide⟩
scoped instance four_atLeastTwo : Nat.AtLeastTwo 4 := ⟨by decide⟩
scoped instance five_atLeastTwo : Nat.AtLeastTwo 5 := ⟨by decide⟩
scoped instance seven_atLeastTwo : Nat.AtLeastTwo 7 := ⟨by decide⟩
scoped instance ten_atLeastTwo : Nat.AtLeastTwo 10 := ⟨by decide⟩
scoped instance twenty_atLeastTwo : Nat.AtLeastTwo 20 := ⟨by decide⟩
scoped instance twentyFive_atLeastTwo : Nat.AtLeastTwo 25 := ⟨by decide⟩

end Numerals

section Charges

variable {K : Type} [Field K] [LinearOrder K]

structure RdpCharge (K : Type) where
  orders : List K
  epsilons : List K

def rdpOrders : List K := [5 / 4, 3 / 2, 2, 3, 5, 8, 16, 32]

namespace RdpCharge

def gaussian (sensitivity sigma : K) : RdpCharge K :=
  let sigma := max sigma (1 / 10 ^ 12)
  let sensitivitySq := max sensitivity 0 ^ 2
  ⟨rdpOrders, rdpOrders.map (fun alpha => alpha * sensitivitySq / (2 * sigma ^ 2))⟩

def laplace (epsilon : K) : RdpCharge K := ⟨rdpOrders, List.replicate 8 (max epsilon 0)⟩

def zero : RdpCharge K := ⟨rdpOrders, List.replicate 8 0⟩

/-- The ε of the charge at `delta`, the least over its orders. -/
def epsilonDelta (floats : Floats K) (charge : RdpCharge K) (delta : K) : WithTop K :=
  let logDelta := floats.ln (1 / max delta (1 / 10 ^ 300))
  (((charge.orders.zip charge.epsilons).filter (fun pair => decide (1 < pair.1))).map
    (fun pair => pair.2 + logDelta / (pair.1 - 1))).foldl (fun least epsilon => min least (epsilon : WithTop K)) ⊤

/-- `iter_mut().zip(..)`: what has no partner stays. -/
def updateEach (f : K → K → K) : List K → List K → List K
  | left::lefts, right::rights => f left right :: updateEach f lefts rights
  | lefts, _ => lefts

def addAssign (charge other : RdpCharge K) : RdpCharge K :=
  if charge.orders ≠ other.orders then charge
  else { charge with epsilons := updateEach (· + ·) charge.epsilons other.epsilons }

def subAssign (charge other : RdpCharge K) : RdpCharge K :=
  if charge.orders ≠ other.orders then charge
  else { charge with epsilons := updateEach (fun left right => max (left - right) 0) charge.epsilons other.epsilons }

/-- The charge at the order of place `i`. -/
def charged (charge : RdpCharge K) (i : ℕ) : K := charge.epsilons.getD i 0

structure Proper (charge : RdpCharge K) : Prop where
  orders : charge.orders = rdpOrders
  length : charge.epsilons.length = 8
  nonneg : ∀ epsilon ∈ charge.epsilons, 0 ≤ epsilon

end RdpCharge

structure PrivacyCost (K : Type) where
  queryEpsilon : K
  responseEpsilon : K
  relayEpsilon : K
  delta : K
  mechanism : DpMechanismKind
  clipNorm : K
  noiseSigma : K
  rdp : RdpCharge K

def gaussianSigma (floats : Floats K) (epsilon delta sensitivity : K) : K :=
  let epsilon := max epsilon (1 / 10 ^ 6)
  let delta := min (max delta (1 / 10 ^ 12)) (999999 / 10 ^ 6)
  let sensitivity := max sensitivity (1 / 10 ^ 6)
  sensitivity * floats.sqrt (2 * floats.ln (5 / 4 / delta)) / epsilon

def PrivacyCost.forQuery (floats : Floats K) (policy : DpPolicy K) : PrivacyCost K :=
  let sigma := gaussianSigma floats policy.queryEpsilon policy.delta policy.clipNorm
  let rdp := if policy.enabled then
      ((RdpCharge.gaussian policy.clipNorm sigma).addAssign (RdpCharge.laplace policy.responseEpsilon)).addAssign
        (RdpCharge.laplace policy.relayEpsilon)
    else RdpCharge.zero
  ⟨policy.queryEpsilon, policy.responseEpsilon, policy.relayEpsilon, policy.delta, .gaussian, policy.clipNorm, sigma, rdp⟩

end Charges

inductive BudgetScope
  | query
  | peer (agent : AgentId)
  | domain (name : String)
  | path (text : String)
  deriving DecidableEq

/-- `{:?}` of a scope. -/
def BudgetScope.debug (unprinted : Char → Bool) : BudgetScope → List Char
  | .query => ['Q', 'u', 'e', 'r', 'y']
  | .peer agent => debugAround unprinted "Peer(AgentId(" agent "))"
  | .domain name => debugAround unprinted "Domain(" name ")"
  | .path text => debugAround unprinted "Path(" text ")"

structure PrivacyReceipt (K : Type) where
  id : Uuid
  actor : AgentId
  scope : BudgetScope
  cost : PrivacyCost K
  reservedAt : DateTime
  committedAt : Option DateTime

structure BudgetWindow (K : Type) where
  startedAt : DateTime
  rdpSpent : RdpCharge K
  reserved : List (Uuid × PrivacyCost K)
  committed : List Uuid

structure LedgerConfig (K : Type) where
  maxEpsilonPerWindow : K
  maxDeltaPerWindow : K
  window : Int
  floats : Floats K
  unprinted : Char → Bool

/-- The windows by the text of their actor and scope. `Uuid::new_v4` gives an id that was not given before: `nextId`. -/
structure InMemoryPrivacyBudgetLedger (K : Type) where
  windows : Std.ExtTreeMap String (BudgetWindow K)
  nextId : Uuid

namespace InMemoryPrivacyBudgetLedger

variable {K : Type} [Field K] [LinearOrder K] (config : LedgerConfig K) (ledger : InMemoryPrivacyBudgetLedger K)

def empty : InMemoryPrivacyBudgetLedger K := ⟨∅, 0⟩

def key (actor : AgentId) (scope : BudgetScope) : String :=
  String.ofList (actor.toList ++ "::".toList ++ scope.debug config.unprinted)

def windowOf (actor : AgentId) (scope : BudgetScope) : Option (BudgetWindow K) := ledger.windows[key config actor scope]?

def BudgetWindow.fresh (startedAt : DateTime) : BudgetWindow K := ⟨startedAt, .zero, [], []⟩

def currentWindow (actor : AgentId) (scope : BudgetScope) (now : DateTime) : BudgetWindow K :=
  match ledger.windowOf config actor scope with
  | none => BudgetWindow.fresh now
  | some window => if config.window < now - window.startedAt then BudgetWindow.fresh now else window

def setWindow (actor : AgentId) (scope : BudgetScope) (window : BudgetWindow K) : InMemoryPrivacyBudgetLedger K :=
  { ledger with windows := ledger.windows.insert (key config actor scope) window }

def projectedEpsilon (charge : RdpCharge K) : WithTop K := charge.epsilonDelta config.floats config.maxDeltaPerWindow

/-- `PrivacyBudgetLedger::reserve`; a window is begun also where the reservation is refused. -/
def reserve (actor : AgentId) (scope : BudgetScope) (cost : PrivacyCost K) (now : DateTime) :
    Except KnowledgeNetworkError (PrivacyReceipt K) × InMemoryPrivacyBudgetLedger K :=
  let window := ledger.currentWindow config actor scope now
  let projected := window.rdpSpent.addAssign cost.rdp
  let epsilon := projectedEpsilon config projected
  if epsilon = ⊤ ∨ (config.maxEpsilonPerWindow : WithTop K) < epsilon then
    (.error (.privacyBudgetExhausted s!"{actor} projected epsilon {config.floats.fixed4 epsilon} exceeds window {
      config.floats.fixed4 config.maxEpsilonPerWindow}"), ledger.setWindow config actor scope window)
  else
    let receipt : PrivacyReceipt K := ⟨ledger.nextId, actor, scope, cost, now, none⟩
    let window := { window with rdpSpent := projected, reserved := window.reserved ++ [(receipt.id, cost)] }
    (.ok receipt, { ledger.setWindow config actor scope window with nextId := ledger.nextId + 1 })

def commit (receipt : PrivacyReceipt K) : Except KnowledgeNetworkError Unit × InMemoryPrivacyBudgetLedger K :=
  match ledger.windowOf config receipt.actor receipt.scope with
  | none => (.error (.privacyBudgetExhausted "unknown privacy receipt"), ledger)
  | some window =>
    if receipt.id ∉ window.reserved.map Prod.fst then
      (.error (.privacyBudgetExhausted "privacy receipt was not reserved"), ledger)
    else (.ok (), ledger.setWindow config receipt.actor receipt.scope
      { window with committed := receipt.id :: window.committed })

def refund (receipt : PrivacyReceipt K) : Except KnowledgeNetworkError Unit × InMemoryPrivacyBudgetLedger K :=
  match ledger.windowOf config receipt.actor receipt.scope with
  | none => (.ok (), ledger)
  | some window =>
    if receipt.id ∈ window.committed then (.ok (), ledger) else
      match window.reserved.find? (fun held => held.1 = receipt.id) with
      | none => (.ok (), ledger)
      | some held => (.ok (), ledger.setWindow config receipt.actor receipt.scope
          { window with
            reserved := window.reserved.filter (fun other => other.1 ≠ receipt.id)
            rdpSpent := window.rdpSpent.subAssign held.2.rdp })

inductive Op (K : Type)
  | reserve (actor : AgentId) (scope : BudgetScope) (policy : DpPolicy K) (now : DateTime)
  | commit (receipt : PrivacyReceipt K)
  | refund (receipt : PrivacyReceipt K)

def step : Op K → InMemoryPrivacyBudgetLedger K
  | .reserve actor scope policy now => (ledger.reserve config actor scope (.forQuery config.floats policy) now).2
  | .commit receipt => (ledger.commit config receipt).2
  | .refund receipt => (ledger.refund config receipt).2

end InMemoryPrivacyBudgetLedger

end UwuContextDb.Network
