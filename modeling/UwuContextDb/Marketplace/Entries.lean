import UwuContextDb.Marketplace.SecureAggregation

/-! What agents publish on the market: entries, how they are corroborated and licensed, and the metadata that stands
for an entry at other peers. -/

namespace UwuContextDb.Marketplace

abbrev MarketId := Uuid

inductive MarketEntryType | fact | skill | procedure | antibody | errorPattern deriving DecidableEq

inductive CorroborationLevel | unverified | singleSession | crossSession | crossAgent | established
  deriving DecidableEq

/-- `as u8`, which also orders the levels. -/
def CorroborationLevel.toNat : CorroborationLevel → ℕ
  | .unverified => 0
  | .singleSession => 1
  | .crossSession => 2
  | .crossAgent => 3
  | .established => 4

structure CorroborationProof where
  corroborators : List AgentId
  totalCount : ℕ
  independentSources : ℕ
  level : CorroborationLevel

def CorroborationProof.new : CorroborationProof := ⟨[], 0, 0, .unverified⟩

inductive LicenseScope | openScope | nonCommercial | tenantOnly | requiresApproval deriving DecidableEq

structure LicenseInfo where
  scope : LicenseScope
  attributionRequired : Bool
  commercialUse : Bool
  derivativeAllowed : Bool

inductive KnowledgeLicense | publicDomain | attribution | tenantOnly | requiresApproval deriving DecidableEq

/-- The licence that `market_entry_from_publication` reads off the terms. -/
def LicenseInfo.license (info : LicenseInfo) : KnowledgeLicense :=
  match info.scope with
  | .openScope => if info.attributionRequired then .attribution else .publicDomain
  | .tenantOnly => .tenantOnly
  | .nonCommercial => .requiresApproval
  | .requiresApproval => .requiresApproval

section Data

variable (F : Type)

structure MarketEntry where
  id : MarketId
  publisher : AgentId
  domain : String
  entryType : MarketEntryType
  principle : String
  evidenceUris : List ContextUri
  qualityScore : F
  confidence : F
  corroboration : CorroborationProof
  provenance : Option KnowledgeProvenance
  license : KnowledgeLicense
  epistemicType : EpistemicType
  contentType : ContentType
  halfLife : Option HalfLife
  createdAt : DateTime
  expiresAt : Option DateTime

structure PublicationMetadata where
  id : MarketId
  publisher : AgentId
  domain : String
  entryType : MarketEntryType
  sourceUri : Option ContextUri
  qualityScore : F
  corroboration : CorroborationProof
  provenance : Option KnowledgeProvenance
  license : LicenseInfo
  epistemicType : EpistemicType
  contentType : ContentType
  halfLife : Option HalfLife
  createdAt : DateTime
  expiresAt : Option DateTime

structure MarketIndexHit where
  uri : ContextUri
  score : F
  payload : Json

end Data

def payloadMarketId (payload : Json) : Option String := (payload.get? "market_id").bind Json.asString

def sampleEntry (id : MarketId) (publisher domain principle : String) (quality : ℚ) : MarketEntry ℚ where
  id := id
  publisher := publisher
  domain := domain
  entryType := .fact
  principle := principle
  evidenceUris := []
  qualityScore := quality
  confidence := 1
  corroboration := .new
  provenance := none
  license := .attribution
  epistemicType := .fact
  contentType := .fact
  halfLife := none
  createdAt := 0
  expiresAt := none

end UwuContextDb.Marketplace
