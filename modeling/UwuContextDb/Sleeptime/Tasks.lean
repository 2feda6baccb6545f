import UwuContextDb.Core.WriteSecurity

/-! The tasks of a sleeptime pass: what each of them makes of the entries of a batch. -/

namespace UwuContextDb.Sleeptime

open WriteSecurity (setCustomField)

inductive SleeptimeTask
  | qualityReassessment | consistencyCheck | entanglementDetection | ignoranceMapUpdate | calibrationUpdate
  | contextRotPrune | backwardEvolve | spacedRepetitionReview | cascadeInvalidation | knowledgeHealthDiagnosis
  | activeConsistencyGuard | activeLearningLoop | embeddingDriftDetection | curiosityExploration
  deriving DecidableEq

inductive QualityRoute
  | keepInShortTerm | boostForCurrentTask | compressToMidTerm | promoteToLongTerm | keepLongTerm | rehearse
  | revalidate | demoteRetrievalRank | markSuperseded | archive | forgetShortTerm | forgetCandidate
  | includeInTraining | excludeFromTraining
  deriving DecidableEq

/-- What `reassess` gives to the writing; `overall` is that of the posterior. -/
structure QualityReassessmentOutcome where
  overall : ℚ
  route : QualityRoute
  shouldWriteback : Bool

inductive ReviewAction | rehearse | revalidate | forgetCandidate

structure ReviewTask where
  uri : ContextUri
  action : ReviewAction

inductive CascadeInvalidationAction | revalidate | invalidate deriving DecidableEq

structure CascadeInvalidationTask where
  uri : ContextUri
  triggerUri : ContextUri
  action : CascadeInvalidationAction
  reason : String
  appliedAt : DateTime

inductive HealthRepairAction | revalidate | strengthenEvidence | cascadeRepair | demoteRetrieval

structure NodeHealth where
  uri : ContextUri
  action : HealthRepairAction
  json : Json

inductive ConsistencyRepairAction | revalidateBoth | invalidateWeaker | keepBothContextual

structure ConsistencyGuardTask where
  uriA : ContextUri
  uriB : ContextUri
  action : ConsistencyRepairAction
  reason : String
  json : Json

inductive ActiveLearningAction | localQuery | federatedDiscovery | userVerification | rehearsalProbe

structure ActiveLearningTask where
  targetUri : ContextUri
  action : ActiveLearningAction
  json : Json

inductive EmbeddingDriftAction | observe | rebuildIndex | retrainReranker

structure EmbeddingDriftReport where
  sampleSize : ℕ
  psi : ℚ
  centroidShift : ℚ
  normKl : ℚ
  action : EmbeddingDriftAction
  snapshot : Option Json

inductive CuriosityAction | localSearch | federatedDiscovery | stormSynthesis | userVerification

structure CuriosityTask where
  targetUri : ContextUri
  action : CuriosityAction
  json : Json

/-- What the planners decide when a task asks them: they compute with floats, and may ask the graph, the signals or a
language model. A new job has its id from `newId`, and `now` is the clock reading of the guardian. -/
structure Planners where
  now : DateTime
  newId : ContextUri → Uuid
  reassess : ContextEntry → Except ContextError QualityReassessmentOutcome
  check : List ContextEntry → Except ContextError ℕ
  entangled : ContextUri → ℕ
  blindSpots : ℕ
  labeledSamples : ℕ
  review : List ContextEntry → List ReviewTask
  cascade : List ContextEntry → ContextUri → List CascadeInvalidationTask
  diagnose : List ContextEntry → Except ContextError (List NodeHealth)
  guard : List ContextEntry → List ConsistencyGuardTask
  learn : List ContextEntry → List ActiveLearningTask
  drift : List ContextEntry → EmbeddingDriftReport
  explore : List ContextEntry → List CuriosityTask

def pushTag (tags : List String) (tag : String) : List String := if tag ∈ tags then tags else tags ++ [tag]

def tagged (entry : ContextEntry) (tag : String) : ContextEntry :=
  { entry with metadata := { entry.metadata with tags := pushTag entry.metadata.tags tag } }

def withTag (entry : ContextEntry) (tag : String) : ContextEntry :=
  { entry with metadata := { entry.metadata with tags := entry.metadata.tags ++ [tag] } }

def withField (entry : ContextEntry) (key : String) (value : Json) : ContextEntry :=
  { entry with metadata := setCustomField entry.metadata key value }

/-- `tag.starts_with(label)`, of some tag. -/
def hasTag (label : String) (entry : ContextEntry) : Bool :=
  entry.metadata.tags.any (fun tag => label.toList.isPrefixOf tag.toList)

def lastFor {α : Type} (uriOf : α → ContextUri) (tasks : List α) (uri : ContextUri) : Option α :=
  tasks.reverse.find? (fun task => uriOf task = uri)

def QualityRoute.archives : QualityRoute → Bool
  | .archive | .forgetCandidate | .forgetShortTerm => true
  | _ => false

def QualityRoute.promotesLong : QualityRoute → Bool
  | .promoteToLongTerm | .includeInTraining => true
  | _ => false

/-- The copy of an entry that `QualityReassessment` writes. -/
def reassessed (entry : ContextEntry) (outcome : QualityReassessmentOutcome) : ContextEntry :=
  let updated := { entry with metadata := { entry.metadata with qualityScore := some outcome.overall } }
  match outcome.route with
  | .compressToMidTerm => { updated with metadata := { updated.metadata with stateScope := some .mid } }
  | .promoteToLongTerm | .includeInTraining =>
    { updated with metadata := { updated.metadata with stateScope := some .long } }
  | .archive | .forgetCandidate | .forgetShortTerm => withTag updated "quality:archive-candidate"
  | .rehearse => withTag updated "quality:rehearse"
  | .revalidate => withTag updated "quality:revalidate"
  | .excludeFromTraining => withTag updated "quality:exclude-training"
  | _ => updated

def ReviewAction.text : ReviewAction → String
  | .rehearse => "rehearse"
  | .revalidate => "revalidate"
  | .forgetCandidate => "forget-candidate"

/-- The copy of an entry that `SpacedRepetitionReview` writes. -/
def reviewed (tasks : List ReviewTask) (entry : ContextEntry) : Option ContextEntry :=
  (lastFor (·.uri) tasks entry.uri).map (fun task => withTag entry ("quality:review:" ++ task.action.text))

/-- `apply_to_entries`, on one entry. -/
def cascaded (tasks : List CascadeInvalidationTask) (entry : ContextEntry) : ContextEntry :=
  match lastFor (·.uri) tasks entry.uri with
  | none => entry
  | some task =>
    match task.action with
    | .invalidate =>
      let validity := ⟨entry.createdAt, some task.appliedAt, some task.triggerUri, some task.reason⟩
      withTag { entry with metadata := { entry.metadata with validity := some validity } } "cascade:invalidated"
    | .revalidate => withTag entry "cascade:revalidate"

/-- `metadata.validity.valid_until.is_some()`. -/
def isInvalidated (entry : ContextEntry) : Bool := (entry.metadata.validity.bind (·.validUntil)).isSome

def cascade (plan : ContextUri → List CascadeInvalidationTask) (entries : List ContextEntry) : List ContextEntry :=
  (entries.filter isInvalidated).foldl (fun mutable entry => mutable.map (cascaded (plan entry.uri))) entries

def HealthRepairAction.tag : HealthRepairAction → String
  | .revalidate => "health:revalidate"
  | .strengthenEvidence => "health:strengthen-evidence"
  | .cascadeRepair => "health:cascade-repair"
  | .demoteRetrieval => "health:demote-retrieval"

/-- `apply_repairs`, on one entry. -/
def repaired (issues : List NodeHealth) (entry : ContextEntry) : ContextEntry :=
  match lastFor (·.uri) issues entry.uri with
  | none => entry
  | some issue => withField (tagged (tagged entry "health:diagnosed") issue.action.tag) "knowledge_health" issue.json

/-- The place that `by_uri` has for a URI. -/
def indexOf (entries : List ContextEntry) (uri : ContextUri) : Option ℕ :=
  (entries.zipIdx.reverse.find? (fun entry => entry.1.uri = uri)).map (·.2)

/-- `metadata.quality_score.unwrap_or(0.5)`. -/
def quality (entry : ContextEntry) : ℚ := entry.metadata.qualityScore.getD (1 / 2)

def qualityAt (entries : List ContextEntry) (i : ℕ) : ℚ := ((entries[i]?).map quality).getD 0

def guarded (task : ConsistencyGuardTask) (tag : String) (entry : ContextEntry) : ContextEntry :=
  withField (tagged entry tag) "consistency_guard" task.json

def invalidatedBy (task : ConsistencyGuardTask) (now : DateTime) (stronger : ContextUri)
    (entry : ContextEntry) : ContextEntry :=
  let validity := ⟨entry.createdAt, some now, some stronger, some task.reason⟩
  guarded task "consistency:auto-invalidated" { entry with metadata := { entry.metadata with validity := some validity } }

/-- `ActiveConsistencyGuardian::apply` for one task: the entries, and the places that it has touched. -/
def guardTask (now : DateTime) (state : List ContextEntry × List ℕ) (task : ConsistencyGuardTask) :
    List ContextEntry × List ℕ :=
  match indexOf state.1 task.uriA, indexOf state.1 task.uriB with
  | some a, some b =>
    let both := fun tag => ((state.1.modify a (guarded task tag)).modify b (guarded task tag), state.2 ++ [a, b])
    match task.action with
    | .invalidateWeaker =>
      let weaker := if qualityAt state.1 a ≤ qualityAt state.1 b then a else b
      let stronger := if weaker = a then task.uriB else task.uriA
      (state.1.modify weaker (invalidatedBy task now stronger), state.2 ++ [weaker])
    | .revalidateBoth => both "consistency:revalidate"
    | .keepBothContextual => both "consistency:contextual-conflict"
  | _, _ => state

/-- `ActiveConsistencyGuardian::apply`. -/
def guardAll (now : DateTime) (tasks : List ConsistencyGuardTask) (entries : List ContextEntry) :
    List ContextEntry × List ℕ :=
  tasks.foldl (guardTask now) (entries, [])

/-- What `ActiveConsistencyGuard` writes back. -/
def guardKeeps (entry : ContextEntry) : Bool :=
  hasTag "consistency:" entry || hasTag "cascade:" entry || hasTag "health:" entry || entry.metadata.validity.isSome

/-- `action_tag`. -/
def ActiveLearningAction.tag : ActiveLearningAction → String
  | .localQuery => "active-learning:local-query"
  | .federatedDiscovery => "active-learning:federated-discovery"
  | .userVerification => "active-learning:user-verification"
  | .rehearsalProbe => "active-learning:rehearsal-probe"

/-- `curiosity_tag`. -/
def CuriosityAction.tag : CuriosityAction → String
  | .localSearch => "curiosity:local-search"
  | .federatedDiscovery => "curiosity:federated-discovery"
  | .stormSynthesis => "curiosity:storm-synthesis"
  | .userVerification => "curiosity:user-verification"

/-- `apply_tasks` on one entry: the tags of its tasks, and all of them under a key. -/
def applied (planned key : String) (tasks : List (String × Json)) (entry : ContextEntry) : ContextEntry :=
  if tasks.isEmpty then entry
    else withField ((tasks.map Prod.fst).foldl tagged (tagged entry planned)) key (.arr (tasks.map Prod.snd))

/-- The tasks that `ActiveLearningLoop::apply_tasks` has for an entry. -/
def learningFor (tasks : List ActiveLearningTask) (entry : ContextEntry) : List (String × Json) :=
  (tasks.filter (fun task => task.targetUri = entry.uri)).map (fun task => (task.action.tag, task.json))

/-- `ActiveLearningLoop::apply_tasks`, on one entry. -/
def learned (tasks : List ActiveLearningTask) (entry : ContextEntry) : ContextEntry :=
  applied "active-learning:planned" "active_learning" (learningFor tasks entry) entry

/-- The tasks that `CuriosityExplorer::apply_tasks` has for an entry. -/
def curiosityFor (tasks : List CuriosityTask) (entry : ContextEntry) : List (String × Json) :=
  (tasks.filter (fun task => task.targetUri = entry.uri)).map (fun task => (task.action.tag, task.json))

/-- `CuriosityExplorer::apply_tasks`, on one entry. -/
def explored (tasks : List CuriosityTask) (entry : ContextEntry) : ContextEntry :=
  applied "curiosity:planned" "curiosity_tasks" (curiosityFor tasks entry) entry

def EmbeddingDriftAction.tag : EmbeddingDriftAction → String
  | .observe => "embedding-drift:observe"
  | .rebuildIndex => "embedding-drift:rebuild-index"
  | .retrainReranker => "embedding-drift:retrain-reranker"

/-- `EmbeddingDriftMonitor::apply`: it changes the first entry only. -/
def drifted (report : EmbeddingDriftReport) (entries : List ContextEntry) : List ContextEntry :=
  match report.snapshot with
  | none => entries
  | some snapshot => entries.modify 0 (fun entry =>
      tagged (tagged (withField entry "embedding_snapshot" snapshot) "embedding-drift:baseline") report.action.tag)

end UwuContextDb.Sleeptime
