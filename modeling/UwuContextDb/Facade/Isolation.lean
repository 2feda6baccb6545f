import UwuContextDb.Facade.Model

/-! Tenant isolation of the facade: the guarded calls keep it, and `retrieve` keeps it where the query does. -/

namespace UwuContextDb.Facade

open Retrieve StateMachine

def Under (scope u : ContextUri) : Prop := u.tenant = scope.tenant ∧ scope.path <+: u.path

instance (scope u : ContextUri) : Decidable (Under scope u) := inferInstanceAs (Decidable (_ ∧ _))

def Named (u : ContextUri) : Prop := InTenant u.tenant u.canonical

structure IndexPoint where
  collection : String
  uri : ContextUri
  vector : List ℚ
  payload : Json

structure Holdings (S : Type) where
  entries : S → List ContextEntry
  points : S → List IndexPoint

variable {S V : Type}

def Holdings.entriesUnder (held : Holdings S) (scope : ContextUri) (s : S) : List ContextEntry :=
  (held.entries s).filter (fun e => decide (Under scope e.uri))

def Holdings.pointsUnder (held : Holdings S) (scope : ContextUri) (s : S) : List IndexPoint :=
  (held.points s).filter (fun p => decide (Under scope p.uri))

/-- Two states with the same entries and the same index points of a tenant. -/
structure Agree (held : Holdings S) (tenant : String) (s s' : S) : Prop where
  entries : (held.entries s).filter (fun e => decide (e.uri.tenant = tenant)) =
    (held.entries s').filter (fun e => decide (e.uri.tenant = tenant))
  points : (held.points s).filter (fun p => decide (p.uri.tenant = tenant)) =
    (held.points s').filter (fun p => decide (p.uri.tenant = tenant))

structure Scoped (held : Holdings S) (parts : ContextDbParts S) : Prop where
  read_local : ∀ s s' uri, held.entriesUnder uri s = held.entriesUnder uri s' →
    ∀ level, parts.read s uri level = parts.read s' uri level
  ls_local : ∀ s s' dir, held.entriesUnder dir s = held.entriesUnder dir s' →
    ∀ page, parts.ls s dir page = parts.ls s' dir page
  ls_under : ∀ s dir page found, parts.ls s dir page = .ok found → ∀ e ∈ found.items, Under dir e.uri
  find_local : ∀ s s' pattern scope, pattern.scope = some scope → held.entriesUnder scope s = held.entriesUnder scope s' →
    ∀ page, parts.find s pattern page = parts.find s' pattern page
  find_under : ∀ s pattern scope, pattern.scope = some scope → ∀ page found, parts.find s pattern page = .ok found →
    ∀ u ∈ found.items, Under scope u
  grep_local : ∀ s s' scope, held.entriesUnder scope s = held.entriesUnder scope s' →
    ∀ pattern, parts.grep s pattern scope = parts.grep s' pattern scope
  grep_under : ∀ s pattern scope found, parts.grep s pattern scope = .ok found → ∀ hit ∈ found, Under scope hit.uri
  tree_local : ∀ s s' root, held.entriesUnder root s = held.entriesUnder root s' →
    ∀ depth page, parts.tree s root depth page = parts.tree s' root depth page
  tree_under : ∀ s root depth page found, parts.tree s root depth page = .ok found →
    ∀ u ∈ TreeNode.allUris found.items, Under root u
  scan_local : ∀ s s' text scope, ContextUri.parse text = .ok scope →
    held.entriesUnder scope s = held.entriesUnder scope s' →
    (∀ page, (parts.contentStore s).scanByPrefix text page = (parts.contentStore s').scanByPrefix text page) ∧
    ∀ ct page, (parts.contentStore s).scanByType text ct page = (parts.contentStore s').scanByType text ct page
  scan_under : ∀ s text scope, ContextUri.parse text = .ok scope → ∀ page found,
    (parts.contentStore s).scanByPrefix text page = .ok found → ∀ e ∈ found.items, Under scope e.uri
  scanByType_under : ∀ s text scope, ContextUri.parse text = .ok scope → ∀ ct page found,
    (parts.contentStore s).scanByType text ct page = .ok found → ∀ e ∈ found.items, Under scope e.uri
  search_local : ∀ s s' payload text scope, payload.uriPrefix = some text → ContextUri.parse text = .ok scope →
    held.pointsUnder scope s = held.pointsUnder scope s' → ∀ collection embedding top,
      (parts.vector s).search collection embedding top (filterJson payload) =
        (parts.vector s').search collection embedding top (filterJson payload)
  search_under : ∀ s payload text scope, payload.uriPrefix = some text → ContextUri.parse text = .ok scope →
    ∀ collection embedding top hits, (parts.vector s).search collection embedding top (filterJson payload) = .ok hits →
      ∀ h ∈ hits, Under scope h.uri ∧ Named h.uri
  restore_local : ∀ restore, parts.restoreBeforeRead = some restore → ∀ s s' uri, Agree held uri.tenant s s' →
    (∀ e, restore s uri = .error e → restore s' uri = .error e) ∧
    ∀ t, restore s uri = .ok t → ∃ t', restore s' uri = .ok t' ∧ Agree held uri.tenant t t'

/-- The calls for which the facade keeps tenants apart: all guarded ones, and the queries that name one tenant
wherever they read. -/
def Call.Confined (tenant : String) : Call → Prop
  | .retrieve query _ => query.Confined tenant
  | _ => True

def Call.Named : Call → Prop
  | .scan uriPrefix _ => Facade.Named uriPrefix
  | .scanByType uriPrefix _ _ => Facade.Named uriPrefix
  | _ => True

section Ports

variable {held : Holdings S} {parts : ContextDbParts S} {tenant : String} {s s' : S}

theorem Agree.entriesUnder (h : Agree held tenant s s') {sc : ContextUri} (hc : sc.tenant = tenant) :
    held.entriesUnder sc s = held.entriesUnder sc s' := by
  have hs : ∀ t : S, held.entriesUnder sc t =
      ((held.entries t).filter (fun e => decide (e.uri.tenant = tenant))).filter (fun e => decide (Under sc e.uri)) := by
    intro t
    rw [Holdings.entriesUnder,List.filter_filter]
    refine List.filter_congr (fun e _ => ?_)
    by_cases hu : Under sc e.uri
    · simp [hu,hu.1.trans hc]
    · simp [hu]
  rw [hs s,hs s',h.entries]

theorem Agree.pointsUnder (h : Agree held tenant s s') {sc : ContextUri} (hc : sc.tenant = tenant) :
    held.pointsUnder sc s = held.pointsUnder sc s' := by
  have hs : ∀ t : S, held.pointsUnder sc t =
      ((held.points t).filter (fun p => decide (p.uri.tenant = tenant))).filter (fun p => decide (Under sc p.uri)) := by
    intro t
    rw [Holdings.pointsUnder,List.filter_filter]
    refine List.filter_congr (fun p _ => ?_)
    by_cases hu : Under sc p.uri
    · simp [hu,hu.1.trans hc]
    · simp [hu]
  rw [hs s,hs s',h.points]

theorem servesTenant (db : ContextDb S V) (ho : Scoped held db.parts) (tenant : String) (s : S) (now : DateTime) :
    ServesTenant tenant (execContext db s now) where
  scanByPrefix := by
    rintro store hs text ⟨sc,hp,rfl⟩ page found hf e he
    cases hs
    exact (ho.scan_under s text sc hp page found hf e he).1
  scanByType := by
    rintro store hs text ⟨sc,hp,rfl⟩ ct page found hf e he
    cases hs
    exact (ho.scanByType_under s text sc hp ct page found hf e he).1
  search := by
    rintro index hi payload text ha ⟨sc,hp,rfl⟩ coll emb top hits ht h hh
    cases hi
    have hu := ho.search_under s payload text sc ha hp _ _ _ hits ht h hh
    exact ⟨hu.1.1,hu.1.1 ▸ hu.2⟩
  content_isSome := rfl
  graph_none := rfl

theorem sameFor (db : ContextDb S V) (ho : Scoped held db.parts) (h : Agree held tenant s s') (now : DateTime) :
    SameFor tenant (execContext db s now) (execContext db s' now) where
  content := by
    refine ⟨_,_,rfl,rfl,?_⟩
    rintro text ⟨sc,hp,hs⟩
    exact ho.scan_local s s' text sc hp (h.entriesUnder hs)
  index := by
    refine ⟨_,_,rfl,rfl,?_⟩
    rintro payload text ha ⟨sc,hp,hs⟩
    exact ho.search_local s s' payload text sc ha hp (h.pointsUnder hs)
  graph := ⟨rfl,rfl⟩
  now := rfl

end Ports

section Load

variable [AddCommGroup V] [LinearOrder V]

theorem uri_of_loadHits {pricing : Pricing V} {hits : List RetrievalHit} {bud : ℕ} {cfg : TokenBudgetConfig}
    {plan : BudgetLoadPlan} (h : loadHitsWithinBudget pricing hits bud cfg = .ok plan) :
    ∀ hit ∈ plan.hits, ∃ found ∈ hits, hit.uri = found.uri := by
  intro hit hm
  simp only [loadHitsWithinBudget] at h
  split at h
  · cases h
    simp at hm
  · obtain ⟨choices,-,rfl⟩ := map_eq_ok.mp h
    obtain ⟨choice,-,hl⟩ := List.mem_filterMap.mp ((List.mem_insertionSort _).mp hm)
    obtain ⟨found,hf,rfl⟩ := Option.map_eq_some_iff.mp hl
    exact ⟨found,List.mem_of_getElem? hf,rfl⟩

variable {held : Holdings S} {db : ContextDb S V} {tenant : String} {s s' : S}

theorem tenant_retrieveQuery (hp : Scoped held db.parts) {query : Query} (hq : query.Confined tenant)
    {now : DateTime} {opts : RetrieveContext} {plan : BudgetLoadPlan}
    (h : retrieveQuery db s now query opts = .ok plan) : ∀ hit ∈ plan.hits, hit.uri.tenant = tenant := by
  intro hit hm
  obtain ⟨records,hr,hl⟩ := bind_eq_ok.mp h
  obtain ⟨found,hf,hu⟩ := uri_of_loadHits hl hit hm
  have hw : (db.optimizer.optimize (queryToLogical query)).Within tenant :=
    within_optimize _ usizeMax (Query.Confined.within query hq)
  have hc : found ∈ records := mem_of_mem_sort (List.mem_of_mem_take hf)
  rw [hu]
  exact PhysicalPlan.tenant_execute (servesTenant db hp tenant s now) _ records hw hr found hc

theorem same_retrieveQuery (hp : Scoped held db.parts) (ha : Agree held tenant s s') {query : Query}
    (hq : query.Confined tenant) (now : DateTime) (options : RetrieveContext) :
    retrieveQuery db s now query options = retrieveQuery db s' now query options := by
  have hw : (db.optimizer.optimize (queryToLogical query)).Within tenant :=
    within_optimize _ usizeMax (Query.Confined.within query hq)
  have he := PhysicalPlan.same_execute (servesTenant db hp tenant s now) (sameFor db hp ha now) _ hw
  simp only [retrieveQuery,he]

end Load

section Guard

variable {ctx : RequestContext} {timing : Timing} {uri : ContextUri} {α : Type}

theorem validateUri_ok (h : validateUri ctx timing uri = .ok ()) : uri.tenant = ctx.tenantName := by
  obtain ⟨_,-,h⟩ := bind_eq_ok.mp h
  by_contra hn
  simp [hn] at h

theorem guard_ok {f : Except FacadeError α} {a : α} (h : (validateUri ctx timing uri >>= fun _ => f) = .ok a) :
    uri.tenant = ctx.tenantName ∧ f = .ok a := by
  obtain ⟨_,hg,h⟩ := bind_eq_ok.mp h
  exact ⟨validateUri_ok hg,h⟩

theorem guard_congr {f g : Except FacadeError α} (h : uri.tenant = ctx.tenantName → f = g) :
    (validateUri ctx timing uri >>= fun _ => f) = (validateUri ctx timing uri >>= fun _ => g) := by
  cases hg : validateUri ctx timing uri with
  | error e => rfl
  | ok _ => exact h (validateUri_ok hg)

variable {out : Except FacadeError Unit} {x : Except ContextError α}

theorem timed_ok {a : α} (h : timed out x = .ok a) : x = .ok a := by
  obtain ⟨_,-,h⟩ := bind_eq_ok.mp h
  cases x with
  | error e => simp [Except.mapError] at h
  | ok b =>
    cases h
    rfl

theorem map_timed_ok {β : Type} {f : α → β} {b : β}
    (h : (timed out x).map f = .ok b) : ∃ a, x = .ok a ∧ f a = b := by
  obtain ⟨a,ha,hf⟩ := map_eq_ok.mp h
  exact ⟨a,timed_ok ha,hf⟩

end Guard

section Isolation

variable [AddCommGroup V] [LinearOrder V] {held : Holdings S} {db : ContextDb S V}

/-- The answers a tenant gets tell of its own addresses only, and no other tenant's data changes them. -/
def Isolated (held : Holdings S) (db : ContextDb S V) (ctx : RequestContext) (timing : Timing) (s : S) (c : Call) : Prop :=
  (∀ ans, answer db ctx timing s c = .ok ans → ∀ u ∈ ans.told, u.tenant = ctx.tenantName) ∧
    ∀ s', Agree held ctx.tenantName s s' → answer db ctx timing s c = answer db ctx timing s' c

theorem Under.tenant {sc u : ContextUri} (h : Under sc u) {tenant : String} (hs : sc.tenant = tenant) :
    u.tenant = tenant := h.1.trans hs

theorem tenant_answer (hp : Scoped held db.parts) (ctx : RequestContext) (timing : Timing) (s : S) {c : Call}
    (hn : c.Named) (hc : c.Confined ctx.tenantName) {ans : Answer}
    (h : answer db ctx timing s c = .ok ans) : ∀ u ∈ ans.told, u.tenant = ctx.tenantName := by
  cases c with
  | read uri lvl =>
    obtain ⟨hr,h⟩ := guard_ok h
    obtain ⟨s',-,h⟩ := bind_eq_ok.mp h
    obtain ⟨_,-,h⟩ := bind_eq_ok.mp h
    obtain ⟨payload,-,rfl⟩ := map_timed_ok h
    simpa [Answer.told] using hr
  | list dir page =>
    obtain ⟨hr,h⟩ := guard_ok h
    obtain ⟨found,hf,rfl⟩ := map_timed_ok h
    intro u hu
    obtain ⟨e,he,rfl⟩ := List.mem_map.mp hu
    exact (hp.ls_under s dir page found hf e he).tenant hr
  | find pattern page =>
    cases hs : pattern.scope with
    | none => simp [answer,hs] at h
    | some sc =>
      simp only [answer,hs] at h
      obtain ⟨hr,h⟩ := guard_ok h
      obtain ⟨found,hf,rfl⟩ := map_timed_ok h
      exact fun u hu => (hp.find_under s pattern sc hs page found hf u hu).tenant hr
  | grep pattern sc =>
    obtain ⟨hr,h⟩ := guard_ok h
    obtain ⟨found,hf,rfl⟩ := map_timed_ok h
    intro u hu
    obtain ⟨hit,hh,rfl⟩ := List.mem_map.mp hu
    exact (hp.grep_under s pattern sc found hf hit hh).tenant hr
  | tree root depth page =>
    obtain ⟨hr,h⟩ := guard_ok h
    split at h
    · simp at h
    · obtain ⟨found,hf,rfl⟩ := map_timed_ok h
      exact fun u hu => (hp.tree_under s root depth page found hf u hu).tenant hr
  | scan pre page =>
    obtain ⟨hr,h⟩ := guard_ok h
    obtain ⟨found,hf,rfl⟩ := map_timed_ok h
    obtain ⟨sc,ha,hs⟩ := hn
    intro u hu
    obtain ⟨e,he,rfl⟩ := List.mem_map.mp hu
    exact (hp.scan_under s _ sc ha page found hf e he).tenant (hs.trans hr)
  | scanByType pre contentType page =>
    obtain ⟨hr,h⟩ := guard_ok h
    obtain ⟨_,-,h⟩ := bind_eq_ok.mp h
    obtain ⟨found,hf,rfl⟩ := map_timed_ok h
    obtain ⟨sc,ha,hs⟩ := hn
    intro u hu
    obtain ⟨e,he,rfl⟩ := List.mem_map.mp hu
    exact (hp.scanByType_under s _ sc ha contentType page found hf e he).tenant (hs.trans hr)
  | retrieve query opts =>
    obtain ⟨_,-,h⟩ := bind_eq_ok.mp h
    obtain ⟨_,-,h⟩ := bind_eq_ok.mp h
    obtain ⟨plan,hl,rfl⟩ := map_timed_ok h
    intro u hu
    obtain ⟨hit,hh,rfl⟩ := List.mem_map.mp hu
    exact tenant_retrieveQuery hp hc hl hit hh

omit [AddCommGroup V] [LinearOrder V] in
theorem restored_agree (hp : Scoped held db.parts) (timing : Timing) {s s' : S} (u : ContextUri)
    (ha : Agree held u.tenant s s') :
    (∃ e, restored db timing s u = .error e ∧ restored db timing s' u = .error e) ∨
      ∃ t t', restored db timing s u = .ok t ∧ restored db timing s' u = .ok t' ∧ Agree held u.tenant t t' := by
  cases he : db.parts.restoreBeforeRead with
  | none => exact Or.inr ⟨s, s', by simp only [restored, he], by simp only [restored, he], ha⟩
  | some restore =>
    have hl := hp.restore_local restore he s s' u ha
    cases hwt : timing.restore with
    | error e =>
      have hn : ∀ t, restored db timing t u = .error e := by
        intro t
        simp only [restored, he, hwt]
        rfl
      exact Or.inl ⟨e, hn s, hn s'⟩
    | ok _ =>
      have hw : ∀ t, restored db timing t u = (restore t u).mapError .context := by
        intro t
        simp only [restored, he, hwt]
        rfl
      rw [hw s, hw s']
      cases hr : restore s u with
      | error e => exact Or.inl ⟨.context e, rfl, by rw [hl.1 e hr, Except.mapError]⟩
      | ok t =>
        obtain ⟨t', ht', ha'⟩ := hl.2 t hr
        exact Or.inr ⟨t, t', rfl, by rw [ht', Except.mapError], ha'⟩

theorem same_answer (hp : Scoped held db.parts) (ctx : RequestContext) (timing : Timing) {s s' : S} {c : Call}
    (hm : c.Named) (hc : c.Confined ctx.tenantName) (ha : Agree held ctx.tenantName s s') :
    answer db ctx timing s c = answer db ctx timing s' c := by
  have hn : ∀ {sc : ContextUri}, sc.tenant = ctx.tenantName → held.entriesUnder sc s = held.entriesUnder sc s' :=
    fun hs => ha.entriesUnder hs
  cases c with
  | read uri lvl =>
    refine guard_congr (fun hu => ?_)
    rcases restored_agree hp timing uri (hu ▸ ha) with ⟨e,he,he'⟩ | ⟨t,t',ht,ht',ha'⟩
    · rw [he,he']
    · rw [ht,ht']
      show readContent db ctx timing t uri lvl = readContent db ctx timing t' uri lvl
      simp only [readContent,hp.read_local t t' uri (ha'.entriesUnder rfl)]
  | list dir page => exact guard_congr (fun hu => by rw [hp.ls_local s s' dir (hn hu)])
  | find pattern page =>
    cases hs : pattern.scope with
    | none => simp only [answer,hs]
    | some sc =>
      simp only [answer,hs]
      exact guard_congr (fun hu => by rw [hp.find_local s s' pattern sc hs (hn hu)])
  | grep pattern sc => exact guard_congr (fun hu => by rw [hp.grep_local s s' sc (hn hu)])
  | tree root depth page =>
    exact guard_congr (fun hu => by rw [hp.tree_local s s' root (hn hu)])
  | scan pre page =>
    obtain ⟨sc,hr,hs⟩ := hm
    exact guard_congr (fun hu => by rw [(hp.scan_local s s' _ sc hr (hn (hs.trans hu))).1])
  | scanByType pre contentType page =>
    obtain ⟨sc,hr,hs⟩ := hm
    refine guard_congr (fun hu => ?_)
    simp only [(hp.scan_local s s' _ sc hr (hn (hs.trans hu))).2]
  | retrieve query opts =>
    simp only [answer,same_retrieveQuery hp ha hc]

/-- Every confined call keeps tenants apart. A query that names another tenant keeps to the tenant of the request
only where it finds nothing. -/
theorem facade_isolated (hports : Scoped held db.parts) (ctx : RequestContext) (timing : Timing) (s : S) {c : Call}
    (hnamed : c.Named) :
    (c.Confined ctx.tenantName → Isolated held db ctx timing s c) ∧
      ∀ query options other ans, c = .retrieve query options → query.Confined other → other ≠ ctx.tenantName →
        answer db ctx timing s c = .ok ans → (∀ u ∈ ans.told, u.tenant = ctx.tenantName) → ans.told = [] := by
  constructor
  · intro hc
    refine ⟨fun ans h => tenant_answer hports ctx timing s hnamed hc h, fun s' ha => ?_⟩
    exact same_answer hports ctx timing hnamed hc ha
  · rintro query options other ans rfl hq ho h hl
    obtain ⟨_, -, h⟩ := bind_eq_ok.mp h
    obtain ⟨_, -, h⟩ := bind_eq_ok.mp h
    obtain ⟨plan, hp, rfl⟩ := map_timed_ok h
    refine List.eq_nil_iff_forall_not_mem.mpr (fun u hu => ?_)
    obtain ⟨hit, hh, rfl⟩ := List.mem_map.mp hu
    exact ho ((tenant_retrieveQuery hports hq hp hit hh).symm.trans (hl _ hu))

end Isolation

def listParts : ContextDbParts (List ContextEntry) where
  read es uri _ :=
    match (es.filter (fun e => decide (Under uri e.uri))).find? (fun e => decide (e.uri = uri)) with
    | some e => .ok e.payload
    | none => .error (.notFound uri.canonical)
  ls es dir page := .ok ⟨((es.filter (fun e => decide (Under dir e.uri))).take page.limit).map
    (fun e => ⟨e.uri, false, e.l0Text, e.metadata.contentType⟩), none⟩
  find es pattern page :=
    match pattern.scope with
    | some scope => .ok ⟨((es.filter (fun e => decide (Under scope e.uri))).take page.limit).map ContextEntry.uri, none⟩
    | none => .error (.unsupported "find requires a scope")
  grep es _ scope := .ok ((es.filter (fun e => decide (Under scope e.uri))).map (fun e => ⟨e.uri, e.l0Text, .l0⟩))
  tree _ _ _ _ := .ok ⟨[], none⟩
  contentStore es :=
    ⟨fun text page => (ContextUri.parse text).map (fun scope =>
        ⟨(es.filter (fun e => decide (Under scope e.uri))).take page.limit, none⟩),
      fun text ct page => (ContextUri.parse text).map (fun scope =>
        ⟨((es.filter (fun e => decide (Under scope e.uri))).filter
          (fun e => decide (e.metadata.contentType = some ct))).take page.limit, none⟩)⟩
  vector _ := ⟨fun _ _ _ _ => .ok []⟩
  restoreBeforeRead := none
  audit _ := .ok ()

def listHoldings : Holdings (List ContextEntry) := ⟨fun es => es, fun _ => []⟩

theorem listParts_scoped : Scoped listHoldings listParts where
  read_local s s' uri h level := by simp only [listParts,show s.filter _ = s'.filter _ from h]
  ls_local s s' dir h page := by simp only [listParts,show s.filter _ = s'.filter _ from h]
  ls_under s dir page found h e he := by
    cases h
    obtain ⟨entry,hn,rfl⟩ := List.mem_map.mp he
    exact of_decide_eq_true (List.mem_filter.mp (List.mem_of_mem_take hn)).2
  find_local s s' pattern sc hs h page := by simp only [listParts,hs,show s.filter _ = s'.filter _ from h]
  find_under s pattern sc hs page found h u hu := by
    simp only [listParts,hs] at h
    cases h
    obtain ⟨entry,hn,rfl⟩ := List.mem_map.mp hu
    exact of_decide_eq_true (List.mem_filter.mp (List.mem_of_mem_take hn)).2
  grep_local s s' sc h pattern := by simp only [listParts,show s.filter _ = s'.filter _ from h]
  grep_under s pattern sc found h hit hh := by
    cases h
    obtain ⟨entry,hn,rfl⟩ := List.mem_map.mp hh
    exact of_decide_eq_true (List.mem_filter.mp hn).2
  tree_local s s' root h depth page := rfl
  tree_under s root depth page found h u hu := by
    cases h
    simp [TreeNode.allUris] at hu
  scan_local s s' text sc hp h := by
    have ha : s.filter (fun e => decide (Under sc e.uri)) = s'.filter (fun e => decide (Under sc e.uri)) := h
    refine ⟨fun page => ?_,fun ct page => ?_⟩
    · simp only [listParts,hp,Except.map,ha]
    · simp only [listParts,hp,Except.map,ha]
  scan_under s text sc hp page found h e he := by
    simp only [listParts,hp,Except.map] at h
    cases h
    exact of_decide_eq_true (List.mem_filter.mp (List.mem_of_mem_take he)).2
  scanByType_under s text sc hp ct page found h e he := by
    simp only [listParts,hp,Except.map] at h
    cases h
    exact of_decide_eq_true (List.mem_filter.mp (List.mem_of_mem_filter (List.mem_of_mem_take he))).2
  search_local s s' payload text sc hy hp h collection embedding top := rfl
  search_under s payload text sc hy hp collection embedding top hits h found hf := by
    cases h
    simp at hf
  restore_local restore hr := by cases hr

def listDb : ContextDb (List ContextEntry) ℤ where
  config := ⟨8, 256⟩
  parts := listParts
  optimizer := Stack.plainOptimizer
  pricing := ⟨fun _ => .ok 1, fun _ _ _ => 1⟩

def inTime : Timing := ⟨.ok (), .ok (), .ok (), 0⟩

def noteUri (tenant : String) : ContextUri := ⟨tenant, [tenant, "m"], none, "uwu://" ++ tenant ++ "/m"⟩

def twoTenants : List ContextEntry :=
  [ContextEntry.newText (noteUri "a") 0 "a" 0, ContextEntry.newText (noteUri "b") 0 "b" 0]

def findNote (tenant : String) : Call := .retrieve (.find (some (noteUri tenant)) ⟨[]⟩ 1 .natural none) ⟨none⟩

/-- A tenant that looks for its own note is isolated. -/
theorem facade_isolated_sample :
    Isolated listHoldings listDb ⟨"a", "actor", "request"⟩ inTime twoTenants (findNote "a") := by
  have hp : InTenant "a" (noteUri "a").canonical := ⟨noteUri "a", by decide, rfl⟩
  exact (facade_isolated listParts_scoped ⟨"a", "actor", "request"⟩ inTime twoTenants (c := findNote "a") trivial).1
    ⟨noteUri "a", rfl, hp⟩

/-- A tenant that looks for the other tenant's note is given it. -/
theorem retrieve_crosses_tenants :
    ¬ Isolated listHoldings listDb ⟨"a", "actor", "request"⟩ inTime twoTenants (findNote "b") := by
  have ht : (answer listDb ⟨"a", "actor", "request"⟩ inTime twoTenants (findNote "b")).map
      (fun ans => ans.told.map ContextUri.tenant) = .ok ["b"] := by decide +kernel
  obtain ⟨ans, ha, he⟩ := map_eq_ok.mp ht
  intro h
  obtain ⟨u, hu, hb⟩ : ∃ u ∈ ans.told, u.tenant = "b" := List.mem_map.mp (he ▸ List.mem_cons_self)
  exact absurd (hb.symm.trans (h.1 ans ha u hu)) (by decide)

end UwuContextDb.Facade
