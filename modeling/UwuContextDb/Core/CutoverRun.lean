import UwuContextDb.Core.EmbeddingMigration

/-! Workers that share one store object: what `compare_and_swap` makes sure of in every interleaving, and what it
leaves to those who save states of their own. -/

namespace UwuContextDb.EmbeddingMigration

open StateMachine

section Pieces

def Stage.critical : Stage → Bool
  | .locked _ _ => true
  | .checked _ => true
  | .written _ => true
  | .renamed _ => true
  | _ => false

def Stage.target : Stage → Option EmbeddingMigrationState
  | .saving _ next => some next
  | .locked _ next => some next
  | .checked next => some next
  | .written next => some next
  | _ => none

def Stage.won : Stage → Option EmbeddingMigrationState
  | .renamed next => some next
  | .done (.ok next) => some next
  | _ => none

def Stage.ended : Stage → Bool
  | .done _ => true
  | .panicked => true
  | .crashed => true
  | _ => false

variable {sys : System} {i : ℕ} {w : Worker}

inductive Advances (sys : System) (i : ℕ) (w : Worker) : System → Prop
  | stay : Advances sys i w sys
  | leave (stage : Stage) (houtside : w.stage.critical = false) (hend : stage.ended = true) (hwon : stage.won = none) :
      Advances sys i w (sys.put i w stage)
  | load (id : String) (expectedGeneration : ℕ) (nextPhase : EmbeddingMigrationPhase) (next : EmbeddingMigrationState)
      (hstage : w.stage = .loading id expectedGeneration nextPhase)
      (hnext : prepareTransition (sys.files id) id expectedGeneration nextPhase = .ok next) :
      Advances sys i w (sys.put i w (.saving expectedGeneration next))
  | acquire (expectedGeneration : ℕ) (next : EmbeddingMigrationState) (hstage : w.stage = .saving expectedGeneration next)
      (hfree : sys.locks w.object = .free) :
      Advances sys i w ((sys.setLock w.object (.held i)).put i w (.locked expectedGeneration next))
  | check (expectedGeneration : ℕ) (next : EmbeddingMigrationState) (hstage : w.stage = .locked expectedGeneration next)
      (hgeneration : checkGeneration (sys.files next.id) expectedGeneration next = .ok ()) :
      Advances sys i w (sys.put i w (.checked next))
  | write (next : EmbeddingMigrationState) (hstage : w.stage = .checked next) :
      Advances sys i w ((sys.writeTemp next (some next)).put i w (.written next))
  | rename (next content : EmbeddingMigrationState) (hstage : w.stage = .written next)
      (htemp : sys.temps next.id next.generation = some content) :
      Advances sys i w ((sys.rename next content).put i w (.renamed next))
  | release (lock : Lock) (stage : Stage) (hinside : w.stage.critical = true) (hend : stage.ended = true)
      (hwon : ∀ next, stage.won = some next → w.stage = .renamed next) :
      Advances sys i w ((sys.setLock w.object lock).put i w stage)

theorem advances_advance (sys : System) (i : ℕ) (w : Worker) (failure : Option ContextError) :
    Advances sys i w (sys.advance i w failure) := by
  have ho : ∀ stage : Stage, w.stage = stage → stage.critical = false → w.stage.critical = false := by
    intro stage hs hc
    rw [hs,hc]
  have hr : ∀ err : ContextError, w.stage.critical = true → Advances sys i w (sys.finish i w (.error err)) := by
    intro err hi
    exact .release .free (.done (.error err)) hi rfl (by simp [Stage.won])
  unfold System.advance
  cases hs : w.stage with
  | loading id gen nextPhase =>
    have ht := ho _ hs rfl
    by_cases hd : validId id
    · simp only [hd,Bool.not_true,Bool.false_eq_true,if_false]
      cases failure with
      | some err => exact .leave _ ht rfl rfl
      | none =>
        cases hn : prepareTransition (sys.files id) id gen nextPhase with
        | ok next => exact .load id gen nextPhase next hs hn
        | error err => exact .leave _ ht rfl rfl
        | panic => exact .leave _ ht rfl rfl
    · simp only [hd,Bool.not_false,if_true]
      exact .leave _ ht rfl rfl
  | saving gen next =>
    have ht := ho _ hs rfl
    cases hl : sys.locks w.object with
    | free => exact .acquire gen next hs hl
    | held hol => exact .stay
    | poisoned => exact .leave _ ht rfl rfl
  | locked gen next =>
    have hi : w.stage.critical = true := by rw [hs]; rfl
    by_cases hd : validId next.id
    · simp only [hd,Bool.not_true,Bool.false_eq_true,if_false]
      cases failure with
      | some err => exact hr err hi
      | none =>
        cases hg : checkGeneration (sys.files next.id) gen next with
        | ok _ => exact .check gen next hs hg
        | error err => exact hr err hi
        | panic => exact .release .poisoned .panicked hi rfl (by simp [Stage.won])
    · simp only [hd,Bool.not_false,if_true]
      exact hr _ hi
  | checked next =>
    have hi : w.stage.critical = true := by rw [hs]; rfl
    cases failure with
    | some err => exact hr err hi
    | none => exact .write next hs
  | written next =>
    have hi : w.stage.critical = true := by rw [hs]; rfl
    cases failure with
    | some err => exact hr err hi
    | none =>
      cases he : sys.temps next.id next.generation with
      | none => simpa only [he] using hr _ hi
      | some content => simpa only [he] using Advances.rename next content hs he
  | renamed next =>
    have hi : w.stage.critical = true := by rw [hs]; rfl
    cases failure with
    | some err => exact hr err hi
    | none => exact .release .free (.done (.ok next)) hi rfl (by simp [Stage.won,hs])
  | done result => exact .stay
  | panicked => exact .stay
  | crashed => exact .stay

end Pieces

section Invariant

/-- What a transition is about to save is the state it read, one step on; no later state has the generation it read. -/
def Moved (files : String → Option EmbeddingMigrationState) (expectedGeneration : ℕ) (nextPhase : EmbeddingMigrationPhase)
    (next : EmbeddingMigrationState) : Prop :=
  ∃ state : EmbeddingMigrationState, state.phase.canTransition nextPhase = true ∧ (nextPhase = .cutover → state.Passing) ∧
    next = { state with phase := nextPhase, generation := expectedGeneration + 1 } ∧
    expectedGeneration ≤ storedGeneration (files next.id) ∧
    (storedGeneration (files next.id) = expectedGeneration → files next.id = some state)

structure Holds (sys : System) (i : ℕ) (w : Worker) : Prop where
  shared : w.object = 0
  exclusive : w.stage.critical = true → sys.locks 0 = .held i
  fresh : ∀ next, w.stage = .checked next ∨ w.stage = .written next →
    next.generation = storedGeneration (sys.files next.id) + 1
  temp : ∀ next, w.stage = .written next → sys.temps next.id next.generation = some next
  won : ∀ next, w.stage.won = some next → next.generation ≤ storedGeneration (sys.files next.id)
  begun : ∀ id expectedGeneration nextPhase, w.stage = .loading id expectedGeneration nextPhase →
    w.call = .transition id expectedGeneration nextPhase
  moved : ∀ id expectedGeneration nextPhase, w.call = .transition id expectedGeneration nextPhase →
    ∀ next, w.stage.target = some next → Moved sys.files expectedGeneration nextPhase next

structure Sound (sys : System) : Prop where
  workers : ∀ i w, sys.workers[i]? = some w → Holds sys i w
  keyed : ∀ id state, sys.files id = some state → state.id = id
  distinct : ∀ (i j : ℕ) (w w' : Worker) (next next' : EmbeddingMigrationState), sys.workers[i]? = some w →
    sys.workers[j]? = some w' → w.stage.won = some next → w'.stage.won = some next' → next.id = next'.id →
    next.generation = next'.generation → i = j

variable {sys : System} {i j : ℕ} {w w' : Worker}

/-- Nothing another worker relies on is changed: the lock and the temporary files are of concern only to who holds the
lock, and a file is replaced by one of the next generation. -/
theorem Holds.other {sys' : System} (h : Holds sys j w')
    (hc : w'.stage.critical = true → sys'.locks 0 = sys.locks 0)
    (ht : w'.stage.critical = true → sys'.temps = sys.temps)
    (hf : sys'.files = sys.files ∨ (w'.stage.critical = false ∧ ∃ content : EmbeddingMigrationState,
      content.generation = storedGeneration (sys.files content.id)+1 ∧
        sys'.files = Function.update sys.files content.id (some content))) : Holds sys' j w' := by
  have hg : ∀ id, storedGeneration (sys.files id) ≤ storedGeneration (sys'.files id) := by
    intro id
    rcases hf with hf | ⟨-,content,hn,hf⟩
    · rw [hf]
    · rw [hf]
      by_cases hd : id = content.id
      · subst hd
        simp only [Function.update_self]
        show _ ≤ content.generation
        omega
      · rw [Function.update_of_ne hd]
  have ha : ∀ id, storedGeneration (sys'.files id) = storedGeneration (sys.files id) → sys'.files id = sys.files id := by
    intro id he
    rcases hf with hf | ⟨-,content,hn,hf⟩
    · rw [hf]
    · rw [hf] at he ⊢
      by_cases hd : id = content.id
      · subst hd
        simp only [Function.update_self] at he
        have hge : content.generation = storedGeneration (sys.files content.id) := he
        omega
      · rw [Function.update_of_ne hd]
  have hr : ∀ next, w'.stage = .checked next ∨ w'.stage = .written next → sys'.files = sys.files := by
    intro next hs
    have hi : w'.stage.critical = true := by
      rcases hs with hs | hs <;> rw [hs] <;> rfl
    rcases hf with hf | ⟨hu,-⟩
    · exact hf
    · rw [hu] at hi
      cases hi
  refine ⟨h.shared,?_,?_,?_,?_,h.begun,?_⟩
  · intro hi
    rw [hc hi]
    exact h.exclusive hi
  · intro next hs
    rw [hr next hs]
    exact h.fresh next hs
  · intro next hs
    rw [ht (by rw [hs]; rfl)]
    exact h.temp next hs
  · intro next hw
    exact (h.won next hw).trans (hg next.id)
  · intro id expectedGeneration nextPhase hca next hta
    obtain ⟨st,hp,hga,hn,hl,hre⟩ := h.moved id expectedGeneration nextPhase hca next hta
    refine ⟨st,hp,hga,hn,hl.trans (hg next.id),?_⟩
    intro he
    have ho : storedGeneration (sys.files next.id) = expectedGeneration := by
      have hl' := hg next.id
      omega
    rw [ha next.id (he.trans ho.symm)]
    exact hre ho

theorem holds_of_ended {stage : Stage} (hh : w.object = 0) (he : stage.ended = true)
    (hw : ∀ next, stage.won = some next → next.generation ≤ storedGeneration (sys.files next.id)) :
    Holds sys i { w with stage := stage } := by
  refine ⟨hh,?_,?_,?_,hw,?_,?_⟩
  · intro hi
    cases stage <;> simp [Stage.ended,Stage.critical] at he hi
  · intro next hs
    rcases hs with rfl | rfl <;> simp [Stage.ended] at he
  · intro next hs
    obtain rfl : stage = .written next := hs
    simp [Stage.ended] at he
  · intro id gen nextPhase hs
    obtain rfl : stage = .loading id gen nextPhase := hs
    simp [Stage.ended] at he
  · intro id gen nextPhase _ next ht
    cases stage <;> simp [Stage.ended,Stage.target] at he ht

theorem Sound.alone (h : Sound sys) (hw : sys.workers[i]? = some w) (hi : w.stage.critical = true) (hj : j ≠ i)
    (hw' : sys.workers[j]? = some w') : w'.stage.critical = false := by
  cases ho : w'.stage.critical with
  | false => rfl
  | true =>
    have hh := (h.workers i w hw).exclusive hi
    rw [(h.workers j w' hw').exclusive ho] at hh
    exact absurd (Lock.held.inj hh) hj

theorem Sound.put {sys' : System} {stage : Stage} (h : Sound sys) (hw : sys.workers[i]? = some w)
    (ho : sys'.workers = sys.workers.set i { w with stage := stage })
    (hl : Holds sys' i { w with stage := stage })
    (ht : ∀ j w', j ≠ i → sys.workers[j]? = some w' → Holds sys' j w')
    (hy : ∀ id st, sys'.files id = some st → st.id = id)
    (hwo : ∀ next, stage.won = some next → w.stage.won = some next ∨
      next.generation = storedGeneration (sys.files next.id)+1) : Sound sys' := by
  have hs : ∀ j w', sys'.workers[j]? = some w' →
      (j = i ∧ w' = { w with stage := stage }) ∨ (j ≠ i ∧ sys.workers[j]? = some w') := by
    intro j w' hj
    rw [ho,List.getElem?_set] at hj
    by_cases hi : i = j
    · subst hi
      have hb := (List.getElem?_eq_some_iff.mp hw).1
      simp only [hb,if_true,Option.some.injEq] at hj
      exact .inl ⟨rfl,hj.symm⟩
    · rw [if_neg hi] at hj
      exact .inr ⟨Ne.symm hi,hj⟩
  -- a st that is new in place is of a later generation than all that were won before
  have he : ∀ next, stage.won = some next → ∀ j w' next', j ≠ i → sys.workers[j]? = some w' → w'.stage.won = some next' →
      next.id = next'.id → next.generation ≠ next'.generation := by
    intro next hn j w' next' hi hj hn' hd hg
    rcases hwo next hn with hol | hf
    · exact hi (h.distinct i j w w' next next' hw hj hol hn' hd hg).symm
    · have hle := (h.workers j w' hj).won next' hn'
      rw [← hd] at hle
      omega
  refine ⟨?_,hy,?_⟩
  · intro j w' hj
    rcases hs j w' hj with ⟨rfl,rfl⟩ | ⟨hi,hj⟩
    · exact hl
    · exact ht j w' hi hj
  · intro j k w₁ w₂ next next' hj hk hn hn' hd hg
    rcases hs j w₁ hj with ⟨rfl,rfl⟩ | ⟨hi,hj⟩
    · rcases hs k w₂ hk with ⟨rfl,rfl⟩ | ⟨hki,hk⟩
      · rfl
      · exact absurd hg (he next hn k w₂ next' hki hk hn' hd)
    · rcases hs k w₂ hk with ⟨rfl,rfl⟩ | ⟨hki,hk⟩
      · exact absurd hg.symm (he next' hn' j w₁ next hi hj hn hd.symm)
      · exact h.distinct j k w₁ w₂ next next' hj hk hn hn' hd hg

theorem Sound.advance {sys' : System} (h : Sound sys) (hw : sys.workers[i]? = some w) (hste : Advances sys i w sys') :
    Sound sys' := by
  have he := h.workers i w hw
  have hh := he.shared
  cases hste with
  | stay => exact h
  | leave stage ho hd hwo =>
    refine h.put hw rfl (holds_of_ended hh hd (by simp [hwo])) ?_ h.keyed (by simp [hwo])
    intro j w' _ hj
    exact (h.workers j w' hj).other (fun _ => rfl) (fun _ => rfl) (.inl rfl)
  | load id gen nextPhase next hs hn =>
    refine h.put hw rfl ⟨hh,by simp [Stage.critical],by simp,by simp,by simp [Stage.won],by simp,?_⟩ ?_ h.keyed
      (by simp [Stage.won])
    · intro id' gen' nextPhase' hc next' ht
      obtain rfl : next = next' := by simpa [Stage.target] using ht
      have hb := he.begun id gen nextPhase hs
      obtain ⟨-,rfl,rfl⟩ := Call.transition.inj (hb.symm.trans hc)
      obtain ⟨state,hst,hg,hp,ha,rfl⟩ := ok_of_prepareTransition hn
      have hid : state.id = id := h.keyed id state hst
      have hr : sys.files state.id = some state := hid ▸ hst
      refine ⟨state,hp,ha,rfl,?_,fun _ => hr⟩
      show gen ≤ storedGeneration (sys.files state.id)
      rw [hr]
      exact hg.ge
    · intro j w' _ hj
      exact (h.workers j w' hj).other (fun _ => rfl) (fun _ => rfl) (.inl rfl)
  | acquire gen next hs hf =>
    rw [hh] at hf ⊢
    refine h.put hw rfl ⟨hh,?_,by simp,by simp,by simp [Stage.won],by simp,?_⟩ ?_ h.keyed (by simp [Stage.won])
    · intro _
      simp [System.put,System.setLock]
    · intro id gen' nextPhase hc next' ht
      exact he.moved id gen' nextPhase hc next' (by rw [hs]; exact ht)
    · intro j w' _ hj
      refine (h.workers j w' hj).other ?_ (fun _ => rfl) (.inl rfl)
      intro hi
      rw [(h.workers j w' hj).exclusive hi] at hf
      cases hf
  | check gen next hs hg =>
    obtain ⟨hst,hn⟩ := ok_of_checkGeneration hg
    have hi : w.stage.critical = true := by rw [hs]; rfl
    refine h.put hw rfl ⟨hh,fun _ => he.exclusive hi,?_,by
      simp,by simp [Stage.won],by simp,?_⟩ ?_ h.keyed
      (by simp [Stage.won])
    · intro next' hn'
      obtain rfl : next = next' := by simpa using hn'
      rw [hn,← hst]
      rfl
    · intro id gen' nextPhase hc next' ht
      exact he.moved id gen' nextPhase hc next' (by rw [hs]; exact ht)
    · intro j w' _ hj
      exact (h.workers j w' hj).other (fun _ => rfl) (fun _ => rfl) (.inl rfl)
  | write next hs =>
    have hi : w.stage.critical = true := by rw [hs]; rfl
    refine h.put hw rfl ⟨hh,fun _ => he.exclusive hi,?_,?_,by simp [Stage.won],by simp,?_⟩ ?_ h.keyed
      (by simp [Stage.won])
    · intro next' hn'
      obtain rfl : next = next' := by simpa using hn'
      exact he.fresh next (.inl hs)
    · intro next' hn'
      obtain rfl : next = next' := by simpa using hn'
      simp [System.put,System.writeTemp]
    · intro id gen' nextPhase hc next' ht
      exact he.moved id gen' nextPhase hc next' (by rw [hs]; exact ht)
    · intro j w' hji hj
      have ho := h.alone hw hi hji hj
      exact (h.workers j w' hj).other (by simp [ho]) (by simp [ho]) (.inl rfl)
  | rename next content hs hm =>
    have hi : w.stage.critical = true := by rw [hs]; rfl
    have hfr := he.fresh next (.inr hs)
    obtain rfl : content = next := by
      rw [he.temp next hs] at hm
      exact (Option.some.inj hm).symm
    refine h.put hw rfl ⟨hh,fun _ => he.exclusive hi,by
      simp,by simp,?_,by simp,by simp [Stage.target]⟩ ?_ ?_ ?_
    · intro next' hn'
      obtain rfl : content = next' := by simpa [Stage.won] using hn'
      simp [System.put,System.rename,storedGeneration]
    · intro j w' hji hj
      have ho := h.alone hw hi hji hj
      exact (h.workers j w' hj).other (by simp [ho]) (by simp [ho]) (.inr ⟨ho,content,hfr,rfl⟩)
    · intro id state hst
      by_cases hid : id = content.id
      · subst hid
        obtain rfl : content = state := by simpa [System.put,System.rename] using hst
        rfl
      · have hl : sys.files id = some state := by simpa [System.put,System.rename,System.writeTemp,hid] using hst
        exact h.keyed id state hl
    · intro next' hn'
      obtain rfl : content = next' := by simpa [Stage.won] using hn'
      exact .inr hfr
  | release lock stage hi hd hwo =>
    have hk : ∀ next, stage.won = some next → w.stage.won = some next := by
      intro next hn
      rw [hwo next hn]
      rfl
    refine h.put hw rfl (holds_of_ended hh hd ?_) ?_ h.keyed (fun next hn => .inl (hk next hn))
    · intro next hn
      exact he.won next (hk next hn)
    · intro j w' hji hj
      have ho := h.alone hw hi hji hj
      exact (h.workers j w' hj).other (by simp [ho]) (by simp [ho]) (.inl rfl)

def Shared : Action → Prop
  | .spawn object _ => object = 0
  | _ => True

theorem Sound.spawn (h : Sound sys) (call : Call) : Sound (sys.act (.spawn 0 call)) := by
  have he : ∀ (j : ℕ) (w' : Worker), (sys.act (.spawn 0 call)).workers[j]? = some w' →
      w' = ⟨0,call,call.begin_⟩ ∨ sys.workers[j]? = some w' := by
    intro j w' hj
    have hm : (sys.workers++[⟨0,call,call.begin_⟩])[j]? = some w' := hj
    rcases Nat.lt_or_ge j sys.workers.length with ht | hg
    · exact .inr (by rwa [List.getElem?_append_left ht] at hm)
    · rw [List.getElem?_append_right hg] at hm
      exact .inl (by simpa using List.mem_of_getElem? hm)
  have hl : call.begin_.won = none := by cases call <;> rfl
  refine ⟨?_,h.keyed,?_⟩
  · intro j w' hj
    rcases he j w' hj with rfl | hj
    · cases call with
      | transition id gen nextPhase =>
        exact ⟨rfl,by simp [Call.begin_,Stage.critical],by simp [Call.begin_],by simp [Call.begin_],
          by simp [Call.begin_,Stage.won],by simp [Call.begin_],by simp [Call.begin_,Stage.target]⟩
      | save gen next =>
        exact ⟨rfl,by simp [Call.begin_,Stage.critical],by simp [Call.begin_],by simp [Call.begin_],
          by simp [Call.begin_,Stage.won],by simp [Call.begin_],by simp⟩
    · exact (h.workers j w' hj).other (fun _ => rfl) (fun _ => rfl) (.inl rfl)
  · intro j k w₁ w₂ next next' hj hk hn hn'
    rcases he j w₁ hj with rfl | hj
    · simp [hl] at hn
    · rcases he k w₂ hk with rfl | hk
      · simp [hl] at hn'
      · exact h.distinct j k w₁ w₂ next next' hj hk hn hn'

theorem Sound.crash (h : Sound sys) : Sound (sys.act .crash) := by
  have hl : ∀ (j : ℕ) (w' : Worker), (sys.act .crash).workers[j]? = some w' → ∃ w, sys.workers[j]? = some w ∧
      w' = w.afterCrash := by
    intro j w' hj
    have hm : (sys.workers.map Worker.afterCrash)[j]? = some w' := hj
    rw [List.getElem?_map,Option.map_eq_some_iff] at hm
    obtain ⟨w,hw,ha⟩ := hm
    exact ⟨w,hw,ha.symm⟩
  have ha : ∀ w : Worker, ∃ stage : Stage, w.afterCrash = { w with stage := stage } ∧ stage.ended = true ∧
      ∀ next, stage.won = some next → w.stage.won = some next := by
    intro w
    unfold Worker.afterCrash
    cases hs : w.stage with
    | done result => exact ⟨w.stage,rfl,by rw [hs]; rfl,by simp [hs]⟩
    | _ => exact ⟨.crashed,rfl,rfl,by simp [Stage.won]⟩
  have ho : ∀ (w : Worker) (next : EmbeddingMigrationState), w.afterCrash.stage.won = some next →
      w.stage.won = some next := by
    intro w next hn
    obtain ⟨stage,hq,-,he⟩ := ha w
    rw [hq] at hn
    exact he next hn
  refine ⟨?_,h.keyed,?_⟩
  · intro j w' hj
    obtain ⟨w,hw,rfl⟩ := hl j w' hj
    obtain ⟨stage,hq,hd,he⟩ := ha w
    rw [hq]
    have hse := h.workers j w hw
    exact holds_of_ended hse.shared hd (fun next hn => hse.won next (he next hn))
  · intro j k w₁ w₂ next next' hj hk hn hn'
    obtain ⟨w,hw,rfl⟩ := hl j w₁ hj
    obtain ⟨w',hw',rfl⟩ := hl k w₂ hk
    exact h.distinct j k w w' next next' hw hw' (ho w next hn) (ho w' next' hn')

theorem Sound.act {act : Action} (h : Sound sys) (hs : Shared act) : Sound (sys.act act) := by
  cases act with
  | spawn object call =>
    obtain rfl : object = 0 := hs
    exact h.spawn call
  | step i failure =>
    cases hw : sys.workers[i]? with
    | none => rwa [System.act_step_none hw]
    | some w =>
      rw [System.act_step hw]
      exact h.advance hw (advances_advance sys i w failure)
  | crash => exact h.crash

theorem sound_start : Sound .start := ⟨by simp [System.start],by simp [System.start],by simp [System.start]⟩

end Invariant

section Runs

def OneWinner (sys : System) : Prop :=
  ∀ (i j : ℕ) (w w' : Worker) (next next' : EmbeddingMigrationState), sys.workers[i]? = some w → sys.workers[j]? = some w' →
    w.stage = .done (.ok next) → w'.stage = .done (.ok next') → next.id = next'.id →
      next.generation = next'.generation → i = j

/-- The save of a transition replaces a state of the phase before, and into cutover one with a passing evaluation. -/
def MovesOn (sys : System) (act : Action) : Prop :=
  ∀ i w id expectedGeneration nextPhase next, act = .step i none → sys.workers[i]? = some w →
    w.call = .transition id expectedGeneration nextPhase → w.stage = .written next →
      ∃ state, sys.files next.id = some state ∧ state.phase.canTransition nextPhase = true ∧
        (nextPhase = .cutover → state.Passing) ∧
          next = { state with phase := nextPhase, generation := expectedGeneration + 1 }

def InOrder (stored : Option EmbeddingMigrationState) (next : EmbeddingMigrationState) : Prop :=
  match stored with
  | none => next.phase = .reindex
  | some state => next.phase = state.phase ∨ state.phase.canTransition next.phase = true

def Advanced (sys : System) (act : Action) : Prop :=
  ∀ id, (sys.act act).files id = sys.files id ∨
    ∃ next, (sys.act act).files id = some next ∧ next.generation = storedGeneration (sys.files id) + 1 ∧
      InOrder (sys.files id) next

def EmbeddingMigrationPhase.switched (phase : EmbeddingMigrationPhase) : Bool := phase = .cutover || phase = .complete

def Gated (sys : System) : Prop :=
  ∀ id state, sys.files id = some state → state.phase.switched = true → state.Passing

def KeepsPhase (stored : Option EmbeddingMigrationState) (next : EmbeddingMigrationState) : Prop :=
  match stored with
  | none => next.phase = .reindex
  | some state => next.phase = state.phase ∧
      (state.phase.switched = true → next.evaluation = state.evaluation ∧ next.gate = state.gate)

instance (stored : Option EmbeddingMigrationState) (next : EmbeddingMigrationState) :
    Decidable (KeepsPhase stored next) := by
  cases stored with
  | none => exact inferInstanceAs (Decidable (next.phase = .reindex))
  | some state => exact inferInstanceAs (Decidable (next.phase = state.phase ∧
      (state.phase.switched = true → next.evaluation = state.evaluation ∧ next.gate = state.gate)))

def Careful (sys : System) (act : Action) : Prop :=
  match act with
  | .step i none =>
    match sys.workers[i]? with
    | some ⟨_, .save _ _, .written next⟩ => KeepsPhase (sys.files next.id) next
    | _ => True
  | _ => True

instance (sys : System) (act : Action) : Decidable (Careful sys act) := by
  unfold Careful
  split
  · split <;> infer_instance
  · infer_instance

variable {sys : System} {act : Action}

theorem Sound.oneWinner (h : Sound sys) : OneWinner sys := by
  intro i j w w' next next' hw hw' hd hd' hi hg
  exact h.distinct i j w w' next next' hw hw' (by rw [hd]; rfl) (by rw [hd']; rfl) hi hg

theorem Sound.movesOn (h : Sound sys) (act : Action) : MovesOn sys act := by
  intro i w id gen nextPhase next _ hw hc hs
  have he := h.workers i w hw
  obtain ⟨st,hp,hg,hn,-,hr⟩ := he.moved id gen nextPhase hc next (by rw [hs]; rfl)
  have hge : next.generation = gen + 1 := by rw [hn]
  have hf := he.fresh next (.inr hs)
  exact ⟨st,hr (by omega),hp,hg,hn⟩

theorem Sound.files_act (h : Sound sys) (act : Action) : (sys.act act).files = sys.files ∨
    ∃ i w next, act = .step i none ∧ sys.workers[i]? = some w ∧ w.stage = .written next ∧
      (sys.act act).files = Function.update sys.files next.id (some next) := by
  cases act with
  | spawn object call => exact .inl rfl
  | crash => exact .inl rfl
  | step i failure =>
    cases hw : sys.workers[i]? with
    | none => exact .inl (by rw [System.act_step_none hw])
    | some w =>
      rw [System.act_step hw]
      cases hs : w.stage with
      | written next =>
        have ht := (h.workers i w hw).temp next hs
        cases failure with
        | some err => exact .inl (by simp [System.advance,hs,System.finish,System.setLock,System.put])
        | none => exact .inr ⟨i,w,next,rfl,hw,hs,by simp [System.advance,hs,ht,System.put,System.rename]⟩
      | _ =>
        have ha := advances_advance sys i w failure
        generalize sys.advance i w failure = sys' at ha
        cases ha with
        | rename next content hst _ => simp [hs] at hst
        | _ => exact .inl rfl

theorem keepsPhase_of_careful {i : ℕ} {w : Worker} {gen : ℕ} {saved next : EmbeddingMigrationState}
    (h : Careful sys (.step i none)) (hw : sys.workers[i]? = some w) (hc : w.call = .save gen saved)
    (hs : w.stage = .written next) : KeepsPhase (sys.files next.id) next := by
  obtain ⟨object,call,stage⟩ := w
  subst hc hs
  simpa [Careful,hw] using h

theorem Sound.inOrder {i : ℕ} {w : Worker} {next : EmbeddingMigrationState} (h : Sound sys)
    (ha : Careful sys (.step i none)) (hw : sys.workers[i]? = some w) (ht : w.stage = .written next) :
    InOrder (sys.files next.id) next ∧ (Gated sys → next.phase.switched = true → next.Passing) := by
  cases hc : w.call with
  | transition id gen nextPhase =>
    obtain ⟨st,hs,hp,hgt,hn⟩ := h.movesOn (.step i none) i w id gen nextPhase next rfl hw hc ht
    have he : next.phase = nextPhase := by rw [hn]
    rw [hs]
    refine ⟨.inr (by rw [he]; exact hp),?_⟩
    intro hg hi
    have hpa : st.Passing := by
      rw [he] at hi
      cases nextPhase with
      | cutover => exact hgt rfl
      | complete =>
        have hu : st.phase = .cutover := by
          cases ho : st.phase <;> simp [ho,EmbeddingMigrationPhase.canTransition] at hp
          rfl
        exact hg next.id st hs (by rw [hu]; rfl)
      | _ => simp [EmbeddingMigrationPhase.switched] at hi
    rw [hn]
    exact hpa
  | save gen saved =>
    have hk := keepsPhase_of_careful ha hw hc ht
    cases hs : sys.files next.id with
    | none =>
      rw [hs] at hk
      have hp : next.phase = .reindex := hk
      exact ⟨hp,by simp [hp,EmbeddingMigrationPhase.switched]⟩
    | some st =>
      rw [hs] at hk
      obtain ⟨hp,hke⟩ : next.phase = st.phase ∧
        (st.phase.switched = true → next.evaluation = st.evaluation ∧ next.gate = st.gate) := hk
      refine ⟨.inl hp,?_⟩
      intro hg hi
      rw [hp] at hi
      obtain ⟨hv,hgt⟩ := hke hi
      obtain ⟨metrics,hr,hb⟩ := hg next.id st hs hi
      exact ⟨metrics,hv.trans hr,by rw [hgt]; exact hb⟩

theorem Sound.advanced (h : Sound sys) (hc : Careful sys act) : Advanced sys act := by
  intro id
  rcases h.files_act act with ha | ⟨i,w,next,rfl,hw,hs,hf⟩
  · exact .inl (by rw [ha])
  · rw [hf]
    by_cases hi : id = next.id
    · subst hi
      exact .inr ⟨next,Function.update_self _ _ _,(h.workers i w hw).fresh next (.inr hs),(h.inOrder hc hw hs).1⟩
    · exact .inl (Function.update_of_ne hi _ _)

theorem Sound.gated (h : Sound sys) (hg : Gated sys) (hc : Careful sys act) : Gated (sys.act act) := by
  intro id state hs hi
  rcases h.files_act act with ha | ⟨i,w,next,rfl,hw,ht,hf⟩
  · exact hg id state (by rw [← ha]; exact hs) hi
  · rw [hf] at hs
    by_cases hd : id = next.id
    · subst hd
      obtain rfl : next = state := by simpa using hs
      exact (h.inOrder hc hw ht).2 hg hi
    · exact hg id state (by simpa [hd] using hs) hi

theorem sound_meets {sys : System} {acts : List Action} (h : Sound sys) (hs : ∀ act ∈ acts, Shared act)
    {ok : System → Action → Prop} (ho : ∀ sys act, Sound sys → ok sys act) : Meets System.act ok sys acts := by
  induction acts generalizing sys with
  | nil => trivial
  | cons act acts ih =>
    obtain ⟨ha,hc⟩ := List.forall_mem_cons.mp hs
    exact ⟨ho sys act h,ih (h.act ha) hc⟩

theorem meets_shared {acts : List Action} (hs : ∀ act ∈ acts, Shared act) (sys : System) :
    Meets System.act (fun _ act => Shared act) sys acts := meets_of_mem (fun act ha _ => hs act ha) sys

theorem sound_run {acts : List Action} (hs : ∀ act ∈ acts, Shared act) : Sound (run System.act .start acts) :=
  run_invariant (fun _ _ h ha => h.act ha) sound_start (meets_shared hs .start)

/-- Of the calls through one store object one wins each generation, and a transition moves a migration on by one phase
and through the gate; with careful saves every migration advances in order and is cut over only after it passed. -/
theorem migrations_through_one_store (acts : List Action) (hshared : ∀ act ∈ acts, Shared act) :
    OneWinner (run System.act .start acts) ∧ Meets System.act MovesOn .start acts ∧
      (Meets System.act Careful .start acts →
        Meets System.act Advanced .start acts ∧ Gated (run System.act .start acts)) := by
  refine ⟨(sound_run hshared).oneWinner, sound_meets sound_start hshared (fun _ act h => h.movesOn act), ?_⟩
  intro hc
  have hb := hc.and (meets_shared hshared .start)
  constructor
  · rw [meets_iff_front]
    intro front act hf
    have hm : ∀ act' ∈ front, Shared act' := by
      intro act' hi
      exact hshared act' (hf.subset (by simp [hi]))
    exact (sound_run hm).advanced (meets_iff_front.mp hc front act hf)
  · have hs : Sound .start ∧ Gated .start := ⟨sound_start, by simp [Gated, System.start]⟩
    have ht : ∀ sys act, Sound sys ∧ Gated sys → Careful sys act ∧ Shared act →
        Sound (sys.act act) ∧ Gated (sys.act act) := by
      intro sys act h ha
      exact ⟨h.1.act ha.2, h.1.gated h.2 ha.1⟩
    exact (run_invariant ht hs hb).2

end Runs

def sampleState (generation : ℕ) (phase : EmbeddingMigrationPhase) (evaluation : Option PairedRetrievalMetrics) :
    EmbeddingMigrationState :=
  ⟨"m", generation, ⟨"clip", "v1", "p1", 2, .none⟩, ⟨"clip", "v2", "p1", 2, .none⟩, [], phase, ⟨9 / 10, 1 / 10⟩, evaluation⟩

def undisturbed (i : ℕ) (call : Call) : List Action := .spawn 0 call::List.replicate 6 (.step i none)

def sampleRun : List Action :=
  undisturbed 0 (.save 0 (sampleState 1 .reindex none)) ++ undisturbed 1 (.transition "m" 1 .dualWrite) ++
    undisturbed 2 (.transition "m" 2 .evaluating) ++
    undisturbed 3 (.save 3 (sampleState 4 .evaluating (some ⟨1, 1, 1, 1 / 2⟩))) ++
    undisturbed 4 (.transition "m" 4 .cutover)

theorem migrations_through_one_store_sample :
    (OneWinner (run System.act .start sampleRun) ∧ Meets System.act MovesOn .start sampleRun ∧
      (Meets System.act Careful .start sampleRun →
        Meets System.act Advanced .start sampleRun ∧ Gated (run System.act .start sampleRun))) ∧
    Meets System.act Careful .start sampleRun ∧
    (run System.act .start sampleRun).files "m" = some (sampleState 5 .cutover (some ⟨1, 1, 1, 1 / 2⟩)) :=
  ⟨migrations_through_one_store sampleRun (by simp [sampleRun, undisturbed, Shared]), by decide +kernel, by decide +kernel⟩

def rawSave : List Action := .spawn 0 (.save 0 (sampleState 1 .complete none))::List.replicate 5 (.step 0 none)

def twoObjects : List Action :=
  [.spawn 0 (.save 0 (sampleState 1 .reindex none)), .spawn 1 (.save 0 (sampleState 1 .reindex none)), .step 0 none,
    .step 0 none, .step 1 none, .step 1 none, .step 0 none, .step 0 none, .step 0 none, .step 1 none, .step 1 none,
    .step 1 none]

theorem saves_skip_the_gate :
    ¬ Gated (run System.act .start rawSave) ∧ ¬ Meets System.act Advanced .start rawSave ∧
      ¬ OneWinner (run System.act .start twoObjects) := by
  refine ⟨?_, ?_, ?_⟩
  · intro h
    have ht : (run System.act .start rawSave).files "m" = some (sampleState 1 .complete none) := by decide +kernel
    obtain ⟨metrics, hr, -⟩ := h "m" _ ht rfl
    cases hr
  · intro h
    have hl := meets_iff_front.mp h (rawSave.take 4) (.step 0 none) ⟨[.step 0 none], rfl⟩
    have hb : (run System.act .start (rawSave.take 4)).files "m" = none := by decide +kernel
    have ha : ((run System.act .start (rawSave.take 4)).act (.step 0 none)).files "m" =
        some (sampleState 1 .complete none) := by decide +kernel
    rcases hl "m" with hs | ⟨next, hn, -, ho⟩
    · rw [hb, ha] at hs
      cases hs
    · rw [ha] at hn
      rw [hb, ← Option.some.inj hn] at ho
      cases ho
  · intro h
    have hf : (run System.act .start twoObjects).workers[0]? =
      some ⟨0, .save 0 (sampleState 1 .reindex none), .done (.ok (sampleState 1 .reindex none))⟩ := rfl
    have he : (run System.act .start twoObjects).workers[1]? =
      some ⟨1, .save 0 (sampleState 1 .reindex none), .done (.ok (sampleState 1 .reindex none))⟩ := rfl
    exact absurd (h 0 1 _ _ _ _ hf he rfl rfl rfl rfl) (by omega)

end UwuContextDb.EmbeddingMigration
