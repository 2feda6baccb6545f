import Mathlib.Data.List.Nodup
import UwuContextDb.Library.Run

/-! Optimistic concurrency: calls that look at a shared state, and later transact on it if it still looks
the same. Whatever the interleaving, the calls that succeed are a sequential history. -/

namespace Optimistic

open StateMachine

/-- What a call sees of the shared state, and the transaction it then runs. -/
structure Machine (ι σ V E A : Type) where
  look : σ → V
  transact : ι → V → σ → Except E (A × σ)

/-- How far a call has come. -/
inductive Call (V E A : Type)
  | waiting
  | looked (v : V)
  | done (result : Except E A)

structure State (ι σ V E A : Type) where
  shared : σ
  calls : ι → Call V E A

/-- A call looks, transacts, or is refused its transaction. -/
inductive Action (ι E : Type)
  | look (i : ι)
  | transact (i : ι)
  | refuse (i : ι) (e : E)

namespace Machine

variable {ι σ V E A : Type} (m : Machine ι σ V E A)

def start (s : σ) : State ι σ V E A := ⟨s, fun _ => .waiting⟩

/-- The call `i` comes back with a result, and leaves the shared state `s`. -/
def finish [DecidableEq ι] (st : State ι σ V E A) (i : ι) (result : Except E A) (s : σ) : State ι σ V E A :=
  ⟨s, Function.update st.calls i (.done result)⟩

def step [DecidableEq ι] (st : State ι σ V E A) : Action ι E → State ι σ V E A
  | .look i =>
    match st.calls i with
    | .waiting => { st with calls := Function.update st.calls i (.looked (m.look st.shared)) }
    | _ => st
  | .transact i =>
    match st.calls i with
    | .looked v =>
      match m.transact i v st.shared with
      | .ok (a, s) => finish st i (.ok a) s
      | .error e => finish st i (.error e) st.shared
    | _ => st
  | .refuse i e =>
    match st.calls i with
    | .looked _ => finish st i (.error e) st.shared
    | _ => st

/-- A transaction succeeds only on a state that still looks as it did. -/
def Validates : Prop := ∀ i v s a s', m.transact i v s = .ok (a, s') → v = m.look s

/-- The calls of the list, each looking and transacting before the next one starts. -/
def Sequential : σ → List (ι × A) → σ → Prop
  | s, [], s' => s' = s
  | s, (i, a)::rest, s' => ∃ tx, m.transact i (m.look s) s = .ok (a, tx) ∧ Sequential tx rest s'

/-- The calls that came back with `ok`, in the order they did, make up the history of the shared state. -/
structure History (s₀ : σ) (completed : List (ι × A)) (st : State ι σ V E A) : Prop where
  once : (completed.map Prod.fst).Nodup
  returned : ∀ i a, (i, a) ∈ completed ↔ st.calls i = .done (.ok a)
  sequential : m.Sequential s₀ completed st.shared

variable {m}

theorem Sequential.concat {s s' s'' : σ} {completed : List (ι × A)} {i : ι} {a : A}
    (h : m.Sequential s completed s') (ht : m.transact i (m.look s') s' = .ok (a, s'')) :
    m.Sequential s (completed++[(i, a)]) s'' := by
  induction completed generalizing s with
  | nil =>
    have hs : s' = s := h
    subst hs
    exact ⟨s'',ht,rfl⟩
  | cons p rest ih =>
    obtain ⟨tx,hp,hr⟩ := h
    exact ⟨tx,hp,ih hr⟩

theorem Sequential.invariant {inv : σ → Prop} (ht : ∀ i s a s', inv s → m.transact i (m.look s) s = .ok (a, s') → inv s')
    {s s' : σ} {completed : List (ι × A)} (hs : inv s) (h : m.Sequential s completed s') : inv s' := by
  induction completed generalizing s with
  | nil =>
    have he : s' = s := h
    exact he ▸ hs
  | cons p rest ih =>
    obtain ⟨tx,hp,hr⟩ := h
    exact ih (ht p.1 s p.2 tx hs hp) hr

variable {s₀ : σ} {completed : List (ι × A)} {st : State ι σ V E A}

theorem history_start (s₀ : σ) : m.History s₀ [] (start s₀ : State ι σ V E A) :=
  ⟨List.nodup_nil,fun _ _ => by simp [start],rfl⟩

theorem History.notMem (h : m.History s₀ completed st) {i : ι} (hi : ∀ a, st.calls i ≠ .done (.ok a)) :
    i ∉ completed.map Prod.fst := by
  intro hm
  obtain ⟨⟨j,a⟩,hp,rfl⟩ := List.mem_map.mp hm
  exact hi a ((h.returned j a).mp hp)

variable [DecidableEq ι]

/-- A call that moves on without success leaves the history. -/
theorem History.update (h : m.History s₀ completed st) {i : ι} {c : Call V E A} (hi : ∀ a, st.calls i ≠ .done (.ok a))
    (hc : ∀ a, c ≠ .done (.ok a)) : m.History s₀ completed ⟨st.shared,Function.update st.calls i c⟩ := by
  refine ⟨h.once,fun j a => ?_,h.sequential⟩
  rw [h.returned j a]
  by_cases hj : j = i
  · subst hj
    simp [hi a,hc a]
  · simp [hj]

/-- A call that succeeds comes last. -/
theorem History.finish (h : m.History s₀ completed st) {i : ι} {v : V} {a : A} {s : σ} (hi : st.calls i = .looked v)
    (ht : m.transact i (m.look st.shared) st.shared = .ok (a, s)) :
    m.History s₀ (completed++[(i, a)]) (finish st i (.ok a) s) := by
  have hn : i ∉ completed.map Prod.fst := h.notMem (fun a => by simp [hi])
  refine ⟨?_,fun j b => ?_,h.sequential.concat ht⟩
  · rw [List.map_append]
    refine List.nodup_append.mpr ⟨h.once,List.nodup_singleton i,fun j hj k hk => ?_⟩
    obtain rfl : k = i := by simpa using hk
    intro he
    rw [he] at hj
    exact hn hj
  · rw [List.mem_append,h.returned j b]
    by_cases hj : j = i
    · subst hj
      simp [Machine.finish,hi,eq_comm]
    · simp [Machine.finish,hj]

theorem step_history (hm : m.Validates) (h : m.History s₀ completed st) (action : Action ι E) :
    ∃ completed', m.History s₀ completed' (m.step st action) := by
  cases action with
  | look i =>
    simp only [step]
    split
    · rename_i hi
      exact ⟨completed,h.update (by simp [hi]) (by simp)⟩
    · exact ⟨completed,h⟩
  | transact i =>
    simp only [step]
    split
    · rename_i v hi
      split
      · rename_i a s ht
        obtain rfl := hm i v _ a s ht
        exact ⟨completed++[(i, a)],h.finish hi ht⟩
      · exact ⟨completed,h.update (by simp [hi]) (by simp)⟩
    · exact ⟨completed,h⟩
  | refuse i e =>
    simp only [step]
    split
    · rename_i v hi
      exact ⟨completed,h.update (by simp [hi]) (by simp)⟩
    · exact ⟨completed,h⟩

theorem run_history (hm : m.Validates) (s₀ : σ) (schedule : List (Action ι E)) :
    ∃ completed, m.History s₀ completed (run m.step (start s₀) schedule) := by
  have hs : ∀ (st : State ι σ V E A) (action : Action ι E), (∃ completed, m.History s₀ completed st) →
      ∃ completed, m.History s₀ completed (m.step st action) := by
    intro st action ⟨completed,h⟩
    exact step_history hm h action
  exact run_preserves hs ⟨[],history_start s₀⟩ schedule

end Machine
end Optimistic
