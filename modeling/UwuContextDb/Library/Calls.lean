import Mathlib.Data.List.Basic

/-! Programs of calls: what they leave where they stop, and what holds while several of them run. -/

/-- A program that calls what is outside it and goes on with the reply. -/
inductive Prog (C : Type) (R : C → Type) (α : Type)
  | done (a : α)
  | call (c : C) (next : R c → Prog C R α)

namespace Prog

variable {C : Type} {R : C → Type} {α β : Type}

def bind : Prog C R α → (α → Prog C R β) → Prog C R β
  | done a, f => f a
  | call c next, f => call c (fun r => (next r).bind f)

instance : Monad (Prog C R) where
  pure := done
  bind := bind

theorem bind_done (p : Prog C R α) : p.bind done = p := by
  induction p with
  | done a => rfl
  | call c next ih => exact congrArg (call c) (funext ih)

theorem bind_bind {γ : Type} (p : Prog C R α) (f : α → Prog C R β) (g : β → Prog C R γ) :
    (p.bind f).bind g = p.bind (fun a => (f a).bind g) := by
  induction p with
  | done a => rfl
  | call c next ih => exact congrArg (call c) (funext ih)

instance : LawfulMonad (Prog C R) := LawfulMonad.mk' _ bind_done (fun _ _ => rfl) bind_bind

/-- The program of one call. -/
def ask (c : C) : Prog C R (R c) := call c done

section Rules

variable {G : Type} (may : C → G → Prop) (reply : (c : C) → G → R c → G → Prop)

/-- Whatever the replies are, the program makes only calls that it may make, and `post` holds where it ends. -/
def Keeps (post : α → G → Prop) : Prog C R α → G → Prop
  | done a, g => post a g
  | call c next, g => may c g ∧ ∀ r g', reply c g r g' → Keeps post (next r) g'

variable {may reply}

theorem Keeps.mono {post post' : α → G → Prop} (hp : ∀ a g, post a g → post' a g) {p : Prog C R α} {g : G}
    (h : p.Keeps may reply post g) : p.Keeps may reply post' g := by
  induction p generalizing g with
  | done a => exact hp a g h
  | call c next ih => exact ⟨h.1,fun r g' hr => ih r (h.2 r g' hr)⟩

theorem Keeps.bind {post : β → G → Prop} {p : Prog C R α} {f : α → Prog C R β} {g : G}
    (h : p.Keeps may reply (fun a g' => (f a).Keeps may reply post g') g) : (p >>= f).Keeps may reply post g := by
  show (p.bind f).Keeps may reply post g
  induction p generalizing g with
  | done a => exact h
  | call c next ih => exact ⟨h.1,fun r g' hr => ih r (h.2 r g' hr)⟩

theorem Keeps.ask {c : C} {post : R c → G → Prop} {g : G} (hm : may c g) (h : ∀ r g', reply c g r g' → post r g') :
    (ask c : Prog C R (R c)).Keeps may reply post g := ⟨hm,h⟩

/-- A property of what a fallible program returns, from one of its result and one of its error. -/
def Outcome {ε : Type} (onOk : α → G → Prop) (onError : ε → G → Prop) : Except ε α → G → Prop
  | .ok a, g => onOk a g
  | .error e, g => onError e g

variable {ε : Type}

theorem Keeps.andThen {post : Except ε β → G → Prop} {x : ExceptT ε (Prog C R) α} {f : α → ExceptT ε (Prog C R) β} {g : G}
    (h : x.run.Keeps may reply
      (Outcome (fun a g' => (f a).run.Keeps may reply post g') (fun e g' => post (.error e) g')) g) :
    (x >>= f).run.Keeps may reply post g := by
  rw [ExceptT.run_bind]
  refine Keeps.bind (h.mono (fun r g' hr => ?_))
  cases r with
  | ok a => exact hr
  | error e => exact hr

theorem Keeps.lift {post : Except ε β → G → Prop} {x : Prog C R α} {f : α → ExceptT ε (Prog C R) β} {g : G}
    (h : x.Keeps may reply (fun a g' => (f a).run.Keeps may reply post g') g) :
    (ExceptT.lift x >>= f).run.Keeps may reply post g := by
  refine Keeps.andThen ?_
  show (x.bind (fun a => done (Except.ok a))).Keeps may reply _ g
  exact Keeps.bind (p := x) (f := fun a => done (Except.ok a)) (h.mono (fun a g' ha => ha))

/-- The rule of a loop; `inv` speaks of what is still to be done. -/
theorem Keeps.forM (inv : List α → G → Prop) {post : Except ε PUnit → G → Prop} {body : α → ExceptT ε (Prog C R) PUnit}
    (hb : ∀ a rest g, inv (a::rest) g →
      (body a).run.Keeps may reply (Outcome (fun _ g' => inv rest g') (fun e g' => post (.error e) g')) g)
    (he : ∀ g, inv [] g → post (.ok ⟨⟩) g) {as : List α} {g : G} (h : inv as g) :
    (as.forM body).run.Keeps may reply post g := by
  induction as generalizing g with
  | nil => exact he g h
  | cons a as ih =>
    show (body a >>= fun _ => as.forM body : ExceptT ε (Prog C R) PUnit).run.Keeps may reply post g
    refine Keeps.andThen ((hb a as g h).mono (fun r g' hr => ?_))
    cases r with
    | ok u => exact ih hr
    | error e => exact hr

/-- The rule of a loop that collects what its rounds return. -/
theorem Keeps.mapM (inv : G → Prop) (made : α → β → Prop) {post : Except ε (List β) → G → Prop}
    {body : α → ExceptT ε (Prog C R) β} {as : List α} {g : G}
    (hb : ∀ a ∈ as, ∀ g, inv g →
      (body a).run.Keeps may reply (Outcome (fun b g' => made a b ∧ inv g') (fun e g' => post (.error e) g')) g)
    (he : ∀ bs g, List.Forall₂ made as bs → inv g → post (.ok bs) g) (h : inv g) :
    (as.mapM body).run.Keeps may reply post g := by
  induction as generalizing g post with
  | nil => exact he [] g .nil h
  | cons a as ih =>
    rw [List.mapM_cons]
    refine Keeps.andThen ((hb a List.mem_cons_self g h).mono (fun r g' hr => ?_))
    cases r with
    | error e => exact hr
    | ok b =>
      refine Keeps.andThen (ih (fun a ha g hg => ?_) (fun bs g hs hg => ?_) hr.2)
      · refine (hb a (List.mem_cons_of_mem _ ha) g hg).mono (fun r g' hr => ?_)
        cases r with
        | ok b => exact hr
        | error e => exact hr
      · exact he (b::bs) g (.cons hr.1 hs) hg

/-- Every call of the program is one of `some_`. -/
def Only (some_ : C → Prop) (p : Prog C R α) : Prop :=
  p.Keeps (fun c (_ : Unit) => some_ c) (fun _ _ _ _ => True) (fun _ _ => True) ()

/-- What each of its calls keeps, a program keeps. -/
theorem Only.preserves {P : G → Prop} (some_ : C → Prop) (hm : ∀ c g, some_ c → P g → may c g)
    (he : ∀ c g r g', some_ c → P g → reply c g r g' → P g') {p : Prog C R α} (h : p.Only some_) {g : G} (hg : P g) :
    p.Keeps may reply (fun _ g' => P g') g := by
  induction p generalizing g with
  | done a => exact hg
  | call c next ih =>
    exact ⟨hm c g h.1 hg,fun r g' hr => ih r (h.2 r () trivial) (he c g r g' h.1 hg hr)⟩

/-- A program that makes only calls which tell it nothing knows as much at its end. -/
theorem Only.keeps (some_ : C → Prop) (hm : ∀ c g, some_ c → may c g)
    (he : ∀ c g r g', some_ c → reply c g r g' → g' = g) {p : Prog C R α} (h : p.Only some_) (g : G) :
    p.Keeps may reply (fun _ g' => g' = g) g :=
  h.preserves some_ (fun c g' hc _ => hm c g' hc) (fun c g' r g'' hc hg' hr => (he c g' r g'' hc hr).trans hg') rfl

namespace Only

variable {some_ : C → Prop}

theorem ask {c : C} (h : some_ c) : (Prog.ask c : Prog C R (R c)).Only some_ := ⟨h,fun _ _ _ => trivial⟩

theorem andThen {x : ExceptT ε (Prog C R) α} {f : α → ExceptT ε (Prog C R) β} (hx : x.run.Only some_)
    (hf : ∀ a, (f a).run.Only some_) : (x >>= f).run.Only some_ := by
  refine Keeps.andThen (Keeps.mono (fun r g _ => ?_) hx)
  cases r with
  | ok a => exact hf a
  | error e => trivial

theorem lift {x : Prog C R α} {f : α → ExceptT ε (Prog C R) β} (hx : x.Only some_) (hf : ∀ a, (f a).run.Only some_) :
    (ExceptT.lift x >>= f).run.Only some_ :=
  Keeps.lift (Keeps.mono (fun a _ _ => hf a) hx)

theorem forM {body : α → ExceptT ε (Prog C R) PUnit} (h : ∀ a, (body a).run.Only some_) (as : List α) :
    (as.forM body).run.Only some_ := by
  refine Keeps.forM (fun _ _ => True) (fun a _ _ _ => Keeps.mono (fun r _ _ => ?_) (h a)) (fun _ _ => trivial) trivial
  cases r <;> trivial

theorem mapM {body : α → ExceptT ε (Prog C R) β} (h : ∀ a, (body a).run.Only some_) (as : List α) :
    (as.mapM body).run.Only some_ := by
  refine Keeps.mapM (fun _ => True) (fun _ _ => True) (fun a _ _ _ => Keeps.mono (fun r _ _ => ?_) (h a))
    (fun _ _ _ _ => trivial) trivial
  cases r with
  | ok b => exact ⟨trivial,trivial⟩
  | error e => trivial

end Only

end Rules

section Runs

variable {W T : Type} (exec : (c : C) → T → W → R c × W)

/-- The program makes one call for each item of the list, which tells under what circumstances; it stops where the list
ends. -/
def run : Prog C R α → W → List T → Prog C R α × W
  | done a, w, _ => (done a, w)
  | call c next, w, [] => (call c next, w)
  | call c next, w, t::ts => run (next (exec c t w).1) (exec c t w).2 ts

/-- The whole program, on circumstances for as many calls as it makes. -/
def finish : Prog C R α → W → (ℕ → T) → α × W
  | done a, w, _ => (a, w)
  | call c next, w, ts => finish (next (exec c (ts 0) w).1) (exec c (ts 0) w).2 (fun n => ts (n + 1))

variable {exec}

/-- The replies of a world whose circumstances meet `ok`. -/
def Replies (exec : (c : C) → T → W → R c × W) (ok : T → Prop) (c : C) (w : W) (r : R c) (w' : W) : Prop :=
  ∃ t, ok t ∧ exec c t w = (r, w')

variable {ok : T → Prop} {stop : W → Prop} {post : α → W → Prop}

/-- Where a program is stopped, `stop` holds, and where it ends, `post`. -/
theorem Keeps.run {p : Prog C R α} {w : W} (h : p.Keeps (fun _ w => stop w) (Replies exec ok) post w) {ts : List T}
    (hs : ∀ t ∈ ts, ok t) :
    (∃ a, (p.run exec w ts).1 = done a ∧ post a (p.run exec w ts).2) ∨ stop (p.run exec w ts).2 := by
  induction p generalizing w ts with
  | done a => exact .inl ⟨a,rfl,h⟩
  | call c next ih =>
    cases ts with
    | nil => exact .inr h.1
    | cons t ts => exact ih _ (h.2 _ _ ⟨t,hs t List.mem_cons_self,rfl⟩) (fun t ht => hs t (List.mem_cons_of_mem _ ht))

theorem Keeps.finish {may : C → W → Prop} {p : Prog C R α} {w : W} (h : p.Keeps may (Replies exec ok) post w) {ts : ℕ → T}
    (ht : ∀ n, ok (ts n)) : post (p.finish exec w ts).1 (p.finish exec w ts).2 := by
  induction p generalizing w ts with
  | done a => exact h
  | call c next ih => exact ih _ (h.2 _ _ ⟨ts 0,ht 0,rfl⟩) (fun n => ht (n+1))

theorem Keeps.ofExec {may : C → W → Prop} {c : C} {post : R c → W → Prop} {w : W} (hm : may c w)
    (h : ∀ t, ok t → post (exec c t w).1 (exec c t w).2) :
    (Prog.ask c : Prog C R (R c)).Keeps may (Replies exec ok) post w := by
  refine ⟨hm,?_⟩
  rintro r w' ⟨t,ht,he⟩
  have hp := h t ht
  rw [he] at hp
  exact hp

end Runs

end Prog

/-- Some programs at work on one world. A worker is its program, or nothing once it has crashed, with the calls that it
has made and their replies. -/
structure Pool (C : Type) (R : C → Type) (α W : Type) where
  world : W
  workers : List (Option (Prog C R α) × List ((c : C) × R c))

namespace Pool

variable {C : Type} {R : C → Type} {α W T E : Type}

inductive Event (C : Type) (R : C → Type) (α T E : Type)
  | start (program : ℕ → Prog C R α)
  | call (i : ℕ) (t : T)
  | crash (i : ℕ)
  | outside (e : E)

variable (exec : (c : C) → T → W → R c × W) (change : W → E → W)

/-- The next call of a worker; one that has ended or crashed makes none. -/
def work (pool : Pool C R α W) (i : ℕ) (t : T) : Pool C R α W :=
  match pool.workers[i]? with
  | some (some (.call c next), made) =>
    ⟨(exec c t pool.world).2,
      pool.workers.set i (some (next (exec c t pool.world).1), made ++ [⟨c, (exec c t pool.world).1⟩])⟩
  | _ => pool

def step (pool : Pool C R α W) : Event C R α T E → Pool C R α W
  | .start program => { pool with workers := pool.workers ++ [(some (program pool.workers.length), [])] }
  | .call i t => pool.work exec i t
  | .crash i => { pool with workers := pool.workers.modify i (fun worker => (none, worker.2)) }
  | .outside e => { pool with world := change pool.world e }

variable {exec change} {G : Type} {may : ℕ → C → G → Prop} {reply : (c : C) → G → R c → G → Prop} {post : α → G → Prop}
  {agrees : List ((c : C) × R c) → G → Prop}

/-- Every worker keeps to its rules from what it knows, which agrees with the calls that it has made, and the world with
what all of them know meets `inv`. Who has not started yet or has crashed knows `idle`. -/
def Sound (may : ℕ → C → G → Prop) (reply : (c : C) → G → R c → G → Prop) (post : α → G → Prop)
    (agrees : List ((c : C) × R c) → G → Prop) (idle : G) (inv : W → (ℕ → G) → Prop) (pool : Pool C R α W) : Prop :=
  ∃ known : ℕ → G, inv pool.world known ∧
    (∀ i, (∀ (p : Prog C R α) made, pool.workers[i]? ≠ some (some p, made)) → known i = idle) ∧
    ∀ i (p : Prog C R α) made, pool.workers[i]? = some (some p, made) → p.Keeps (may i) reply post (known i) ∧
      agrees made (known i)

variable {idle : G} {inv : W → (ℕ → G) → Prop} {pool : Pool C R α W}

theorem Sound.start (h : pool.Sound may reply post agrees idle inv) {program : ℕ → Prog C R α}
    (hs : (program pool.workers.length).Keeps (may pool.workers.length) reply post idle) (ha : agrees [] idle) :
    (pool.step exec change (.start program)).Sound may reply post agrees idle inv := by
  obtain ⟨known,hv,hd,hk⟩ := h
  have hg : ∀ i, i ≠ pool.workers.length →
      (pool.workers++[(some (program pool.workers.length), [])])[i]? = pool.workers[i]? := by
    intro i hi
    rcases Nat.lt_or_gt_of_ne hi with ht | hgt
    · exact List.getElem?_append_left ht
    · rw [List.getElem?_eq_none (by simp; omega),List.getElem?_eq_none (by omega)]
  have hl : (pool.workers++[(some (program pool.workers.length), [])])[pool.workers.length]? =
      some (some (program pool.workers.length), []) := by simp
  refine ⟨known,hv,fun i hn => ?_,fun i p made hp => ?_⟩
  · by_cases hi : i = pool.workers.length
    · rw [hi] at hn
      exact absurd hl (hn _ _)
    · exact hd i (fun p made hp => hn p made ((hg i hi).trans hp))
  · by_cases hi : i = pool.workers.length
    · subst hi
      have he := hl.symm.trans hp
      simp only [Option.some.injEq,Prod.mk.injEq] at he
      have ho : known pool.workers.length = idle := hd _ (by simp)
      rw [← he.1,← he.2,ho]
      exact ⟨hs,ha⟩
    · exact hk i p made ((hg i hi).symm.trans hp)

theorem Sound.crash (h : pool.Sound may reply post agrees idle inv) {i : ℕ}
    (hc : ∀ known, inv pool.world known → inv pool.world (Function.update known i idle)) :
    (pool.step exec change (.crash i)).Sound may reply post agrees idle inv := by
  obtain ⟨known,hi,hd,hk⟩ := h
  refine ⟨Function.update known i idle,hc known hi,fun j hn => ?_,fun j p made hp => ?_⟩
  · by_cases hj : j = i
    · rw [hj,Function.update_self]
    · rw [Function.update_of_ne hj]
      refine hd j (fun p made hp => hn p made ?_)
      simpa [step,List.getElem?_modify,Ne.symm hj] using hp
  · by_cases hj : j = i
    · subst hj
      simp [step] at hp
    · rw [Function.update_of_ne hj]
      refine hk j p made ?_
      simpa [step,List.getElem?_modify,Ne.symm hj] using hp

theorem Sound.call (h : pool.Sound may reply post agrees idle inv) {i : ℕ} {t : T}
    (hc : ∀ known c next made, pool.workers[i]? = some (some (.call c next), made) → agrees made (known i) →
      inv pool.world known →
      may i c (known i) → ∃ g, reply c (known i) (exec c t pool.world).1 g ∧
      inv (exec c t pool.world).2 (Function.update known i g))
    (ha : ∀ made c g r g', agrees made g → reply c g r g' → agrees (made++[⟨c,r⟩]) g') :
    (pool.step exec change (.call i t)).Sound may reply post agrees idle inv := by
  show (pool.work exec i t).Sound may reply post agrees idle inv
  unfold work
  split
  · rename_i c next made hw
    obtain ⟨known,hi,hd,hk⟩ := h
    obtain ⟨hr,hm⟩ := hk i _ _ hw
    obtain ⟨g,he,hi'⟩ := hc known c next made hw hm hi hr.1
    have hl : i < pool.workers.length := (List.getElem?_eq_some_iff.mp hw).1
    refine ⟨Function.update known i g,hi',fun j hn => ?_,fun j p made' hp => ?_⟩
    · by_cases hj : j = i
      · subst hj
        exact absurd (by simp [hl]) (hn (next (exec c t pool.world).1) (made++[⟨c,(exec c t pool.world).1⟩]))
      · rw [Function.update_of_ne hj]
        refine hd j (fun p made' hp => hn p made' ?_)
        simpa [List.getElem?_set,Ne.symm hj] using hp
    · by_cases hj : j = i
      · subst hj
        rw [List.getElem?_set_self hl] at hp
        simp only [Option.some.injEq,Prod.mk.injEq] at hp
        obtain ⟨rfl,rfl⟩ := hp
        rw [Function.update_self]
        exact ⟨hr.2 _ _ he,ha made c _ _ g hm he⟩
      · rw [Function.update_of_ne hj]
        refine hk j p made' ?_
        simpa [List.getElem?_set,Ne.symm hj] using hp
  · exact h

theorem Sound.outside (h : pool.Sound may reply post agrees idle inv) {e : E}
    (ho : ∀ known, (∀ i p made, pool.workers[i]? = some (some p, made) → agrees made (known i)) →
      (∀ i, (∀ (p : Prog C R α) made, pool.workers[i]? ≠ some (some p, made)) → known i = idle) → inv pool.world known →
      inv (change pool.world e) known) :
    (pool.step exec change (.outside e)).Sound may reply post agrees idle inv := by
  obtain ⟨known,hn,hi,hk⟩ := h
  exact ⟨known,ho known (fun i p made hp => (hk i p made hp).2) hi hn,hi,hk⟩

end Pool

/-! Whole runs of a program, call by call, and programs that are parts of others. -/

namespace Prog

variable {C T W G : Type} {R : C → Type} {α β ε : Type}

section Traces

variable (exec : (c : C) → T → W → R c × W)

/-- The calls of the whole program, each with the world in which it is made and with its reply. -/
def trace : Prog C R α → W → (ℕ → T) → List (W × ((c : C) × R c))
  | done _, _, _ => []
  | call c next, w, ts =>
    (w, ⟨c, (exec c (ts 0) w).1⟩) :: trace (next (exec c (ts 0) w).1) (exec c (ts 0) w).2 (fun n => ts (n + 1))

/-- The replies of a world whose circumstances meet `ok`, in a run whose calls meet `meets`. -/
def RepliesMeeting (ok : T → Prop) (meets : W → ((c : C) × R c) → Prop) (c : C) (w : W) (r : R c) (w' : W) : Prop :=
  meets w ⟨c, r⟩ ∧ Replies exec ok c w r w'

variable {exec} {ok : T → Prop} {meets : W → ((c : C) × R c) → Prop}

theorem Keeps.finish_of_trace {may : C → W → Prop} {post : α → W → Prop} {p : Prog C R α} {w : W}
    (h : p.Keeps may (RepliesMeeting exec ok meets) post w) {ts : ℕ → T} (hs : ∀ n, ok (ts n))
    (ht : ∀ step ∈ p.trace exec w ts, meets step.1 step.2) : post (p.finish exec w ts).1 (p.finish exec w ts).2 := by
  induction p generalizing w ts with
  | done a => exact h
  | call c next ih =>
    have hr : RepliesMeeting exec ok meets c w (exec c (ts 0) w).1 (exec c (ts 0) w).2 :=
      ⟨ht (w, ⟨c,(exec c (ts 0) w).1⟩) List.mem_cons_self,ts 0,hs 0,rfl⟩
    exact ih _ (h.2 _ _ hr) (fun n => hs (n+1)) (fun step he => ht step (List.mem_cons_of_mem _ he))

end Traces

section Rules

variable {may : C → G → Prop} {reply : (c : C) → G → R c → G → Prop}

/-- The rule of a loop that carries a value; `inv` speaks of the value and of what is still to be done. -/
theorem Keeps.foldlM (inv : β → List α → G → Prop) {post : Except ε β → G → Prop} {body : β → α → ExceptT ε (Prog C R) β}
    (hb : ∀ b a rest g, inv b (a::rest) g →
      (body b a).run.Keeps may reply (Outcome (fun b' g' => inv b' rest g') (fun e g' => post (.error e) g')) g)
    (he : ∀ b g, inv b [] g → post (.ok b) g) {as : List α} {b : β} {g : G} (h : inv b as g) :
    (as.foldlM body b).run.Keeps may reply post g := by
  induction as generalizing b g with
  | nil => exact he b g h
  | cons a as ih =>
    rw [List.foldlM_cons]
    refine Keeps.andThen ((hb b a as g h).mono (fun r g' hr => ?_))
    cases r with
    | ok b' => exact ih hr
    | error e => exact hr

end Rules

section Parts

variable {C' : Type} {R' : C' → Type}

/-- A program as a part of one that makes other calls too. -/
def embed (f : C → C') (g : (c : C) → R' (f c) → R c) : Prog C R α → Prog C' R' α
  | done a => done a
  | call c next => call (f c) (fun r => (next (g c r)).embed f g)

variable {f : C → C'} {g : (c : C) → R' (f c) → R c} {may : C' → G → Prop} {reply : (c : C') → G → R' c → G → Prop}

theorem Keeps.embed {post : α → G → Prop} {p : Prog C R α} {w : G}
    (h : p.Keeps (fun c w => may (f c) w) (fun c w r w' => ∃ r', g c r' = r ∧ reply (f c) w r' w') post w) :
    (p.embed f g).Keeps may reply post w := by
  induction p generalizing w with
  | done a => exact h
  | call c next ih => exact ⟨h.1,fun r w' hr => ih (g c r) (h.2 (g c r) w' ⟨r,rfl,hr⟩)⟩

end Parts

end Prog
