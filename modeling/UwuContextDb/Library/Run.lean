import Mathlib.Data.List.Basic

/-! Runs of a deterministic state machine, and the two rules every result about a run uses:
an inversion of successful computations and the induction over steps that meet a condition. -/

namespace StateMachine

open List (mapM_cons mem_cons mem_cons_self mem_cons_of_mem cons_prefix_cons)

theorem bind_eq_ok {ε α β : Type} {x : Except ε α} {f : α → Except ε β} {b : β} :
    (x >>= f) = .ok b ↔ ∃ a, x = .ok a ∧ f a = .ok b := by
  cases x with
  | error e => simp [bind,Except.bind]
  | ok a => simp [bind,Except.bind]

theorem map_eq_ok {ε α β : Type} {x : Except ε α} {f : α → β} {b : β} :
    x.map f = .ok b ↔ ∃ a, x = .ok a ∧ f a = b := by
  cases x with
  | error e => simp [Except.map]
  | ok a => simp [Except.map]

theorem map_bind {ε α β γ : Type} (x : Except ε α) (f : α → Except ε β) (g : β → γ) :
    (x >>= f).map g = x >>= fun a => (f a).map g := by
  cases x <;> rfl

theorem bind_map {ε α β γ : Type} (x : Except ε α) (g : α → β) (f : β → Except ε γ) :
    (x.map g >>= f) = x >>= fun a => f (g a) := by
  cases x <;> rfl

theorem mapM_eq_ok {ε α β : Type} {f : α → Except ε β} {as : List α} {bs : List β} (h : as.mapM f = .ok bs) :
    List.Forall₂ (fun a b => f a = .ok b) as bs := by
  induction as generalizing bs with
  | nil =>
    cases h
    exact .nil
  | cons a as ih =>
    rw [mapM_cons] at h
    obtain ⟨b,hb,h⟩ := bind_eq_ok.mp h
    obtain ⟨rest,hr,h⟩ := bind_eq_ok.mp h
    cases h
    exact .cons hb (ih hr)

/-- What a successful `mapM` returns, it made of a member. -/
theorem exists_of_mem_mapM {ε α β : Type} {f : α → Except ε β} {as : List α} {bs : List β} (h : as.mapM f = .ok bs) :
    ∀ b ∈ bs, ∃ a ∈ as, f a = .ok b := by
  have hl := mapM_eq_ok h
  clear h
  induction hl with
  | nil => simp
  | cons hab _ ih =>
    intro b hb
    rcases mem_cons.mp hb with rfl | hb
    · exact ⟨_,mem_cons_self,hab⟩
    · obtain ⟨a,ha,hf⟩ := ih b hb
      exact ⟨a,mem_cons_of_mem _ ha,hf⟩

/-- Of every member, a successful `mapM` returns what it made. -/
theorem exists_mapM_of_mem {ε α β : Type} {f : α → Except ε β} {as : List α} {bs : List β} (h : as.mapM f = .ok bs) :
    ∀ a ∈ as, ∃ b ∈ bs, f a = .ok b := by
  have hl := mapM_eq_ok h
  clear h
  induction hl with
  | nil => simp
  | cons hab _ ih =>
    intro a ha
    rcases mem_cons.mp ha with rfl | ha
    · exact ⟨_,mem_cons_self,hab⟩
    · obtain ⟨b,hb,hf⟩ := ih a ha
      exact ⟨b,mem_cons_of_mem _ hb,hf⟩

@[simp] theorem toOption_eq_some {ε α : Type} {x : Except ε α} {a : α} : x.toOption = some a ↔ x = .ok a := by
  cases x <;> simp [Except.toOption]

@[simp] theorem toOption_mapError {ε ε' α : Type} (f : ε → ε') (x : Except ε α) :
    (x.mapError f).toOption = x.toOption := by
  cases x <;> rfl

theorem mapError_eq_ok {ε ε' α : Type} {x : Except ε α} {f : ε → ε'} {a : α} : x.mapError f = .ok a ↔ x = .ok a := by
  cases x with
  | ok b =>
    constructor
    · intro h
      cases h
      rfl
    · intro h
      cases h
      rfl
  | error e => exact iff_of_false (by rintro ⟨⟩) (by rintro ⟨⟩)

/-- What a `mapM` gives is what it gives of each member. -/
theorem mapM_eq_ok_iff {ε α β : Type} {f : α → Except ε β} {as : List α} {bs : List β} :
    as.mapM f = .ok bs ↔ as.map (fun a => (f a).toOption) = bs.map some := by
  induction as generalizing bs with
  | nil => cases bs <;> simp [pure,Except.pure]
  | cons a as ih =>
    rw [mapM_cons,List.map_cons]
    cases f a with
    | error err => cases bs <;> simp [bind,Except.bind,Except.toOption]
    | ok b =>
      have hr : ∀ rest, (as.mapM f >>= fun bs => pure (b::bs)) = .ok rest ↔
          ∃ bs, as.mapM f = .ok bs ∧ b::bs = rest := by
        intro rest
        rw [bind_eq_ok]
        simp [pure,Except.pure]
      have hb : (Except.ok b : Except ε β).toOption = some b := rfl
      rw [show (Except.ok b >>= fun b => as.mapM f >>= fun bs => pure (b::bs)) = (as.mapM f >>= fun bs => pure (b::bs))
        from rfl,hr,hb]
      cases bs with
      | nil => simp
      | cons c bs => simp [ih,and_comm]

/-- A `mapM` succeeds if it does on every member. -/
theorem mapM_isOk {ε α β : Type} {f : α → Except ε β} {as : List α} (h : ∀ a ∈ as, ∃ b, f a = .ok b) :
    ∃ bs, as.mapM f = .ok bs := by
  induction as with
  | nil => exact ⟨[],rfl⟩
  | cons a as ih =>
    obtain ⟨b,hb⟩ := h a mem_cons_self
    obtain ⟨bs,hs⟩ := ih (fun a ha => h a (mem_cons_of_mem _ ha))
    refine ⟨b::bs,?_⟩
    rw [mapM_cons,hb]
    exact bind_eq_ok.mpr ⟨b,rfl,bind_eq_ok.mpr ⟨bs,hs,rfl⟩⟩

theorem mapM_bind_eq_ok {ε α β γ : Type} {f : α → Except ε β} {g : β → Except ε γ} {as : List α} {cs : List γ} :
    as.mapM (fun a => f a >>= g) = .ok cs ↔ ∃ bs, as.mapM f = .ok bs ∧ bs.mapM g = .ok cs := by
  induction as generalizing cs with
  | nil => simp [pure,Except.pure]
  | cons a as ih =>
    have ho : ∀ {α' β' : Type} {h : α' → Except ε β'} {x : α'} {xs : List α'} {ys : List β'},
        (x::xs).mapM h = .ok ys ↔ ∃ y rest, h x = .ok y ∧ xs.mapM h = .ok rest ∧ y::rest = ys := by
      intro α' β' h x xs ys
      simp [mapM_cons,bind_eq_ok,pure,Except.pure]
    rw [ho]
    constructor
    · intro h
      obtain ⟨c,rest,hc,hr,rfl⟩ := h
      obtain ⟨b,hb,hc⟩ := bind_eq_ok.mp hc
      obtain ⟨bs,hs,hr⟩ := ih.mp hr
      exact ⟨b::bs,ho.mpr ⟨b,bs,hb,hs,rfl⟩,ho.mpr ⟨c,rest,hc,hr,rfl⟩⟩
    · intro h
      obtain ⟨all,ha,hcs⟩ := h
      obtain ⟨b,bs,hb,hs,rfl⟩ := ho.mp ha
      obtain ⟨c,rest,hc,hr,rfl⟩ := ho.mp hcs
      exact ⟨c,rest,bind_eq_ok.mpr ⟨b,hb,hc⟩,ih.mpr ⟨bs,hs,hr⟩,rfl⟩

/-- What every step of a successful `foldlM` preserves, the whole of it preserves. -/
theorem foldlM_preserves {ε α β : Type} {f : β → α → Except ε β} {P : β → Prop} {as : List α}
    (hs : ∀ b, ∀ a ∈ as, ∀ b', P b → f b a = .ok b' → P b') {b b' : β} (hb : P b)
    (h : as.foldlM f b = .ok b') : P b' := by
  induction as generalizing b with
  | nil =>
    cases h
    exact hb
  | cons a as ih =>
    rw [List.foldlM_cons] at h
    obtain ⟨next,hn,h⟩ := bind_eq_ok.mp h
    exact ih (fun b a ha => hs b a (mem_cons_of_mem _ ha)) (hs b a mem_cons_self next hb hn) h

variable {S L : Type} (step : S → L → S)

def run (s : S) (ls : List L) : S := ls.foldl step s

/-- Every step of the run meets `ok` in the state it starts from. -/
def Meets (ok : S → L → Prop) : S → List L → Prop
  | _, [] => True
  | s, l::ls => ok s l ∧ Meets ok (step s l) ls

instance decidableMeets {ok : S → L → Prop} [∀ s l, Decidable (ok s l)] :
    ∀ (s : S) (ls : List L), Decidable (Meets step ok s ls)
  | _, [] => .isTrue trivial
  | s, l::ls =>
    have : Decidable (Meets step ok (step s l) ls) := decidableMeets (step s l) ls
    inferInstanceAs (Decidable (ok s l ∧ Meets step ok (step s l) ls))

@[simp] theorem run_nil (s : S) : run step s [] = s := rfl

@[simp] theorem run_cons (s : S) (l : L) (ls : List L) : run step s (l::ls) = run step (step s l) ls := rfl

theorem run_append (s : S) (ls ls' : List L) : run step s (ls++ls') = run step (run step s ls) ls' :=
  List.foldl_append

variable {step}

theorem meets_append {ok : S → L → Prop} {s : S} {ls ls' : List L} :
    Meets step ok s (ls++ls') ↔ Meets step ok s ls ∧ Meets step ok (run step s ls) ls' := by
  induction ls generalizing s with
  | nil => simp [Meets]
  | cons l ls ih => simp [Meets,ih,and_assoc]

theorem Meets.and {ok ok' : S → L → Prop} {s : S} {ls : List L} (h : Meets step ok s ls) (h' : Meets step ok' s ls) :
    Meets step (fun s l => ok s l ∧ ok' s l) s ls := by
  induction ls generalizing s with
  | nil => trivial
  | cons l ls ih => exact ⟨⟨h.1,h'.1⟩,ih h.2 h'.2⟩

theorem meets_of_mem {ok : S → L → Prop} {ls : List L} (h : ∀ l ∈ ls, ∀ s, ok s l) (s : S) : Meets step ok s ls := by
  induction ls generalizing s with
  | nil => trivial
  | cons l ls ih => exact ⟨h l mem_cons_self s,ih (fun l hl => h l (mem_cons_of_mem _ hl)) (step s l)⟩

/-- Two conditions that agree where an invariant holds, which their steps keep, are met by the same runs. -/
theorem meets_congr {inv : S → Prop} {ok ok' : S → L → Prop} {ls : List L}
    (hi : ∀ s, ∀ l ∈ ls, inv s → (ok s l ↔ ok' s l)) (ht : ∀ s, ∀ l ∈ ls, inv s → ok' s l → inv (step s l))
    {s : S} (hs : inv s) :
    Meets step ok s ls ↔ Meets step ok' s ls := by
  induction ls generalizing s with
  | nil => exact Iff.rfl
  | cons l ls ih =>
    have hf := hi s l mem_cons_self hs
    have hr : inv (step s l) → (Meets step ok (step s l) ls ↔ Meets step ok' (step s l) ls) :=
      ih (fun s l hl => hi s l (mem_cons_of_mem _ hl)) (fun s l hl => ht s l (mem_cons_of_mem _ hl))
    constructor
    · rintro ⟨hl,hls⟩
      exact ⟨hf.mp hl,(hr (ht s l mem_cons_self hs (hf.mp hl))).mp hls⟩
    · rintro ⟨hl,hls⟩
      exact ⟨hf.mpr hl,(hr (ht s l mem_cons_self hs hl)).mpr hls⟩

/-- A run meets `ok` exactly if `ok` holds of each of its steps in the state that the steps before it reach. -/
theorem meets_iff_front {ok : S → L → Prop} {s : S} {ls : List L} :
    Meets step ok s ls ↔ ∀ front l, front ++ [l] <+: ls → ok (run step s front) l := by
  induction ls generalizing s with
  | nil => simp [Meets]
  | cons l ls ih =>
    constructor
    · rintro ⟨hl,hs⟩ front l' hp
      cases front with
      | nil =>
        obtain ⟨rfl,-⟩ := cons_prefix_cons.mp hp
        exact hl
      | cons first front =>
        obtain ⟨rfl,hr⟩ := cons_prefix_cons.mp hp
        exact ih.mp hs front l' hr
    · intro h
      refine ⟨h [] l (by simp),ih.mpr (fun front l' hp => ?_)⟩
      exact h (l::front) l' (cons_prefix_cons.mpr ⟨rfl,hp⟩)

/-- What one step preserves, a run preserves. -/
theorem run_invariant {inv : S → Prop} {ok : S → L → Prop}
    (ht : ∀ s l, inv s → ok s l → inv (step s l)) {s : S} {ls : List L} (hs : inv s)
    (h : Meets step ok s ls) : inv (run step s ls) := by
  induction ls generalizing s with
  | nil => exact hs
  | cons l ls ih => exact ih (ht s l hs h.1) h.2

/-- What a step preserves exactly where it meets `ok` holds all along a run exactly where every step does. -/
theorem meets_iff_invariant {inv : S → Prop} {ok : S → L → Prop} (ht : ∀ s l, inv s → (inv (step s l) ↔ ok s l))
    {s : S} {ls : List L} (hs : inv s) : (∀ ls', ls' <+: ls → inv (run step s ls')) ↔ Meets step ok s ls := by
  induction ls generalizing s with
  | nil =>
    refine iff_of_true (fun ls' hp => ?_) trivial
    rw [List.prefix_nil.mp hp]
    exact hs
  | cons l ls ih =>
    constructor
    · intro h
      have hl : inv (step s l) := h [l] (List.prefix_append [l] ls)
      exact ⟨(ht s l hs).mp hl,(ih hl).mp (fun ls' hp => h (l::ls') (cons_prefix_cons.mpr ⟨rfl,hp⟩))⟩
    · rintro ⟨ho,hm⟩ ls' hp
      cases ls' with
      | nil => exact hs
      | cons l' ls' =>
        obtain ⟨rfl,hr⟩ := cons_prefix_cons.mp hp
        exact (ih ((ht s l' hs).mpr ho)).mpr hm ls' hr

/-- What every step preserves, every run preserves. -/
theorem run_preserves {inv : S → Prop} (ht : ∀ s l, inv s → inv (step s l)) {s : S} (hs : inv s) (ls : List L) :
    inv (run step s ls) := by
  induction ls generalizing s with
  | nil => exact hs
  | cons l ls ih => exact ih (ht s l hs)

/-- What one label establishes, and every label keeps, holds at the end for each label of the run. -/
theorem run_establishes {P : L → S → Prop} {ls : List L} (he : ∀ s, ∀ l ∈ ls, P l (step s l))
    (hk : ∀ s l l', P l s → P l (step s l')) (s : S) : ∀ l ∈ ls, P l (run step s ls) := by
  induction ls generalizing s with
  | nil => simp
  | cons first ls ih =>
    intro l hl
    rcases mem_cons.mp hl with rfl | hl
    · exact run_preserves (fun s l' hs => hk s l l' hs) (he s l (by simp)) ls
    · exact ih (fun s l hl => he s l (mem_cons_of_mem _ hl)) (step s first) l hl

end StateMachine
