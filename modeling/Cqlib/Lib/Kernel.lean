import Mathlib.Data.Multiset.Bind

/-!
# Programs with early exits

A kernel takes a state to the multiset of its outcomes, each with the way in which it leaves.
-/

namespace Cqlib.Lib

inductive Exit where
  | normal | break_ | continue_
deriving DecidableEq

abbrev Kernel (σ : Type*) := σ → Multiset (Exit × σ)

namespace Kernel

variable {σ τ : Type*}

def skip : Kernel σ := fun s => {(.normal, s)}

def exitBy (e : Exit) : Kernel σ := fun s => {(e, s)}

def ofOutcomes (f : σ → Multiset σ) : Kernel σ := fun s => (f s).map (Prod.mk .normal)

/-- What follows is skipped on an early exit. -/
def andThen (K L : Kernel σ) : Kernel σ := fun s => (K s).bind fun
  | (.normal, t) => L t
  | (e, t) => {(e, t)}

def breakable (K : Kernel σ) : Kernel σ := fun s => (K s).map fun
  | (.break_, t) => (.normal, t)
  | (e, t) => (e, t)

def choose {α : Type*} (choice : σ → Option α) (K : α → Kernel σ) : Kernel σ := fun s =>
  match choice s with
  | some a => K a s
  | none => 0

/-- One round of a loop and what comes after it. -/
def round (body next : Kernel σ) : Kernel σ := fun s => (body s).bind fun
  | (.normal, t) | (.continue_, t) => next t
  | (.break_, t) => {(.normal, t)}

def whileLoop (condition : σ → Option Bool) (body : Kernel σ) : ℕ → Kernel σ
  | 0 => fun _ => 0
  | n + 1 => choose condition fun holds =>
    if holds then round body (whileLoop condition body n) else skip

/-- Counts up to `stop`, and puts each count into the state. -/
def countLoop (enter : ℕ → σ → Option σ) (stop step : ℕ) (body : Kernel σ) : ℕ → ℕ → Kernel σ
  | 0, _ => fun _ => 0
  | n + 1, count =>
    if count < stop then fun s => match enter count s with
      | some t => round body (countLoop enter stop step body n (count + step)) t
      | none => 0
    else skip

/-! ## Sequences -/

@[simp] theorem skip_andThen (K : Kernel σ) : skip.andThen K = K := by
  funext s
  simp [andThen, skip]

@[simp] theorem andThen_skip (K : Kernel σ) : K.andThen skip = K := by
  funext s
  have h : (fun o : Exit × σ => match o with
      | (.normal, t) => skip t
      | (e, t) => ({(e, t)} : Multiset (Exit × σ))) = fun o => {o} := by
    funext ⟨e, t⟩
    cases e <;> rfl
  unfold andThen
  rw [h, Multiset.bind_singleton, Multiset.map_id']

theorem andThen_assoc (K L M : Kernel σ) : (K.andThen L).andThen M = K.andThen (L.andThen M) := by
  funext s
  unfold andThen
  rw [Multiset.bind_assoc]
  congr 1
  funext ⟨e, t⟩
  cases e <;> simp

theorem ofOutcomes_andThen (f : σ → Multiset σ) (K : Kernel σ) (s : σ) :
    (ofOutcomes f).andThen K s = (f s).bind K := by
  unfold andThen ofOutcomes
  rw [Multiset.bind_map]

/-! ## Simulation along a function -/

/-- The second kernel does on the images what the first one does. -/
def Along (f : σ → τ) (K : Kernel σ) (L : Kernel τ) : Prop :=
  ∀ s, L (f s) = (K s).map (Prod.map id f)

variable {f : σ → τ} {K K' : Kernel σ} {L L' : Kernel τ}

theorem along_skip (f : σ → τ) : Along f skip skip := by
  intro s
  simp [skip]

theorem along_exitBy (f : σ → τ) (e : Exit) : Along f (exitBy e) (exitBy e) := by
  intro s
  simp [exitBy]

theorem along_ofOutcomes {g : σ → Multiset σ} {g' : τ → Multiset τ}
    (h : ∀ s, g' (f s) = (g s).map f) : Along f (ofOutcomes g) (ofOutcomes g') := by
  intro s
  simp [ofOutcomes, h]

theorem Along.andThen (h : Along f K L) (h' : Along f K' L') :
    Along f (K.andThen K') (L.andThen L') := by
  intro s
  unfold Kernel.andThen
  rw [h s, Multiset.bind_map, Multiset.map_bind]
  congr 1
  funext ⟨e, t⟩
  cases e
  · exact h' t
  · simp
  · simp

theorem Along.breakable (h : Along f K L) : Along f K.breakable L.breakable := by
  intro s
  unfold Kernel.breakable
  rw [h s, Multiset.map_map, Multiset.map_map]
  congr 1
  funext ⟨e, t⟩
  cases e <;> rfl

theorem Along.round (h : Along f K L) (h' : Along f K' L') :
    Along f (K.round K') (L.round L') := by
  intro s
  unfold Kernel.round
  rw [h s, Multiset.bind_map, Multiset.map_bind]
  congr 1
  funext ⟨e, t⟩
  cases e
  · exact h' t
  · simp
  · exact h' t

theorem along_choose {α β : Type*} {choice : σ → Option α} {choice' : τ → Option β} {g : α → β}
    {M : α → Kernel σ} {N : β → Kernel τ} (hchoice : ∀ s, choice' (f s) = (choice s).map g)
    (h : ∀ a, Along f (M a) (N (g a))) : Along f (choose choice M) (choose choice' N) := by
  intro s
  unfold choose
  rw [hchoice s]
  cases choice s with
  | none => rfl
  | some a => exact h a s

theorem along_whileLoop {condition : σ → Option Bool} {condition' : τ → Option Bool}
    (hcondition : ∀ s, condition' (f s) = condition s) (h : Along f K L) (n : ℕ) :
    Along f (whileLoop condition K n) (whileLoop condition' L n) := by
  induction n with
  | zero =>
    intro s
    rfl
  | succ n ih =>
    refine @along_choose _ _ f _ _ condition condition' id _ _ (fun s => ?_) fun holds => ?_
    · rw [hcondition, Option.map_id_apply]
    · cases holds
      · exact along_skip f
      · exact h.round ih

theorem along_countLoop {enter : ℕ → σ → Option σ} {enter' : ℕ → τ → Option τ}
    (henter : ∀ count s, enter' count (f s) = (enter count s).map f) (stop step : ℕ)
    (h : Along f K L) (n count : ℕ) :
    Along f (countLoop enter stop step K n count) (countLoop enter' stop step L n count) := by
  induction n generalizing count with
  | zero =>
    intro s
    rfl
  | succ n ih =>
    unfold countLoop
    split
    · intro s
      dsimp only
      rw [henter]
      cases enter count s with
      | none => rfl
      | some t => exact h.round (ih _) t
    · exact along_skip f

end Kernel

end Cqlib.Lib
