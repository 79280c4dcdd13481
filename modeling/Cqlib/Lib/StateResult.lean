import Mathlib.Data.List.Basic

/-!
# Methods on a mutable receiver that may fail

A call returns a result and leaves a state, also on an error. `Keeps` says what holds between the
states before and after every call, and `Yields` what a successful call returns.
-/

namespace Cqlib.Lib

abbrev StateResult (σ ε α : Type) := ExceptT ε (StateM σ) α

namespace StateResult

variable {σ ε α β : Type}

def exec (m : StateResult σ ε α) (s : σ) : Except ε α × σ := m.run.run s

/-- A method that only reads the receiver. -/
def check (f : σ → Except ε α) : StateResult σ ε α := ExceptT.mk fun s => (f s, s)

/-! ## Running -/

@[simp] theorem exec_pure (a : α) (s : σ) : exec (pure a : StateResult σ ε α) s = (.ok a, s) := rfl

@[simp] theorem exec_throw (e : ε) (s : σ) :
    exec (throw e : StateResult σ ε α) s = (.error e, s) := rfl

@[simp] theorem exec_get (s : σ) : exec (get : StateResult σ ε σ) s = (.ok s, s) := rfl

@[simp] theorem exec_set (s t : σ) : exec (set t : StateResult σ ε PUnit) s = (.ok ⟨⟩, t) := rfl

@[simp] theorem exec_modify (f : σ → σ) (s : σ) :
    exec (modify f : StateResult σ ε PUnit) s = (.ok ⟨⟩, f s) := rfl

@[simp] theorem exec_liftExcept (x : Except ε α) (s : σ) :
    exec (liftExcept x : StateResult σ ε α) s = (x, s) := by
  cases x <;> rfl

theorem liftExcept_ok_bind (a : α) (f : α → StateResult σ ε β) :
    (liftExcept (Except.ok a : Except ε α) >>= f : StateResult σ ε β) = f a := rfl

variable {s t : σ}

theorem exec_liftExcept_eq_ok {x : Except ε α} {a : α} :
    exec (liftExcept x : StateResult σ ε α) s = (.ok a, t) ↔ x = .ok a ∧ s = t := by
  simp

@[simp] theorem exec_check (f : σ → Except ε α) (s : σ) : exec (check f) s = (f s, s) := rfl

theorem exec_bind (m : StateResult σ ε α) (f : α → StateResult σ ε β) (s : σ) :
    exec (m >>= f) s = match exec m s with
      | (.ok a, t) => exec (f a) t
      | (.error e, t) => (.error e, t) := by
  change (ExceptT.bindCont (m := StateM σ) f (m.run.run s).1).run (m.run.run s).2 = _
  unfold exec
  rcases m.run.run s with ⟨_ | _, _⟩ <;> rfl

variable {m : StateResult σ ε α} {f : α → StateResult σ ε β}

theorem exec_bind_of_ok {a : α} (h : exec m s = (.ok a, t)) :
    exec (m >>= f) s = exec (f a) t := by
  rw [exec_bind, h]

variable {e : ε}

theorem exec_bind_of_error (h : exec m s = (.error e, t)) : exec (m >>= f) s = (.error e, t) := by
  rw [exec_bind, h]

theorem exec_bind_eq_ok {b : β} :
    exec (m >>= f) s = (.ok b, t) ↔ ∃ a u, exec m s = (.ok a, u) ∧ exec (f a) u = (.ok b, t) := by
  rw [exec_bind]
  rcases exec m s with ⟨_ | _, _⟩ <;> simp

theorem exec_bind_eq_error : exec (m >>= f) s = (.error e, t) ↔
      exec m s = (.error e, t) ∨ ∃ a u, exec m s = (.ok a, u) ∧ exec (f a) u = (.error e, t) := by
  rw [exec_bind]
  rcases exec m s with ⟨_ | _, _⟩ <;> simp

theorem exec_bind_pure (m : StateResult σ ε α) (f : α → β) (s : σ) :
    exec (m >>= fun a => pure (f a)) s = ((exec m s).1.map f, (exec m s).2) := by
  rw [exec_bind]
  rcases exec m s with ⟨_ | _, _⟩ <;> rfl

theorem exec_bind_pure_eq_error {f : α → β} :
    exec (m >>= fun a => pure (f a)) s = (.error e, t) ↔ exec m s = (.error e, t) := by
  rw [exec_bind_pure]
  rcases exec m s with ⟨_ | _, _⟩ <;> simp [Except.map]

/-- The call with its outcome as a value: the caller goes on after an error. -/
def attempt (m : StateResult σ ε α) : StateResult σ ε (Except ε α) :=
  ExceptT.mk fun s => (.ok (exec m s).1, (exec m s).2)

@[simp] theorem exec_attempt (m : StateResult σ ε α) (s : σ) :
    exec (attempt m) s = (.ok (exec m s).1, (exec m s).2) := rfl

def orElseUndo (m : StateResult σ ε α) (undo : σ → σ) : StateResult σ ε α :=
  ExceptT.mk fun s => match exec m s with
    | (.ok a, t) => (.ok a, t)
    | (.error e, t) => (.error e, undo t)

theorem exec_orElseUndo (m : StateResult σ ε α) (undo : σ → σ) (s : σ) :
    exec (orElseUndo m undo) s = match exec m s with
      | (.ok a, t) => (.ok a, t)
      | (.error e, t) => (.error e, undo t) := rfl

/-! ## Relations between the states before and after -/

/-- However the call ends, the states before and after are related. -/
def Keeps (R : σ → σ → Prop) (m : StateResult σ ε α) : Prop := ∀ s, R s (exec m s).2

section Keeps

variable {R : σ → σ → Prop}

variable {m : StateResult σ ε α}

theorem Keeps.of_exec (h : Keeps R m) {r : Except ε α} (hexec : exec m s = (r, t)) : R s t := by
  have hs := h s
  rwa [hexec] at hs

section

variable (hrefl : ∀ s, R s s)

include hrefl

theorem keeps_pure (a : α) : Keeps R (pure a : StateResult σ ε α) :=
  fun s => hrefl s

theorem keeps_throw (e : ε) : Keeps R (throw e : StateResult σ ε α) :=
  fun s => hrefl s

theorem keeps_check (f : σ → Except ε α) : Keeps R (check f) :=
  fun s => hrefl s

theorem keeps_liftExcept (x : Except ε α) : Keeps R (liftExcept x : StateResult σ ε α) := by
  intro s
  cases x <;> exact hrefl s

end

theorem keeps_modify {f : σ → σ} (h : ∀ s, R s (f s)) :
    Keeps R (modify f : StateResult σ ε PUnit) := h

theorem keeps_attempt (h : Keeps R m) : Keeps R (attempt m) := h

theorem keeps_bind (htrans : ∀ s t u, R s t → R t u → R s u) (hm : Keeps R m)
    (hf : ∀ a, Keeps R (f a)) :
    Keeps R (m >>= f) := by
  intro s
  have hs := hm s
  rw [exec_bind]
  rcases h : exec m s with ⟨_ | a, t⟩
  · simpa [h] using hs
  · rw [h] at hs
    exact htrans _ _ _ hs (hf a t)

end Keeps

variable {m : StateResult σ ε α}

/-- What comes after the first call relates its final state to that of the whole. -/
theorem keeps_tail {R : σ → σ → Prop} (hrefl : ∀ s, R s s) (hf : ∀ a, Keeps R (f a)) (s : σ) :
    R (exec m s).2 (exec (m >>= f) s).2 := by
  rw [exec_bind]
  rcases exec m s with ⟨_ | a, t⟩
  · exact hrefl t
  · exact hf a t

/-! ## Calls that fail without a trace -/

/-- A call that fails leaves the state as it was. -/
def Atomic (m : StateResult σ ε α) : Prop := ∀ s e t, exec m s = (.error e, t) → t = s

theorem atomic_throw (e : ε) : Atomic (throw e : StateResult σ ε α) := by
  rintro s e t ⟨⟩
  rfl

theorem atomic_check_bind {f : σ → Except ε α} {m : α → StateResult σ ε β}
    (hm : ∀ a, Atomic (m a)) : Atomic (check f >>= m) := by
  intro s e t h
  rcases exec_bind_eq_error.mp h with h | ⟨a, u, hcheck, h⟩
  · exact (Prod.mk.inj h).2.symm
  · rw [← (Prod.mk.inj hcheck).2] at h
    exact hm a s e t h

theorem atomic_bind_pure {f : α → β} (hm : Atomic m) :
    Atomic (m >>= fun a => pure (f a)) :=
  fun s e t h => hm s e t (exec_bind_pure_eq_error.mp h)

/-- A method given as a function from receiver to receiver. -/
def inPlace (f : σ → Except ε σ) : StateResult σ ε Unit := do set (← liftExcept (f (← get)))

theorem atomic_inPlace (f : σ → Except ε σ) : Atomic (inPlace f) := by
  intro s e t h
  unfold inPlace at h
  rw [exec_bind_of_ok (exec_get s)] at h
  rcases exec_bind_eq_error.mp h with hlift | ⟨u, v, -, hset⟩
  · rw [exec_liftExcept] at hlift
    exact (Prod.mk.inj hlift).2.symm
  · cases hset

theorem exec_inPlace_eq_ok {f : σ → Except ε σ} {u : Unit} :
    exec (inPlace f) s = (.ok u, t) ↔ f s = .ok t := by
  unfold inPlace
  rw [exec_bind_of_ok (exec_get s), exec_bind, exec_liftExcept]
  cases f s <;> simp

/-- The call succeeds exactly when `p` holds, and fails without a trace. -/
structure SucceedsIff (m : StateResult σ ε α) (p : Prop) : Prop where
  ok : p → ∀ s, ∃ a t, exec m s = (.ok a, t)
  error : ¬ p → ∀ s, ∃ e, exec m s = (.error e, s)

theorem succeedsIff_pure (a : α) : SucceedsIff (pure a : StateResult σ ε α) True :=
  ⟨fun _ s => ⟨a, s, rfl⟩, fun h => absurd trivial h⟩

theorem succeedsIff_modify (f : σ → σ) : SucceedsIff (modify f : StateResult σ ε PUnit) True :=
  ⟨fun _ s => ⟨⟨⟩, f s, rfl⟩, fun h => absurd trivial h⟩

variable {p : Prop}

theorem SucceedsIff.congr {q : Prop} (h : SucceedsIff m p) (hpq : p ↔ q) : SucceedsIff m q := by
  rwa [propext hpq] at h

theorem SucceedsIff.bind_total (hm : SucceedsIff m True) (hf : ∀ a, SucceedsIff (f a) True) :
    SucceedsIff (m >>= f) True := by
  refine ⟨fun _ s => ?_, fun h => absurd trivial h⟩
  obtain ⟨a, t, hexec⟩ := hm.ok trivial s
  rw [exec_bind_of_ok hexec]
  exact (hf a).ok trivial t

theorem SucceedsIff.check_bind {f : σ → Except ε PUnit} {m : PUnit → StateResult σ ε β} {q : Prop}
    (hf : ∀ s, f s = .ok ⟨⟩ ↔ p) (hm : SucceedsIff (m ⟨⟩) q) :
    SucceedsIff (check f >>= m) (p ∧ q) := by
  refine ⟨fun hpq s => ?_, fun hpq s => ?_⟩
  · rw [exec_bind, exec_check, (hf s).mpr hpq.1]
    exact hm.ok hpq.2 s
  · rw [exec_bind, exec_check]
    cases h : f s with
    | error e => exact ⟨e, rfl⟩
    | ok a => exact hm.error (fun hq => hpq ⟨(hf s).mp h, hq⟩) s

theorem succeedsIff_inPlace {f : σ → Except ε σ} (h : ∀ s, (∃ t, f s = .ok t) ↔ p) :
    SucceedsIff (inPlace f) p := by
  have hexec : ∀ s, exec (inPlace f) s = match f s with
      | .ok t => (.ok (), t)
      | .error e => (.error e, s) := by
    intro s
    unfold inPlace
    rw [exec_bind_of_ok (exec_get s), exec_bind, exec_liftExcept]
    cases f s <;> rfl
  refine ⟨fun hp s => ?_, fun hp s => ?_⟩
  · obtain ⟨t, ht⟩ := (h s).mpr hp
    exact ⟨(), t, by rw [hexec, ht]⟩
  · cases hs : f s with
    | error e => exact ⟨e, by rw [hexec, hs]⟩
    | ok t => exact absurd ((h s).mp ⟨t, hs⟩) hp

theorem SucceedsIff.exists_ok {m : StateResult σ ε PUnit} (h : SucceedsIff m p) (s : σ) :
    (∃ t, exec m s = (.ok ⟨⟩, t)) ↔ p := by
  constructor
  · rintro ⟨t, hexec⟩
    by_contra hp
    obtain ⟨e, herror⟩ := h.error hp s
    rw [herror] at hexec
    cases hexec
  · intro hp
    obtain ⟨_, t, hexec⟩ := h.ok hp s
    exact ⟨t, hexec⟩

/-! ## Two runs side by side -/

section Compositional

variable {σ' : Type}

/-- A relation between calls that return values of one type, and that sequencing keeps. -/
structure Compositional
    (Q : ∀ {α : Type}, StateResult σ ε α → StateResult σ' ε α → Prop) : Prop where
  pure : ∀ {α : Type} (a : α), Q (pure a) (pure a)
  throw : ∀ {α : Type} (e : ε), Q (throw e : StateResult σ ε α) (throw e)
  bind : ∀ {α β : Type} {m : StateResult σ ε α} {m' : StateResult σ' ε α}
    {f : α → StateResult σ ε β} {f' : α → StateResult σ' ε β},
    Q m m' → (∀ a, Q (f a) (f' a)) → Q (m >>= f) (m' >>= f')

theorem Compositional.liftExcept {Q : ∀ {α : Type}, StateResult σ ε α → StateResult σ' ε α → Prop}
    (h : Compositional Q) (x : Except ε α) :
    Q (liftExcept x : StateResult σ ε α) (liftExcept x) := by
  cases x
  · exact h.throw _
  · exact h.pure _

theorem compositional_keeps {R : σ → σ → Prop} (hrefl : ∀ s, R s s)
    (htrans : ∀ s t u, R s t → R t u → R s u) :
    Compositional fun {_} (m : StateResult σ ε _) (_ : StateResult σ ε _) => Keeps R m where
  pure := keeps_pure hrefl
  throw := keeps_throw hrefl
  bind := keeps_bind htrans

/-- `m` does on the part `π` of the state what `m'` does on all of it. -/
def ProjectsTo (π : σ' → σ) (m : StateResult σ ε α) (m' : StateResult σ' ε α) : Prop :=
  ∀ s, exec m (π s) = ((exec m' s).1, π (exec m' s).2)

theorem compositional_projectsTo (π : σ' → σ) :
    Compositional fun {α} (m : StateResult σ ε α) m' => ProjectsTo π m m' where
  pure _ _ := rfl
  throw _ _ := rfl
  bind := by
    intro α β m m' f f' hm hf s
    have hs := hm s
    rcases h : exec m' s with ⟨e | a, t⟩
    · rw [h] at hs
      rw [exec_bind_of_error hs, exec_bind_of_error h]
    · rw [h] at hs
      rw [exec_bind_of_ok hs, exec_bind_of_ok h, hf a t]

end Compositional

end StateResult

end Cqlib.Lib
