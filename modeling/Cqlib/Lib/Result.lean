import Mathlib.Data.List.Forall2

/-!
# Results

Rules for reading back how a chain of fallible steps succeeded.
-/

namespace Cqlib.Lib

universe u v

variable {ε : Type u} {α β : Type v}

variable {f : α → Except ε β}

variable {x : Except ε α} {b : β}

theorem bind_eq_ok :
    (x >>= f) = .ok b ↔ ∃ a, x = .ok a ∧ f a = .ok b := by
  cases x <;> simp [bind, Except.bind]

variable {e : ε}

theorem bind_eq_error :
    (x >>= f) = .error e ↔ x = .error e ∨ ∃ a, x = .ok a ∧ f a = .error e := by
  cases x <;> simp [bind, Except.bind]

/-- A check that returns nothing. -/
theorem bind_unit_eq_ok {x : Except ε PUnit} {f : PUnit → Except ε β} :
    (x >>= f) = .ok b ↔ x = .ok ⟨⟩ ∧ f ⟨⟩ = .ok b := by
  cases x <;> simp [bind, Except.bind]

theorem pure_eq_ok {a b : α} : (pure a : Except ε α) = .ok b ↔ a = b := by
  simp [pure, Except.pure]

theorem map_eq_ok {f : α → β} :
    (f <$> x) = .ok b ↔ ∃ a, x = .ok a ∧ f a = b := by
  cases x <;> simp [Functor.map, Except.map]

@[simp] theorem ok_bind (a : α) (f : α → Except ε β) : (Except.ok a >>= f) = f a := rfl

@[simp] theorem error_bind (e : ε) (f : α → Except ε β) : (Except.error e >>= f) = .error e := rfl

theorem throw_eq : (throw e : Except ε α) = .error e := rfl

/-- A test in the middle of a block that leaves it with an error. -/
theorem ite_throw_bind_eq_ok {p : Prop} [Decidable p] {g : α → Except ε β} {x : Except ε β} :
    (if p then throw e >>= g else x) = .ok b ↔ ¬ p ∧ x = .ok b := by
  split <;> simp_all [throw_eq]

theorem ite_throw_eq_ok {p : Prop} [Decidable p] {x : Except ε β} :
    (if p then throw e else x) = .ok b ↔ ¬ p ∧ x = .ok b := by
  split <;> simp_all [throw_eq]

/-- A test at the end of a block of checks. -/
theorem ite_throw_unit_eq_ok {p : Prop} [Decidable p] :
    (if p then throw e else pure ⟨⟩ : Except ε PUnit) = .ok ⟨⟩ ↔ ¬ p := by
  rw [ite_throw_eq_ok, pure_eq_ok, and_iff_left rfl]

variable {l : List α}

/-- A loop of checks. -/
theorem forM_eq_ok {f : α → Except ε PUnit} :
    l.forM f = .ok ⟨⟩ ↔ ∀ a ∈ l, f a = .ok ⟨⟩ := by
  induction l with
  | nil => simp [pure, Except.pure]
  | cons a l ih =>
    change (f a >>= fun _ => l.forM f) = _ ↔ _
    rw [bind_unit_eq_ok, ih, List.forall_mem_cons]

/-- A loop that collects results. -/
theorem mapM_eq_ok {l' : List β} :
    l.mapM f = .ok l' ↔ List.Forall₂ (fun a b => f a = .ok b) l l' := by
  induction l generalizing l' with
  | nil =>
    rw [List.mapM_nil, pure_eq_ok, List.forall₂_nil_left_iff]
    exact eq_comm
  | cons a l ih =>
    simp only [List.mapM_cons, bind_eq_ok, pure_eq_ok, List.forall₂_cons_left_iff, ih]
    constructor
    · rintro ⟨b, hb, bs, hbs, rfl⟩
      exact ⟨b, bs, hb, hbs, rfl⟩
    · rintro ⟨b, bs, hb, hbs, rfl⟩
      exact ⟨b, hb, bs, hbs, rfl⟩

theorem exists_mapM_ok (h : ∀ a ∈ l, ∃ b, f a = .ok b) :
    ∃ l', l.mapM f = .ok l' := by
  induction l with
  | nil => exact ⟨[], rfl⟩
  | cons a l ih =>
    obtain ⟨⟨b, hb⟩, hl⟩ := List.forall_mem_cons.mp h
    obtain ⟨l', hl'⟩ := ih hl
    exact ⟨b :: l', mapM_eq_ok.mpr (.cons hb (mapM_eq_ok.mp hl'))⟩

theorem mapM_ok_of_forall {g : α → β} (h : ∀ a ∈ l, f a = .ok (g a)) :
    l.mapM f = .ok (l.map g) := by
  rw [mapM_eq_ok, List.forall₂_map_right_iff, List.forall₂_same]
  exact h

/-- A loop over the numbers below a bound, with what holds before each round. -/
theorem exists_foldlM_range {I : ℕ → β → Prop} {f : β → ℕ → Except ε β} {b : β} {n : ℕ}
    (hinit : I 0 b) (hstep : ∀ i < n, ∀ b, I i b → ∃ b', f b i = .ok b' ∧ I (i + 1) b') :
    ∃ b', (List.range n).foldlM f b = .ok b' ∧ I n b' := by
  induction n with
  | zero => exact ⟨b, rfl, hinit⟩
  | succ n ih =>
    obtain ⟨b', hrun, hb'⟩ := ih fun i hi => hstep i (Nat.lt_succ_of_lt hi)
    obtain ⟨b'', hlast, hb''⟩ := hstep n (Nat.lt_succ_self n) b' hb'
    refine ⟨b'', ?_, hb''⟩
    rw [List.range_succ, List.foldlM_append, hrun]
    simp [hlast, bind, Except.bind, pure, Except.pure]

/-! ## Calls that succeed exactly under a condition -/

/-- A call that succeeds exactly under a condition, and then with a result of a known kind. -/
structure Decides (x : Except ε α) (p : Prop) (q : α → Prop) : Prop where
  exists_iff : (∃ a, x = .ok a) ↔ p
  result : ∀ a, x = .ok a → q a

namespace Decides

variable {p p' : Prop} {q : α → Prop} {r : β → Prop}

theorem ok {a : α} (h : q a) : Decides (.ok a : Except ε α) True q :=
  ⟨by simp, by rintro _ ⟨⟩; exact h⟩

theorem check {x : Except ε PUnit} (h : x = .ok ⟨⟩ ↔ p) : Decides x p fun _ => True :=
  ⟨⟨fun ⟨_, hx⟩ => h.mp hx, fun hp => ⟨⟨⟩, h.mpr hp⟩⟩, fun _ _ => trivial⟩

variable (h : Decides x p q)

include h

theorem bind (hf : ∀ a, q a → Decides (f a) p' r) : Decides (x >>= f) (p ∧ p') r := by
  constructor
  · simp only [bind_eq_ok, ← h.exists_iff]
    constructor
    · rintro ⟨b, a, ha, hb⟩
      exact ⟨⟨a, ha⟩, (hf a (h.result a ha)).exists_iff.mp ⟨b, hb⟩⟩
    · rintro ⟨⟨a, ha⟩, hp'⟩
      obtain ⟨b, hb⟩ := (hf a (h.result a ha)).exists_iff.mpr hp'
      exact ⟨b, a, ha, hb⟩
  · intro b hb
    obtain ⟨a, ha, hb⟩ := bind_eq_ok.mp hb
    exact (hf a (h.result a ha)).result b hb

theorem map {g : α → β} (hg : ∀ a, q a → r (g a)) : Decides (x >>= fun a => pure (g a)) p r := by
  rw [← and_true p]
  exact h.bind fun a ha => .ok (hg a ha)

theorem imp {q' : α → Prop} (hq : ∀ a, q a → q' a) : Decides x p q' :=
  ⟨h.exists_iff, fun a ha => hq a (h.result a ha)⟩

theorem test {γ : Type v} {g : γ → Except ε α} {t : Prop} [Decidable t] (hp : ¬ t ∧ p ↔ p') :
    Decides (if t then throw e >>= g else x) p' q :=
  ⟨by simp only [ite_throw_bind_eq_ok, exists_and_left, h.exists_iff, hp],
    fun a ha => h.result a (ite_throw_bind_eq_ok.mp ha).2⟩

end Decides

/-! ## Lists related element by element -/

section Related

universe w

variable {γ : Type w} {R : α → γ → Prop} {l : List α} {l' : List γ}

theorem exists_right_of_mem (h : List.Forall₂ R l l') {a : α} (ha : a ∈ l) : ∃ b ∈ l', R a b := by
  induction h with
  | nil => simp at ha
  | cons hab _ ih =>
    rcases List.mem_cons.mp ha with rfl | ha
    · exact ⟨_, by simp, hab⟩
    · obtain ⟨b, hb, hrel⟩ := ih ha
      exact ⟨b, by simp [hb], hrel⟩

theorem exists_left_of_mem (h : List.Forall₂ R l l') {b : γ} (hb : b ∈ l') : ∃ a ∈ l, R a b :=
  exists_right_of_mem h.flip hb

theorem exists_forall₂ (h : ∀ a ∈ l, ∃ b, R a b) : ∃ l', List.Forall₂ R l l' := by
  induction l with
  | nil => exact ⟨[], .nil⟩
  | cons a l ih =>
    obtain ⟨hhead, hrest⟩ := List.forall_mem_cons.mp h
    obtain ⟨b, hb⟩ := hhead
    obtain ⟨l', hl'⟩ := ih hrest
    exact ⟨b :: l', .cons hb hl'⟩

/-- Two facts about pairs that are equivalent whenever there is something between the two. -/
theorem forall₂_iff_of_between {δ : Type w} {S : γ → δ → Prop} {T : α → δ → Prop}
    {U : α → γ → Prop} {l'' : List δ} (hiff : ∀ a b c, R a b → S b c → (T a c ↔ U a b))
    (h : List.Forall₂ R l l') (h' : List.Forall₂ S l' l'') :
    List.Forall₂ T l l'' ↔ List.Forall₂ U l l' := by
  induction h generalizing l'' with
  | nil =>
    cases h'
    simp
  | cons hab _ ih =>
    cases h' with
    | cons hbc hrest => rw [List.forall₂_cons, List.forall₂_cons, hiff _ _ _ hab hbc, ih hrest]

theorem flatMap_eq_of_forall₂ {δ : Type w} {f : α → List δ} {g : γ → List δ}
    (hfg : ∀ a b, R a b → f a = g b) (h : List.Forall₂ R l l') : l.flatMap f = l'.flatMap g := by
  induction h with
  | nil => rfl
  | cons hab _ ih => rw [List.flatMap_cons, List.flatMap_cons, hfg _ _ hab, ih]

end Related

theorem mapM_eq_some {α β : Type} {f : α → Option β} {g : α → β} {l : List α}
    (h : ∀ a ∈ l, f a = some (g a)) : l.mapM f = some (l.map g) := by
  induction l with
  | nil => rfl
  | cons a l ih =>
    rw [List.forall_mem_cons] at h
    rw [List.mapM_cons, h.1, ih h.2]
    rfl

end Cqlib.Lib
