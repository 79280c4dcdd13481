import Mathlib.Data.DFinsupp.WellFounded

/-!
# Shortest paths to terminals

Paths are compared by their costs and then by their steps.
-/

namespace Cqlib.Lib

/-! ## Lengths -/

/-- A cost, and then a number of steps. -/
abbrev Length := ℕ ×ₗ ℕ

namespace Length

def cost (l : Length) : ℕ := (ofLex l).1

def steps (l : Length) : ℕ := (ofLex l).2

def step (cost : ℕ) (l : Length) : Length := toLex (l.cost + cost, l.steps + 1)

@[simp] theorem cost_step (c : ℕ) (l : Length) : (l.step c).cost = l.cost + c := rfl

@[simp] theorem steps_step (c : ℕ) (l : Length) : (l.step c).steps = l.steps + 1 := rfl

variable {l : Length}

theorem lt_iff {l' : Length} : l < l' ↔ l.cost < l'.cost ∨ l.cost = l'.cost ∧
    l.steps < l'.steps :=
  Prod.lex_iff

theorem le_iff {l' : Length} : l ≤ l' ↔ l.cost < l'.cost ∨ l.cost = l'.cost ∧
    l.steps ≤ l'.steps :=
  Prod.lex_iff

theorem lt_step (c : ℕ) (l : Length) : l < l.step c := by
  rw [lt_iff, cost_step, steps_step]
  omega

/-- One step more in a type that holds numbers up to a limit. -/
def stepUpTo (limit cost : ℕ) (l : Length) : Length :=
  toLex (min limit (l.cost + cost), min limit (l.steps + 1))

theorem stepUpTo_le (limit c : ℕ) (l : Length) : l.stepUpTo limit c ≤ l.step c := by
  rw [le_iff]
  simp only [stepUpTo, cost, steps, step, ofLex_toLex]
  omega

theorem le_stepUpTo {limit : ℕ} (c : ℕ) (hcost : l.cost ≤ limit) (hsteps : l.steps ≤ limit) :
    l ≤ l.stepUpTo limit c := by
  rw [le_iff]
  simp only [stepUpTo, cost, steps, ofLex_toLex] at *
  omega

theorem stepUpTo_eq {limit c : ℕ} (hcost : (l.step c).cost ≤ limit)
    (hsteps : (l.step c).steps ≤ limit) : l.stepUpTo limit c = l.step c := by
  rw [cost_step] at hcost
  rw [steps_step] at hsteps
  rw [stepUpTo, step, Nat.min_eq_right hcost, Nat.min_eq_right hsteps]

theorem step_mono {l' : Length} (c : ℕ) (h : l ≤ l') : l.step c ≤ l'.step c := by
  rw [le_iff] at h ⊢
  simp only [cost_step, steps_step]
  omega

end Length

def Optimal (lengths : Set Length) : Option Length → Prop
  | none => lengths = ∅
  | some l => IsLeast lengths l

theorem Optimal.unique {lengths : Set Length} {r r' : Option Length} (h : Optimal lengths r)
    (h' : Optimal lengths r') : r = r' := by
  cases r with
  | none =>
    cases r' with
    | none => rfl
    | some l' =>
      have hmem := h'.1
      rw [show lengths = ∅ from h] at hmem
      exact absurd hmem (Set.notMem_empty _)
  | some l =>
    cases r' with
    | none =>
      have hmem := h.1
      rw [show lengths = ∅ from h'] at hmem
      exact absurd hmem (Set.notMem_empty _)
    | some l' => rw [IsLeast.unique h h']

theorem Optimal.of_subset {lengths lengths' : Set Length} {r : Option Length} (h :
    Optimal lengths r)
    (hsub : lengths ⊆ lengths') (hshort : ∀ l ∈ lengths', ∃ l' ∈ lengths, l' ≤ l) :
    Optimal lengths' r := by
  cases r with
  | none =>
    refine Set.eq_empty_iff_forall_notMem.mpr fun l hl => ?_
    obtain ⟨l', hl', -⟩ := hshort l hl
    rw [show lengths = ∅ from h] at hl'
    exact Set.notMem_empty _ hl'
  | some l =>
    refine ⟨hsub h.1, fun l' hl' => ?_⟩
    obtain ⟨l'', hl'', hle⟩ := hshort l' hl'
    exact (h.2 hl'').trans hle

/-! ## Graphs -/

/-- A graph by the edges into each vertex, and what is known of the terminals. A label is compared
by its key, whose numbers go up to a limit. -/
structure RouteGraph (V C A : Type*) where
  edges : V → List (V × C)
  weight : C → ℕ
  terminal : V → Option A
  key : A → Length
  extend : C → A → A
  limit : ℕ
  key_extend : ∀ c a, key (extend c a) = (key a).stepUpTo limit (weight c)

namespace RouteGraph

variable {V C A : Type*} (g : RouteGraph V C A)

inductive Routes : V → Length → Prop
  | stop {v : V} {a : A} (h : g.terminal v = some a) : Routes v (g.key a)
  | go {v w : V} {c : C} {l : Length} (hedge : (w, c) ∈ g.edges v) (h : Routes v l) :
    Routes w (l.step (g.weight c))

/-- A path to a terminal without repetition, from its first vertex on. -/
inductive Trail : List V → Length → Prop
  | stop {v : V} {a : A} (h : g.terminal v = some a) : Trail [v] (g.key a)
  | go {v w : V} {c : C} {p : List V} {l : Length} (hedge : (w, c) ∈ g.edges v)
    (h : Trail (v :: p) l) (hw : w ∉ v :: p) : Trail (w :: v :: p) (l.step (g.weight c))

/-- No path without repetition is too long for its numbers. -/
def Fits : Prop := ∀ p l, g.Trail p l → l.cost ≤ g.limit ∧ l.steps ≤ g.limit

def improves (label : Option A) (candidate : A) : Bool :=
  label.all fun previous => decide (g.key candidate < g.key previous)

variable {g}

theorem Trail.routes {v : V} {p : List V} {l : Length} (h : g.Trail (v :: p) l) :
    g.Routes v l := by
  generalize hq : v :: p = q at h
  induction h generalizing v p with
  | stop h =>
    obtain ⟨rfl, -⟩ := List.cons_eq_cons.mp hq
    exact .stop h
  | go hedge _ _ ih =>
    obtain ⟨rfl, -⟩ := List.cons_eq_cons.mp hq
    exact .go hedge (ih rfl)

theorem Trail.nodup {p : List V} {l : Length} (h : g.Trail p l) : p.Nodup := by
  induction h with
  | stop h => exact List.nodup_singleton _
  | go _ _ hw ih => exact List.nodup_cons.mpr ⟨hw, ih⟩

theorem fits_of_bounds [Fintype V] {T W : ℕ}
    (hterminal : ∀ v a, g.terminal v = some a → (g.key a).cost ≤ T ∧ (g.key a).steps = 0)
    (hweight : ∀ v w c, (w, c) ∈ g.edges v → g.weight c ≤ W)
    (hcost : T + Fintype.card V * W ≤ g.limit) (hsteps : Fintype.card V ≤ g.limit) : g.Fits := by
  intro p l h
  have hlength : l.cost ≤ T + p.length * W ∧ l.steps ≤ p.length := by
    induction h with
    | stop h =>
      obtain ⟨hcost, hsteps⟩ := hterminal _ _ h
      exact ⟨hcost.trans (Nat.le_add_right _ _), hsteps.le.trans (Nat.zero_le _)⟩
    | go hedge _ _ ih =>
      have := hweight _ _ _ hedge
      simp only [Length.cost_step, Length.steps_step, List.length_cons, Nat.add_mul] at ih ⊢
      omega
  have hcard : p.length ≤ Fintype.card V := h.nodup.length_le_card
  have := Nat.mul_le_mul_right W hcard
  omega

end RouteGraph

/-! ## Labels -/

structure LabelStore (S V A : Type*) where
  get : S → V → Option A
  set : S → V → A → S
  get_set_self : ∀ s v a, get (set s v a) v = some a
  get_set_of_ne : ∀ s v a w, w ≠ v → get (set s v a) w = get s w

/-- What waits for its turn, with the key that it had. -/
structure Agenda (Q V : Type*) where
  push : Q → V → Length → Q
  waits : Q → V → Length → Prop
  waits_push_self : ∀ q v l, waits (push q v l) v l
  waits_push : ∀ q v l w k, waits q v l → waits (push q w k) v l
  of_waits_push : ∀ q v l w k, waits (push q w k) v l → waits q v l ∨ v = w

section Relax

variable {V C A S Q : Type*} (g : RouteGraph V C A) (store : LabelStore S V A)
  (agenda : Agenda Q V)

def seed (labels : List (V × A)) (state : S × Q) : S × Q :=
  labels.foldl (fun state label =>
    (store.set state.1 label.1 label.2, agenda.push state.2 label.1 (g.key label.2))) state

/-- The edges into a vertex with the label `current`. -/
def relax (current : A) : List (V × C) → S × Q → S × Q
  | [], state => state
  | (w, c) :: rest, (s, q) =>
    let candidate := g.extend c current
    if g.improves (store.get s w) candidate then
      relax current rest (store.set s w candidate, agenda.push q w (g.key candidate))
    else relax current rest (s, q)

def keys (s : S) (v : V) : WithTop Length := (store.get s v).map g.key

variable {g store agenda}

theorem keys_of_get {s : S} {v : V} {a : A} (h : store.get s v = some a) :
    keys g store s v = g.key a := by
  unfold keys
  rw [h]
  rfl

theorem exists_get_of_keys_lt {s : S} {v : V} {k : WithTop Length} (h : keys g store s v < k) :
    ∃ a, store.get s v = some a := by
  unfold keys at h
  cases hget : store.get s v with
  | none =>
    rw [hget] at h
    exact absurd h not_top_lt
  | some a => exact ⟨a, rfl⟩

theorem improves_iff {s : S} {v : V} {a : A} :
    g.improves (store.get s v) a = true ↔ (g.key a : WithTop Length) < keys g store s v := by
  unfold keys RouteGraph.improves
  cases store.get s v with
  | none => exact iff_of_true rfl (WithTop.coe_lt_top _)
  | some b =>
    simp only [Option.all_some, decide_eq_true_eq, Option.map_some]
    exact WithTop.coe_lt_coe.symm

/-- What is true between two states of a search. -/
structure Progress (g : RouteGraph V C A) (store : LabelStore S V A) (agenda : Agenda Q V)
    (before after : S × Q) : Prop where
  le : keys g store after.1 ≤ keys g store before.1
  kept : ∀ v l, agenda.waits before.2 v l → agenda.waits after.2 v l
  fresh : ∀ v a, store.get after.1 v = some a →
    store.get before.1 v = some a ∨ agenda.waits after.2 v (g.key a)
  known : ∀ v l, agenda.waits after.2 v l →
    agenda.waits before.2 v l ∨ ∃ a, store.get after.1 v = some a

namespace Progress

theorem refl (state : S × Q) : Progress g store agenda state state :=
  ⟨le_rfl, fun _ _ h => h, fun _ _ h => .inl h, fun _ _ h => .inl h⟩

theorem exists_get {before after : S × Q} (h : Progress g store agenda before after) {v : V}
    {a : A} (hget : store.get before.1 v = some a) :
    ∃ b, store.get after.1 v = some b ∧ g.key b ≤ g.key a := by
  have hle := h.le v
  rw [keys_of_get hget] at hle
  obtain ⟨b, hb⟩ := exists_get_of_keys_lt (hle.trans_lt (WithTop.coe_lt_top _))
  rw [keys_of_get hb] at hle
  exact ⟨b, hb, WithTop.coe_le_coe.mp hle⟩

theorem trans {first second third : S × Q} (h : Progress g store agenda first second)
    (h' : Progress g store agenda second third) : Progress g store agenda first third where
  le := h'.le.trans h.le
  kept v l hv := h'.kept v l (h.kept v l hv)
  fresh v a ha := by
    rcases h'.fresh v a ha with hmid | hwaits
    · rcases h.fresh v a hmid with hfirst | hwaits
      · exact .inl hfirst
      · exact .inr (h'.kept v _ hwaits)
    · exact .inr hwaits
  known v l hv := by
    rcases h'.known v l hv with hwaits | hget
    · rcases h.known v l hwaits with hwaits | ⟨a, ha⟩
      · exact .inl hwaits
      · obtain ⟨b, hb, -⟩ := h'.exists_get ha
        exact .inr ⟨b, hb⟩
    · exact .inr hget

end Progress

variable {s : S} {a : A}

theorem keys_set_lt {w : V} (h : g.improves (store.get s w) a = true) :
    keys g store (store.set s w a) < keys g store s := by
  rw [improves_iff] at h
  have hself : keys g store (store.set s w a) w < keys g store s w := by
    rw [keys_of_get (store.get_set_self s w a)]
    exact h
  refine Pi.lt_def.mpr ⟨fun v => ?_, w, hself⟩
  by_cases hvw : v = w
  · subst hvw
    exact hself.le
  · refine le_of_eq ?_
    unfold keys
    rw [store.get_set_of_ne _ _ _ _ hvw]

theorem progress_set {q : Q} {w : V} (h : g.improves (store.get s w) a = true) :
    Progress g store agenda (s, q) (store.set s w a, agenda.push q w (g.key a)) where
  le := (keys_set_lt h).le
  kept v l hv := agenda.waits_push q v l w _ hv
  fresh v b hb := by
    by_cases hvw : v = w
    · subst hvw
      rw [store.get_set_self, Option.some.injEq] at hb
      subst hb
      exact .inr (agenda.waits_push_self _ _ _)
    · rw [store.get_set_of_ne _ _ _ _ hvw] at hb
      exact .inl hb
  known v l hv := by
    rcases agenda.of_waits_push _ _ _ _ _ hv with hv | rfl
    · exact .inl hv
    · exact .inr ⟨a, store.get_set_self _ _ _⟩

theorem relax_progress (current : A) (edges : List (V × C)) (state : S × Q) :
    Progress g store agenda state (relax g store agenda current edges state) := by
  induction edges generalizing state with
  | nil => exact .refl state
  | cons edge rest ih =>
    unfold relax
    dsimp only
    split
    · rename_i himproves
      exact (progress_set himproves).trans (ih _)
    · exact ih _

theorem relax_cases (current : A) (edges : List (V × C)) (state : S × Q) :
    relax g store agenda current edges state = state ∨
      keys g store (relax g store agenda current edges state).1 < keys g store state.1 := by
  induction edges generalizing state with
  | nil => exact .inl rfl
  | cons edge rest ih =>
    unfold relax
    dsimp only
    split
    · rename_i himproves
      exact .inr ((relax_progress _ _ _).le.trans_lt (keys_set_lt himproves))
    · exact ih _

/-- Every label belongs to a path without repetition, on which the labels get less. -/
def Sound (g : RouteGraph V C A) (store : LabelStore S V A) (s : S) : Prop :=
  ∀ v a, store.get s v = some a →
    ∃ p, g.Trail (v :: p) (g.key a) ∧ ∀ u ∈ p, keys g store s u < g.key a

variable {v : V}

theorem Sound.routes (h : Sound g store s) (hget : store.get s v = some a) :
    g.Routes v (g.key a) := by
  obtain ⟨p, htrail, -⟩ := h v a hget
  exact htrail.routes

theorem Sound.le_extend (hfits : g.Fits) (h : Sound g store s) (hget : store.get s v = some a)
    (c : C) : g.key a ≤ g.key (g.extend c a) := by
  obtain ⟨p, htrail, -⟩ := h v a hget
  obtain ⟨hcost, hsteps⟩ := hfits _ _ htrail
  rw [g.key_extend]
  exact Length.le_stepUpTo _ hcost hsteps

theorem Sound.set (hfits : g.Fits) (h : Sound g store s) {w : V} {c : C}
    (hget : store.get s v = some a) (hedge : (w, c) ∈ g.edges v)
    (himproves : g.improves (store.get s w) (g.extend c a) = true) :
    w ≠ v ∧ Sound g store (store.set s w (g.extend c a)) := by
  have hlt := keys_set_lt himproves
  rw [improves_iff] at himproves
  have hle := WithTop.coe_le_coe.mpr (h.le_extend hfits hget c)
  obtain ⟨p, htrail, hless⟩ := h v a hget
  -- the new vertex is not on the path, since all labels there are less
  have hw : w ∉ v :: p := by
    intro hw
    rcases List.mem_cons.mp hw with rfl | hw
    · rw [keys_of_get hget] at himproves
      exact (himproves.trans_le hle).false
    · exact (himproves.trans ((hless w hw).trans_le hle)).false
  have htrail' := RouteGraph.Trail.go hedge htrail hw
  have hkey : g.key (g.extend c a) = (g.key a).step (g.weight c) := by
    rw [g.key_extend]
    obtain ⟨hcost, hsteps⟩ := hfits _ _ htrail'
    exact Length.stepUpTo_eq hcost hsteps
  refine ⟨fun hwv => hw (hwv ▸ List.mem_cons_self), fun u b hb => ?_⟩
  by_cases huw : u = w
  · subst huw
    rw [store.get_set_self, Option.some.injEq] at hb
    subst hb
    refine ⟨v :: p, hkey ▸ htrail', fun x hx => ?_⟩
    have hstep : (g.key a : WithTop Length) < g.key (g.extend c a) := by
      rw [hkey]
      exact WithTop.coe_lt_coe.mpr (Length.lt_step _ _)
    rcases List.mem_cons.mp hx with rfl | hx
    · refine (hlt.le x).trans_lt ?_
      rw [keys_of_get hget]
      exact hstep
    · exact ((hlt.le x).trans_lt (hless x hx)).trans hstep
  · rw [store.get_set_of_ne _ _ _ _ huw] at hb
    obtain ⟨p', htrail', hless'⟩ := h u b hb
    exact ⟨p', htrail', fun x hx => (hlt.le x).trans_lt (hless' x hx)⟩

theorem Sound.relax {edges : List (V × C)} (hfits : g.Fits)
    (hedges : ∀ edge ∈ edges, edge ∈ g.edges v) (state : S × Q) (h : Sound g store state.1)
    (hget : store.get state.1 v = some a) :
    Sound g store (relax g store agenda a edges state).1 ∧
      store.get (Lib.relax g store agenda a edges state).1 v = some a ∧
      ∀ edge ∈ edges, keys g store (Lib.relax g store agenda a edges state).1 edge.1 ≤
        g.key (g.extend edge.2 a) := by
  induction edges generalizing state with
  | nil => exact ⟨h, hget, fun edge hedge => absurd hedge List.not_mem_nil⟩
  | cons edge rest ih =>
    obtain ⟨w, c⟩ := edge
    obtain ⟨s, q⟩ := state
    have hrest : ∀ edge ∈ rest, edge ∈ g.edges v := fun edge hedge =>
      hedges edge (List.mem_cons_of_mem _ hedge)
    unfold Lib.relax
    dsimp only
    split
    · rename_i himproves
      obtain ⟨hne, hset⟩ := h.set hfits hget (hedges _ List.mem_cons_self) himproves
      obtain ⟨hsound, hsame, hle⟩ :=
        ih hrest (store.set s w (g.extend c a), agenda.push q w (g.key (g.extend c a))) hset
          (by rw [store.get_set_of_ne _ _ _ _ hne.symm]; exact hget)
      refine ⟨hsound, hsame, List.forall_mem_cons.mpr ⟨?_, hle⟩⟩
      refine ((relax_progress _ _ _).le w).trans ?_
      exact (keys_of_get (store.get_set_self _ _ _)).le
    · rename_i himproves
      obtain ⟨hsound, hsame, hle⟩ := ih hrest (s, q) h hget
      refine ⟨hsound, hsame, List.forall_mem_cons.mpr ⟨?_, hle⟩⟩
      rw [improves_iff, not_lt] at himproves
      exact ((relax_progress _ _ _).le w).trans himproves

/-- The labels of a vertex and of those with an edge from it agree. -/
def Closed (g : RouteGraph V C A) (store : LabelStore S V A) (s : S) (v : V) (a : A) : Prop :=
  ∀ edge ∈ g.edges v, keys g store s edge.1 ≤ g.key (g.extend edge.2 a)

/-- What holds before each turn. -/
structure Searching (g : RouteGraph V C A) (store : LabelStore S V A) (agenda : Agenda Q V)
    (state : S × Q) : Prop where
  sound : Sound g store state.1
  terminal : ∀ v a, g.terminal v = some a → keys g store state.1 v ≤ g.key a
  closed : ∀ v a, store.get state.1 v = some a →
    agenda.waits state.2 v (g.key a) ∨ Closed g store state.1 v a
  known : ∀ v l, agenda.waits state.2 v l → ∃ a, store.get state.1 v = some a

theorem Searching.init {state : S × Q} (hget : ∀ v, store.get state.1 v = g.terminal v)
    (hwaits : ∀ v a, g.terminal v = some a → agenda.waits state.2 v (g.key a))
    (hknown : ∀ v l, agenda.waits state.2 v l → ∃ a, g.terminal v = some a) :
    Searching g store agenda state where
  sound v a ha := by
    rw [hget] at ha
    exact ⟨[], .stop ha, fun u hu => absurd hu List.not_mem_nil⟩
  terminal v a ha := (keys_of_get ((hget v).trans ha)).le
  closed v a ha := by
    rw [hget] at ha
    exact .inl (hwaits v a ha)
  known v l hl := by
    rw [hget]
    exact hknown v l hl

theorem seed_spec {labels : List (V × A)} (hnodup : (labels.map Prod.fst).Nodup)
    (hterminal : ∀ v a, g.terminal v = some a ↔ (v, a) ∈ labels) {q : Q}
    (hempty : ∀ v, store.get s v = none) (hnone : ∀ v l, ¬agenda.waits q v l) :
    (∀ v, store.get (seed g store agenda labels (s, q)).1 v = g.terminal v) ∧
      (∀ v a, g.terminal v = some a →
        agenda.waits (seed g store agenda labels (s, q)).2 v (g.key a)) ∧
      ∀ v l, agenda.waits (seed g store agenda labels (s, q)).2 v l →
        ∃ a, g.terminal v = some a := by
  -- the labels so far, over the rest of the list
  have hrun : ∀ (done rest : List (V × A)) (state : S × Q), ((done ++ rest).map Prod.fst).Nodup →
      (∀ v a, store.get state.1 v = some a ↔ (v, a) ∈ done) →
      (∀ v a, (v, a) ∈ done → agenda.waits state.2 v (g.key a)) →
      (∀ v l, agenda.waits state.2 v l → v ∈ done.map Prod.fst) →
      (∀ v a, store.get (seed g store agenda rest state).1 v = some a ↔ (v, a) ∈ done ++ rest) ∧
      (∀ v a, (v, a) ∈ done ++ rest →
        agenda.waits (seed g store agenda rest state).2 v (g.key a)) ∧
      ∀ v l, agenda.waits (seed g store agenda rest state).2 v l →
        v ∈ (done ++ rest).map Prod.fst := by
    intro done rest
    induction rest generalizing done with
    | nil =>
      intro state _ hget hwaits hknown
      rw [List.append_nil]
      exact ⟨hget, hwaits, hknown⟩
    | cons label rest ih =>
      obtain ⟨w, b⟩ := label
      intro state hnodup hget hwaits hknown
      rw [List.append_cons] at hnodup ⊢
      have hnew : w ∉ done.map Prod.fst := by
        rw [List.append_assoc, List.map_append, List.nodup_append'] at hnodup
        exact fun hmem => hnodup.2.2 hmem List.mem_cons_self
      refine ih (done ++ [(w, b)]) _ hnodup (fun v a => ?_) (fun v a hmem => ?_) fun v l hv => ?_
      · rw [List.mem_append, List.mem_singleton, Prod.mk.injEq, ← hget]
        by_cases hvw : v = w
        · subst hvw
          have hnone : store.get state.1 v ≠ some a := fun hsome =>
            hnew (List.mem_map_of_mem ((hget v a).mp hsome))
          simp [store.get_set_self, hnone, eq_comm]
        · simp [store.get_set_of_ne, hvw]
      · rcases List.mem_append.mp hmem with hmem | hmem
        · exact agenda.waits_push _ _ _ _ _ (hwaits v a hmem)
        · rw [List.mem_singleton, Prod.mk.injEq] at hmem
          obtain ⟨rfl, rfl⟩ := hmem
          exact agenda.waits_push_self _ _ _
      · rw [List.map_append, List.mem_append]
        rcases agenda.of_waits_push _ _ _ _ _ hv with hv | rfl
        · exact .inl (hknown v l hv)
        · exact .inr (List.mem_singleton_self _)
  obtain ⟨hget, hwaits, hknown⟩ := hrun [] labels (s, q) hnodup
    (by simp [hempty]) (fun v a h => absurd h List.not_mem_nil) fun v l h => absurd h (hnone v l)
  refine ⟨fun v => ?_, fun v a ha => ?_, fun v l hl => ?_⟩
  · refine Option.ext fun a => ?_
    rw [hterminal]
    exact hget v a
  · exact hwaits v a ((hterminal v a).mp ha)
  · obtain ⟨⟨v, a⟩, hmem, rfl⟩ := List.mem_map.mp (hknown v l hl)
    exact ⟨a, (hterminal v a).mpr hmem⟩

theorem Searching.turn (hfits : g.Fits) {q rest : Q} (h : Searching g store agenda (s, q))
    (hget : store.get s v = some a) (hrest : ∀ u l, agenda.waits rest u l → agenda.waits q u l)
    (hleft : ∀ u l, agenda.waits q u l → u ≠ v → agenda.waits rest u l) :
    Searching g store agenda (relax g store agenda a (g.edges v) (s, rest)) := by
  have hprogress : Progress g store agenda (s, rest)
      (relax g store agenda a (g.edges v) (s, rest)) := relax_progress _ _ _
  obtain ⟨hsound, hsame, hle⟩ :=
    Sound.relax hfits (fun _ h => h) (s, rest) h.sound hget
  refine ⟨hsound, fun u b hb => (hprogress.le u).trans (h.terminal u b hb), fun u b hb => ?_,
    fun u l hl => ?_⟩
  · by_cases huv : u = v
    · subst huv
      rw [hsame, Option.some.injEq] at hb
      subst hb
      exact .inr hle
    · rcases hprogress.fresh u b hb with hbefore | hwaits
      · rcases h.closed u b hbefore with hwaits | hclosed
        · exact .inl (hprogress.kept _ _ (hleft _ _ hwaits huv))
        · exact .inr fun edge hedge => (hprogress.le _).trans (hclosed edge hedge)
      · exact .inl hwaits
  · rcases hprogress.known u l hl with hwaits | hget'
    · obtain ⟨b, hb⟩ := h.known u l (hrest u l hwaits)
      obtain ⟨b', hb', -⟩ := hprogress.exists_get hb
      exact ⟨b', hb'⟩
    · exact hget'

/-- Either the label of a path's start is no longer than the path, or something on the path waits
with such a key. -/
theorem Searching.routes_cases {state : S × Q} (h : Searching g store agenda state) {l : Length}
    (hroutes : g.Routes v l) :
    keys g store state.1 v ≤ l ∨ ∃ u k, agenda.waits state.2 u k ∧ k ≤ l := by
  induction hroutes with
  | stop hterminal => exact .inl (h.terminal _ _ hterminal)
  | @go v w c l hedge _ ih =>
    rcases ih with hle | ⟨u, k, hwaits, hk⟩
    · obtain ⟨a, ha⟩ := exists_get_of_keys_lt (hle.trans_lt (WithTop.coe_lt_top _))
      rw [keys_of_get ha, WithTop.coe_le_coe] at hle
      rcases h.closed v a ha with hwaits | hclosed
      · exact .inr ⟨v, _, hwaits, hle.trans (Length.lt_step _ _).le⟩
      · refine .inl ((hclosed _ hedge).trans (WithTop.coe_le_coe.mpr ?_))
        rw [g.key_extend]
        exact (Length.stepUpTo_le _ _ _).trans (Length.step_mono _ hle)
    · exact .inr ⟨u, k, hwaits, hk.trans (Length.lt_step _ _).le⟩

end Relax

/-! ## Moves -/

section Moves

variable {V C A M : Type*} (g : RouteGraph V C A) (legal : Set M) (after : V → M → V)
  (cost : M → C)

def moveLengths (v : V) : Set Length :=
  {l | ∃ moves : List M, (∀ m ∈ moves, m ∈ legal) ∧ ∃ a, g.terminal (moves.foldl after v) = some a ∧
    l = toLex ((g.key a).cost + (moves.map fun m => g.weight (cost m)).sum,
      (g.key a).steps + moves.length)}

variable {g legal after cost}

/-- A graph has the shortest sequences of moves when all its edges are moves, and the moves that are
not its edges change nothing. -/
theorem Optimal.moves {v : V} {r : Option Length}
    (hedge : ∀ v w c, (w, c) ∈ g.edges v → ∃ m ∈ legal, after w m = v ∧ cost m = c)
    (hmove : ∀ m ∈ legal, ∀ w, after w m = w ∨ (w, cost m) ∈ g.edges (after w m))
    (h : Optimal {l | g.Routes v l} r) : Optimal (moveLengths g legal after cost v) r := by
  refine h.of_subset (fun l hl => ?_) ?_
  · clear h
    change g.Routes v l at hl
    induction hl with
    | @stop v a ha => exact ⟨[], by simp, a, ha, rfl⟩
    | @go v w c l hc _ ih =>
      obtain ⟨m, hm, rfl, rfl⟩ := hedge v w c hc
      obtain ⟨moves, hlegal, a, ha, rfl⟩ := ih
      refine ⟨m :: moves, List.forall_mem_cons.mpr ⟨hm, hlegal⟩, a, ha, ?_⟩
      simp only [Length.step, Length.cost, Length.steps, ofLex_toLex, List.map_cons, List.sum_cons,
        List.length_cons]
      refine congrArg toLex (Prod.ext ?_ ?_)
      · dsimp only
        omega
      · dsimp only
        omega
  · rintro l ⟨moves, hlegal, a, ha, rfl⟩
    clear h
    induction moves generalizing v with
    | nil => exact ⟨_, .stop ha, le_rfl⟩
    | cons m moves ih =>
      obtain ⟨hm, hrest⟩ := List.forall_mem_cons.mp hlegal
      obtain ⟨l, hl, hle⟩ := ih hrest ha
      have hstep : toLex ((g.key a).cost + ((m :: moves).map fun m => g.weight (cost m)).sum,
          (g.key a).steps + (m :: moves).length) =
          Length.step (g.weight (cost m)) (toLex ((g.key a).cost +
            (moves.map fun m => g.weight (cost m)).sum, (g.key a).steps + moves.length)) := by
        simp only [Length.step, Length.cost, Length.steps, ofLex_toLex, List.map_cons,
          List.sum_cons, List.length_cons]
        refine congrArg toLex (Prod.ext ?_ ?_)
        · dsimp only
          omega
        · dsimp only
          omega
      rw [hstep]
      rcases hmove m hm v with hsame | hedge
      · rw [hsame] at hl
        exact ⟨l, hl, hle.trans (Length.lt_step _ _).le⟩
      · exact ⟨_, .go hedge hl, Length.step_mono _ hle⟩

end Moves

/-! ## The worklist -/

section Worklist

variable {V C A S : Type*} (g : RouteGraph V C A) (store : LabelStore S V A)

/-- A queue of vertices, which are compared with the labels they have at their turn. -/
def worklist : Agenda (List V) V where
  push queue v _ := queue ++ [v]
  waits queue v _ := v ∈ queue
  waits_push_self _ _ _ := List.mem_append_right _ (List.mem_singleton_self _)
  waits_push _ _ _ _ _ h := List.mem_append_left _ h
  of_waits_push _ _ _ _ _ h := by simpa using h

/-- The labels when nothing waits any more, and nothing where a vertex without label waits. -/
def labelCorrect [Finite V] (s : S) : List V → Option S
  | [] => some s
  | v :: rest =>
    match store.get s v with
    | none => none
    | some current =>
      labelCorrect (relax g store worklist current (g.edges v) (s, rest)).1
        (relax g store worklist current (g.edges v) (s, rest)).2
termination_by queue => (toLex (keys g store s, queue.length) : (V → WithTop Length) ×ₗ ℕ)
decreasing_by
  have hcases : relax g store worklist current (g.edges v) (s, rest) = (s, rest) ∨
      keys g store (relax g store worklist current (g.edges v) (s, rest)).1 < keys g store s :=
    relax_cases _ _ _
  rcases hcases with h | h
  · rw [h]
    exact Prod.Lex.toLex_lt_toLex.mpr (.inr ⟨rfl, by simp⟩)
  · exact Prod.Lex.toLex_lt_toLex.mpr (.inl h)

variable {g store} [Finite V]

theorem labelCorrect_cons {s : S} {v : V} {rest : List V} {current : A}
    (hget : store.get s v = some current) :
    labelCorrect g store s (v :: rest) =
      labelCorrect g store (relax g store worklist current (g.edges v) (s, rest)).1
        (relax g store worklist current (g.edges v) (s, rest)).2 := by
  rw [labelCorrect]
  simp only [hget]

theorem labelCorrect_optimal (hfits : g.Fits) {s : S} {queue : List V}
    (h : Searching g store worklist (s, queue)) :
    ∃ s', labelCorrect g store s queue = some s' ∧
      ∀ v, Optimal {l | g.Routes v l} ((store.get s' v).map g.key) := by
  induction s, queue using labelCorrect.induct g store with
  | case1 s =>
    refine ⟨s, labelCorrect.eq_1 _ _ _, fun v => ?_⟩
    have hbound : ∀ l, g.Routes v l → keys g store s v ≤ l := by
      intro l hl
      rcases h.routes_cases hl with hle | ⟨u, k, hwaits, -⟩
      · exact hle
      · exact absurd hwaits List.not_mem_nil
    cases hget : store.get s v with
    | none =>
      refine Set.eq_empty_iff_forall_notMem.mpr fun l hl => ?_
      obtain ⟨a, ha⟩ := exists_get_of_keys_lt ((hbound l hl).trans_lt (WithTop.coe_lt_top _))
      rw [hget] at ha
      cases ha
    | some a =>
      refine ⟨h.sound.routes hget, fun l hl => ?_⟩
      have hle := hbound l hl
      rw [keys_of_get hget] at hle
      exact WithTop.coe_le_coe.mp hle
  | case2 s v rest hget =>
    obtain ⟨a, ha⟩ := h.known v (toLex (0, 0)) List.mem_cons_self
    rw [hget] at ha
    cases ha
  | case3 s v rest current hget ih =>
    rw [labelCorrect_cons hget]
    refine ih (h.turn hfits hget (fun u _ hu => List.mem_cons_of_mem _ hu) fun u _ hu hne => ?_)
    exact List.mem_of_ne_of_mem hne hu

/-- The loop with a bound on its turns, which can be evaluated. -/
def labelCorrectWithin (g : RouteGraph V C A) (store : LabelStore S V A) :
    ℕ → S → List V → Option S
  | 0, _, _ => none
  | turns + 1, s, queue =>
    match queue with
    | [] => some s
    | v :: rest =>
      match store.get s v with
      | none => none
      | some current =>
        let state := relax g store worklist current (g.edges v) (s, rest)
        labelCorrectWithin g store turns state.1 state.2

theorem labelCorrect_of_within {turns : ℕ} {s s' : S} {queue : List V}
    (h : labelCorrectWithin g store turns s queue = some s') :
    labelCorrect g store s queue = some s' := by
  induction turns generalizing s queue with
  | zero => cases h
  | succ turns ih =>
    unfold labelCorrectWithin at h
    split at h
    · rw [labelCorrect]
      exact h
    · split at h
      · cases h
      · rename_i current hget
        rw [labelCorrect_cons hget]
        exact ih h

end Worklist

/-! ## The heap -/

section Heap

variable {V C A S : Type*} [LinearOrder V] (g : RouteGraph V C A) (store : LabelStore S V A)

def heapAgenda : Agenda (List (Length ×ₗ V)) V where
  push heap v l := heap ++ [toLex (l, v)]
  waits heap v l := toLex (l, v) ∈ heap
  waits_push_self _ _ _ := List.mem_append_right _ (List.mem_singleton_self _)
  waits_push _ _ _ _ _ h := List.mem_append_left _ h
  of_waits_push heap v l w k h := by
    rcases List.mem_append.mp h with h | h
    · exact .inl h
    · rw [List.mem_singleton, toLex_inj, Prod.mk.injEq] at h
      exact .inr h.2

theorem length_erase_min?_lt {α : Type*} [LinearOrder α] [BEq α] [LawfulBEq α] {xs : List α} {x : α}
    (h : xs.min? = some x) : (xs.erase x).length < xs.length := by
  have hmem := List.min?_mem h
  have := List.length_pos_of_mem hmem
  rw [List.length_erase_of_mem hmem]
  omega

/-- The least entry that is not out of date has its turn, up to the start. -/
def leastFirst [Finite V] (start : V) (s : S) (heap : List (Length ×ₗ V)) : Option A :=
  match _h : heap.min? with
  | none => none
  | some entry =>
    match store.get s (ofLex entry).2 with
    | none => none
    | some current =>
      if g.key current ≠ (ofLex entry).1 then leastFirst start s (heap.erase entry)
      else if (ofLex entry).2 = start then some current
      else
        leastFirst start
          (relax g store heapAgenda current (g.edges (ofLex entry).2) (s, heap.erase entry)).1
          (relax g store heapAgenda current (g.edges (ofLex entry).2) (s, heap.erase entry)).2
termination_by (toLex (keys g store s, heap.length) : (V → WithTop Length) ×ₗ ℕ)
decreasing_by
  · refine Prod.Lex.toLex_lt_toLex.mpr (.inr ⟨rfl, ?_⟩)
    exact length_erase_min?_lt _h
  · have hcases :
        relax g store heapAgenda current (g.edges (ofLex entry).2) (s, heap.erase entry) =
            (s, heap.erase entry) ∨
          keys g store (relax g store heapAgenda current (g.edges (ofLex entry).2)
            (s, heap.erase entry)).1 < keys g store s := relax_cases _ _ _
    rcases hcases with h | h
    · rw [h]
      exact Prod.Lex.toLex_lt_toLex.mpr (.inr ⟨rfl, length_erase_min?_lt _h⟩)
    · exact Prod.Lex.toLex_lt_toLex.mpr (.inl h)

variable {g store} [Finite V] {start : V}

variable {heap : List (Length ×ₗ V)}

theorem leastFirst_eq {s : S} {entry : Length ×ₗ V} {current : A} (hmin : heap.min? = some entry)
    (hget : store.get s (ofLex entry).2 = some current) :
    leastFirst g store start s heap =
      if g.key current ≠ (ofLex entry).1 then leastFirst g store start s (heap.erase entry)
      else if (ofLex entry).2 = start then some current
      else
        leastFirst g store start
          (relax g store heapAgenda current (g.edges (ofLex entry).2) (s, heap.erase entry)).1
          (relax g store heapAgenda current (g.edges (ofLex entry).2) (s, heap.erase entry)).2 := by
  rw [leastFirst]
  split
  · rename_i hnone
    rw [hmin] at hnone
    cases hnone
  · rename_i entry' hmin'
    rw [hmin, Option.some.injEq] at hmin'
    subst hmin'
    rw [hget]

theorem leastFirst_optimal (hfits : g.Fits) {s : S} (h : Searching g store heapAgenda (s, heap))
    (hstart : ∀ a, store.get s start = some a → heapAgenda.waits heap start (g.key a)) :
    Optimal {l | g.Routes start l} ((leastFirst g store start s heap).map g.key) := by
  induction s, heap using leastFirst.induct g store start with
  | case1 s heap hmin =>
    have hnil := List.min?_eq_none_iff.mp hmin
    subst hnil
    rw [leastFirst]
    refine Set.eq_empty_iff_forall_notMem.mpr fun l hl => ?_
    rcases h.routes_cases hl with hle | ⟨u, k, hwaits, -⟩
    · obtain ⟨a, ha⟩ := exists_get_of_keys_lt (hle.trans_lt (WithTop.coe_lt_top _))
      exact absurd (hstart a ha) List.not_mem_nil
    · exact absurd hwaits List.not_mem_nil
  | case2 s heap entry hmin hget =>
    obtain ⟨a, ha⟩ := h.known (ofLex entry).2 (ofLex entry).1 (List.min?_mem hmin)
    rw [hget] at ha
    cases ha
  | case3 s heap entry hmin current hget hstale ih =>
    rw [leastFirst_eq hmin hget, if_pos hstale]
    -- the entry is not the one of its vertex's label
    have hkept : ∀ u a, store.get s u = some a → heapAgenda.waits heap u (g.key a) →
        heapAgenda.waits (heap.erase entry) u (g.key a) := by
      intro u a ha hwaits
      refine (List.mem_erase_of_ne ?_).mpr hwaits
      rintro rfl
      rw [ofLex_toLex, ha, Option.some.injEq] at hget
      exact hstale (by rw [← hget]; rfl)
    refine ih ⟨h.sound, h.terminal, fun u a ha => ?_, fun u l hl => ?_⟩ fun a ha => ?_
    · rcases h.closed u a ha with hwaits | hclosed
      · exact .inl (hkept u a ha hwaits)
      · exact .inr hclosed
    · exact h.known u l (List.mem_of_mem_erase hl)
    · exact hkept start a ha (hstart a ha)
  | case4 s heap entry hmin current hget hfresh hfound =>
    rw [leastFirst_eq hmin hget, if_neg hfresh, if_pos hfound]
    have hkey : g.key current = (ofLex entry).1 := not_not.mp hfresh
    rw [hfound] at hget
    refine ⟨h.sound.routes hget, fun l hl => ?_⟩
    rcases h.routes_cases hl with hle | ⟨u, k, hwaits, hk⟩
    · rw [keys_of_get hget] at hle
      exact WithTop.coe_le_coe.mp hle
    · have hmin := (List.min?_eq_some_iff.mp hmin).2 _ hwaits
      rw [hkey]
      exact (Prod.Lex.monotone_fst_ofLex hmin).trans hk
  | case5 s heap entry hmin current hget hfresh hother ih =>
    rw [leastFirst_eq hmin hget, if_neg hfresh, if_neg hother]
    have hprogress : Progress g store heapAgenda (s, heap.erase entry)
        (relax g store heapAgenda current (g.edges (ofLex entry).2) (s, heap.erase entry)) :=
      relax_progress _ _ _
    have hleft : ∀ u l, heapAgenda.waits heap u l → u ≠ (ofLex entry).2 →
        heapAgenda.waits (heap.erase entry) u l := by
      intro u l hwaits hne
      refine (List.mem_erase_of_ne ?_).mpr hwaits
      rintro rfl
      exact hne rfl
    refine ih (h.turn hfits hget (fun u l hl => List.mem_of_mem_erase hl) hleft) fun a ha => ?_
    rcases hprogress.fresh start a ha with hbefore | hwaits
    · exact hprogress.kept _ _ (hleft _ _ (hstart a hbefore) fun heq => hother heq.symm)
    · exact hwaits

/-- The search with a bound on its turns, which can be evaluated. -/
def leastFirstWithin (g : RouteGraph V C A) (store : LabelStore S V A) (start : V) :
    ℕ → S → List (Length ×ₗ V) → Option A
  | 0, _, _ => none
  | turns + 1, s, heap =>
    match heap.min? with
    | none => none
    | some entry =>
      match store.get s (ofLex entry).2 with
      | none => none
      | some current =>
        if g.key current ≠ (ofLex entry).1 then
          leastFirstWithin g store start turns s (heap.erase entry)
        else if (ofLex entry).2 = start then some current
        else
          let state := relax g store heapAgenda current (g.edges (ofLex entry).2)
            (s, heap.erase entry)
          leastFirstWithin g store start turns state.1 state.2

theorem leastFirst_of_within {turns : ℕ} {s : S} {a : A}
    (h : leastFirstWithin g store start turns s heap = some a) :
    leastFirst g store start s heap = some a := by
  induction turns generalizing s heap with
  | zero => cases h
  | succ turns ih =>
    unfold leastFirstWithin at h
    split at h
    · cases h
    · rename_i entry hmin
      split at h
      · cases h
      · rename_i current hget
        rw [leastFirst_eq hmin hget]
        dsimp only at h
        split at h
        · rename_i hstale
          rw [if_pos hstale]
          exact ih h
        · rename_i hfresh
          rw [if_neg hfresh]
          split at h
          · rename_i hfound
            rw [if_pos hfound]
            exact h
          · rename_i hother
            rw [if_neg hother]
            exact ih h

end Heap

end Cqlib.Lib
