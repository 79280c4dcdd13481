import Mathlib.Algebra.GroupWithZero.Nat
import Mathlib.Order.Lattice.Nat

/-!
# The heaviest path through a sequence of jobs

Tasks take wires and have a weight. In a path every job shares a wire with the one before it.
-/

namespace Cqlib.Lib

structure Job (ι : Type*) where
  weight : ℕ
  wires : Finset ι

namespace Job

variable {ι : Type*}

def Meets (a b : Job ι) : Prop := ∃ q, q ∈ a.wires ∧ q ∈ b.wires

/-- Some of the jobs in their order, each of which meets the next one. -/
structure IsPath (jobs path : List (Job ι)) : Prop where
  sublist : path.Sublist jobs
  chain : path.IsChain Meets

def totalWeight (path : List (Job ι)) : ℕ := (path.map weight).sum

def pathWeights (jobs : List (Job ι)) : Set ℕ :=
  {w | ∃ path, IsPath jobs path ∧ totalWeight path = w}

/-- The weights of the paths that end on a wire, and zero. -/
def pathWeightsTo (jobs : List (Job ι)) (q : ι) : Set ℕ :=
  {w | w = 0 ∨ ∃ path t, IsPath jobs (path ++ [t]) ∧ q ∈ t.wires ∧ totalWeight (path ++ [t]) = w}

@[simp] theorem totalWeight_concat (path : List (Job ι)) (t : Job ι) :
    totalWeight (path ++ [t]) = totalWeight path + t.weight := by
  simp [totalWeight]

theorem isPath_nil {path : List (Job ι)} : IsPath [] path ↔ path = [] := by
  constructor
  · intro h
    exact List.sublist_nil.mp h.sublist
  · rintro rfl
    exact ⟨.slnil, .nil⟩

/-! ## One more job -/

variable {jobs path : List (Job ι)} {t : Job ι}

theorem IsPath.append (h : IsPath jobs path) (t : Job ι) : IsPath (jobs ++ [t]) path :=
  ⟨h.sublist.trans (List.sublist_append_left ..), h.chain⟩

/-- A path either ends before the new job, or is the new job behind a path that is empty or
ends on one of its wires. -/
theorem isPath_concat : IsPath (jobs ++ [t]) path ↔ IsPath jobs path ∨
    ∃ front, path = front ++ [t] ∧ IsPath jobs front ∧
      (front = [] ∨ ∃ path s, front = path ++ [s] ∧ s.Meets t) := by
  constructor
  · rintro ⟨hsub, hchain⟩
    obtain ⟨front, last, rfl, hold, hlast⟩ := List.sublist_append_iff.mp hsub
    rcases List.sublist_singleton.mp hlast with rfl | rfl
    · rw [List.append_nil] at hchain ⊢
      exact .inl ⟨hold, hchain⟩
    · obtain ⟨hfront, -, hmeets⟩ := List.isChain_append.mp hchain
      refine .inr ⟨front, rfl, ⟨hold, hfront⟩, ?_⟩
      rcases List.eq_nil_or_concat front with rfl | ⟨path, s, rfl⟩
      · exact .inl rfl
      · exact .inr ⟨path, s, by simp, hmeets s (by simp) t (by simp)⟩
  · rintro (h | ⟨front, rfl, h, hfront⟩)
    · exact h.append t
    · refine ⟨h.sublist.append (List.Sublist.refl _), List.isChain_append.mpr ⟨h.chain, by simp, ?_⟩⟩
      rcases hfront with rfl | ⟨path, s, rfl, hmeets⟩
      · simp
      · simpa using hmeets

/-! ## The pass -/

section Pass

variable [DecidableEq ι]

/-- The state after a job: the weight so far on every wire, and the heaviest of all. -/
def advance (state : (ι → ℕ) × ℕ) (t : Job ι) : (ι → ℕ) × ℕ :=
  let weight := t.wires.sup state.1 + t.weight
  (fun q => if q ∈ t.wires then weight else state.1 q, max state.2 weight)

def schedule (jobs : List (Job ι)) : (ι → ℕ) × ℕ := jobs.foldl advance (fun _ => 0, 0)

theorem schedule_concat (jobs : List (Job ι)) (t : Job ι) :
    schedule (jobs ++ [t]) = advance (schedule jobs) t := by
  simp [schedule]

omit [DecidableEq ι] in
/-- What the wires of a job carry is the heaviest path that the job can follow. -/
theorem isGreatest_base {depths : ι → ℕ} (h : ∀ q, IsGreatest (pathWeightsTo jobs q) (depths q))
    (t : Job ι) : IsGreatest {w | ∃ front, IsPath jobs front ∧
      (front = [] ∨ ∃ path s, front = path ++ [s] ∧ s.Meets t) ∧ totalWeight front = w}
      (t.wires.sup depths) := by
  constructor
  · rcases t.wires.eq_empty_or_nonempty with hempty | hne
    · exact ⟨[], ⟨List.nil_sublist _, .nil⟩, .inl rfl, by simp [hempty, totalWeight]⟩
    · obtain ⟨q, hq, hsup⟩ := Finset.exists_mem_eq_sup t.wires hne depths
      rw [hsup]
      rcases (h q).1 with hzero | ⟨path, s, hpath, hs, hweight⟩
      · exact ⟨[], ⟨List.nil_sublist _, .nil⟩, .inl rfl, by simp [hzero, totalWeight]⟩
      · exact ⟨path ++ [s], hpath, .inr ⟨path, s, rfl, q, hs, hq⟩, hweight⟩
  · rintro w ⟨front, hfront, rfl | ⟨path, s, rfl, q, hs, hq⟩, rfl⟩
    · simp [totalWeight]
    · exact ((h q).2 (.inr ⟨path, s, hfront, hs, rfl⟩)).trans (Finset.le_sup hq)

theorem isGreatest_depths (jobs : List (Job ι)) :
    ∀ q, IsGreatest (pathWeightsTo jobs q) ((schedule jobs).1 q) := by
  induction jobs using List.reverseRecOn with
  | nil =>
    intro q
    refine ⟨.inl rfl, ?_⟩
    rintro w (rfl | ⟨path, t, hpath, -, -⟩)
    · exact le_rfl
    · simpa using isPath_nil.mp hpath
  | append_singleton jobs t ih =>
    intro q
    have hbase := isGreatest_base ih t
    rw [schedule_concat]
    unfold advance
    dsimp only
    split
    · rename_i hq
      constructor
      · obtain ⟨front, hfront, hends, hweight⟩ := hbase.1
        refine .inr ⟨front, t, isPath_concat.mpr (.inr ⟨front, rfl, hfront, hends⟩), hq, ?_⟩
        rw [totalWeight_concat, hweight]
      · rintro w (rfl | ⟨path, s, hpath, hs, rfl⟩)
        · exact Nat.zero_le _
        · rcases isPath_concat.mp hpath with hold | ⟨front, heq, hfront, hends⟩
          · exact ((ih q).2 (.inr ⟨path, s, hold, hs, rfl⟩)).trans
              ((Finset.le_sup hq).trans (Nat.le_add_right ..))
          · rw [heq, totalWeight_concat]
            exact Nat.add_le_add_right (hbase.2 ⟨front, hfront, hends, rfl⟩) _
    · rename_i hq
      constructor
      · rcases (ih q).1 with hzero | ⟨path, s, hpath, hs, hweight⟩
        · exact .inl hzero
        · exact .inr ⟨path, s, hpath.append t, hs, hweight⟩
      · rintro w (rfl | ⟨path, s, hpath, hs, rfl⟩)
        · exact Nat.zero_le _
        · rcases isPath_concat.mp hpath with hold | ⟨front, heq, -, -⟩
          · exact (ih q).2 (.inr ⟨path, s, hold, hs, rfl⟩)
          · obtain ⟨-, hst⟩ := List.append_inj' heq rfl
            cases hst
            exact absurd hs hq

theorem isGreatest_schedule (jobs : List (Job ι)) :
    IsGreatest (pathWeights jobs) (schedule jobs).2 := by
  induction jobs using List.reverseRecOn with
  | nil =>
    refine ⟨⟨[], isPath_nil.mpr rfl, rfl⟩, ?_⟩
    rintro w ⟨path, hpath, rfl⟩
    rw [isPath_nil.mp hpath]
    exact le_rfl
  | append_singleton jobs t ih =>
    have hbase := isGreatest_base (isGreatest_depths jobs) t
    rw [schedule_concat]
    unfold advance
    constructor
    · rcases le_total (schedule jobs).2 (t.wires.sup (schedule jobs).1 + t.weight) with hle | hle
      · obtain ⟨front, hfront, hends, hweight⟩ := hbase.1
        refine ⟨front ++ [t], isPath_concat.mpr (.inr ⟨front, rfl, hfront, hends⟩), ?_⟩
        dsimp only
        rw [totalWeight_concat, hweight, max_eq_right hle]
      · obtain ⟨path, hpath, hweight⟩ := ih.1
        refine ⟨path, hpath.append t, ?_⟩
        dsimp only
        rw [hweight, max_eq_left hle]
    · rintro w ⟨path, hpath, rfl⟩
      rcases isPath_concat.mp hpath with hold | ⟨front, rfl, hfront, hends⟩
      · exact (ih.2 ⟨path, hold, rfl⟩).trans (le_max_left ..)
      · rw [totalWeight_concat]
        exact (Nat.add_le_add_right (hbase.2 ⟨front, hfront, hends, rfl⟩) _).trans (le_max_right ..)

noncomputable def longestPath (jobs : List (Job ι)) : ℕ := sSup (pathWeights jobs)

theorem longestPath_eq (jobs : List (Job ι)) : longestPath jobs = (schedule jobs).2 :=
  (isGreatest_schedule jobs).csSup_eq

end Pass

end Job

end Cqlib.Lib
