import Cqlib.Lib.Multiplexer

/-!
# Reversible gates on bits

Negations and Toffoli gates, what a sequence of them does to the bits, and the same sequence on
other wires.
-/

namespace Cqlib.Lib

inductive BitGate (ι : Type*) where
  | not (t : ι)
  | toffoli (a b t : ι)
deriving DecidableEq

namespace BitGate

variable {ι κ : Type*}

def target : BitGate ι → ι
  | .not t => t
  | .toffoli _ _ t => t

def controls : BitGate ι → List ι
  | .not _ => []
  | .toffoli a b _ => [a, b]

def wires (g : BitGate ι) : List ι := g.controls ++ [g.target]

def map (w : ι → κ) : BitGate ι → BitGate κ
  | .not t => .not (w t)
  | .toffoli a b t => .toffoli (w a) (w b) (w t)

def test (g : BitGate ι) (x : ι → Bool) : Bool := g.controls.all x

section

variable (w : ι → κ) (g : BitGate ι)

@[simp] theorem target_map : (g.map w).target = w g.target := by
  cases g <;> rfl

@[simp] theorem controls_map : (g.map w).controls = g.controls.map w := by
  cases g <;> rfl

theorem wires_map : (g.map w).wires = g.wires.map w := by
  simp [wires]

theorem test_map (x : κ → Bool) : (g.map w).test x = g.test (x ∘ w) := by
  simp [test]

end

theorem target_mem_wires (g : BitGate ι) : g.target ∈ g.wires := by simp [wires]

theorem test_congr {g : BitGate ι} {x y : ι → Bool} (h : ∀ i ∈ g.wires, x i = y i) :
    g.test x = g.test y := by
  unfold test
  rw [Bool.eq_iff_iff, List.all_eq_true, List.all_eq_true]
  apply forall₂_congr
  intro i hi
  rw [h i (List.mem_append_left _ hi)]

variable [DecidableEq ι] [DecidableEq κ]

def act (g : BitGate ι) (x : ι → Bool) : ι → Bool := toggle g.test g.target x

def run (gates : List (BitGate ι)) (x : ι → Bool) : ι → Bool :=
  gates.foldl (fun x g => g.act x) x

@[simp] theorem run_nil (x : ι → Bool) : run [] x = x := rfl

@[simp] theorem run_cons (g : BitGate ι) (gates : List (BitGate ι)) (x : ι → Bool) :
    run (g :: gates) x = run gates (g.act x) := rfl

@[simp] theorem run_append (gates gates' : List (BitGate ι)) (x : ι → Bool) :
    run (gates ++ gates') x = run gates' (run gates x) := List.foldl_append

theorem act_target (g : BitGate ι) (x : ι → Bool) : g.act x g.target = (x g.target ^^ g.test x) :=
  toggle_self x

theorem act_of_ne {g : BitGate ι} {i : ι} (h : i ≠ g.target) (x : ι → Bool) : g.act x i = x i :=
  toggle_of_ne h x

variable {gates : List (BitGate ι)}

theorem run_of_ne {i : ι} (h : ∀ g ∈ gates, i ≠ g.target) (x : ι → Bool) : run gates x i = x i := by
  induction gates generalizing x with
  | nil => rfl
  | cons g gates ih =>
    obtain ⟨hg, hgates⟩ := List.forall_mem_cons.mp h
    rw [run_cons, ih hgates, act_of_ne hg]

theorem run_congr {wires : Set ι} (h : ∀ g ∈ gates, ∀ i ∈ g.wires, i ∈ wires) {x y : ι → Bool}
    (hxy : ∀ i ∈ wires, x i = y i) :
    ∀ i ∈ wires, run gates x i = run gates y i := by
  induction gates generalizing x y with
  | nil => exact hxy
  | cons g gates ih =>
    obtain ⟨hg, hgates⟩ := List.forall_mem_cons.mp h
    rw [run_cons, run_cons]
    apply ih hgates
    intro i hi
    by_cases heq : i = g.target
    · rw [heq, act_target, act_target, hxy _ (heq ▸ hi), test_congr fun j hj => hxy j (hg j hj)]
    · rw [act_of_ne heq, act_of_ne heq, hxy i hi]

theorem run_map {w : ι → κ} {wires : Set ι} (hw : Set.InjOn w wires)
    (h : ∀ g ∈ gates, ∀ i ∈ g.wires, i ∈ wires) (x : κ → Bool) :
    ∀ i ∈ wires, run (gates.map (map w)) x (w i) = run gates (x ∘ w) i := by
  induction gates generalizing x with
  | nil => exact fun i _ => rfl
  | cons g gates ih =>
    intro i hi
    obtain ⟨hg, hgates⟩ := List.forall_mem_cons.mp h
    rw [List.map_cons, run_cons, run_cons, ih hgates _ i hi]
    refine run_congr hgates (fun j hj => ?_) i hi
    have htarget := hg _ g.target_mem_wires
    by_cases heq : j = g.target
    · rw [heq, Function.comp_apply, act_target, ← target_map w g, act_target, test_map,
        target_map]
      rfl
    · rw [act_of_ne heq, Function.comp_apply, act_of_ne]
      · rfl
      · rw [target_map]
        exact fun hne => heq (hw hj htarget hne)

theorem run_toggle {t : ι} (h : ∀ g ∈ gates, t ∉ g.controls) (x : ι → Bool) :
    run gates (toggle (fun _ => true) t x) =
      toggle (fun _ => true) t (run gates x) := by
  induction gates generalizing x with
  | nil => rfl
  | cons g gates ih =>
    obtain ⟨hg, hgates⟩ := List.forall_mem_cons.mp h
    rw [run_cons, run_cons, ← ih hgates]
    congr 1
    funext i
    have htest : g.test (toggle (fun _ => true) t x) = g.test x := by
      unfold test
      rw [Bool.eq_iff_iff, List.all_eq_true, List.all_eq_true]
      apply forall₂_congr
      intro j hj
      rw [toggle_of_ne (ne_of_mem_of_not_mem hj hg)]
    by_cases heq : i = g.target
    · rw [heq, act_target, htest]
      by_cases ht : g.target = t
      · rw [ht, toggle_self, toggle_self, ← ht, act_target]
        simp
      · rw [toggle_of_ne ht, toggle_of_ne ht, act_target]
    · rw [act_of_ne heq]
      by_cases ht : i = t
      · rw [ht, toggle_self, toggle_self, act_of_ne (ht ▸ heq)]
      · rw [toggle_of_ne ht, toggle_of_ne ht, act_of_ne heq]

theorem run_update {t : ι} (h : ∀ g ∈ gates, t ∉ g.wires) (x : ι → Bool) (b : Bool) :
    run gates (Function.update x t b) = Function.update (run gates x) t b := by
  have hkeep : run gates x t = x t := by
    apply run_of_ne
    intro g hg heq
    exact h g hg (heq ▸ g.target_mem_wires)
  by_cases heq : b = x t
  · rw [heq, Function.update_eq_self, ← hkeep, Function.update_eq_self]
  · have htoggle : ∀ y : ι → Bool, y t = x t → Function.update y t b = toggle (fun _ => true) t y :=
      by
      intro y hy
      rw [toggle, hy, Bool.xor_true, Bool.eq_not_of_ne heq]
    rw [htoggle x rfl, htoggle _ hkeep,
      run_toggle fun g hg hmem => h g hg (List.mem_append_left _ hmem)]

end BitGate

end Cqlib.Lib
