import Mathlib.Data.List.Forall2
import Mathlib.Logic.Relation

/-!
# Transition systems and their traces

A step is silent or shows one event. A trace is what a run has shown so far, and whether the
run has come to its end.
-/

namespace Cqlib.Lib

structure Transitions (S E : Type) where
  step : S → Option E → S → Prop
  halted : S → Prop

namespace Transitions

variable {S S' E E' : Type}

def Silent (sys : Transitions S E) : S → S → Prop :=
  Relation.ReflTransGen fun s s' => sys.step s none s'

inductive Trace (sys : Transitions S E) : S → List E → Bool → Prop where
  | cut (s : S) : Trace sys s [] false
  | halt {s : S} (hhalted : sys.halted s) : Trace sys s [] true
  | silent {s s' : S} {events : List E} {ended : Bool} (hstep : sys.step s none s')
      (hrest : Trace sys s' events ended) : Trace sys s events ended
  | event {s s' : S} {e : E} {events : List E} {ended : Bool} (hstep : sys.step s (some e) s')
      (hrest : Trace sys s' events ended) : Trace sys s (e :: events) ended

variable {sys : Transitions S E}

variable {events : List E} {ended : Bool}

theorem Trace.of_silent {s s' : S} (hsilent : sys.Silent s s') (h : sys.Trace s' events ended) :
    sys.Trace s events ended := by
  induction hsilent using Relation.ReflTransGen.head_induction_on with
  | refl => exact h
  | head hstep _ ih => exact .silent hstep ih

/-! ## Simulations -/

/-- After silent steps the other system does the same. -/
structure Simulation (sys : Transitions S E) (sys' : Transitions S' E') (R : S → S' → Prop)
    (Same : E → E' → Prop) : Prop where
  silent : ∀ {s t u}, R s u → sys.step s none t → ∃ u', sys'.Silent u u' ∧ R t u'
  event : ∀ {s t u e}, R s u → sys.step s (some e) t →
    ∃ u₁ u₂ e' u', sys'.Silent u u₁ ∧ sys'.step u₁ (some e') u₂ ∧ Same e e' ∧
      sys'.Silent u₂ u' ∧ R t u'
  halted : ∀ {s u}, R s u → sys.halted s → ∃ u', sys'.Silent u u' ∧ sys'.halted u'

variable {R : S → S' → Prop}

theorem Simulation.trace {sys' : Transitions S' E'} {Same : E → E' → Prop}
    (hsim : Simulation sys sys' R Same) {s : S} (h : sys.Trace s events ended) :
    ∀ {u : S'}, R s u → ∃ events', List.Forall₂ Same events events' ∧
      sys'.Trace u events' ended := by
  induction h with
  | cut => exact fun {u} _ => ⟨[], .nil, .cut u⟩
  | halt hhalted =>
    intro u hR
    obtain ⟨u', hsilent, hhalted'⟩ := hsim.halted hR hhalted
    exact ⟨[], .nil, .of_silent hsilent (.halt hhalted')⟩
  | silent hstep _ ih =>
    intro u hR
    obtain ⟨u', hsilent, hR'⟩ := hsim.silent hR hstep
    obtain ⟨events', hsame, htrace⟩ := ih hR'
    exact ⟨events', hsame, .of_silent hsilent htrace⟩
  | event hstep _ ih =>
    intro u hR
    obtain ⟨u₁, u₂, e', u', hbefore, hstep', hsame, hafter, hR'⟩ := hsim.event hR hstep
    obtain ⟨events', hsame', htrace⟩ := ih hR'
    exact ⟨e' :: events', .cons hsame hsame',
      .of_silent hbefore (.event hstep' (.of_silent hafter htrace))⟩

theorem Simulation.trace_eq {sys' : Transitions S' E} (hsim : Simulation sys sys' R (· = ·)) {s : S}
    {u : S'} (h : sys.Trace s events ended) (hR : R s u) : sys'.Trace u events ended := by
  obtain ⟨events', hsame, htrace⟩ := hsim.trace h hR
  rw [List.forall₂_eq_eq_eq] at hsame
  rwa [hsame]

theorem Simulation.of_step {sys : Transitions S E} {sys' : Transitions S' E} {R : S → S' → Prop}
    (hstep : ∀ {s t u o}, R s u → sys.step s o t → ∃ u₁ u₂, sys'.Silent u u₁ ∧
      (sys'.step u₁ o u₂ ∨ o = none ∧ u₁ = u₂) ∧ R t u₂)
    (hhalted : ∀ {s u}, R s u → sys.halted s → ∃ u', sys'.Silent u u' ∧ sys'.halted u') :
    Simulation sys sys' R (· = ·) := by
  refine ⟨fun hR h => ?_, fun hR h => ?_, hhalted⟩
  · obtain ⟨u₁, u₂, hsilent, hmove | ⟨-, rfl⟩, hR'⟩ := hstep hR h
    · exact ⟨u₂, hsilent.tail hmove, hR'⟩
    · exact ⟨u₁, hsilent, hR'⟩
  · obtain ⟨u₁, u₂, hsilent, hmove | ⟨hnone, -⟩, hR'⟩ := hstep hR h
    · exact ⟨u₁, u₂, _, u₂, hsilent, hmove, rfl, .refl, hR'⟩
    · cases hnone

/-! ## Invariants -/

theorem Trace.invariant {I : List E → S → Prop} {Good : List E → Prop}
    (hgood : ∀ {past s}, I past s → Good past)
    (hsilent : ∀ {past s s'}, I past s → sys.step s none s' → I past s')
    (hevent : ∀ {past s e s'}, I past s → sys.step s (some e) s' → I (past ++ [e]) s') {s : S}
    (h : sys.Trace s events ended) :
    ∀ {past}, I past s → Good (past ++ events) := by
  induction h with
  | cut | halt => exact fun hI => by simpa using hgood hI
  | silent hstep _ ih => exact fun hI => ih (hsilent hI hstep)
  | event hstep _ ih =>
    intro past hI
    have hrest := ih (hevent hI hstep)
    rwa [List.append_assoc] at hrest

end Transitions

end Cqlib.Lib
