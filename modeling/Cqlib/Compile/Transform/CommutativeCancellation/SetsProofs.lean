import Cqlib.Circuit.Gate.WireAction
import Cqlib.Compile.Transform.CommutativeCancellation.Pass
import Cqlib.Lib.PairRemoval

/-!
# What the commutation sets say

Two views that stand in the same set on a wire commute, and the sets of a wire are met in the order
of their numbers.
-/

open Cqlib.Lib

namespace Cqlib

open Circuit (StandardGate)

variable {P : Type} {check : CommutationCheck P}

/-! ## The sets along the wires -/

/-- One stage of the sets of a wire comes before the other: members of a set stay until a new
one is opened. -/
structure WireSet.Before (wire wire' : WireSet P) : Prop where
  le : wire.index ≤ wire'.index
  members : wire'.index = wire.index → ∀ m ∈ wire.members, m ∈ wire'.members

theorem WireSet.Before.refl (wire : WireSet P) : wire.Before wire := ⟨le_rfl, fun _ _ hm => hm⟩

theorem WireSet.Before.trans {wire wire' wire'' : WireSet P} (h : wire.Before wire')
    (h' : wire'.Before wire'') : wire.Before wire'' := by
  have hle := h.le
  have hle' := h'.le
  refine ⟨by omega, fun heq m hm => ?_⟩
  exact h'.members (by omega) m (h.members (by omega) m hm)

structure WireSet.Places (wire : WireSet P) (view : OperationView P) (i : ℕ) : Prop where
  le : i ≤ wire.index
  member : i = wire.index → view ∈ wire.members

/-- A view that takes the number commutes with the members that are already in that set. -/
structure WireSet.Precedes (check : CommutationCheck P) (wire : WireSet P) (view : OperationView P)
    (i : ℕ) : Prop where
  le : wire.index ≤ i
  commutes : i = wire.index → ∀ m ∈ wire.members, exactCommutes check view m = true

theorem WireSet.Before.precedes {wire wire' : WireSet P} (h : wire.Before wire')
    {view : OperationView P} {i : ℕ} (h' : wire'.Precedes check view i) :
    wire.Precedes check view i := by
  have hle := h.le
  have hle' := h'.le
  refine ⟨by omega, fun heq m hm => h'.commutes (by omega) m (h.members (by omega) m hm)⟩

theorem WireSet.Places.mono {wire wire' : WireSet P} {view : OperationView P} {i : ℕ}
    (h : wire.Places view i) (h' : wire.Before wire') : wire'.Places view i := by
  have hle := h.le
  have hle' := h'.le
  exact ⟨by omega, fun heq => h'.members (by omega) view (h.member (by omega))⟩

def entered (check : CommutationCheck P) (view : OperationView P) (wire : WireSet P) : WireSet P :=
  if wire.members.all (exactCommutes check view) then
    { wire with members := wire.members ++ [view] }
  else ⟨wire.index + 1, [view]⟩

section

variable (view : OperationView P)

theorem enterWires_cons (qubit : Qubit) (qubits : List Qubit) (wireSets : Qubit → WireSet P) :
    enterWires check view (qubit :: qubits) wireSets =
      ((enterWires check view qubits
          (Function.update wireSets qubit (entered check view (wireSets qubit)))).1,
        (entered check view (wireSets qubit)).index ::
          (enterWires check view qubits
            (Function.update wireSets qubit (entered check view (wireSets qubit)))).2) := by
  unfold entered
  rw [enterWires]
  dsimp only
  split <;> rfl

section

variable (wire : WireSet P)

theorem before_entered : wire.Before (entered check view wire) := by
  unfold entered
  split
  · exact ⟨le_rfl, fun _ m hm => List.mem_append_left _ hm⟩
  · refine ⟨by simp, fun heq => ?_⟩
    simp at heq

theorem entered_places : (entered check view wire).Places view (entered check view wire).index := by
  refine ⟨le_rfl, fun _ => ?_⟩
  unfold entered
  split <;> simp

theorem entered_precedes : wire.Precedes check view (entered check view wire).index := by
  refine ⟨(before_entered view wire).le, fun heq => ?_⟩
  unfold entered at heq
  split at heq
  · rename_i hall
    exact List.all_eq_true.mp hall
  · simp at heq

end

variable (qubits : List Qubit) (wireSets : Qubit → WireSet P)

theorem enterWires_before (q : Qubit) :
    (wireSets q).Before ((enterWires check view qubits wireSets).1 q) := by
  induction qubits generalizing wireSets with
  | nil => exact .refl _
  | cons qubit qubits ih =>
    rw [enterWires_cons]
    refine .trans ?_ (ih _)
    by_cases heq : q = qubit
    · subst heq
      rw [Function.update_self]
      exact before_entered view _
    · rw [Function.update_of_ne heq]
      exact .refl _

/-- On each of its wires the view has a number between those before and after it. -/
theorem enterWires_spec {q : Qubit} {i : ℕ}
    (h : (q, i) ∈ qubits.zip (enterWires check view qubits wireSets).2) :
    (wireSets q).Precedes check view i ∧
      ((enterWires check view qubits wireSets).1 q).Places view i := by
  induction qubits generalizing wireSets with
  | nil => simp at h
  | cons qubit qubits ih =>
    rw [enterWires_cons] at h ⊢
    rw [List.zip_cons_cons, List.mem_cons] at h
    rcases h with heq | h
    · cases heq
      refine ⟨entered_precedes view _, ?_⟩
      refine WireSet.Places.mono ?_ (enterWires_before view qubits _ _)
      rw [Function.update_self]
      exact entered_places view _
    · obtain ⟨hprecedes, hplaces⟩ := ih _ h
      refine ⟨?_, hplaces⟩
      by_cases heq : q = qubit
      · subst heq
        rw [Function.update_self] at hprecedes
        exact (before_entered view _).precedes hprecedes
      · rwa [Function.update_of_ne heq] at hprecedes

theorem enterWires_length : (enterWires check view qubits wireSets).2.length = qubits.length := by
  induction qubits generalizing wireSets with
  | nil => rfl
  | cons qubit qubits ih =>
    rw [enterWires_cons]
    simp [ih]

end

/-! ## Pairs of views -/

abbrev Placement (P : Type) := OperationView P × List ℕ

/-- The view has the number on the wire. -/
def Placement.On (entry : Placement P) (q : Qubit) (i : ℕ) : Prop :=
  (q, i) ∈ entry.1.op.qubits.zip entry.2

/-- On a shared wire the numbers grow, and equal ones mean that the views commute. -/
def Ordered (check : CommutationCheck P) (entry entry' : Placement P) : Prop :=
  ∀ q i j, entry.On q i → entry'.On q j →
    i ≤ j ∧ (j = i → exactCommutes check entry'.1 entry.1 = true)

variable {entry : Placement P}

section

variable (views : List (OperationView P)) (wireSets : Qubit → WireSet P)

theorem viewSetIndices_precedes (h : entry ∈ viewSetIndices check views wireSets) {q : Qubit}
    {i : ℕ} (hon : entry.On q i) :
    (wireSets q).Precedes check entry.1 i := by
  induction views generalizing wireSets with
  | nil => simp [viewSetIndices] at h
  | cons view views ih =>
    unfold viewSetIndices at h
    dsimp only at h
    rcases List.mem_cons.mp h with rfl | h
    · exact (enterWires_spec view _ _ hon).1
    · exact (enterWires_before view view.op.qubits wireSets q).precedes (ih _ h)

theorem viewSetIndices_ordered :
    (viewSetIndices check views wireSets).Pairwise (Ordered check) := by
  induction views generalizing wireSets with
  | nil => exact .nil
  | cons view views ih =>
    unfold viewSetIndices
    dsimp only
    refine .cons (fun entry hentry q i j hi hj => ?_) (ih _)
    have hplaces : ((enterWires check view view.op.qubits wireSets).1 q).Places view i :=
      (enterWires_spec view _ _ hi).2
    have hprecedes := viewSetIndices_precedes views _ hentry hj
    have hle := hplaces.le
    have hge := hprecedes.le
    refine ⟨by omega, fun heq => ?_⟩
    exact hprecedes.commutes (by omega) view (hplaces.member (by omega))

theorem viewSetIndices_map_fst : (viewSetIndices check views wireSets).map Prod.fst = views := by
  induction views generalizing wireSets with
  | nil => rfl
  | cons view views ih =>
    unfold viewSetIndices
    dsimp only
    rw [List.map_cons, ih]

theorem viewSetIndices_length (h : entry ∈ viewSetIndices check views wireSets) :
    entry.2.length = entry.1.op.qubits.length := by
  induction views generalizing wireSets with
  | nil => simp [viewSetIndices] at h
  | cons view views ih =>
    unfold viewSetIndices at h
    dsimp only at h
    rcases List.mem_cons.mp h with rfl | h
    · exact enterWires_length ..
    · exact ih _ h

end

/-! ## Buckets -/

/-- What two candidates share that have the same key. -/
inductive SameBucket : OperationView P × List ℕ → OperationView P × List ℕ → Prop where
  /-- The same gate on the same qubits. -/
  | same {entry entry'} (gate) (hcandidate : gate ∈ selfInverseGates)
      (hinstruction : entry.1.op.instruction = .standard gate)
      (hinstruction' : entry'.1.op.instruction = .standard gate)
      (hqubits : entry'.1.op.qubits = entry.1.op.qubits)
      (hon : ∀ q i, Placement.On entry q i ↔ Placement.On entry' q i) : SameBucket entry entry'
  /-- The operands are exchanged. -/
  | exchanged {entry entry'} (a b) (hinstruction : entry.1.op.instruction = .standard .CZ)
      (hinstruction' : entry'.1.op.instruction = .standard .CZ)
      (hqubits : entry.1.op.qubits = [a, b]) (hqubits' : entry'.1.op.qubits = [b, a])
      (hon : ∀ q i, Placement.On entry q i ↔ Placement.On entry' q i) : SameBucket entry entry'

theorem cancellationKey_spec {key : CancellationKey}
    (h : entry.1.cancellationKey entry.2 = some key) :
    ∃ gate, gate ∈ selfInverseGates ∧ entry.1.op.instruction = .standard gate ∧
      ((∃ q i rest, entry.1.op.qubits = [q] ∧ entry.2 = i :: rest ∧ key = .oneQ gate q i) ∨
        ∃ a b i j rest, entry.1.op.qubits = [a, b] ∧ entry.2 = i :: j :: rest ∧
          (key = .twoQ gate (a, b) (i, j) ∨
            gate = .CZ ∧ key = .twoQ gate (b, a) (j, i))) := by
  unfold OperationView.cancellationKey at h
  cases hinstruction : entry.1.op.instruction with
  | standard gate =>
    rw [hinstruction] at h
    simp only [Instruction.standardGate, Option.bind_eq_bind, Option.bind_some] at h
    by_cases hcandidate : isSelfInverseCandidate gate = true
    · have hmem : gate ∈ selfInverseGates := by simpa [isSelfInverseCandidate] using hcandidate
      refine ⟨gate, hmem, rfl, ?_⟩
      rw [hcandidate, if_neg (by simp)] at h
      split at h
      · rename_i q i rest hqubits hindices
        exact .inl ⟨q, i, rest, hqubits, hindices, (Option.some.inj h).symm⟩
      · rename_i a b i j rest hqubits hindices
        refine .inr ⟨a, b, i, j, rest, hqubits, hindices, ?_⟩
        split at h
        · rename_i hswap
          rw [Bool.and_eq_true] at hswap
          refine .inr ⟨?_, (Option.some.inj h).symm⟩
          simp only [selfInverseGates, List.mem_cons, List.not_mem_nil, or_false] at hmem
          rcases hmem with rfl | rfl | rfl | rfl | rfl | rfl | rfl <;>
            simp_all [StandardGate.isInvariantUnderOperandSwap]
        · exact .inl (Option.some.inj h).symm
      · cases h
    · rw [Bool.not_eq_true] at hcandidate
      rw [hcandidate, if_pos (by simp)] at h
      cases h
  | _ =>
    rw [hinstruction] at h
    cases h

theorem on_one {q : Qubit} {i : ℕ} {rest : List ℕ} (hqubits : entry.1.op.qubits = [q])
    (hindices : entry.2 = i :: rest) (q' : Qubit) (i' : ℕ) :
    entry.On q' i' ↔ q' = q ∧ i' = i := by
  unfold Placement.On
  rw [hqubits, hindices]
  simp

theorem on_two {a b : Qubit} {i j : ℕ} {rest : List ℕ} (hqubits : entry.1.op.qubits = [a, b])
    (hindices : entry.2 = i :: j :: rest) (q' : Qubit) (i' : ℕ) :
    entry.On q' i' ↔ q' = a ∧ i' = i ∨ q' = b ∧ i' = j := by
  unfold Placement.On
  rw [hqubits, hindices]
  simp

theorem sameBucket_of_key {entry' : Placement P} {key : CancellationKey}
    (h : entry.1.cancellationKey entry.2 = some key)
    (h' : entry'.1.cancellationKey entry'.2 = some key) : SameBucket entry entry' := by
  obtain ⟨gate, hcandidate, hinstruction, hcase⟩ := cancellationKey_spec h
  obtain ⟨gate', -, hinstruction', hcase'⟩ := cancellationKey_spec h'
  rcases hcase with ⟨q, i, rest, hqubits, hindices, rfl⟩ | ⟨a, b, i, j, rest, hqubits, hindices, hkey⟩
  · rcases hcase' with ⟨q', i', rest', hqubits', hindices', heq⟩ | ⟨_, _, _, _, _, _, _, hkey'⟩
    · cases heq
      exact .same gate hcandidate hinstruction hinstruction' (by rw [hqubits, hqubits'])
        fun _ _ => by rw [on_one hqubits hindices, on_one hqubits' hindices']
    · rcases hkey' with heq | ⟨-, heq⟩ <;> cases heq
  · rcases hcase' with ⟨q', i', rest', hqubits', hindices', heq⟩ |
      ⟨a', b', i', j', rest', hqubits', hindices', hkey'⟩
    · rcases hkey with rfl | ⟨-, rfl⟩ <;> cases heq
    · rcases hkey with rfl | ⟨rfl, rfl⟩
      · rcases hkey' with heq | ⟨rfl, heq⟩
        · cases heq
          exact .same gate hcandidate hinstruction hinstruction' (by rw [hqubits, hqubits'])
            fun _ _ => by rw [on_two hqubits hindices, on_two hqubits' hindices']
        · cases heq
          exact .exchanged a b hinstruction hinstruction' hqubits hqubits'
            fun _ _ => by rw [on_two hqubits hindices, on_two hqubits' hindices', or_comm]
      · rcases hkey' with heq | ⟨-, heq⟩
        · cases heq
          exact .exchanged a b hinstruction hinstruction' hqubits hqubits'
            fun _ _ => by rw [on_two hqubits hindices, on_two hqubits' hindices', or_comm]
        · cases heq
          exact .same .CZ hcandidate hinstruction hinstruction' (by rw [hqubits, hqubits'])
            fun _ _ => by rw [on_two hqubits hindices, on_two hqubits' hindices']

theorem SameBucket.on {entry' : Placement P} (h : SameBucket entry entry') (q : Qubit) (i : ℕ) :
    entry.On q i ↔ entry'.On q i := by
  cases h with
  | same _ _ _ _ _ hon | exchanged _ _ _ _ _ _ hon => exact hon q i

/-- Between two members of a bucket a view commutes with the first one, or shares no wire. -/
theorem Ordered.between {x w y : Placement P} (hxw : Ordered check x w) (hwy : Ordered check w y)
    (hsame : SameBucket x y) (hx : x.2.length = x.1.op.qubits.length)
    (hw : w.2.length = w.1.op.qubits.length) :
    x.1.op.qubits.Disjoint w.1.op.qubits ∨ exactCommutes check w.1 x.1 = true := by
  rw [or_iff_not_imp_left]
  intro hshared
  simp only [List.Disjoint, not_forall] at hshared
  obtain ⟨q, hqx, hqw, -⟩ := hshared
  have hnumber : ∀ {entry : Placement P}, entry.2.length = entry.1.op.qubits.length →
      q ∈ entry.1.op.qubits → ∃ i, entry.On q i := by
    intro entry hlen hq
    have hq' : q ∈ (entry.1.op.qubits.zip entry.2).map Prod.fst := by
      rw [List.map_fst_zip hlen.ge]
      exact hq
    obtain ⟨⟨q', i⟩, hmem, rfl⟩ := List.mem_map.mp hq'
    exact ⟨i, hmem⟩
  obtain ⟨i, hi⟩ := hnumber hx hqx
  obtain ⟨j, hj⟩ := hnumber hw hqw
  obtain ⟨hij, hcommutes⟩ := hxw q i j hi hj
  obtain ⟨hji, -⟩ := hwy q j i hj ((hsame.on q i).mp hi)
  exact hcommutes (by omega)

end Cqlib
