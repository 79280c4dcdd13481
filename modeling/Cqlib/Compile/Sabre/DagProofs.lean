import Cqlib.Compile.Sabre.Dag
import Cqlib.Lib.Result

/-!
# The dependency graph keeps program order

Every operation is behind the earlier ones that share a wire with it, and around the ordering
barriers.
-/

open Cqlib.Lib Cqlib.Lib.StateResult Cqlib.Device

namespace Cqlib.Sabre

variable {P : Type}

/-! ## Emissions -/

def operationsAt (graph : DiGraph (SabreNode P) Unit) (n : ℕ) : List (SabreOperation P) :=
  match graph.node n with
  | some node => node.operations
  | none => []

/-- The initial operations, then the nodes with what is folded into them. -/
def emission (initial : List (SabreOperation P)) (graph : DiGraph (SabreNode P) Unit)
    (order : List ℕ) : List (SabreOperation P) := initial ++ order.flatMap (operationsAt graph)

def numbered (operations : List (Operation P)) : List (SabreOperation P) :=
  operations.zipIdx.map fun (op, sourceOrder) => ⟨op, sourceOrder⟩

theorem mem_numbered {operations : List (Operation P)} {o : SabreOperation P} :
    o ∈ numbered operations ↔ operations[o.sourceOrder]? = some o.operation := by
  obtain ⟨op, i⟩ := o
  unfold numbered
  rw [List.mem_map]
  constructor
  · rintro ⟨⟨op', i'⟩, h, heq⟩
    cases heq
    exact List.mem_zipIdx_iff_getElem?.mp h
  · exact fun h => ⟨(op, i), List.mem_zipIdx_iff_getElem?.mpr h, rfl⟩

theorem numbered_append (operations : List (Operation P)) (op : Operation P) :
    numbered (operations ++ [op]) = numbered operations ++ [⟨op, operations.length⟩] := by
  simp [numbered, List.zipIdx_append]

theorem lt_of_mem_numbered {operations : List (Operation P)} {o : SabreOperation P}
    (h : o ∈ numbered operations) : o.sourceOrder < operations.length :=
  (List.getElem?_eq_some_iff.mp (mem_numbered.mp h)).1

theorem numbered_nodup (operations : List (Operation P)) : (numbered operations).Nodup := by
  refine List.Nodup.of_map SabreOperation.sourceOrder ?_
  unfold numbered
  rw [List.map_map]
  have hindices : (operations.zipIdx.map (SabreOperation.sourceOrder ∘ fun (op, sourceOrder) =>
      (⟨op, sourceOrder⟩ : SabreOperation P))) = List.range' 0 operations.length := by
    rw [← List.zipIdx_map_snd]
    rfl
  rw [hindices]
  exact List.nodup_range'

def InOrder (a b : Operation P) : Prop :=
  (∃ q ∈ a.qubits, q ∈ b.qubits) ∨ isOrderingBarrier a = true ∨ isOrderingBarrier b = true

structure Loose (operations : List (Operation P)) (o : SabreOperation P) : Prop where
  qubits : o.operation.qubits = []
  plain : isOrderingBarrier o.operation = false
  behind : ∃ b ∈ numbered operations, isOrderingBarrier b.operation = true ∧
    b.sourceOrder < o.sourceOrder

/-! ## The state of the loop -/

namespace DagBuilder

variable {builder : DagBuilder P} {operations : List (Operation P)}

/-- The operation is emitted before the node or with it. -/
def Behind (builder : DagBuilder P) (o : SabreOperation P) (n : ℕ) : Prop :=
  o ∈ builder.initial ∨ ∃ m, o ∈ operationsAt builder.graph m ∧ builder.graph.Reaches m n

structure Represents (builder : DagBuilder P) (operations : List (Operation P)) : Prop where
  placed : (emission builder.initial builder.graph (List.range builder.graph.numNodes)).Perm
    (numbered operations)
  ascending : builder.graph.Ascending
  initialSorted : builder.initial.Pairwise fun a b => a.sourceOrder < b.sourceOrder
  nodeSorted : ∀ n, (operationsAt builder.graph n).Pairwise fun a b => a.sourceOrder < b.sourceOrder
  wireNode : ∀ q n, builder.wirePos.get? q = some n → n < builder.graph.numNodes
  barrierNode : ∀ n, builder.globalBarrier = some n → n < builder.graph.numNodes
  /-- The frontier of a wire is behind each operation on it. -/
  wire : ∀ o ∈ numbered operations, ∀ q ∈ o.operation.qubits,
    o ∈ builder.initial ∨ ∃ n, builder.wirePos.get? q = some n ∧ builder.Behind o n
  /-- The last barrier is behind the others. -/
  barrier : ∀ o ∈ numbered operations, isOrderingBarrier o.operation = true →
    ∃ n, builder.globalBarrier = some n ∧ builder.Behind o n
  someBarrier : ∀ n, builder.globalBarrier = some n →
    ∃ o ∈ numbered operations, isOrderingBarrier o.operation = true
  free : ∀ o ∈ numbered operations, o.operation.qubits = [] →
    isOrderingBarrier o.operation = false → ¬ Loose operations o → o ∈ builder.initial
  /-- Nothing comes behind a loose operation. -/
  loose : ∀ o ∈ numbered operations, Loose operations o → ∃ n, operationsAt builder.graph n = [o] ∧
    (∀ v, ¬ builder.graph.Adj n v) ∧ (∀ q, builder.wirePos.get? q ≠ some n) ∧ builder.globalBarrier ≠ some n
  ordered : ∀ o ∈ numbered operations, ∀ o' ∈ numbered operations,
    o.sourceOrder < o'.sourceOrder → InOrder o.operation o'.operation →
    ¬ (Loose operations o ∧ isOrderingBarrier o'.operation = true) →
    o ∈ builder.initial ∨ ∃ n, o' ∈ operationsAt builder.graph n ∧ builder.Behind o n

theorem represents_empty : ({} : DagBuilder P).Represents [] := by
  constructor
  all_goals simp [numbered, emission, DiGraph.empty, DiGraph.numNodes, DiGraph.Ascending,
    DiGraph.Adj, OrderedMap.empty, OrderedMap.get?, operationsAt, DiGraph.node]

/-! ## The parents of an operation -/

theorem mem_foldl_pushParent {frontiers parents : List ℕ} {p : ℕ} :
    p ∈ frontiers.foldl pushParent parents ↔ p ∈ parents ∨ p ∈ frontiers := by
  induction frontiers generalizing parents with
  | nil => simp
  | cons frontier frontiers ih =>
    rw [List.foldl_cons, ih]
    unfold pushParent
    split
    · rename_i hmem
      simp only [List.mem_cons]
      constructor
      · rintro (h | h)
        · exact .inl h
        · exact .inr (.inr h)
      · rintro (h | rfl | h)
        · exact .inl h
        · exact .inl hmem
        · exact .inr h
    · simp [or_assoc]

variable {op : Operation P}

theorem mem_parents {p : ℕ} : p ∈ builder.parents op ↔
    builder.globalBarrier = some p ∨ ∃ q, (isOrderingBarrier op = true ∨ q ∈ op.qubits) ∧
      builder.wirePos.get? q = some p := by
  unfold parents
  rw [mem_foldl_pushParent, Option.mem_toList]
  refine or_congr_right ?_
  split
  · rename_i hbarrier
    simp only [List.mem_map, hbarrier, true_or, true_and, Prod.exists, exists_eq_right,
      OrderedMap.get?_eq_some]
  · rename_i hbarrier
    simp [hbarrier]

variable {op : Operation P}

variable {o : SabreOperation P}

/-- An operation that an earlier one must precede has a parent behind the earlier one. -/
theorem Represents.covered (h : builder.Represents operations) (ho : o ∈ numbered operations)
    (hinOrder : InOrder o.operation op)
    (hloose : ¬ (Loose operations o ∧ isOrderingBarrier op = true)) :
    o ∈ builder.initial ∨ ∃ p ∈ builder.parents op, builder.Behind o p := by
  have hwire : ∀ q ∈ o.operation.qubits, isOrderingBarrier op = true ∨ q ∈ op.qubits →
      o ∈ builder.initial ∨ ∃ p ∈ builder.parents op, builder.Behind o p := by
    intro q hq hor
    rcases h.wire o ho q hq with hinitial | ⟨n, hn, hbehind⟩
    · exact .inl hinitial
    · exact .inr ⟨n, mem_parents.mpr (.inr ⟨q, hor, hn⟩), hbehind⟩
  have hbarrier : isOrderingBarrier o.operation = true →
      o ∈ builder.initial ∨ ∃ p ∈ builder.parents op, builder.Behind o p := by
    intro hbarrier
    obtain ⟨n, hn, hbehind⟩ := h.barrier o ho hbarrier
    exact .inr ⟨n, mem_parents.mpr (.inl hn), hbehind⟩
  rcases hinOrder with ⟨q, hq, hq'⟩ | hfirst | hsecond
  · exact hwire q hq (.inr hq')
  · exact hbarrier hfirst
  · by_cases hfirst : isOrderingBarrier o.operation = true
    · exact hbarrier hfirst
    · cases hqubits : o.operation.qubits with
      | nil =>
        exact .inl (h.free o ho hqubits (by simpa using hfirst) fun hl => hloose ⟨hl, hsecond⟩)
      | cons q qubits => exact hwire q (by simp [hqubits]) (.inl hsecond)

/-! ## One more operation -/

theorem Represents.mem_initial (h : builder.Represents operations) (ho : o ∈ builder.initial) :
    o ∈ numbered operations :=
  h.placed.subset (List.mem_append_left _ ho)

theorem operationsAt_of_le {graph : DiGraph (SabreNode P) Unit} {n : ℕ} (h : graph.numNodes ≤ n) :
    operationsAt graph n = [] := by
  unfold operationsAt
  rw [DiGraph.node_eq_none.mpr h]

theorem Represents.mem_operationsAt (h : builder.Represents operations) {n : ℕ}
    (ho : o ∈ operationsAt builder.graph n) : o ∈ numbered operations := by
  have hn : n < builder.graph.numNodes := by
    by_contra hle
    rw [operationsAt_of_le (not_lt.mp hle)] at ho
    cases ho
  apply h.placed.subset
  exact List.mem_append_right _ (List.mem_flatMap.mpr ⟨n, List.mem_range.mpr hn, ho⟩)

/-- The operation becomes the last one of a node that its parents reach. -/
structure PlacesAt (builder builder' : DagBuilder P) (o : SabreOperation P) (t : ℕ) : Prop where
  initial : builder'.initial = builder.initial
  operations : ∀ n, operationsAt builder'.graph n =
    if n = t then operationsAt builder.graph n ++ [o] else operationsAt builder.graph n
  adj : ∀ u v, builder'.graph.Adj u v ↔ builder.graph.Adj u v ∨
    (u ∈ builder.parents o.operation ∧ u ≠ t ∧ v = t)
  wires : ∀ q, builder'.wirePos.get? q =
    if q ∈ o.operation.qubits then some t else builder.wirePos.get? q
  barrier : builder'.globalBarrier =
    if isOrderingBarrier o.operation then some t else builder.globalBarrier
  node : (t = builder.graph.numNodes ∧ builder'.graph.numNodes = builder.graph.numNodes + 1) ∨
    (t ∈ builder.parents o.operation ∧ o.operation.qubits ≠ [] ∧
      (∀ p ∈ builder.parents o.operation, p = t) ∧
      builder'.graph.numNodes = builder.graph.numNodes)

variable {builder' : DagBuilder P} {o : SabreOperation P} {t : ℕ}

variable {x : SabreOperation P}

section

variable (h : builder.PlacesAt builder' o t)

include h

theorem PlacesAt.behind {n : ℕ} (hx : builder.Behind x n) : builder'.Behind x n := by
  rcases hx with hx | ⟨m, hm, hr⟩
  · left
    rw [h.initial]
    exact hx
  · refine .inr ⟨m, ?_, hr.mono fun u v hadj => (h.adj u v).mpr (.inl hadj)⟩
    rw [h.operations]
    split
    · exact List.mem_append_left _ hm
    · exact hm

theorem PlacesAt.behind_place {p : ℕ} (hp : p ∈ builder.parents o.operation)
    (hx : builder.Behind x p) : builder'.Behind x t := by
  rcases h.behind hx with hx | ⟨m, hm, hr⟩
  · exact .inl hx
  · refine .inr ⟨m, hm, ?_⟩
    by_cases hpt : p = t
    · rw [← hpt]
      exact hr
    · exact hr.tail ((h.adj p t).mpr (.inr ⟨hp, hpt, rfl⟩))

theorem PlacesAt.self_behind : builder'.Behind o t := by
  refine .inr ⟨t, ?_, .refl⟩
  rw [h.operations, if_pos rfl]
  simp

end

theorem flatMap_placed_perm {α β : Type} [DecidableEq α] {f g : α → List β} {l : List α} {a : α}
    {x : β} (hl : l.Nodup) (ha : a ∈ l)
    (hg : ∀ b, g b = if b = a then f b ++ [x] else f b) :
    (l.flatMap g).Perm (l.flatMap f ++ [x]) := by
  obtain ⟨as, bs, rfl⟩ := List.append_of_mem ha
  obtain ⟨-, hcons, hdisjoint⟩ := List.nodup_append.mp hl
  have has : as.flatMap g = as.flatMap f := List.flatMap_congr fun b hb => by
    rw [hg, if_neg (hdisjoint b hb a (by simp))]
  have hbs : bs.flatMap g = bs.flatMap f := List.flatMap_congr fun b hb => by
    rw [hg, if_neg]
    rintro rfl
    exact (List.nodup_cons.mp hcons).1 hb
  rw [List.flatMap_append, List.flatMap_append, List.flatMap_cons, List.flatMap_cons, has, hbs, hg,
    if_pos rfl, List.append_assoc, List.append_assoc, List.append_assoc]
  exact ((List.perm_append_comm).append_left _).append_left _

section

variable (h : builder.PlacesAt builder' o t)

include h

theorem PlacesAt.lt (hb : builder.Represents operations) :
    t < builder'.graph.numNodes ∧ builder.graph.numNodes ≤ builder'.graph.numNodes := by
  rcases h.node with ⟨rfl, hnum⟩ | ⟨hparent, -, -, hnum⟩
  · omega
  · rw [hnum]
    refine ⟨?_, le_rfl⟩
    rcases mem_parents.mp hparent with hglobal | ⟨q, -, hwire⟩
    · exact hb.barrierNode t hglobal
    · exact hb.wireNode q t hwire

theorem PlacesAt.parent_lt (hb : builder.Represents operations) {p : ℕ}
    (hp : p ∈ builder.parents o.operation) (hne : p ≠ t) : p < t := by
  rcases h.node with ⟨rfl, -⟩ | ⟨-, -, hall, -⟩
  · rcases mem_parents.mp hp with hglobal | ⟨q, -, hwire⟩
    · exact hb.barrierNode p hglobal
    · exact hb.wireNode q p hwire
  · exact absurd (hall p hp) hne

theorem PlacesAt.ne_loose {n : ℕ} (hx : operationsAt builder.graph n = [x])
    (hwires : ∀ q, builder.wirePos.get? q ≠ some n) (hglobal : builder.globalBarrier ≠ some n) :
    n ≠ t ∧ n ∉ builder.parents o.operation := by
  have hparents : n ∉ builder.parents o.operation := by
    rw [mem_parents]
    rintro (hn | ⟨q, -, hn⟩)
    · exact hglobal hn
    · exact hwires q hn
  refine ⟨?_, hparents⟩
  rintro rfl
  rcases h.node with ⟨rfl, -⟩ | ⟨hn, -⟩
  · rw [operationsAt_of_le le_rfl] at hx
    cases hx
  · exact hparents hn

end

theorem loose_append (hx : x ∈ numbered operations) :
    Loose (operations ++ [op]) x ↔ Loose operations x := by
  constructor
  · rintro ⟨hqubits, hplain, b, hb, hbarrier, hlt⟩
    refine ⟨hqubits, hplain, b, ?_, hbarrier, hlt⟩
    rw [numbered_append, List.mem_append, List.mem_singleton] at hb
    rcases hb with hb | rfl
    · exact hb
    · have hbelow := lt_of_mem_numbered hx
      dsimp only at hlt
      omega
  · rintro ⟨hqubits, hplain, b, hb, hbarrier, hlt⟩
    refine ⟨hqubits, hplain, b, ?_, hbarrier, hlt⟩
    rw [numbered_append]
    exact List.mem_append_left _ hb

theorem pairwise_append_new {l : List (SabreOperation P)}
    (hl : l.Pairwise fun a b => a.sourceOrder < b.sourceOrder)
    (hmem : ∀ x ∈ l, x ∈ numbered operations) :
    (l ++ [(⟨op, operations.length⟩ : SabreOperation P)]).Pairwise
      fun a b => a.sourceOrder < b.sourceOrder := by
  refine List.pairwise_append.mpr ⟨hl, by simp, fun x hx y hy => ?_⟩
  rw [List.mem_singleton.mp hy]
  exact lt_of_mem_numbered (hmem x hx)

theorem forall_numbered_append {p : SabreOperation P → Prop} :
    (∀ x ∈ numbered (operations ++ [op]), p x) ↔
      (∀ x ∈ numbered operations, p x) ∧ p ⟨op, operations.length⟩ := by
  rw [numbered_append, List.forall_mem_append, List.forall_mem_singleton]

section

variable (h : builder.Represents operations)

include h

theorem Represents.looseNew (hqubits : op.qubits = []) (hplain : isOrderingBarrier op = false)
    (hsome : builder.globalBarrier.isSome) :
    Loose (operations ++ [op]) ⟨op, operations.length⟩ := by
  obtain ⟨n, hn⟩ := Option.isSome_iff_exists.mp hsome
  obtain ⟨b, hb, hbarrier⟩ := h.someBarrier n hn
  refine ⟨hqubits, hplain, b, ?_, hbarrier, lt_of_mem_numbered hb⟩
  rw [numbered_append]
  exact List.mem_append_left _ hb

theorem Represents.place (hp : builder.PlacesAt builder' ⟨op, operations.length⟩ t)
    (hfree : op.qubits = [] → isOrderingBarrier op = false → builder.globalBarrier.isSome) :
    builder'.Represents (operations ++ [op]) := by
  have hlt := hp.lt h
  have hnotLoose : ∀ {x : SabreOperation P}, isOrderingBarrier x.operation = true →
      ∀ ops, ¬ Loose ops x := by
    intro x hbarrier ops hloose
    rw [hloose.plain] at hbarrier
    cases hbarrier
  -- An earlier operation that must precede the new one is behind its node.
  have hcovered : ∀ x ∈ numbered operations, InOrder x.operation op →
      ¬ (Loose operations x ∧ isOrderingBarrier op = true) →
      x ∈ builder'.initial ∨ builder'.Behind x t := by
    intro x hx hinOrder hloose
    rcases h.covered hx hinOrder hloose with hinitial | ⟨p, hparent, hbehind⟩
    · left
      rw [hp.initial]
      exact hinitial
    · exact .inr (hp.behind_place hparent hbehind)
  constructor
  · rw [numbered_append]
    refine .trans ?_ (h.placed.append_right _)
    unfold emission
    rw [hp.initial, List.append_assoc]
    apply List.Perm.append_left
    have hrange : (List.range builder'.graph.numNodes).flatMap (operationsAt builder.graph) =
        (List.range builder.graph.numNodes).flatMap (operationsAt builder.graph) := by
      rcases hp.node with ⟨rfl, hnum⟩ | ⟨-, -, -, hnum⟩
      · rw [hnum, List.range_succ, List.flatMap_append, List.flatMap_singleton,
          operationsAt_of_le le_rfl, List.append_nil]
      · rw [hnum]
    rw [← hrange]
    exact flatMap_placed_perm List.nodup_range (List.mem_range.mpr hlt.1) hp.operations
  · intro u v hadj
    rcases (hp.adj u v).mp hadj with hadj | ⟨hparent, hne, rfl⟩
    · obtain ⟨huv, hv⟩ := h.ascending u v hadj
      exact ⟨huv, hv.trans_le hlt.2⟩
    · exact ⟨hp.parent_lt h hparent hne, hlt.1⟩
  · rw [hp.initial]
    exact h.initialSorted
  · intro n
    rw [hp.operations]
    split
    · exact pairwise_append_new (h.nodeSorted n) fun x hx => h.mem_operationsAt hx
    · exact h.nodeSorted n
  · intro q n hn
    rw [hp.wires] at hn
    split at hn
    · cases hn
      exact hlt.1
    · exact (h.wireNode q n hn).trans_le hlt.2
  · intro n hn
    rw [hp.barrier] at hn
    split at hn
    · cases hn
      exact hlt.1
    · exact (h.barrierNode n hn).trans_le hlt.2
  · rw [forall_numbered_append]
    refine ⟨fun x hx q hq => ?_, fun q hq => ?_⟩
    · rw [hp.wires]
      by_cases hshared : q ∈ op.qubits
      · rw [if_pos hshared]
        by_cases hloose : Loose operations x ∧ isOrderingBarrier op = true
        · rw [hloose.1.qubits] at hq
          cases hq
        · exact (hcovered x hx (.inl ⟨q, hq, hshared⟩) hloose).imp_right fun hb => ⟨t, rfl, hb⟩
      · rw [if_neg hshared, hp.initial]
        exact (h.wire x hx q hq).imp_right fun ⟨n, hn, hb⟩ => ⟨n, hn, hp.behind hb⟩
    · rw [hp.wires, if_pos hq]
      exact .inr ⟨t, rfl, hp.self_behind⟩
  · rw [forall_numbered_append]
    refine ⟨fun x hx hbarrier => ?_, fun hbarrier => ?_⟩
    · rw [hp.barrier]
      split
      · refine ⟨t, rfl, ?_⟩
        rcases hcovered x hx (.inr (.inl hbarrier)) fun hl => hnotLoose hbarrier _ hl.1 with hi | hb
        · exact .inl hi
        · exact hb
      · obtain ⟨n, hn, hb⟩ := h.barrier x hx hbarrier
        exact ⟨n, hn, hp.behind hb⟩
    · rw [hp.barrier]
      dsimp only at hbarrier ⊢
      rw [if_pos hbarrier]
      exact ⟨t, rfl, hp.self_behind⟩
  · intro n hn
    rw [numbered_append]
    rw [hp.barrier] at hn
    split at hn
    · rename_i hbarrier
      exact ⟨_, List.mem_append_right _ (List.mem_singleton_self _), hbarrier⟩
    · obtain ⟨b, hb, hbarrier⟩ := h.someBarrier n hn
      exact ⟨b, List.mem_append_left _ hb, hbarrier⟩
  · rw [forall_numbered_append]
    refine ⟨fun x hx hqubits hplain hloose => ?_, fun hqubits hplain hloose => ?_⟩
    · rw [hp.initial]
      exact h.free x hx hqubits hplain fun hl => hloose ((loose_append hx).mpr hl)
    · exact absurd (h.looseNew hqubits hplain (hfree hqubits hplain)) hloose
  · rw [forall_numbered_append]
    refine ⟨fun x hx hloose => ?_, fun hloose => ?_⟩
    · obtain ⟨n, hn, hleaf, hwires, hglobal⟩ := h.loose x hx ((loose_append hx).mp hloose)
      obtain ⟨hne, hparent⟩ := hp.ne_loose hn hwires hglobal
      refine ⟨n, ?_, fun v hadj => ?_, fun q hq => ?_, fun hq => ?_⟩
      · rw [hp.operations, if_neg hne]
        exact hn
      · rcases (hp.adj n v).mp hadj with hadj | ⟨hmem, -⟩
        · exact hleaf v hadj
        · exact hparent hmem
      · rw [hp.wires] at hq
        split at hq
        · cases hq
          exact hne rfl
        · exact hwires q hq
      · rw [hp.barrier] at hq
        split at hq
        · cases hq
          exact hne rfl
        · exact hglobal hq
    · have hqubits : op.qubits = [] := hloose.qubits
      have hplain : isOrderingBarrier op = false := hloose.plain
      rcases hp.node with ⟨rfl, hnum⟩ | ⟨-, hne, -⟩
      · refine ⟨builder.graph.numNodes, ?_, fun v hadj => ?_, fun q hq => ?_, fun hq => ?_⟩
        · rw [hp.operations, if_pos rfl, operationsAt_of_le le_rfl, List.nil_append]
        · rcases (hp.adj _ v).mp hadj with hadj | ⟨-, hne, -⟩
          · have hbelow := h.ascending _ _ hadj
            omega
          · exact hne rfl
        · rw [hp.wires] at hq
          simp only [hqubits, List.not_mem_nil, if_false] at hq
          exact absurd (h.wireNode q _ hq) (lt_irrefl _)
        · rw [hp.barrier] at hq
          simp only [hplain, Bool.false_eq_true, if_false] at hq
          exact absurd (h.barrierNode _ hq) (lt_irrefl _)
      · exact absurd hqubits hne
  · rw [forall_numbered_append]
    have hlast : ∀ {x : SabreOperation P}, x ∈ numbered operations →
        x.sourceOrder < operations.length := lt_of_mem_numbered
    refine ⟨fun x hx => ?_, ?_⟩
    · rw [forall_numbered_append]
      refine ⟨fun y hy hxy hinOrder hloose => ?_, fun _ hinOrder hloose => ?_⟩
      · rw [loose_append hx] at hloose
        rw [hp.initial]
        rcases h.ordered x hx y hy hxy hinOrder hloose with hi | ⟨n, hn, hb⟩
        · exact .inl hi
        · refine .inr ⟨n, ?_, hp.behind hb⟩
          rw [hp.operations]
          split
          · exact List.mem_append_left _ hn
          · exact hn
      · rw [loose_append hx] at hloose
        refine (hcovered x hx hinOrder hloose).imp_right fun hb => ⟨t, ?_, hb⟩
        rw [hp.operations, if_pos rfl]
        simp
    · intro y hy hxy
      dsimp only at hxy
      rw [numbered_append, List.mem_append, List.mem_singleton] at hy
      rcases hy with hy | rfl
      · have hbelow := hlast hy
        omega
      · dsimp only at hxy
        omega

theorem Represents.pushInitial (hparents : builder.parents op = [])
    (hplain : isOrderingBarrier op = false) :
    ({ builder with initial := builder.initial ++ [⟨op, operations.length⟩] } :
      DagBuilder P).Represents (operations ++ [op]) := by
  have hmono : ∀ x : SabreOperation P, x ∈ builder.initial →
      x ∈ builder.initial ++ [⟨op, operations.length⟩] := fun x hx => List.mem_append_left _ hx
  have hbehind : ∀ {x : SabreOperation P} {n : ℕ}, builder.Behind x n →
      ({ builder with initial := builder.initial ++ [⟨op, operations.length⟩] } :
        DagBuilder P).Behind x n := fun hb => hb.imp_left (hmono _)
  have hnew : (⟨op, operations.length⟩ : SabreOperation P) ∈
      builder.initial ++ [⟨op, operations.length⟩] := by simp
  constructor
  · rw [numbered_append]
    refine .trans ?_ (h.placed.append_right _)
    unfold emission
    rw [List.append_assoc, List.append_assoc]
    exact List.perm_append_comm.append_left _
  · exact h.ascending
  · exact pairwise_append_new h.initialSorted fun x hx => h.mem_initial hx
  · exact h.nodeSorted
  · exact h.wireNode
  · exact h.barrierNode
  · rw [forall_numbered_append]
    refine ⟨fun x hx q hq => ?_, fun q hq => .inl hnew⟩
    exact (h.wire x hx q hq).imp (hmono x) fun ⟨n, hn, hb⟩ => ⟨n, hn, hbehind hb⟩
  · rw [forall_numbered_append]
    refine ⟨fun x hx hbarrier => ?_, fun hbarrier => ?_⟩
    · obtain ⟨n, hn, hb⟩ := h.barrier x hx hbarrier
      exact ⟨n, hn, hbehind hb⟩
    · rw [hplain] at hbarrier
      cases hbarrier
  · intro n hn
    obtain ⟨b, hb, hbarrier⟩ := h.someBarrier n hn
    rw [numbered_append]
    exact ⟨b, List.mem_append_left _ hb, hbarrier⟩
  · rw [forall_numbered_append]
    refine ⟨fun x hx hqubits hx' hloose => ?_, fun _ _ _ => hnew⟩
    exact hmono x (h.free x hx hqubits hx' fun hl => hloose ((loose_append hx).mpr hl))
  · rw [forall_numbered_append]
    refine ⟨fun x hx hloose => h.loose x hx ((loose_append hx).mp hloose), fun hloose => ?_⟩
    -- Behind a barrier the operation would have a parent.
    obtain ⟨b, hb, hbarrier, hlt⟩ := hloose.behind
    rw [numbered_append, List.mem_append, List.mem_singleton] at hb
    rcases hb with hb | rfl
    · obtain ⟨n, hn, -⟩ := h.barrier b hb hbarrier
      have hmem : n ∈ builder.parents op := mem_parents.mpr (.inl hn)
      rw [hparents] at hmem
      cases hmem
    · exact absurd hlt (lt_irrefl _)
  · rw [forall_numbered_append]
    refine ⟨fun x hx => ?_, fun y hy hlt => ?_⟩
    · rw [forall_numbered_append]
      refine ⟨fun y hy hxy hinOrder hloose => ?_, fun _ hinOrder hloose => ?_⟩
      · rw [loose_append hx] at hloose
        exact (h.ordered x hx y hy hxy hinOrder hloose).imp (hmono x)
          fun ⟨n, hn, hb⟩ => ⟨n, hn, hbehind hb⟩
      · rw [loose_append hx] at hloose
        rcases h.covered hx hinOrder hloose with hi | ⟨p, hp, -⟩
        · exact .inl (hmono x hi)
        · rw [hparents] at hp
          cases hp
    · exact fun _ _ => .inl hnew

end

/-! ## The steps -/

theorem advance_get? (wirePos : OrderedMap LogicalQubit ℕ) (qubits : List Qubit) (node : ℕ) (q : ℕ) :
    (advance wirePos qubits node).get? q =
      if q ∈ qubits then some node else wirePos.get? q := by
  unfold advance
  induction qubits generalizing wirePos with
  | nil => rfl
  | cons q' qubits ih =>
    refine (ih (wirePos.insert q' node)).trans ?_
    rw [OrderedMap.get?_insert]
    by_cases hmem : q ∈ qubits
    · simp [hmem]
    · by_cases heq : q = q' <;> simp [hmem, heq]

theorem foldl_addEdge {parents : List ℕ} {t : ℕ} (graph : DiGraph (SabreNode P) Unit) :
    (parents.foldl (fun graph parent => graph.addEdge parent t ()) graph).nodes = graph.nodes ∧
      ∀ u v, (parents.foldl (fun graph parent => graph.addEdge parent t ()) graph).Adj u v ↔
        graph.Adj u v ∨ (u ∈ parents ∧ v = t) := by
  induction parents generalizing graph with
  | nil => simp
  | cons parent parents ih =>
    obtain ⟨hnodes, hadj⟩ := ih (graph.addEdge parent t ())
    refine ⟨hnodes, fun u v => ?_⟩
    rw [List.foldl_cons, hadj, DiGraph.adj_addEdge, List.mem_cons]
    tauto

theorem addNode_placesAt (h : builder.Represents operations) (kind : SabreNodeKind P)
    (o : SabreOperation P) : builder.PlacesAt
      (builder.addNode kind o (builder.parents o.operation)) o builder.graph.numNodes := by
  obtain ⟨hnodes, hadj⟩ := @foldl_addEdge P (builder.parents o.operation) builder.graph.numNodes
    (builder.graph.addNode ⟨[o], kind⟩)
  have hnode : ∀ n, (builder.addNode kind o (builder.parents o.operation)).graph.node n =
      (builder.graph.addNode ⟨[o], kind⟩).node n := by
    intro n
    unfold DiGraph.node addNode
    dsimp only
    rw [hnodes]
  constructor
  · rfl
  · intro n
    unfold operationsAt
    rw [hnode]
    rcases lt_trichotomy n builder.graph.numNodes with hlt | rfl | hgt
    · rw [DiGraph.node_addNode_of_lt hlt, if_neg hlt.ne]
    · rw [DiGraph.node_addNode_self, if_pos rfl, DiGraph.node_eq_none.mpr le_rfl]
      rfl
    · rw [if_neg hgt.ne', DiGraph.node_eq_none.mpr (by rw [DiGraph.numNodes_addNode]; omega),
        DiGraph.node_eq_none.mpr hgt.le]
  · intro u v
    refine (hadj u v).trans (or_congr Iff.rfl ?_)
    constructor
    · rintro ⟨hu, rfl⟩
      refine ⟨hu, ?_, rfl⟩
      rintro rfl
      rcases mem_parents.mp hu with hglobal | ⟨q, -, hwire⟩
      · exact absurd (h.barrierNode _ hglobal) (lt_irrefl _)
      · exact absurd (h.wireNode q _ hwire) (lt_irrefl _)
    · rintro ⟨hu, -, rfl⟩
      exact ⟨hu, rfl⟩
  · exact fun q => advance_get? ..
  · rfl
  · refine .inl ⟨rfl, ?_⟩
    unfold DiGraph.numNodes addNode
    dsimp only
    rw [hnodes]
    simp [DiGraph.addNode]

theorem foldInto_placesAt {previous : ℕ} {node : SabreNode P}
    (hparents : builder.parents o.operation = [previous])
    (hnode : builder.graph.node previous = some node)
    (hplain : isOrderingBarrier o.operation = false) (hqubits : o.operation.qubits ≠ []) :
    builder.PlacesAt (builder.foldInto previous o) o previous := by
  constructor
  · rfl
  · intro n
    unfold operationsAt foldInto
    dsimp only
    rw [DiGraph.node_modifyNode]
    by_cases hn : n = previous
    · rw [if_pos hn.symm, if_pos hn, hn, hnode]
      rfl
    · rw [if_neg (Ne.symm hn), if_neg hn]
  · intro u v
    have hsame : (builder.foldInto previous o).graph.Adj u v ↔ builder.graph.Adj u v := Iff.rfl
    rw [hsame, hparents, List.mem_singleton]
    constructor
    · exact .inl
    · rintro (hadj | ⟨heq, hne, -⟩)
      · exact hadj
      · exact absurd heq hne
  · exact fun q => advance_get? ..
  · unfold foldInto
    simp [hplain]
  · refine .inr ⟨by simp [hparents], hqubits, by simp [hparents], ?_⟩
    simp [foldInto]

/-- Zero operands outside control flow need no place on the device. -/
def KindOf (op : Operation P) (kind : SabreNodeKind P) : Prop :=
  op.qubits = [] → isOrderingBarrier op = false → kind = .synchronize

theorem foldsAt_eq_true {previous : ℕ} {kind : SabreNodeKind P}
    (h : builder.foldsAt previous kind = true) :
    ∃ node, builder.graph.node previous = some node ∧ foldsInto node.kind kind = true := by
  unfold foldsAt at h
  split at h
  · rename_i node hnode
    exact ⟨node, hnode, h⟩
  · cases h

theorem Represents.add {kind : SabreNodeKind P} (h : builder.Represents operations)
    (hkind : KindOf op kind) :
    (builder.add kind ⟨op, operations.length⟩).Represents (operations ++ [op]) := by
  have hsome : op.qubits = [] → isOrderingBarrier op = false → builder.parents op ≠ [] →
      builder.globalBarrier.isSome := by
    intro hqubits hplain hparents
    obtain ⟨p, hp⟩ := List.exists_mem_of_ne_nil _ hparents
    rcases mem_parents.mp hp with hglobal | ⟨q, hq, -⟩
    · rw [hglobal]
      rfl
    · simp [hqubits, hplain] at hq
  have hnew := addNode_placesAt h kind ⟨op, operations.length⟩
  unfold DagBuilder.add
  dsimp only
  split
  · rename_i hparents
    split
    · rename_i hcond
      rw [Bool.and_eq_true, Bool.not_eq_true'] at hcond
      exact h.pushInitial hparents hcond.2
    · rename_i hcond
      have hnode : op.qubits = [] → isOrderingBarrier op = false → builder.globalBarrier.isSome := by
        intro hqubits hplain
        simp [hkind hqubits hplain, hplain, SabreNodeKind.isSynchronize] at hcond
      have hplaced := h.place hnew hnode
      rw [hparents] at hplaced
      exact ⟨hplaced.1, hplaced.2, hplaced.3, hplaced.4, hplaced.5, hplaced.6, hplaced.7, hplaced.8,
        hplaced.9, hplaced.10, hplaced.11, hplaced.12⟩
  · rename_i previous hparents
    split
    · rename_i hcond
      rw [Bool.and_eq_true, Bool.not_eq_true'] at hcond
      obtain ⟨hplain, hfolds⟩ := hcond
      obtain ⟨node, hnode, hsame⟩ := foldsAt_eq_true hfolds
      have hqubits : op.qubits ≠ [] := by
        intro hqubits
        rw [hkind hqubits hplain] at hsame
        simp [foldsInto] at hsame
      exact h.place (foldInto_placesAt hparents hnode hplain hqubits)
        fun hnone => absurd hnone hqubits
    · have hplaced := h.place hnew fun hqubits hplain => hsome hqubits hplain (by simp [hparents])
      rwa [hparents] at hplaced
  · rename_i hnil hsingle
    exact h.place hnew fun hqubits hplain => hsome hqubits hplain fun hparents => hnil hparents

end DagBuilder

end Cqlib.Sabre
