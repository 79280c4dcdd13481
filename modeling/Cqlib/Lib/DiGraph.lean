import Mathlib.Data.List.MinMax
import Mathlib.Data.List.Sort
import Mathlib.Data.List.Perm.Basic

/-!
# Growing directed graphs

Nodes and edges are only ever added, so the index of a node is its place in the order of insertion.
-/

namespace Cqlib.Lib

structure DiGraph (N E : Type) where
  nodes : List N
  edges : List (ℕ × ℕ × E)

namespace DiGraph

variable {N E : Type}

def empty : DiGraph N E := ⟨[], []⟩

def node (g : DiGraph N E) (i : ℕ) : Option N := g.nodes[i]?

def numNodes (g : DiGraph N E) : ℕ := g.nodes.length

def addNode (g : DiGraph N E) (n : N) : DiGraph N E := { g with nodes := g.nodes ++ [n] }

def modifyNode (g : DiGraph N E) (i : ℕ) (f : N → N) : DiGraph N E :=
  { g with nodes := g.nodes.modify i f }

def addEdge (g : DiGraph N E) (source target : ℕ) (e : E) : DiGraph N E :=
  { g with edges := (source, target, e) :: g.edges }

/-- Targets and weights of the edges that leave a node. -/
def outgoing (g : DiGraph N E) (i : ℕ) : List (ℕ × E) :=
  g.edges.filterMap fun (source, target, e) => if source = i then some (target, e) else none

def incoming (g : DiGraph N E) (i : ℕ) : List ℕ :=
  g.edges.filterMap fun (source, target, _) => if target = i then some source else none

/-! ## What an update leaves alone -/

section

variable (g : DiGraph N E)

@[simp] theorem numNodes_addNode (n : N) : (g.addNode n).numNodes = g.numNodes + 1 := by
  simp [addNode, numNodes]

@[simp] theorem numNodes_modifyNode (i : ℕ) (f : N → N) :
    (g.modifyNode i f).numNodes = g.numNodes := by
  simp [modifyNode, numNodes]

@[simp] theorem numNodes_addEdge (s t : ℕ) (e : E) : (g.addEdge s t e).numNodes = g.numNodes := rfl

end

variable {g : DiGraph N E}

variable {i : ℕ}

theorem node_isSome : (g.node i).isSome ↔ i < g.numNodes := by
  simp [node, numNodes]

theorem node_eq_none : g.node i = none ↔ g.numNodes ≤ i := by
  simp [node, numNodes]

theorem lt_of_node {n : N} (h : g.node i = some n) : i < g.numNodes := by
  rw [← node_isSome, h]
  rfl

theorem node_addNode_of_lt {n : N} (h : i < g.numNodes) :
    (g.addNode n).node i = g.node i := by
  unfold node addNode
  rw [List.getElem?_append_left h]

@[simp] theorem node_addNode_self (g : DiGraph N E) (n : N) :
    (g.addNode n).node g.numNodes = some n := by
  simp [node, addNode, numNodes]

theorem node_modifyNode (g : DiGraph N E) (i j : ℕ) (f : N → N) :
    (g.modifyNode i f).node j = if i = j then (g.node j).map f else g.node j := by
  unfold node modifyNode
  rw [List.getElem?_modify]
  split
  · rfl
  · simp

@[simp] theorem node_modifyNode_self (g : DiGraph N E) (i : ℕ) (f : N → N) :
    (g.modifyNode i f).node i = (g.node i).map f := by
  simp [node_modifyNode]

theorem node_modifyNode_of_ne {j : ℕ} (h : i ≠ j) (f : N → N) :
    (g.modifyNode i f).node j = g.node j := by
  simp [node_modifyNode, h]

section

variable (g : DiGraph N E)

@[simp] theorem node_addEdge (s t : ℕ) (e : E) (i : ℕ) : (g.addEdge s t e).node i = g.node i := rfl

@[simp] theorem outgoing_addNode (n : N) (i : ℕ) : (g.addNode n).outgoing i = g.outgoing i := rfl

@[simp] theorem outgoing_modifyNode (i : ℕ) (f : N → N) (j : ℕ) :
    (g.modifyNode i f).outgoing j = g.outgoing j := rfl

@[simp] theorem outgoing_addEdge_self (s t : ℕ) (e : E) :
    (g.addEdge s t e).outgoing s = (t, e) :: g.outgoing s := by
  simp [outgoing, addEdge]

end

theorem outgoing_addEdge_of_ne {s t : ℕ} {e : E} (h : s ≠ i) :
    (g.addEdge s t e).outgoing i = g.outgoing i := by
  simp [outgoing, addEdge, h]

end DiGraph

end Cqlib.Lib

/-!
## Topological orders of a graph

An order of the nodes in which every edge goes forward. What can be reached from a node comes
after it, and a node without outgoing edges may come last.
-/

namespace Cqlib.Lib

/-! ## Places in a list -/

section Before

variable {α : Type*} {l : List α} {a b c : α}

/-- The first entry stands somewhere before the second one. -/
def Before (l : List α) (a b : α) : Prop := [a, b].Sublist l

theorem before_iff : Before l a b ↔ ∃ as bs, l = as ++ bs ∧ a ∈ as ∧ b ∈ bs := by
  unfold Before
  rw [List.cons_sublist_iff]
  simp only [List.singleton_sublist]

theorem Before.left (h : Before l a b) : a ∈ l := h.subset (by simp)

theorem Before.right (h : Before l a b) : b ∈ l := h.subset (by simp)

theorem before_or (ha : a ∈ l) (hb : b ∈ l) (hne : a ≠ b) : Before l a b ∨ Before l b a := by
  induction l with
  | nil => cases ha
  | cons c l ih =>
    rcases List.mem_cons.mp ha with rfl | ha' <;> rcases List.mem_cons.mp hb with rfl | hb'
    · exact absurd rfl hne
    · exact .inl (List.Sublist.cons_cons _ (List.singleton_sublist.mpr hb'))
    · exact .inr (List.Sublist.cons_cons _ (List.singleton_sublist.mpr ha'))
    · exact (ih ha' hb').imp (List.Sublist.cons _) (List.Sublist.cons _)

theorem Before.rel {R : α → α → Prop} (h : Before l a b) (hl : l.Pairwise R) : R a b :=
  List.pairwise_iff_forall_sublist.mp hl h

theorem before_of_lt {key : α → ℕ} (hl : l.Pairwise fun a b => key a < key b) (ha : a ∈ l)
    (hb : b ∈ l) (hlt : key a < key b) : Before l a b := by
  have hne : a ≠ b := by
    rintro rfl
    omega
  refine (before_or ha hb hne).resolve_right fun hba => ?_
  have hgt := hba.rel hl
  omega

theorem Before.trans (hl : l.Nodup) (h : Before l a b) (h' : Before l b c) : Before l a c := by
  obtain ⟨as, bs, rfl, ha, hb⟩ := before_iff.mp h
  have hnot : b ∉ as := fun hmem => (List.nodup_append.mp hl).2.2 b hmem b hb rfl
  obtain ⟨cs, ds, heq, hc, hd⟩ := before_iff.mp h'
  refine before_iff.mpr ⟨as, bs, rfl, ha, ?_⟩
  rcases List.append_eq_append_iff.mp heq with ⟨es, rfl, rfl⟩ | ⟨es, rfl, rfl⟩
  · exact List.mem_append_right es hd
  · exact absurd (List.mem_append_left es hc) hnot

theorem Before.asymm (hl : l.Nodup) (h : Before l a b) : ¬ Before l b a := fun h' => by
  have hself := (h.trans hl h').rel hl
  exact hself rfl

theorem Before.append_left (h : Before l a b) (l' : List α) : Before (l' ++ l) a b :=
  List.Sublist.trans h (List.sublist_append_right l' l)

theorem before_append {l' : List α} (ha : a ∈ l) (hb : b ∈ l') : Before (l ++ l') a b :=
  before_iff.mpr ⟨l, l', rfl, ha, hb⟩

theorem Before.erase [DecidableEq α] (h : Before l a b) (ha : a ≠ c) (hb : b ≠ c) :
    Before (l.erase c) a b := by
  have hsub := List.Sublist.erase c h
  rwa [List.erase_cons_tail (by simpa using ha), List.erase_cons_tail (by simpa using hb),
    List.erase_nil] at hsub

theorem Before.flatMap {β : Type*} {f : α → List β} {x y : β} (h : Before l a b) (hx : x ∈ f a)
    (hy : y ∈ f b) : Before (l.flatMap f) x y := by
  obtain ⟨as, bs, rfl, ha, hb⟩ := before_iff.mp h
  rw [List.flatMap_append]
  exact before_append (List.mem_flatMap.mpr ⟨a, ha, hx⟩) (List.mem_flatMap.mpr ⟨b, hb, hy⟩)

theorem before_flatMap {β : Type*} {f : α → List β} {x y : β} (ha : a ∈ l)
    (h : Before (f a) x y) : Before (l.flatMap f) x y := by
  obtain ⟨as, bs, rfl⟩ := List.append_of_mem ha
  rw [List.flatMap_append, List.flatMap_cons]
  exact List.Sublist.trans h
    ((List.sublist_append_left _ _).trans (List.sublist_append_right _ _))

end Before

namespace DiGraph

variable {N E : Type} {g : DiGraph N E} {order : List ℕ} {u v : ℕ}

def Adj (g : DiGraph N E) (u v : ℕ) : Prop := ∃ e, (u, v, e) ∈ g.edges

def Reaches (g : DiGraph N E) : ℕ → ℕ → Prop := Relation.ReflTransGen g.Adj

/-- Edges go from older to newer nodes. -/
def Ascending (g : DiGraph N E) : Prop := ∀ u v, g.Adj u v → u < v ∧ v < g.numNodes

/-- Each node once, and each edge forward. -/
structure Topological (g : DiGraph N E) (order : List ℕ) : Prop where
  perm : order.Perm (List.range g.numNodes)
  forward : ∀ u v, g.Adj u v → Before order u v

section

variable (h : g.Topological order)

include h

theorem Topological.mem : u ∈ order ↔ u < g.numNodes := by
  rw [h.perm.mem_iff, List.mem_range]

theorem Topological.nodup : order.Nodup :=
  h.perm.nodup_iff.mpr List.nodup_range

theorem Topological.before (hr : g.Reaches u v) (hne : u ≠ v) : Before order u v := by
  induction hr with
  | refl => exact absurd rfl hne
  | @tail b c hr hadj ih =>
    by_cases hub : u = b
    · rw [hub]
      exact h.forward b c hadj
    · exact (ih hub).trans h.nodup (h.forward b c hadj)

end

theorem Ascending.topological (h : g.Ascending) : g.Topological (List.range g.numNodes) := by
  refine ⟨.refl _, fun u v hadj => ?_⟩
  obtain ⟨hlt, hv⟩ := h u v hadj
  exact before_of_lt List.pairwise_lt_range (List.mem_range.mpr (Nat.lt_trans hlt hv))
    (List.mem_range.mpr hv) hlt

theorem Topological.moveLast (h : g.Topological order) (hu : u < g.numNodes)
    (hleaf : ∀ v, ¬ g.Adj u v) : g.Topological (order.erase u ++ [u]) := by
  have hmem : u ∈ order := h.mem.mpr hu
  refine ⟨?_, fun a b hab => ?_⟩
  · exact ((List.perm_append_singleton u _).trans (List.perm_cons_erase hmem).symm).trans h.perm
  · have hau : a ≠ u := by
      rintro rfl
      exact hleaf b hab
    have hforward := h.forward a b hab
    by_cases hbu : b = u
    · rw [hbu]
      exact before_append ((List.mem_erase_of_ne hau).mpr hforward.left) (by simp)
    · exact List.Sublist.trans (hforward.erase hau hbu) (List.sublist_append_left _ _)

/-! ## Orders by a key -/

theorem exists_topological (key : ℕ → ℕ)
    (hinj : ∀ u v, u < g.numNodes → v < g.numNodes → key u = key v → u = v)
    (hadj : ∀ u v, g.Adj u v → u < g.numNodes ∧ v < g.numNodes ∧ key u < key v) :
    ∃ order, g.Topological order := by
  have hperm := List.mergeSort_perm (List.range g.numNodes) fun u v => decide (key u ≤ key v)
  have hsorted : ((List.range g.numNodes).mergeSort fun u v => decide (key u ≤ key v)).Pairwise
      fun u v => key u ≤ key v :=
    (List.pairwise_mergeSort (by simp; omega) (by simp; omega) _).imp of_decide_eq_true
  have hstrict : ((List.range g.numNodes).mergeSort fun u v => decide (key u ≤ key v)).Pairwise
      fun u v => key u < key v := by
    have hne := hperm.nodup_iff.mpr List.nodup_range
    refine (hsorted.and hne).imp_of_mem fun hu hv h => lt_of_le_of_ne h.1 fun heq => h.2 ?_
    exact hinj _ _ (List.mem_range.mp (hperm.mem_iff.mp hu))
      (List.mem_range.mp (hperm.mem_iff.mp hv)) heq
  refine ⟨_, hperm, fun u v h => ?_⟩
  obtain ⟨hu, hv, hlt⟩ := hadj u v h
  exact before_of_lt hstrict (hperm.mem_iff.mpr (List.mem_range.mpr hu))
    (hperm.mem_iff.mpr (List.mem_range.mpr hv)) hlt

/-! ## Sorting -/

section Ready

variable {κ : Type} [LinearOrder κ] (key : ℕ → κ)

/-- No edge comes from a node that is left. -/
def isReady (g : DiGraph N E) (remaining : List ℕ) (v : ℕ) : Bool :=
  g.edges.all fun edge => edge.2.1 ≠ v ∨ edge.1 ∉ remaining

/-- Takes the ready node with the least key, time after time. Fails when no node is ready. -/
def takeReady (g : DiGraph N E) : ℕ → List ℕ → Option (List ℕ)
  | 0, _ => some []
  | n + 1, remaining =>
    match (remaining.filter (g.isReady remaining)).argmin key with
    | none => none
    | some v => (takeReady g n (remaining.erase v)).map (v :: ·)

def sortByKey (g : DiGraph N E) : Option (List ℕ) :=
  g.takeReady key g.numNodes (List.range g.numNodes)

variable {remaining : List ℕ}

theorem isReady_iff {v : ℕ} :
    g.isReady remaining v = true ↔ ∀ u ∈ remaining, ¬ g.Adj u v := by
  unfold isReady Adj
  simp only [List.all_eq_true, decide_eq_true_eq, Prod.forall]
  constructor
  · rintro h u hu ⟨e, he⟩
    rcases h u v e he with hne | hnot
    · exact hne rfl
    · exact hnot hu
  · intro h u w e he
    by_cases hw : w = v
    · subst hw
      exact .inr fun hu => h u hu ⟨e, he⟩
    · exact .inl hw

variable (h : g.Topological order)

include h

theorem Topological.exists_ready (hne : remaining ≠ []) (hsub : ∀ v ∈ remaining, v < g.numNodes) :
    ∃ v ∈ remaining, g.isReady remaining v = true := by
  obtain ⟨w, hw⟩ := List.exists_mem_of_ne_nil remaining hne
  have hsome : (order.find? (· ∈ remaining)).isSome := by
    rw [List.find?_isSome]
    exact ⟨w, h.mem.mpr (hsub w hw), by simpa using hw⟩
  obtain ⟨v, hv⟩ := Option.isSome_iff_exists.mp hsome
  obtain ⟨hmem, as, bs, horder, hbefore⟩ := List.find?_eq_some_iff_append.mp hv
  refine ⟨v, by simpa using hmem, isReady_iff.mpr fun u hu hadj => ?_⟩
  have huv := h.forward u v hadj
  have hmem' := huv.left
  rw [horder, List.mem_append, List.mem_cons] at hmem'
  rcases hmem' with hu' | rfl | hu'
  · have hnot := hbefore u hu'
    simp [hu] at hnot
  · exact huv.rel h.nodup rfl
  · refine huv.asymm h.nodup (before_iff.mpr ⟨as ++ [v], bs, ?_, by simp, hu'⟩)
    rw [horder, List.append_assoc, List.singleton_append]

theorem Topological.takeReady {n : ℕ} (hnodup : remaining.Nodup)
    (hsub : ∀ v ∈ remaining, v < g.numNodes) (hlength : remaining.length = n) :
    ∃ sorted, g.takeReady key n remaining = some sorted ∧
      sorted.Perm remaining ∧
      ∀ u ∈ remaining, ∀ v ∈ remaining, g.Adj u v → Before sorted u v := by
  induction n generalizing remaining with
  | zero =>
    obtain rfl := List.eq_nil_of_length_eq_zero hlength
    exact ⟨[], rfl, .refl _, by simp⟩
  | succ n ih =>
    have hne : remaining ≠ [] := by
      rintro rfl
      cases hlength
    obtain ⟨w, hw, hready⟩ := h.exists_ready hne hsub
    have hsome : (remaining.filter (g.isReady remaining)).argmin key ≠ none := by
      rw [Ne, List.argmin_eq_none]
      exact List.ne_nil_of_mem (List.mem_filter.mpr ⟨hw, hready⟩)
    obtain ⟨v, hv⟩ := Option.ne_none_iff_exists'.mp hsome
    obtain ⟨hmem, hvready⟩ := List.mem_filter.mp (List.argmin_mem hv)
    obtain ⟨sorted, hsorted, hperm, hforward⟩ := ih (hnodup.erase v)
      (fun u hu => hsub u (List.mem_of_mem_erase hu))
      (by rw [List.length_erase_of_mem hmem, hlength, Nat.add_sub_cancel])
    refine ⟨v :: sorted, ?_, ?_, fun a ha b hb hadj => ?_⟩
    · rw [DiGraph.takeReady, hv]
      dsimp only
      rw [hsorted, Option.map_some]
    · exact (List.Perm.cons v hperm).trans (List.perm_cons_erase hmem).symm
    · -- The node that was taken has no edge from those that are left.
      have hbv : b ≠ v := by
        rintro rfl
        exact isReady_iff.mp hvready a ha hadj
      have hb' : b ∈ remaining.erase v := (List.mem_erase_of_ne hbv).mpr hb
      by_cases hav : a = v
      · rw [hav]
        exact List.Sublist.cons_cons _ (List.singleton_sublist.mpr (hperm.mem_iff.mpr hb'))
      · exact List.Sublist.cons _ (hforward a ((List.mem_erase_of_ne hav).mpr ha) b hb' hadj)

theorem Topological.sortByKey : ∃ sorted, g.sortByKey key = some sorted ∧ g.Topological sorted := by
  obtain ⟨sorted, hsorted, hperm, hforward⟩ := h.takeReady key List.nodup_range
    (fun v hv => List.mem_range.mp hv) List.length_range
  refine ⟨sorted, hsorted, hperm, fun u v huv => ?_⟩
  have hbefore := h.forward u v huv
  exact hforward u (List.mem_range.mpr (h.mem.mp hbefore.left)) v
    (List.mem_range.mpr (h.mem.mp hbefore.right)) huv

end Ready

/-! ## Growth -/

theorem adj_addEdge {s t : ℕ} {e : E} :
    (g.addEdge s t e).Adj u v ↔ (u = s ∧ v = t) ∨ g.Adj u v := by
  unfold Adj addEdge
  constructor
  · rintro ⟨e', h⟩
    rcases List.mem_cons.mp h with heq | h
    · cases heq
      exact .inl ⟨rfl, rfl⟩
    · exact .inr ⟨e', h⟩
  · rintro (⟨rfl, rfl⟩ | ⟨e', h⟩)
    · exact ⟨e, List.mem_cons_self ..⟩
    · exact ⟨e', List.mem_cons_of_mem _ h⟩

theorem Reaches.mono {N' E' : Type} {g' : DiGraph N' E'} (h : g.Reaches u v)
    (hadj : ∀ u v, g.Adj u v → g'.Adj u v) : g'.Reaches u v :=
  Relation.ReflTransGen.mono hadj u v h

end DiGraph

end Cqlib.Lib
