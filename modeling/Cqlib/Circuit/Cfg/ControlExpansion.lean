import Cqlib.Circuit.Cfg.Expansion

/-!
# The expansion of control operations

Each control operation with its blocks and edges, and from them every list of operations.
-/

open Cqlib.Lib Cqlib.Classical

namespace Cqlib

variable {P : Type}

namespace CircuitCFG

/-! ## Two edges -/

section Branches

variable {g : CircuitCFG P} {current : ℕ} {block : BasicBlock P}

theorem Grows.openAt {g' : CircuitCFG P} {node : ℕ} (h : Grows g g' current)
    (hopen : g.OpenAt node block) (hne : node ≠ current) : g'.OpenAt node block :=
  hopen.of_same (h.same node hopen.lt hne)

def branchOff (g : CircuitCFG P) (source : ℕ) (terminator : Terminator) (onTrue onFalse : ℕ) :
    CircuitCFG P :=
  ((g.setTerminator source terminator).addEdge source onTrue .trueBranch).addEdge source onFalse
    .falseBranch

theorem grows_branchOff (g : CircuitCFG P) (source : ℕ) (terminator : Terminator)
    (onTrue onFalse : ℕ) : Grows g (g.branchOff source terminator onTrue onFalse) source :=
  ((grows_setTerminator g source terminator).trans (grows_addEdge _ source onTrue _)
    (.inl rfl)).trans (grows_addEdge _ source onFalse _) (.inl rfl)

@[simp] theorem numBlocks_branchOff (g : CircuitCFG P) (source : ℕ) (terminator : Terminator)
    (onTrue onFalse : ℕ) :
    (g.branchOff source terminator onTrue onFalse).numBlocks = g.numBlocks := by
  simp [branchOff]

structure BranchAt (g : CircuitCFG P) (source : ℕ) (block : BasicBlock P) (onTrue onFalse : ℕ) :
    Prop where
  found : g.data.node source = some block
  outgoing : g.data.outgoing source = [(onFalse, .falseBranch), (onTrue, .trueBranch)]

theorem BranchAt.of_same {g' : CircuitCFG P} {source onTrue onFalse : ℕ}
    (h : g.BranchAt source block onTrue onFalse) (hsame : SameAt g g' source) :
    g'.BranchAt source block onTrue onFalse :=
  ⟨hsame.block.trans h.found, hsame.outgoing.trans h.outgoing⟩

theorem branchAt_branchOff {source onTrue onFalse : ℕ} (hopen : g.OpenAt source block)
    (htrue : onTrue < g.numBlocks) (hfalse : onFalse < g.numBlocks) (terminator : Terminator) :
    (g.branchOff source terminator onTrue onFalse).BranchAt source
      { block with terminator := some terminator } onTrue onFalse := by
  unfold branchOff
  rw [addEdge_eq (by simpa using hopen.lt) (by simpa using hfalse),
    addEdge_eq (by simpa using hopen.lt) (by simpa using htrue)]
  constructor
  · simp [setTerminator, hopen.found]
  · simp [outgoing_setTerminator, hopen.outgoing]

theorem pair_perm {onTrue onFalse : ℕ} :
    [(onFalse, FlowEdge.falseBranch), (onTrue, .trueBranch)].Perm
      [(onTrue, .trueBranch), (onFalse, .falseBranch)] := .swap _ _ _

end Branches

/-! ## `if` -/

section If

variable {context : ControlContext} {g g₅ g₆ : CircuitCFG P} {current : ℕ} {block : BasicBlock P}

/-- The three blocks of an `if`, and the edges to its paths. -/
def ifBlocks (g : CircuitCFG P) (current : ℕ) (condition : ClassicalExpr) (idx : ℕ) :
    CircuitCFG P :=
  (((g.addBlock (labelled s!"if_then_{idx}")).addBlock (labelled s!"if_else_{idx}")).addBlock
    (labelled s!"if_merge_{idx}")).branchOff current (.branch condition) g.numBlocks
      (g.numBlocks + 1)

@[simp] theorem numBlocks_ifBlocks (g : CircuitCFG P) (current : ℕ) (condition : ClassicalExpr)
    (idx : ℕ) : (g.ifBlocks current condition idx).numBlocks = g.numBlocks + 3 := by
  simp [ifBlocks]

theorem grows_ifBlocks (g : CircuitCFG P) (current : ℕ) (condition : ClassicalExpr) (idx : ℕ) :
    Grows g (g.ifBlocks current condition idx) current :=
  (((grows_addBlock g _ current).trans (grows_addBlock _ _ current) (.inl rfl)).trans
    (grows_addBlock _ _ current) (.inl rfl)).trans (grows_branchOff _ current _ _ _) (.inl rfl)

theorem branchAt_ifBlocks (hopen : g.OpenAt current block) (condition : ClassicalExpr) (idx : ℕ) :
    (g.ifBlocks current condition idx).BranchAt current
      { block with terminator := some (.branch condition) } g.numBlocks (g.numBlocks + 1) := by
  have hlt := hopen.lt
  unfold ifBlocks
  refine branchAt_branchOff ?_ (by simp; omega) (by simp) _
  exact ((hopen.of_same (sameAt_addBlock _ hlt _)).of_same (sameAt_addBlock _ (by simp; omega)
    _)).of_same (sameAt_addBlock _ (by simp; omega) _)

theorem openAt_ifBlocks (hlt : current < g.numBlocks) (hbounded : g.EdgesBounded)
    (condition : ClassicalExpr) (idx : ℕ) :
    (g.ifBlocks current condition idx).OpenAt g.numBlocks (labelled s!"if_then_{idx}") ∧
      (g.ifBlocks current condition idx).OpenAt (g.numBlocks + 1) (labelled s!"if_else_{idx}") ∧
        (g.ifBlocks current condition idx).OpenAt (g.numBlocks + 2)
          (labelled s!"if_merge_{idx}") := by
  have hbounded₁ := (grows_addBlock g (labelled s!"if_then_{idx}") current).bounded hbounded
  have hbounded₂ := (grows_addBlock _ (labelled s!"if_else_{idx}") current).bounded hbounded₁
  have hthen := hbounded.openAt_addBlock (labelled s!"if_then_{idx}") rfl
  have helse := hbounded₁.openAt_addBlock (labelled s!"if_else_{idx}") rfl
  have hmerge := hbounded₂.openAt_addBlock (labelled s!"if_merge_{idx}") rfl
  simp only [numBlocks_addBlock] at helse hmerge
  have hbranch := grows_branchOff (((g.addBlock (labelled s!"if_then_{idx}")).addBlock
    (labelled s!"if_else_{idx}")).addBlock (labelled s!"if_merge_{idx}")) current
      (.branch condition) g.numBlocks (g.numBlocks + 1)
  refine ⟨hbranch.openAt ?_ (by omega), hbranch.openAt ?_ (by omega),
    hbranch.openAt hmerge (by omega)⟩
  · exact (hthen.of_same (sameAt_addBlock _ (by simp) _)).of_same (sameAt_addBlock _ (by simp) _)
  · exact helse.of_same (sameAt_addBlock _ (by simp) _)

theorem if_expands {condition : ClassicalExpr} {idx : ℕ} {thenOps elseOps : List (Operation P)}
    {thenExit elseExit : ProcessExit} {hasElse : Bool} {outer : OperationMetadata}
    (hcurrent : current < g.numBlocks) (hbounded : g.EdgesBounded)
    (hpath : hasElse = false → elseOps = [])
    (hthen : Expands context thenOps (g.ifBlocks current condition idx) g.numBlocks thenExit g₅)
    (helse : Expands context elseOps g₅ (g.numBlocks + 1) elseExit g₆) :
    ExpandsControl context (controlOperation
        (.if_ ⟨condition, ⟨thenOps⟩, if hasElse then some ⟨elseOps⟩ else none⟩) outer) g current
      (.reachable (g.numBlocks + 2)) (((g₆.connectToMerge thenExit
        (g.numBlocks + 2)).connectToMerge elseExit (g.numBlocks + 2)).setControlFlowRegion current
          (.if_ g.numBlocks (g.numBlocks + 1) (g.numBlocks + 2) hasElse outer)) := by
  have hnum := numBlocks_ifBlocks g current condition idx
  have hle₅ := hthen.grows.le
  have hle₆ := helse.grows.le
  have hthenExit : ∀ node, thenExit = .reachable node →
      (node = g.numBlocks ∨ g.numBlocks + 3 ≤ node) ∧ node < g₅.numBlocks := by
    rintro node rfl
    obtain ⟨htouched, block', hopen'⟩ := hthen.exitOpen
    have hlt := hopen'.lt
    unfold Touched at htouched
    omega
  have helseExit : ∀ node, elseExit = .reachable node →
      node = g.numBlocks + 1 ∨ g₅.numBlocks ≤ node := by
    rintro node rfl
    have htouched := helse.exitOpen.1
    unfold Touched at htouched
    omega
  have hgrows₆ : Grows g g₆ current := ((grows_ifBlocks g current condition idx).trans hthen.grows
    (.inr le_rfl)).trans helse.grows (.inr (by omega))
  have hgrows₈ := (hgrows₆.connectToMerge (fun node h => .inr (by have := hthenExit node h; omega))
    (g.numBlocks + 2)).connectToMerge (fun node h => .inr (by have := helseExit node h; omega))
      (g.numBlocks + 2)
  obtain ⟨hopenThen, hopenElse, hopenMerge⟩ := openAt_ifBlocks hcurrent hbounded condition idx
  -- the exits are neither the merge block nor the current one, nor in each other's path
  have hthenNe : ∀ node, node = current ∨ node = g.numBlocks + 1 ∨ node = g.numBlocks + 2 ∨
      g₅.numBlocks ≤ node → thenExit ≠ .reachable node := fun node hnode heq => by
    have hexit := hthenExit node heq
    omega
  have helseNe : ∀ node, node = current ∨ node = g.numBlocks + 2 ∨
      (node < g₅.numBlocks ∧ node ≠ g.numBlocks + 1) → elseExit ≠ .reachable node :=
    fun node hnode heq => by
      have hexit := helseExit node heq
      omega
  refine ⟨hgrows₈.trans (grows_setControlFlowRegion _ current _) (.inl rfl), ?_, ?_⟩
  · intro next hnext
    cases hnext
    have hopen₅ := hthen.grows.openAt hopenMerge (by omega)
    have hopen₆ := helse.grows.openAt hopen₅ (by omega)
    have hopen₇ := hopen₆.of_same (sameAt_connectToMerge _ (hthenNe (g.numBlocks + 2) (by omega))
      (g.numBlocks + 2))
    have hopen₈ := hopen₇.of_same (sameAt_connectToMerge _ (helseNe (g.numBlocks + 2) (by omega))
      (g.numBlocks + 2))
    exact ⟨by omega, _, hopen₈.of_same (sameAt_setControlFlowRegion _ (by omega) _), rfl⟩
  · intro final stopNode visited block hopen hsame hfresh
    have hsame₈ : ∀ node, Touched g g₆ current node → node ≠ g.numBlocks + 2 → node ≠ current →
        SameAt ((g₆.connectToMerge thenExit (g.numBlocks + 2)).connectToMerge elseExit
          (g.numBlocks + 2)) final node := by
      intro node hnode hmerge hne
      refine (sameAt_setControlFlowRegion _ hne _).trans (hsame node ?_ ?_)
      · simpa [Touched] using hnode
      · exact fun heq => hmerge (ProcessExit.reachable.inj heq).symm
    -- the paths
    have hfresh₄ : Fresh (g.ifBlocks current condition idx) g.numBlocks (some (g.numBlocks + 2))
        (current :: visited) := by
      constructor
      · rintro node ⟨⟩
        omega
      · intro node hnode
        rcases List.mem_cons.mp hnode with rfl | hnode
        · omega
        · have hold := hfresh.visited node hnode
          omega
    have hsameThen : ∀ node, Touched (g.ifBlocks current condition idx) g₅ g.numBlocks node →
        SameAt (g₅.connectToMerge thenExit (g.numBlocks + 2)) final node := by
      intro node hnode
      rw [Touched, hnum] at hnode
      have hsame₅ := (helse.grows.same node (by omega) (by omega)).connectToMerge
        (show g.numBlocks + 2 < _ by omega) (by omega) thenExit
      exact (hsame₅.trans (sameAt_connectToMerge _ (helseNe node (by omega)) _)).trans
        (hsame₈ node (.inr (by omega)) (by omega) (by omega))
    obtain ⟨visited₁, hthenRegion, hvisited₁⟩ :=
      hthen.body hopenThen rfl (by omega) hsameThen hfresh₄
    have hfresh₅ : Fresh g₅ (g.numBlocks + 1) (some (g.numBlocks + 2)) visited₁ := by
      constructor
      · rintro node ⟨⟩
        omega
      · intro node hnode
        rw [hvisited₁, Touched, hnum] at hnode
        rcases hnode with hnode | hnode
        · have hold := hfresh₄.visited node hnode
          have hne : node < g.numBlocks := by
            rcases List.mem_cons.mp hnode with rfl | hnode
            · omega
            · exact (hfresh.visited node hnode).1
          omega
        · omega
    have hsameElse : ∀ node, Touched g₅ g₆ (g.numBlocks + 1) node →
        SameAt (g₆.connectToMerge elseExit (g.numBlocks + 2)) final node := by
      intro node hnode
      rw [Touched] at hnode
      have hsame₆ := (sameAt_connectToMerge g₆ (hthenNe node (by omega))
        (g.numBlocks + 2)).connectToMerge (show g.numBlocks + 2 < _ by omega)
          (by rw [numBlocks_connectToMerge]; omega) elseExit
      exact hsame₆.trans (hsame₈ node (.inr (by omega)) (by omega) (by omega))
    have hopenElse₅ := hthen.grows.openAt hopenElse (by omega)
    obtain ⟨visited₂, helseRegion, hvisited₂⟩ :=
      helse.body hopenElse₅ rfl (by omega) hsameElse hfresh₅
    -- the block itself
    have hbranch := branchAt_ifBlocks hopen condition idx
    have hsame₆ : SameAt (g.ifBlocks current condition idx) g₆ current :=
      (hthen.grows.same current (by omega) (by omega)).trans
        (helse.grows.same current (by omega) (by omega))
    have hbranch₈ := ((hbranch.of_same hsame₆).of_same (sameAt_connectToMerge _
      (hthenNe current (.inl rfl)) (g.numBlocks + 2))).of_same
        (sameAt_connectToMerge _ (helseNe current (.inl rfl)) (g.numBlocks + 2))
    have hcurrent₉ := hsame current (.inl rfl) (fun heq => by cases heq; omega)
    have hregion := hcurrent₉.region.trans (controlFlowRegion_setControlFlowRegion _ _ _)
    refine ⟨visited₂, fun node => ?_, fun rest visited' _ hrest => ?_⟩
    · rw [hvisited₂, hvisited₁]
      simp only [Touched, hnum, List.mem_cons, ne_eq, ProcessExit.reachable.injEq,
        numBlocks_setControlFlowRegion, numBlocks_connectToMerge]
      by_cases hmem : node ∈ visited
      · simp [hmem]
      · simp only [hmem, or_false, false_or]
        omega
    · refine ⟨_, .branch condition, _, hcurrent₉.block.trans hbranch₈.found, rfl, ?_, rfl, id,
        .if_ hregion hpath hthenRegion helseRegion (hrest _ rfl)⟩
      simp only [EdgesMatch, hregion, hcurrent₉.outgoing]
      exact hbranch₈.outgoing ▸ pair_perm

end If

/-! ## Loops -/

section Loops

variable {context : ControlContext} {g g₅ : CircuitCFG P} {current : ℕ} {block : BasicBlock P}
  {terminator : Terminator} {name condition : String} {idx : ℕ}

section

variable (g : CircuitCFG P) (current : ℕ) (terminator : Terminator) (name condition : String)
  (idx : ℕ)

@[simp] theorem numBlocks_addLoop :
    (g.addLoop current terminator name condition idx).numBlocks = g.numBlocks + 3 := by
  simp [addLoop]

theorem addLoop_eq : g.addLoop current terminator name condition idx
      = ((((g.addBlock (labelled s!"{name}_{condition}_{idx}")).transfer current
        (.jump g.numBlocks) g.numBlocks .unconditional).addBlock
          (labelled s!"{name}_body_{idx}")).addBlock (labelled s!"{name}_exit_{idx}")).branchOff
            g.numBlocks terminator (g.numBlocks + 1) (g.numBlocks + 2) := rfl

theorem grows_addLoop : Grows g (g.addLoop current terminator name condition idx) current := by
  rw [addLoop_eq]
  exact ((((grows_addBlock g _ current).trans (grows_transfer _ current _ _ _) (.inl rfl)).trans
    (grows_addBlock _ _ current) (.inl rfl)).trans (grows_addBlock _ _ current) (.inl rfl)).trans
      (grows_branchOff _ g.numBlocks _ _ _) (.inr le_rfl)

end

/-- The current block jumps to the header, the header decides, and the others are open. -/
structure LoopAt (g g' : CircuitCFG P) (current : ℕ) (block : BasicBlock P)
    (terminator : Terminator) (name condition : String) (idx : ℕ) : Prop where
  jump : g'.data.node current = some { block with terminator := some (.jump g.numBlocks) }
  jumpEdge : g'.data.outgoing current = [(g.numBlocks, .unconditional)]
  header : g'.BranchAt g.numBlocks
    { labelled s!"{name}_{condition}_{idx}" with terminator := some terminator }
      (g.numBlocks + 1) (g.numBlocks + 2)
  body : g'.OpenAt (g.numBlocks + 1) (labelled s!"{name}_body_{idx}")
  exit : g'.OpenAt (g.numBlocks + 2) (labelled s!"{name}_exit_{idx}")

theorem loopAt_addLoop (hopen : g.OpenAt current block) (hbounded : g.EdgesBounded)
    (terminator : Terminator) (name condition : String) (idx : ℕ) :
    LoopAt g (g.addLoop current terminator name condition idx) current block terminator name
      condition idx := by
  have hlt := hopen.lt
  rw [addLoop_eq]
  have hopen₁ := hopen.of_same (sameAt_addBlock g hlt (labelled s!"{name}_{condition}_{idx}"))
  have hheader := hbounded.openAt_addBlock (labelled s!"{name}_{condition}_{idx}") rfl
  have hbounded₁ := (grows_addBlock g (labelled s!"{name}_{condition}_{idx}") current).bounded
    hbounded
  have hnum₁ := numBlocks_addBlock g (labelled s!"{name}_{condition}_{idx}")
  generalize g.addBlock (labelled s!"{name}_{condition}_{idx}") = g₁ at *
  have hjump : (g₁.transfer current (.jump g.numBlocks) g.numBlocks .unconditional).data.node
      current = _ := node_transfer hopen₁ (by omega)
  have hjumpEdge : (g₁.transfer current (.jump g.numBlocks) g.numBlocks
      .unconditional).data.outgoing current = _ := outgoing_transfer hopen₁ (by omega)
  have hgrows₂ := grows_transfer g₁ current (.jump g.numBlocks) g.numBlocks .unconditional
  have hheader₂ := hgrows₂.openAt hheader (by omega)
  have hbounded₂ := hgrows₂.bounded hbounded₁
  have hnum₂ := numBlocks_transfer g₁ current (.jump g.numBlocks) g.numBlocks .unconditional
  generalize g₁.transfer current (.jump g.numBlocks) g.numBlocks .unconditional = g₂ at *
  have hbody := hbounded₂.openAt_addBlock (labelled s!"{name}_body_{idx}") rfl
  have hgrows₃ := grows_addBlock g₂ (labelled s!"{name}_body_{idx}") g₂.numBlocks
  have hnum₃ := numBlocks_addBlock g₂ (labelled s!"{name}_body_{idx}")
  generalize g₂.addBlock (labelled s!"{name}_body_{idx}") = g₃ at *
  have hexit := (hgrows₃.bounded hbounded₂).openAt_addBlock (labelled s!"{name}_exit_{idx}") rfl
  have hgrows₄ := grows_addBlock g₃ (labelled s!"{name}_exit_{idx}") g₃.numBlocks
  have hnum₄ := numBlocks_addBlock g₃ (labelled s!"{name}_exit_{idx}")
  generalize g₃.addBlock (labelled s!"{name}_exit_{idx}") = g₄ at *
  have hnumBody : g₂.numBlocks = g.numBlocks + 1 := by omega
  have hnumExit : g₃.numBlocks = g.numBlocks + 2 := by omega
  rw [hnumBody] at hbody
  rw [hnumExit] at hexit
  have hgrows₅ := grows_branchOff g₄ g.numBlocks terminator (g.numBlocks + 1) (g.numBlocks + 2)
  have hcurrent := ((hgrows₃.same current (by omega) (by omega)).trans
    (hgrows₄.same current (by omega) (by omega))).trans (hgrows₅.same current (by omega) (by omega))
  have hheader₄ := hgrows₄.openAt (hgrows₃.openAt hheader₂ (by omega)) (by omega)
  exact ⟨hcurrent.block.trans hjump, hcurrent.outgoing.trans hjumpEdge,
    branchAt_branchOff hheader₄ (by omega) (by omega) terminator,
    hgrows₅.openAt (hgrows₄.openAt hbody (by omega)) (by omega), hgrows₅.openAt hexit (by omega)⟩

theorem loop_expands {op : Operation P} {bodyOps : List (Operation P)} {bodyExit : ProcessExit}
    {region : ControlFlowRegion} (hopen : g.OpenAt current block) (hbounded : g.EdgesBounded)
    (hbody : Expands ⟨some (g.numBlocks + 2), some g.numBlocks⟩ bodyOps
      (g.addLoop current terminator name condition idx) (g.numBlocks + 1) bodyExit g₅)
    (hedges : ∀ final : CircuitCFG P, final.controlFlowRegion g.numBlocks = some region →
      final.data.outgoing g.numBlocks
          = [(g.numBlocks + 2, .falseBranch), (g.numBlocks + 1, .trueBranch)] →
        final.EdgesMatch g.numBlocks terminator)
    (hend : ∀ (final : CircuitCFG P) stopNode visited visited₁ rest visited',
      final.controlFlowRegion g.numBlocks = some region → final.OnlyDecides g.numBlocks →
        Region final ⟨some (g.numBlocks + 2), some g.numBlocks⟩ (some g.numBlocks)
          (g.numBlocks + 1) visited bodyOps visited₁ →
          Region final context stopNode (g.numBlocks + 2) visited₁ rest visited' →
            AtEnd final context stopNode g.numBlocks terminator visited (op :: rest) visited') :
    ExpandsControl context op g current (.reachable (g.numBlocks + 2))
      ((g₅.connectToMerge bodyExit g.numBlocks).setControlFlowRegion g.numBlocks region) := by
  have hnum := numBlocks_addLoop g current terminator name condition idx
  have hcurrent := hopen.lt
  have hle₅ := hbody.grows.le
  obtain ⟨-, -, -, hopenBody, hopenExit⟩ := loopAt_addLoop hopen hbounded terminator name condition
    idx
  have hbodyExit : ∀ node, bodyExit = .reachable node →
      node = g.numBlocks + 1 ∨ g.numBlocks + 3 ≤ node := by
    rintro node rfl
    have htouched := hbody.exitOpen.1
    unfold Touched at htouched
    omega
  have hbodyNe : ∀ node, node ≤ g.numBlocks ∨ node = g.numBlocks + 2 →
      bodyExit ≠ .reachable node := fun node hnode heq => by
    have hexit := hbodyExit node heq
    omega
  have hgrows₅ := (grows_addLoop g current terminator name condition idx).trans hbody.grows
    (.inr (by omega))
  have hgrows₆ := hgrows₅.connectToMerge (fun node h => .inr (by have := hbodyExit node h; omega))
    g.numBlocks
  refine ⟨hgrows₆.trans (grows_setControlFlowRegion _ g.numBlocks region) (.inr le_rfl), ?_, ?_⟩
  · intro next hnext
    cases hnext
    have hopen₆ := (hbody.grows.openAt hopenExit (by omega)).of_same
      (sameAt_connectToMerge _ (hbodyNe (g.numBlocks + 2) (by omega)) g.numBlocks)
    exact ⟨by omega, _, hopen₆.of_same (sameAt_setControlFlowRegion _ (by omega) _), rfl⟩
  · intro final stopNode visited block hopen hsame hfresh
    have hloop := loopAt_addLoop hopen hbounded terminator name condition idx
    have hsame₆ : ∀ node, Touched g g₅ current node → node ≠ g.numBlocks + 2 →
        node ≠ g.numBlocks → SameAt (g₅.connectToMerge bodyExit g.numBlocks) final node := by
      intro node hnode hexit hne
      refine (sameAt_setControlFlowRegion _ hne _).trans (hsame node ?_ ?_)
      · simpa [Touched] using hnode
      · exact fun heq => hexit (ProcessExit.reachable.inj heq).symm
    -- the body
    have hfresh₄ : Fresh (g.addLoop current terminator name condition idx) (g.numBlocks + 1)
        (some g.numBlocks) (g.numBlocks :: current :: visited) := by
      constructor
      · rintro node ⟨⟩
        omega
      · intro node hnode
        rcases List.mem_cons.mp hnode with rfl | hnode
        · omega
        · rcases List.mem_cons.mp hnode with rfl | hnode
          · omega
          · have hold := hfresh.visited node hnode
            omega
    have hsameBody : ∀ node, Touched (g.addLoop current terminator name condition idx) g₅
        (g.numBlocks + 1) node → SameAt (g₅.connectToMerge bodyExit g.numBlocks) final node := by
      intro node hnode
      rw [Touched, hnum] at hnode
      exact hsame₆ node (.inr (by omega)) (by omega) (by omega)
    obtain ⟨visited₁, hbodyRegion, hvisited₁⟩ :=
      hbody.body hloop.body rfl (by omega) hsameBody hfresh₄
    -- the header and the block itself
    have hheader := hsame g.numBlocks (.inr (by
      rw [numBlocks_setControlFlowRegion, numBlocks_connectToMerge]
      omega)) (fun heq => by
        have hexit := ProcessExit.reachable.inj heq
        omega)
    have hheader₆ := (hloop.header.of_same (hbody.grows.same g.numBlocks (by omega)
      (by omega))).of_same (sameAt_connectToMerge _ (hbodyNe g.numBlocks (by omega)) g.numBlocks)
    have hregion := hheader.region.trans (controlFlowRegion_setControlFlowRegion _ _ _)
    have hfound := hheader.block.trans hheader₆.found
    have houtgoing := hheader.outgoing.trans hheader₆.outgoing
    have hcurrent₆ := ((hbody.grows.same current (by omega) (by omega)).trans
      (sameAt_connectToMerge _ (hbodyNe current (by omega)) g.numBlocks)).trans
        (hsame₆ current (.inl rfl) (by omega) (by omega))
    refine ⟨visited₁, fun node => ?_, fun rest visited' _ hrest => ?_⟩
    · rw [hvisited₁]
      simp only [Touched, hnum, List.mem_cons, ne_eq, ProcessExit.reachable.injEq,
        numBlocks_setControlFlowRegion, numBlocks_connectToMerge]
      by_cases hmem : node ∈ visited
      · simp [hmem]
      · simp only [hmem, or_false, false_or]
        omega
    · have hdecides : final.OnlyDecides g.numBlocks := by
        intro block' hblock'
        cases hfound.symm.trans hblock'
        rfl
      have hheaderRegion : Region final context stopNode g.numBlocks (current :: visited)
          (op :: rest) visited' := by
        refine .block ?_ ?_ hfound (by simp [Plain, labelled]) rfl (hedges final hregion houtgoing)
          (hend final stopNode _ visited₁ rest visited' hregion hdecides hbodyRegion
            (hrest _ rfl))
        · intro heq
          have hstop := hfresh.stop g.numBlocks heq.symm
          omega
        · intro hmem
          rcases List.mem_cons.mp hmem with heq | hmem
          · omega
          · have hold := hfresh.visited g.numBlocks hmem
            omega
      exact ⟨_, .jump g.numBlocks, op :: rest, hcurrent₆.block.trans hloop.jump, rfl,
        hcurrent₆.outgoing.trans hloop.jumpEdge, rfl, id, .jump hheaderRegion⟩

end Loops

/-! ## `switch` -/

section Switch

variable {context : ControlContext} {g : CircuitCFG P} {current mergeBlock : ℕ}

/-- The block, the entry of a case or of the default, and its edge. -/
def addPath (g : CircuitCFG P) (current : ℕ) (label : String) (flow : FlowEdge) : CircuitCFG P :=
  (g.addBlock (labelled label)).addEdge current g.numBlocks flow

@[simp] theorem numBlocks_addPath (g : CircuitCFG P) (current : ℕ) (label : String)
    (flow : FlowEdge) : (g.addPath current label flow).numBlocks = g.numBlocks + 1 := by
  simp [addPath]

theorem grows_addPath (g : CircuitCFG P) (current : ℕ) (label : String) (flow : FlowEdge) :
    Grows g (g.addPath current label flow) current :=
  (grows_addBlock g _ current).trans (grows_addEdge _ current _ flow) (.inl rfl)

theorem openAt_addPath (hbounded : g.EdgesBounded) (hcurrent : current < g.numBlocks)
    (label : String) (flow : FlowEdge) :
    (g.addPath current label flow).OpenAt g.numBlocks (labelled label) :=
  (hbounded.openAt_addBlock (labelled label) rfl).of_same (sameAt_addEdge _ (by omega) _ flow)

/-- The block that decides keeps its contents and gets edges. -/
structure AddsEdges (g g' : CircuitCFG P) (current : ℕ) (edges : List (ℕ × FlowEdge)) : Prop where
  block : g'.data.node current = g.data.node current
  outgoing : g'.data.outgoing current = edges ++ g.data.outgoing current
  region : g'.controlFlowRegion current = g.controlFlowRegion current

theorem AddsEdges.of_same {g' : CircuitCFG P} (h : SameAt g g' current) :
    AddsEdges g g' current [] := ⟨h.block, h.outgoing, h.region⟩

theorem AddsEdges.trans {a b c : CircuitCFG P} {edges edges' : List (ℕ × FlowEdge)}
    (h : AddsEdges a b current edges) (h' : AddsEdges b c current edges') :
    AddsEdges a c current (edges' ++ edges) :=
  ⟨h'.block.trans h.block, by rw [h'.outgoing, h.outgoing, List.append_assoc],
    h'.region.trans h.region⟩

theorem addsEdges_addPath (hcurrent : current < g.numBlocks) (label : String) (flow : FlowEdge) :
    AddsEdges g (g.addPath current label flow) current [(g.numBlocks, flow)] := by
  have hsame := sameAt_addBlock g hcurrent (labelled label)
  unfold addPath
  rw [addEdge_eq (by rw [numBlocks_addBlock]; omega) (by simp)]
  refine ⟨hsame.block, ?_, hsame.region⟩
  rw [DiGraph.outgoing_addEdge_self, hsame.outgoing]
  rfl

structure ExpandsPath (context : ControlContext) (operations : List (Operation P))
    (g : CircuitCFG P) (current mergeBlock : ℕ) (flow : FlowEdge) (g' : CircuitCFG P) : Prop where
  grows : Grows g g' current
  lt : g.numBlocks < g'.numBlocks
  edges : AddsEdges g g' current [(g.numBlocks, flow)]
  region : ∀ (final : CircuitCFG P) (visited : List ℕ),
    (∀ node, g.numBlocks ≤ node → node < g'.numBlocks → SameAt g' final node) →
      (∀ node ∈ visited, node < g.numBlocks) →
        ∃ visited', Region final context (some mergeBlock) g.numBlocks visited operations visited' ∧
          ∀ node, node ∈ visited' ↔
            node ∈ visited ∨ g.numBlocks ≤ node ∧ node < g'.numBlocks

theorem path_expands {operations : List (Operation P)} {label : String} {flow : FlowEdge}
    {exit : ProcessExit} {g₂ : CircuitCFG P} (hbounded : g.EdgesBounded)
    (hcurrent : current < g.numBlocks) (hmerge : mergeBlock < g.numBlocks)
    (h : Expands context operations (g.addPath current label flow) g.numBlocks exit g₂) :
    ExpandsPath context operations g current mergeBlock flow
      (g₂.connectToMerge exit mergeBlock) := by
  have hnum := numBlocks_addPath g current label flow
  have hle := h.grows.le
  have hexit : ∀ node, exit = .reachable node → g.numBlocks ≤ node := by
    rintro node rfl
    have htouched := h.exitOpen.1
    unfold Touched at htouched
    omega
  have hgrows₂ := (grows_addPath g current label flow).trans h.grows (.inr le_rfl)
  refine ⟨hgrows₂.connectToMerge (fun node heq => .inr (hexit node heq)) mergeBlock, ?_, ?_, ?_⟩
  · rw [numBlocks_connectToMerge]
    omega
  · have hsame := (h.grows.same current (by omega) (by omega)).trans
      (sameAt_connectToMerge g₂ (fun heq => by have := hexit current heq; omega) mergeBlock)
    exact (addsEdges_addPath hcurrent label flow).trans (.of_same hsame)
  · intro final visited hsame hvisited
    rw [numBlocks_connectToMerge] at hsame
    have hsame' : ∀ node, Touched (g.addPath current label flow) g₂ g.numBlocks node →
        SameAt (g₂.connectToMerge exit mergeBlock) final node := by
      intro node hnode
      rw [Touched, hnum] at hnode
      exact hsame node (by omega) (by omega)
    have hfresh : Fresh (g.addPath current label flow) g.numBlocks (some mergeBlock) visited := by
      constructor
      · rintro node ⟨⟩
        omega
      · intro node hnode
        have hold := hvisited node hnode
        omega
    obtain ⟨visited', hregion, hvisited'⟩ := h.body (openAt_addPath hbounded hcurrent label flow)
      rfl (by omega) hsame' hfresh
    refine ⟨visited', hregion, fun node => ?_⟩
    rw [hvisited', Touched, hnum, numBlocks_connectToMerge]
    by_cases hmem : node ∈ visited
    · simp [hmem]
    · simp only [hmem, false_or]
      omega

structure ExpandsCases (context : ControlContext) (cases : List (SwitchCase P))
    (g : CircuitCFG P) (current mergeBlock : ℕ) (regionCases : List SwitchRegionCase)
    (g' : CircuitCFG P) : Prop where
  grows : Grows g g' current
  edges : AddsEdges g g' current
    (regionCases.map fun case => (case.entry, FlowEdge.case case.value)).reverse
  region : ∀ (final : CircuitCFG P) (visited : List ℕ),
    (∀ node, g.numBlocks ≤ node → node < g'.numBlocks → SameAt g' final node) →
      (∀ node ∈ visited, node < g.numBlocks) →
        ∃ visited', CasesRegion final context mergeBlock regionCases visited cases visited' ∧
          ∀ node, node ∈ visited' ↔
            node ∈ visited ∨ g.numBlocks ≤ node ∧ node < g'.numBlocks

theorem cases_expands_nil (g : CircuitCFG P) (current mergeBlock : ℕ) :
    ExpandsCases context [] g current mergeBlock [] g := by
  refine ⟨.refl g current, .of_same (.refl g current), fun _ visited _ _ =>
    ⟨visited, .nil, fun node => ?_⟩⟩
  have hnone : ¬(g.numBlocks ≤ node ∧ node < g.numBlocks) := by omega
  simp [hnone]

theorem ExpandsPath.cons {g₁ g' : CircuitCFG P} {bodyOps : List (Operation P)} {value : U128}
    {cases : List (SwitchCase P)} {regionCases : List SwitchRegionCase}
    (hcurrent : current < g.numBlocks)
    (hbody : ExpandsPath context bodyOps g current mergeBlock (.case value) g₁)
    (hcases : ExpandsCases context cases g₁ current mergeBlock regionCases g') :
    ExpandsCases context (⟨value, ⟨bodyOps⟩⟩ :: cases) g current mergeBlock
      (⟨value, g.numBlocks⟩ :: regionCases) g' := by
  have hlt := hbody.lt
  have hle := hcases.grows.le
  refine ⟨hbody.grows.trans hcases.grows (.inl rfl), ?_, ?_⟩
  · rw [List.map_cons, List.reverse_cons]
    exact hbody.edges.trans hcases.edges
  · intro final visited hsame hvisited
    obtain ⟨visited₁, hregion, hvisited₁⟩ := hbody.region final visited (fun node hle₁ hlt₁ =>
      (hcases.grows.same node hlt₁ (by omega)).trans (hsame node hle₁ (by omega))) hvisited
    obtain ⟨visited', hrest, hvisited'⟩ := hcases.region final visited₁
      (fun node hle₁ hlt₁ => hsame node (by omega) hlt₁) (fun node hnode => by
        rcases (hvisited₁ node).mp hnode with hnode | hnode
        · have hold := hvisited node hnode
          omega
        · exact hnode.2)
    refine ⟨visited', .cons hregion hrest, fun node => ?_⟩
    rw [hvisited', hvisited₁]
    by_cases hmem : node ∈ visited
    · simp [hmem]
    · simp only [hmem, false_or]
      omega

def switchBlocks (g : CircuitCFG P) (current : ℕ) (target : ClassicalExpr) (idx : ℕ) :
    CircuitCFG P :=
  (g.addBlock (labelled s!"switch_merge_{idx}")).setTerminator current (.switch target)

theorem switch_expands {target : ClassicalExpr} {idx : ℕ} {cases : List (SwitchCase P)}
    {regionCases : List SwitchRegionCase} {defaultOps : List (Operation P)} {hasDefault : Bool}
    {outer : OperationMetadata} {g₂ g₃ : CircuitCFG P} (hcurrent : current < g.numBlocks)
    (hbounded : g.EdgesBounded) (hpath : hasDefault = false → defaultOps = [])
    (hcases : ExpandsCases { context with breakTarget := some g.numBlocks } cases
      (g.switchBlocks current target idx) current g.numBlocks regionCases g₂)
    (hdefault : ExpandsPath { context with breakTarget := some g.numBlocks } defaultOps g₂ current
      g.numBlocks .defaultCase g₃) :
    ExpandsControl context (controlOperation (.switch ⟨target, cases,
        if hasDefault then some ⟨defaultOps⟩ else none⟩) outer) g current (.reachable g.numBlocks)
      (g₃.setControlFlowRegion current
        (.switch regionCases g₂.numBlocks g.numBlocks hasDefault outer)) := by
  have hnum : (g.switchBlocks current target idx).numBlocks = g.numBlocks + 1 := by
    simp [switchBlocks]
  have hle₂ := hcases.grows.le
  have hlt₃ := hdefault.lt
  have hgrows₁ : Grows g (g.switchBlocks current target idx) current :=
    (grows_addBlock g _ current).trans (grows_setTerminator _ current _) (.inl rfl)
  have hmerge : (g.switchBlocks current target idx).OpenAt g.numBlocks
      (labelled s!"switch_merge_{idx}") :=
    (hbounded.openAt_addBlock (labelled s!"switch_merge_{idx}") rfl).of_same
      (sameAt_setTerminator _ (by omega) _)
  have hgrows₃ := (hgrows₁.trans hcases.grows (.inl rfl)).trans hdefault.grows (.inl rfl)
  refine ⟨hgrows₃.trans (grows_setControlFlowRegion _ current _) (.inl rfl), ?_, ?_⟩
  · intro next hnext
    cases hnext
    have hopen₃ := hdefault.grows.openAt (hcases.grows.openAt hmerge (by omega)) (by omega)
    exact ⟨le_rfl, _, hopen₃.of_same (sameAt_setControlFlowRegion _ (by omega) _), rfl⟩
  · intro final stopNode visited block hopen hsame hfresh
    have hsame₃ : ∀ node, g.numBlocks < node → node < g₃.numBlocks → SameAt g₃ final node := by
      intro node hle hlt
      refine (sameAt_setControlFlowRegion _ (by omega) _).trans (hsame node (.inr ⟨hle.le, hlt⟩) ?_)
      exact fun heq => hle.ne (ProcessExit.reachable.inj heq)
    obtain ⟨visited₁, hcasesRegion, hvisited₁⟩ := hcases.region final (current :: visited)
      (fun node hle hlt => (hdefault.grows.same node hlt (by omega)).trans
        (hsame₃ node (by omega) (by omega))) (fun node hnode => by
          rcases List.mem_cons.mp hnode with rfl | hnode
          · omega
          · have hold := hfresh.visited node hnode
            omega)
    obtain ⟨visited₂, hdefaultRegion, hvisited₂⟩ := hdefault.region final visited₁
      (fun node hle hlt => hsame₃ node (by omega) hlt) (fun node hnode => by
        rcases (hvisited₁ node).mp hnode with hnode | hnode
        · rcases List.mem_cons.mp hnode with rfl | hnode
          · omega
          · have hold := hfresh.visited node hnode
            omega
        · exact hnode.2)
    have hedges := hcases.edges.trans hdefault.edges
    have hcurrent₄ := hsame current (.inl rfl) (fun heq => by
      have hexit := ProcessExit.reachable.inj heq
      omega)
    have hregion := hcurrent₄.region.trans (controlFlowRegion_setControlFlowRegion _ _ _)
    have hfound : final.data.node current
        = some { block with terminator := some (.switch target) } := by
      refine hcurrent₄.block.trans (hedges.block.trans ?_)
      simp only [switchBlocks, setTerminator, DiGraph.node_modifyNode_self,
        (sameAt_addBlock g hcurrent _).block, hopen.found, Option.map_some]
    have houtgoing : final.data.outgoing current = (g₂.numBlocks, .defaultCase)
        :: (regionCases.map fun case => (case.entry, FlowEdge.case case.value)).reverse := by
      refine hcurrent₄.outgoing.trans (hedges.outgoing.trans ?_)
      rw [switchBlocks, outgoing_setTerminator, (sameAt_addBlock g hcurrent _).outgoing,
        hopen.outgoing, List.append_nil, List.singleton_append]
    refine ⟨visited₂, fun node => ?_, fun rest visited' _ hrest => ?_⟩
    · rw [hvisited₂, hvisited₁, hnum]
      simp only [Touched, List.mem_cons, ne_eq, ProcessExit.reachable.injEq,
        numBlocks_setControlFlowRegion]
      by_cases hmem : node ∈ visited
      · simp [hmem]
      · simp only [hmem, or_false, false_or]
        omega
    · refine ⟨_, .switch target, _, hfound, rfl, ?_, rfl, id,
        .switch hregion hpath hcasesRegion hdefaultRegion (hrest _ rfl)⟩
      simp only [EdgesMatch, hregion, houtgoing]
      exact (List.perm_append_singleton _ _).symm.trans ((List.reverse_perm _).append_right _)

end Switch

/-! ## Every expansion -/

theorem bareOptionBody_eq (body : Option (ControlBody P)) : bareOptionBody body
    = if body.isSome then some ⟨optionOperations (bareOptionBody body)⟩ else none := by
  cases body with
  | none => rfl
  | some body =>
    cases body
    rfl

theorem optionOperations_bare {body : Option (ControlBody P)} (h : body.isSome = false) :
    optionOperations (bareOptionBody body) = [] := by
  cases body with
  | none => rfl
  | some body => cases h

theorem operations_bareBody (operations : List (Operation P)) :
    (bareBody ⟨operations⟩).operations = bareOperations operations := rfl

theorem ContextIn.loop {g : CircuitCFG P} {header exitBlock : ℕ} (hheader : header < g.numBlocks)
    (hexit : exitBlock < g.numBlocks) : ContextIn ⟨some exitBlock, some header⟩ g := by
  constructor
  · rintro node ⟨⟩
    exact hexit
  · rintro node ⟨⟩
    exact hheader

theorem ContextIn.switch {context : ControlContext} {g : CircuitCFG P} {mergeBlock : ℕ}
    (h : ContextIn context g) (hmerge : mergeBlock < g.numBlocks) :
    ContextIn { context with breakTarget := some mergeBlock } g := by
  constructor
  · rintro node ⟨⟩
    exact hmerge
  · exact h.continueTarget

mutual

theorem processOperations_expands {context : ControlContext} :
    ∀ {operations : List (Operation P)} {idx : ℕ} {g g' : CircuitCFG P} {current : ℕ}
      {block : BasicBlock P} {exit : ProcessExit},
      processOperations context operations idx g current = .ok (exit, g') →
        g.OpenAt current block → g.EdgesBounded → ContextIn context g →
          Expands context (bareOperations operations) g current exit g'
  | [], _, _, _, _, _, _, h, hopen, _, _ => by
    cases h
    exact expands_nil hopen
  | ⟨instruction, qubits, params, label⟩ :: operations, idx, g, g', current, block, exit, h,
      hopen, hbounded, hcontext => by
    cases instruction with
    | classicalControl op =>
      rw [processOperations, bind_eq_ok] at h
      obtain ⟨⟨exit₁, g₁⟩, hop, h⟩ := h
      have hexpands := processControlOp_expands hop hopen hbounded hcontext
      rw [bareOperations]
      cases exit₁ with
      | reachable next =>
        obtain ⟨-, block', hopen', -⟩ := hexpands.exitOpen next rfl
        have hrest := processOperations_expands h hopen' (hexpands.grows.bounded hbounded)
          (hcontext.mono hexpands.grows.le)
        exact hexpands.cons hrest
      | terminated =>
        simp only at h
        split at h
        · rename_i hempty
          cases h
          rw [List.isEmpty_iff.mp hempty, bareOperations]
          exact hexpands.last
        · cases h
    | _ =>
      simp only [processOperations] at h
      have hrest := processOperations_expands h (hopen.push _)
        ((grows_pushOperation g current _).bounded hbounded)
        (hcontext.mono (grows_pushOperation g current _).le)
      simp only [bareOperations]
      exact hrest.push (by simp)

theorem processBody_expands {context : ControlContext} :
    ∀ {body : ControlBody P} {g g' : CircuitCFG P} {entry : ℕ} {block : BasicBlock P}
      {exit : ProcessExit}, processBody context body g entry = .ok (exit, g') →
        g.OpenAt entry block → g.EdgesBounded → ContextIn context g →
          Expands context (bareBody body).operations g entry exit g'
  | ⟨operations⟩, _, _, _, _, _, h, hopen, hbounded, hcontext => by
    rw [processBody] at h
    rw [operations_bareBody]
    exact processOperations_expands h hopen hbounded hcontext

theorem processOptionBody_expands {context : ControlContext} :
    ∀ {body : Option (ControlBody P)} {g g' : CircuitCFG P} {entry : ℕ} {block : BasicBlock P}
      {exit : ProcessExit}, processOptionBody context body g entry = .ok (exit, g') →
        g.OpenAt entry block → g.EdgesBounded → ContextIn context g →
          Expands context (optionOperations (bareOptionBody body)) g entry exit g'
  | none, _, _, _, _, _, h, hopen, _, _ => by
    cases h
    exact expands_nil hopen
  | some _, _, _, _, _, _, h, hopen, hbounded, hcontext => by
    rw [processOptionBody] at h
    exact processBody_expands h hopen hbounded hcontext

theorem processCases_expands {context : ControlContext} {current mergeBlock : ℕ} :
    ∀ {cases : List (SwitchCase P)} {idx : ℕ} {g g' : CircuitCFG P}
      {regionCases : List SwitchRegionCase},
      processCases context idx current mergeBlock cases g = .ok (regionCases, g') →
        g.EdgesBounded → ContextIn context g → current < g.numBlocks →
          mergeBlock < g.numBlocks →
            ExpandsCases context (bareCases cases) g current mergeBlock regionCases g'
  | [], _, g, _, _, h, _, _, _, _ => by
    cases h
    exact cases_expands_nil g current mergeBlock
  | ⟨value, body⟩ :: cases, idx, g, g', regionCases, h, hbounded, hcontext, hcurrent, hmerge => by
    simp only [processCases, bind_eq_ok] at h
    obtain ⟨⟨exit, g₂⟩, hbody, ⟨regionCases', g₃⟩, hcases, h⟩ := h
    cases h
    have hgrows := grows_addPath g current s!"switch_case_{idx}_{value.toNat}" (.case value)
    have hexpands := processBody_expands hbody (openAt_addPath hbounded hcurrent _ _)
      (hgrows.bounded hbounded) (hcontext.mono hgrows.le)
    have hpath := path_expands hbounded hcurrent hmerge hexpands
    have hle := hpath.grows.le
    have hrest := processCases_expands hcases (hpath.grows.bounded hbounded) (hcontext.mono hle)
      (hcurrent.trans hpath.lt) (hmerge.trans hpath.lt)
    rw [bareCases]
    cases body
    exact hpath.cons hcurrent hrest

theorem processControlOp_expands {context : ControlContext} :
    ∀ {op : ClassicalControlOp P} {outer : OperationMetadata} {idx : ℕ} {g g' : CircuitCFG P}
      {current : ℕ} {block : BasicBlock P} {exit : ProcessExit},
      processControlOp context op outer idx g current = .ok (exit, g') →
        g.OpenAt current block → g.EdgesBounded → ContextIn context g →
          ExpandsControl context (bareControlOp op outer) g current exit g'
  | .if_ ⟨condition, thenBody, elseBody⟩, outer, idx, g, g', current, block, exit, h, hopen,
      hbounded, hcontext => by
    have hcurrent := hopen.lt
    obtain ⟨hthenOpen, helseOpen, -⟩ := openAt_ifBlocks hcurrent hbounded condition idx
    have hgrows := grows_ifBlocks g current condition idx
    simp only [processControlOp, bind_eq_ok] at h
    obtain ⟨⟨thenExit, g₅⟩, hthen, ⟨elseExit, g₆⟩, helse, h⟩ := h
    cases h
    have hthenExpands := processBody_expands hthen hthenOpen (hgrows.bounded hbounded)
      (hcontext.mono hgrows.le)
    have hopenElse := hthenExpands.grows.openAt helseOpen (by omega)
    have helseExpands := processOptionBody_expands helse hopenElse
      (hthenExpands.grows.bounded (hgrows.bounded hbounded))
      (hcontext.mono (hgrows.le.trans hthenExpands.grows.le))
    rw [bareControlOp, bareOptionBody_eq]
    cases thenBody
    exact if_expands hcurrent hbounded optionOperations_bare hthenExpands helseExpands
  | .while_ ⟨condition, body⟩, outer, idx, g, g', current, block, exit, h, hopen, hbounded,
      hcontext => by
    have hloop := loopAt_addLoop hopen hbounded (.branch condition) "while" "cond" idx
    have hgrows := grows_addLoop g current (.branch condition) "while" "cond" idx
    have hnum := numBlocks_addLoop g current (.branch condition) "while" "cond" idx
    simp only [processControlOp, bind_eq_ok] at h
    obtain ⟨⟨bodyExit, g₅⟩, hbody, h⟩ := h
    cases h
    have hexpands := processBody_expands hbody hloop.body (hgrows.bounded hbounded)
      (.loop (by omega) (by omega))
    rw [bareControlOp]
    cases body
    refine loop_expands hopen hbounded hexpands ?_ ?_
    · intro final hregion houtgoing
      simp only [EdgesMatch, hregion, houtgoing]
      exact pair_perm
    · intro final stopNode visited visited₁ rest visited' hregion hdecides hbodyRegion hrest
      exact .while_ hregion hdecides hbodyRegion hrest
  | .for_ ⟨var, start, stop, step, body⟩, outer, idx, g, g', current, block, exit, h, hopen,
      hbounded, hcontext => by
    have hloop := loopAt_addLoop hopen hbounded (.forLoop var start stop step) "for" "header" idx
    have hgrows := grows_addLoop g current (.forLoop var start stop step) "for" "header" idx
    have hnum := numBlocks_addLoop g current (.forLoop var start stop step) "for" "header" idx
    simp only [processControlOp, bind_eq_ok] at h
    obtain ⟨⟨bodyExit, g₅⟩, hbody, h⟩ := h
    cases h
    have hexpands := processBody_expands hbody hloop.body (hgrows.bounded hbounded)
      (.loop (by omega) (by omega))
    rw [bareControlOp]
    cases body
    refine loop_expands hopen hbounded hexpands ?_ ?_
    · intro final hregion houtgoing
      simp only [EdgesMatch, hregion, houtgoing]
      exact pair_perm
    · intro final stopNode visited visited₁ rest visited' hregion hdecides hbodyRegion hrest
      exact .for_ hregion hdecides hbodyRegion hrest
  | .switch ⟨target, cases, default⟩, outer, idx, g, g', current, block, exit, h, hopen,
      hbounded, hcontext => by
    have hcurrent := hopen.lt
    have hgrows : Grows g (g.switchBlocks current target idx) current :=
      (grows_addBlock g _ current).trans (grows_setTerminator _ current _) (.inl rfl)
    have hnum : (g.switchBlocks current target idx).numBlocks = g.numBlocks + 1 := by
      simp [switchBlocks]
    simp only [processControlOp, bind_eq_ok] at h
    obtain ⟨⟨regionCases, g₂⟩, hcases, ⟨defaultExit, g₃⟩, hdefault, h⟩ := h
    cases h
    have hcontext₁ := (hcontext.mono hgrows.le).switch (show g.numBlocks < _ by omega)
    have hcasesExpands := processCases_expands hcases (hgrows.bounded hbounded) hcontext₁
      (show current < (g.switchBlocks current target idx).numBlocks by omega)
      (show g.numBlocks < (g.switchBlocks current target idx).numBlocks by omega)
    have hle : (g.switchBlocks current target idx).numBlocks ≤ g₂.numBlocks :=
      hcasesExpands.grows.le
    have hbounded₂ := hcasesExpands.grows.bounded (hgrows.bounded hbounded)
    have hgrowsPath := grows_addPath g₂ current s!"switch_default_{idx}" .defaultCase
    have hexpands := processOptionBody_expands hdefault
      (openAt_addPath hbounded₂ (by omega) _ _) (hgrowsPath.bounded hbounded₂)
      ((hcontext₁.mono hle).mono hgrowsPath.le)
    have hpath := path_expands hbounded₂ (by omega) (show g.numBlocks < _ by omega) hexpands
    rw [bareControlOp, bareOptionBody_eq]
    exact switch_expands hcurrent hbounded optionOperations_bare hcasesExpands hpath
  | .break_, outer, idx, g, g', current, block, exit, h, hopen, hbounded, hcontext => by
    rw [processControlOp] at h
    split at h
    · cases h
    · rename_i target htarget
      cases h
      rw [bareControlOp]
      exact transfer_expands (hcontext.breakTarget target htarget) (fun final houtgoing => houtgoing)
        (fun final stopNode visited => .break_ htarget)
  | .continue_, outer, idx, g, g', current, block, exit, h, hopen, hbounded, hcontext => by
    rw [processControlOp] at h
    split at h
    · cases h
    · rename_i target htarget
      cases h
      rw [bareControlOp]
      exact transfer_expands (hcontext.continueTarget target htarget)
        (fun final houtgoing => houtgoing) (fun final stopNode visited => .continue_ htarget)

end

end CircuitCFG

end Cqlib
