import Cqlib.Circuit.Cfg.Regions
import Cqlib.Lib.Transitions

/-!
# A structured graph and its operation tree run alike

A run shows the operations performed and the decisions with the edge taken, but no jump, break or
continue.
-/

open Cqlib.Lib Cqlib.Classical

namespace Cqlib

variable {P : Type}

/-! ## Events -/

inductive Decision where
  | branch (condition : ClassicalExpr)
  | forLoop (var : ClassicalVar) (start stop step : ClassicalExpr)
  | switch (target : ClassicalExpr)

inductive Event (P : Type) where
  | operation (op : Operation P)
  | decision (decision : Decision) (taken : FlowEdge)

def Terminator.decision : Terminator → Option Decision
  | .branch condition => some (.branch condition)
  | .forLoop var start stop step => some (.forLoop var start stop step)
  | .switch target => some (.switch target)
  | .jump _ | .break_ _ | .continue_ _ | .return_ => none

def Terminator.event (terminator : Terminator) (taken : FlowEdge) : Option (Event P) :=
  terminator.decision.map (.decision · taken)

/-! ## Graphs -/

/-- A block, and what is left of its operations. -/
structure Position (P : Type) where
  node : ℕ
  pending : List (Operation P)

namespace CircuitCFG

def startOf (g : CircuitCFG P) (node : ℕ) : Position P :=
  ⟨node, (g.data.node node).elim [] (·.operations)⟩

theorem startOf_eq {g : CircuitCFG P} {node : ℕ} {block : BasicBlock P}
    (h : g.data.node node = some block) : g.startOf node = ⟨node, block.operations⟩ := by
  simp [startOf, h]

inductive Step (g : CircuitCFG P) : Position P → Option (Event P) → Position P → Prop where
  | operation {node : ℕ} {op : Operation P} {pending : List (Operation P)} :
      Step g ⟨node, op :: pending⟩ (some (.operation op)) ⟨node, pending⟩
  | edge {node target : ℕ} {block : BasicBlock P} {terminator : Terminator}
      {flow : FlowEdge} (hblock : g.data.node node = some block)
      (hterminator : block.terminator = some terminator)
      (hedge : (target, flow) ∈ g.data.outgoing node) :
      Step g ⟨node, []⟩ (terminator.event flow) (g.startOf target)

def Halted (g : CircuitCFG P) (p : Position P) : Prop :=
  p.pending = [] ∧ ∃ block, g.data.node p.node = some block ∧ block.terminator = some .return_

def transitions (g : CircuitCFG P) : Transitions (Position P) (Event P) := ⟨g.Step, g.Halted⟩

def Trace (g : CircuitCFG P) (events : List (Event P)) (ended : Bool) : Prop :=
  ∃ entry, g.entryBlock = some entry ∧ g.transitions.Trace (g.startOf entry) events ended

end CircuitCFG

/-! ## Operation trees -/

/-- What comes after a body: the operations after an `if`, the loop again, or the operations
after a switch. -/
inductive Frame (P : Type) where
  | rest (operations : List (Operation P))
  | loop (op : Operation P) (operations : List (Operation P))
  | switch (operations : List (Operation P))

namespace Frame

/-- What follows when the body has run to its end. -/
def resume : Frame P → List (Operation P)
  | rest operations | switch operations => operations
  | loop op operations => op :: operations

end Frame

structure TreeState (P : Type) where
  operations : List (Operation P)
  frames : List (Frame P)

namespace TreeState

def breakTo : List (Frame P) → Option (TreeState P)
  | [] => none
  | .rest _ :: frames => breakTo frames
  | .loop _ operations :: frames | .switch operations :: frames => some ⟨operations, frames⟩

def continueTo : List (Frame P) → Option (TreeState P)
  | [] => none
  | .rest _ :: frames | .switch _ :: frames => continueTo frames
  | .loop op operations :: frames => some ⟨op :: operations, frames⟩

inductive Step : TreeState P → Option (Event P) → TreeState P → Prop where
  | operation {op : Operation P} {operations frames}
      (hplain : ∀ control, op.instruction ≠ .classicalControl control) :
      Step ⟨op :: operations, frames⟩ (some (.operation op)) ⟨operations, frames⟩
  | leave {frame : Frame P} {frames} : Step ⟨[], frame :: frames⟩ none ⟨frame.resume, frames⟩
  | ifThen {condition} {thenOps : List (Operation P)} {elseBody qubits params label operations
      frames} : Step ⟨⟨.classicalControl (.if_ ⟨condition, ⟨thenOps⟩, elseBody⟩), qubits, params,
        label⟩ :: operations, frames⟩ (some (.decision (.branch condition) .trueBranch))
      ⟨thenOps, .rest operations :: frames⟩
  | ifElse {condition} {thenBody : ControlBody P} {elseBody qubits params label operations
      frames} : Step ⟨⟨.classicalControl (.if_ ⟨condition, thenBody, elseBody⟩), qubits, params,
        label⟩ :: operations, frames⟩ (some (.decision (.branch condition) .falseBranch))
      ⟨optionOperations elseBody, .rest operations :: frames⟩
  | whileBody {condition} {bodyOps : List (Operation P)} {qubits params label operations frames} :
      Step ⟨⟨.classicalControl (.while_ ⟨condition, ⟨bodyOps⟩⟩), qubits, params, label⟩
        :: operations, frames⟩ (some (.decision (.branch condition) .trueBranch))
      ⟨bodyOps, .loop ⟨.classicalControl (.while_ ⟨condition, ⟨bodyOps⟩⟩), qubits, params, label⟩
        operations :: frames⟩
  | whileExit {condition} {body : ControlBody P} {qubits params label operations frames} :
      Step ⟨⟨.classicalControl (.while_ ⟨condition, body⟩), qubits, params, label⟩
        :: operations, frames⟩ (some (.decision (.branch condition) .falseBranch))
      ⟨operations, frames⟩
  | forBody {var start stop step} {bodyOps : List (Operation P)} {qubits params label operations
      frames} : Step ⟨⟨.classicalControl (.for_ ⟨var, start, stop, step, ⟨bodyOps⟩⟩), qubits,
        params, label⟩ :: operations, frames⟩
      (some (.decision (.forLoop var start stop step) .trueBranch))
      ⟨bodyOps, .loop ⟨.classicalControl (.for_ ⟨var, start, stop, step, ⟨bodyOps⟩⟩), qubits,
        params, label⟩ operations :: frames⟩
  | forExit {var start stop step} {body : ControlBody P} {qubits params label operations frames} :
      Step ⟨⟨.classicalControl (.for_ ⟨var, start, stop, step, body⟩), qubits, params, label⟩
        :: operations, frames⟩ (some (.decision (.forLoop var start stop step) .falseBranch))
      ⟨operations, frames⟩
  | switchCase {target value} {cases : List (SwitchCase P)} {caseOps default qubits params label
      operations frames} (hcase : ⟨value, ⟨caseOps⟩⟩ ∈ cases) :
      Step ⟨⟨.classicalControl (.switch ⟨target, cases, default⟩), qubits, params, label⟩
        :: operations, frames⟩ (some (.decision (.switch target) (.case value)))
      ⟨caseOps, .switch operations :: frames⟩
  | switchDefault {target} {cases : List (SwitchCase P)} {default qubits params label operations
      frames} :
      Step ⟨⟨.classicalControl (.switch ⟨target, cases, default⟩), qubits, params, label⟩
        :: operations, frames⟩ (some (.decision (.switch target) .defaultCase))
      ⟨optionOperations default, .switch operations :: frames⟩
  | break_ {qubits params label} {operations : List (Operation P)} {frames state}
      (hto : breakTo frames = some state) :
      Step ⟨⟨.classicalControl .break_, qubits, params, label⟩ :: operations, frames⟩ none state
  | continue_ {qubits params label} {operations : List (Operation P)} {frames state}
      (hto : continueTo frames = some state) :
      Step ⟨⟨.classicalControl .continue_, qubits, params, label⟩ :: operations, frames⟩ none state

def Halted (s : TreeState P) : Prop := s.operations = [] ∧ s.frames = []

def transitions : Transitions (TreeState P) (Event P) := ⟨Step, Halted⟩

end TreeState

def OperationsTrace (operations : List (Operation P)) (events : List (Event P)) (ended : Bool) :
    Prop := TreeState.transitions.Trace ⟨operations, []⟩ events ended

end Cqlib

/-! ## A structured graph and its operation tree run alike -/

namespace Cqlib.CircuitCFG

variable {P : Type} {g : CircuitCFG P}

/-! ## Matching -/

/-- Inside a block of a region, on the way to its terminator. -/
structure InBlock (g : CircuitCFG P) (context : ControlContext) (stopNode : Option ℕ)
    (p : Position P) (operations : List (Operation P)) (terminator : Terminator)
    (rest : List (Operation P)) : Prop where
  block : ∃ block, g.data.node p.node = some block ∧ block.terminator = some terminator
  edges : g.EdgesMatch p.node terminator
  plain : Plain p.pending
  operations : operations = p.pending ++ rest
  atEnd : ∃ visited visited', AtEnd g context stopNode p.node terminator visited rest visited'

/-- In a region: where it stops, or inside one of its blocks. -/
def At (g : CircuitCFG P) (context : ControlContext) (stopNode : Option ℕ)
    (p : Position P) (operations : List (Operation P)) : Prop :=
  (∃ node, stopNode = some node ∧ p = g.startOf node ∧ operations = []) ∨
    ∃ terminator rest, g.InBlock context stopNode p operations terminator rest

variable {visited visited' : List ℕ}

variable {context : ControlContext} {stopNode : Option ℕ} {operations : List (Operation P)}

theorem Region.at {node : ℕ} (h : Region g context stopNode node visited operations visited') :
    g.At context stopNode (g.startOf node) operations := by
  cases h with
  | stop => exact .inl ⟨node, rfl, rfl, rfl⟩
  | block _ _ hblock hplain hterminator hedges hend =>
    rw [startOf_eq hblock]
    exact .inr ⟨_, _, ⟨_, hblock, hterminator⟩, hedges, hplain, rfl, _, _, hend⟩

inductive FramesMatch (g : CircuitCFG P) :
    ControlContext → Option ℕ → List (Frame P) → Prop where
  | nil : FramesMatch g {} none []
  | rest {context stopNode mergeBlock operations frames}
      (hrest : g.At context stopNode (g.startOf mergeBlock) operations)
      (hframes : FramesMatch g context stopNode frames) :
      FramesMatch g context (some mergeBlock) (.rest operations :: frames)
  | switch {context : ControlContext} {stopNode mergeBlock operations frames}
      (hrest : g.At context stopNode (g.startOf mergeBlock) operations)
      (hframes : FramesMatch g context stopNode frames) :
      FramesMatch g { context with breakTarget := some mergeBlock } (some mergeBlock)
        (.switch operations :: frames)
  | loop {context stopNode header exitBlock op operations frames}
      (hheader : g.At context stopNode (g.startOf header) (op :: operations))
      (hexit : g.At context stopNode (g.startOf exitBlock) operations)
      (hframes : FramesMatch g context stopNode frames) :
      FramesMatch g ⟨some exitBlock, some header⟩ (some header) (.loop op operations :: frames)

def Matches (g : CircuitCFG P) (p : Position P) (s : TreeState P) : Prop :=
  ∃ context stopNode, g.At context stopNode p s.operations ∧
    g.FramesMatch context stopNode s.frames

variable {frames : List (Frame P)}

theorem FramesMatch.resume {node : ℕ} {frame : Frame P}
    (h : g.FramesMatch context (some node) (frame :: frames)) :
    g.Matches (g.startOf node) ⟨frame.resume, frames⟩ := by
  cases h with
  | rest hrest hframes | switch hrest hframes | loop hrest _ hframes =>
    exact ⟨_, _, hrest, hframes⟩

theorem FramesMatch.breakTo {target : ℕ} (h : g.FramesMatch context stopNode frames)
    (htarget : context.breakTarget = some target) :
    ∃ s, TreeState.breakTo frames = some s ∧ g.Matches (g.startOf target) s := by
  induction h with
  | nil => cases htarget
  | rest _ _ ih => exact ih htarget
  | switch hrest hframes | loop _ hrest hframes =>
    cases htarget
    exact ⟨_, rfl, _, _, hrest, hframes⟩

theorem FramesMatch.continueTo {target : ℕ} (h : g.FramesMatch context stopNode frames)
    (htarget : context.continueTarget = some target) :
    ∃ s, TreeState.continueTo frames = some s ∧ g.Matches (g.startOf target) s := by
  induction h with
  | nil => cases htarget
  | rest _ _ ih | switch _ _ ih => exact ih htarget
  | loop hheader _ hframes =>
    cases htarget
    exact ⟨_, rfl, _, _, hheader, hframes⟩

/-! ## Cases of a switch -/

theorem CasesRegion.region {mergeBlock : ℕ} {regionCases : List SwitchRegionCase}
    {cases : List (SwitchCase P)}
    (h : CasesRegion g context mergeBlock regionCases visited cases visited') :
    ∀ value entry, ⟨value, entry⟩ ∈ regionCases → ∃ bodyOps, ⟨value, ⟨bodyOps⟩⟩ ∈ cases ∧
      g.At context (some mergeBlock) (g.startOf entry) bodyOps := by
  induction regionCases generalizing visited cases with
  | nil => simp
  | cons regionCase regionCases ih =>
    cases h with
    | cons hbody hcases =>
      intro value entry hmem
      rcases List.mem_cons.mp hmem with heq | hmem
      · cases heq
        exact ⟨_, List.mem_cons_self, hbody.at⟩
      · obtain ⟨bodyOps, hcase, hat⟩ := ih hcases value entry hmem
        exact ⟨bodyOps, List.mem_cons_of_mem _ hcase, hat⟩

theorem CasesRegion.entry {mergeBlock : ℕ} {regionCases : List SwitchRegionCase}
    {cases : List (SwitchCase P)}
    (h : CasesRegion g context mergeBlock regionCases visited cases visited') :
    ∀ value bodyOps, ⟨value, ⟨bodyOps⟩⟩ ∈ cases → ∃ entry, ⟨value, entry⟩ ∈ regionCases ∧
      g.At context (some mergeBlock) (g.startOf entry) bodyOps := by
  induction regionCases generalizing visited cases with
  | nil =>
    cases h
    simp
  | cons regionCase regionCases ih =>
    cases h with
    | cons hbody hcases =>
      intro value bodyOps hmem
      rcases List.mem_cons.mp hmem with heq | hmem
      · cases heq
        exact ⟨_, List.mem_cons_self, hbody.at⟩
      · obtain ⟨entry, hcase, hat⟩ := ih hcases value bodyOps hmem
        exact ⟨entry, List.mem_cons_of_mem _ hcase, hat⟩

/-! ## One decision or transfer -/

/-- The edges of a block and the steps of the tree are the same moves. -/
structure SameMoves (g : CircuitCFG P) (node : ℕ) (terminator : Terminator)
    (s : TreeState P) : Prop where
  ofEdge : ∀ target flow, (target, flow) ∈ g.data.outgoing node →
    ∃ s', TreeState.Step s (terminator.event flow) s' ∧ g.Matches (g.startOf target) s'
  ofStep : ∀ event s', TreeState.Step s event s' → ∃ target flow,
    (target, flow) ∈ g.data.outgoing node ∧ terminator.event flow = event ∧
      g.Matches (g.startOf target) s'

/-- A terminator that decides, breaks or continues. -/
def Chooses : Terminator → Prop
  | .jump _ | .return_ => False
  | _ => True

theorem optionOperations_path {hasPath : Bool} (h : hasPath = false → operations = []) :
    optionOperations (if hasPath then some ⟨operations⟩ else none) = operations := by
  cases hasPath with
  | false =>
    rw [h rfl]
    rfl
  | true => rfl

theorem OnlyDecides.startOf {node : ℕ} (h : g.OnlyDecides node) :
    g.startOf node = ⟨node, []⟩ := by
  unfold CircuitCFG.startOf
  cases hblock : g.data.node node with
  | none => rfl
  | some block => simp [h block hblock]

variable {terminator : Terminator}

theorem InBlock.atHeader {node : ℕ} {rest : List (Operation P)}
    (h : g.InBlock context stopNode ⟨node, []⟩ operations terminator rest)
    (hheader : g.OnlyDecides node) : g.At context stopNode (g.startOf node) operations := by
  rw [hheader.startOf]
  exact .inr ⟨terminator, rest, h⟩

theorem InBlock.sameMoves {node : ℕ} {rest : List (Operation P)}
    (h : g.InBlock context stopNode ⟨node, []⟩ rest terminator rest) (hchooses : Chooses terminator)
    (hframes : g.FramesMatch context stopNode frames) :
    g.SameMoves node terminator ⟨rest, frames⟩ := by
  obtain ⟨visited, visited', hend⟩ := h.atEnd
  have hedges := h.edges
  cases hend with
  | return_ | jump => exact hchooses.elim
  | break_ htarget =>
    obtain ⟨s, hto, hmatches⟩ := hframes.breakTo htarget
    simp only [EdgesMatch] at hedges
    constructor
    · intro target flow hedge
      rw [hedges, List.mem_singleton] at hedge
      cases hedge
      exact ⟨s, .break_ hto, hmatches⟩
    · intro event s' hstep
      cases hstep with
      | operation hplain => exact (hplain _ rfl).elim
      | break_ hto' =>
        cases hto.symm.trans hto'
        exact ⟨_, _, hedges ▸ List.mem_singleton_self _, rfl, hmatches⟩
  | continue_ htarget =>
    obtain ⟨s, hto, hmatches⟩ := hframes.continueTo htarget
    simp only [EdgesMatch] at hedges
    constructor
    · intro target flow hedge
      rw [hedges, List.mem_singleton] at hedge
      cases hedge
      exact ⟨s, .continue_ hto, hmatches⟩
    · intro event s' hstep
      cases hstep with
      | operation hplain => exact (hplain _ rfl).elim
      | continue_ hto' =>
        cases hto.symm.trans hto'
        exact ⟨_, _, hedges ▸ List.mem_singleton_self _, rfl, hmatches⟩
  | if_ hregion helse hthen helseRegion hrest =>
    have helseAt := helseRegion.at
    rw [← optionOperations_path helse] at helseAt
    simp only [EdgesMatch, hregion] at hedges
    constructor
    · intro target flow hedge
      rw [hedges.mem_iff, List.mem_pair] at hedge
      rcases hedge with heq | heq <;> cases heq
      · exact ⟨_, .ifThen, _, _, hthen.at, .rest hrest.at hframes⟩
      · exact ⟨_, .ifElse, _, _, helseAt, .rest hrest.at hframes⟩
    · intro event s' hstep
      cases hstep with
      | operation hplain => exact (hplain _ rfl).elim
      | ifThen =>
        exact ⟨_, _, hedges.mem_iff.mpr (by simp), rfl, _, _, hthen.at, .rest hrest.at hframes⟩
      | ifElse =>
        exact ⟨_, _, hedges.mem_iff.mpr (List.mem_pair.mpr (.inr rfl)), rfl, _, _, helseAt,
          .rest hrest.at hframes⟩
  | while_ hregion hheader hbody hrest =>
    have hagain := h.atHeader hheader
    simp only [EdgesMatch, hregion] at hedges
    constructor
    · intro target flow hedge
      rw [hedges.mem_iff, List.mem_pair] at hedge
      rcases hedge with heq | heq <;> cases heq
      · exact ⟨_, .whileBody, _, _, hbody.at, .loop hagain hrest.at hframes⟩
      · exact ⟨_, .whileExit, _, _, hrest.at, hframes⟩
    · intro event s' hstep
      cases hstep with
      | operation hplain => exact (hplain _ rfl).elim
      | whileBody =>
        exact ⟨_, _, hedges.mem_iff.mpr (by simp), rfl, _, _, hbody.at,
          .loop hagain hrest.at hframes⟩
      | whileExit =>
        exact ⟨_, _, hedges.mem_iff.mpr (List.mem_pair.mpr (.inr rfl)), rfl, _, _, hrest.at,
          hframes⟩
  | for_ hregion hheader hbody hrest =>
    have hagain := h.atHeader hheader
    simp only [EdgesMatch, hregion] at hedges
    constructor
    · intro target flow hedge
      rw [hedges.mem_iff, List.mem_pair] at hedge
      rcases hedge with heq | heq <;> cases heq
      · exact ⟨_, .forBody, _, _, hbody.at, .loop hagain hrest.at hframes⟩
      · exact ⟨_, .forExit, _, _, hrest.at, hframes⟩
    · intro event s' hstep
      cases hstep with
      | operation hplain => exact (hplain _ rfl).elim
      | forBody =>
        exact ⟨_, _, hedges.mem_iff.mpr (by simp), rfl, _, _, hbody.at,
          .loop hagain hrest.at hframes⟩
      | forExit =>
        exact ⟨_, _, hedges.mem_iff.mpr (List.mem_pair.mpr (.inr rfl)), rfl, _, _, hrest.at,
          hframes⟩
  | switch hregion hdefault hcases hdefaultRegion hrest =>
    have hdefaultAt := hdefaultRegion.at
    rw [← optionOperations_path hdefault] at hdefaultAt
    simp only [EdgesMatch, hregion] at hedges
    constructor
    · intro target flow hedge
      rw [hedges.mem_iff, List.mem_append, List.mem_singleton, List.mem_map] at hedge
      rcases hedge with ⟨⟨value, entry⟩, hmem, heq⟩ | heq <;> cases heq
      · obtain ⟨bodyOps, hcase, hat⟩ := hcases.region _ _ hmem
        exact ⟨_, .switchCase hcase, _, _, hat, .switch hrest.at hframes⟩
      · exact ⟨_, .switchDefault, _, _, hdefaultAt, .switch hrest.at hframes⟩
    · intro event s' hstep
      cases hstep with
      | operation hplain => exact (hplain _ rfl).elim
      | switchCase hcase =>
        obtain ⟨entry, hmem, hat⟩ := hcases.entry _ _ hcase
        refine ⟨entry, _, hedges.mem_iff.mpr ?_, rfl, _, _, hat, .switch hrest.at hframes⟩
        exact List.mem_append_left _ (List.mem_map_of_mem hmem)
      | switchDefault =>
        exact ⟨_, _, hedges.mem_iff.mpr (List.mem_append_right _ (List.mem_singleton_self _)), rfl,
          _, _, hdefaultAt, .switch hrest.at hframes⟩

/-! ## From the graph to the tree -/

variable {s : TreeState P}

theorem Matches.arrive {p : Position P} (h : g.Matches p s) :
    ∃ s' context stopNode terminator rest, TreeState.transitions.Silent s s' ∧
      g.InBlock context stopNode p s'.operations terminator rest ∧
      g.FramesMatch context stopNode s'.frames := by
  obtain ⟨operations, frames⟩ := s
  induction frames generalizing p operations with
  | nil =>
    obtain ⟨context, stopNode, ⟨node, rfl, -, -⟩ | ⟨terminator, rest, hblock⟩, hframes⟩ := h
    · cases hframes
    · exact ⟨_, context, stopNode, terminator, rest, .refl, hblock, hframes⟩
  | cons frame frames ih =>
    obtain ⟨context, stopNode, ⟨node, rfl, rfl, rfl⟩ | ⟨terminator, rest, hblock⟩, hframes⟩ := h
    · obtain ⟨s', context', stopNode', terminator, rest, hsilent, hblock, hframes'⟩ :=
        ih _ hframes.resume
      exact ⟨s', context', stopNode', terminator, rest, .head .leave hsilent, hblock, hframes'⟩
    · exact ⟨_, context, stopNode, terminator, rest, .refl, hblock, hframes⟩

theorem Matches.graphStep {p p' : Position P} {event : Option (Event P)} (h : g.Matches p s)
    (hstep : g.Step p event p') :
    ∃ s₁ s₂, TreeState.transitions.Silent s s₁ ∧
      (TreeState.Step s₁ event s₂ ∨ event = none ∧ s₁ = s₂) ∧ g.Matches p' s₂ := by
  obtain ⟨⟨operations, frames⟩, context, stopNode, terminator, rest, hsilent, hin, hframes⟩ :=
    h.arrive
  obtain ⟨⟨block, hblock, hterminator⟩, hedges, hplain, hoperations, hend⟩ := hin
  simp only at hoperations hframes
  subst hoperations
  cases hstep with
  | operation =>
    rw [Plain, List.forall_mem_cons] at hplain
    exact ⟨_, _, hsilent, .inl (.operation hplain.1), context, stopNode, .inr ⟨terminator, rest,
      ⟨block, hblock, hterminator⟩, hedges, hplain.2, rfl, hend⟩, hframes⟩
  | edge hblock' hterminator' hedge =>
    cases hblock.symm.trans hblock'
    cases hterminator.symm.trans hterminator'
    by_cases hchooses : Chooses terminator
    · have hmoves := InBlock.sameMoves ⟨⟨block, hblock, hterminator⟩, hedges, hplain, rfl, hend⟩
        hchooses hframes
      obtain ⟨s', hmove, hmatches⟩ := hmoves.ofEdge _ _ hedge
      exact ⟨_, s', hsilent, .inl hmove, hmatches⟩
    · obtain ⟨visited, visited', hend⟩ := hend
      cases hend with
      | return_ =>
        rw [show g.data.outgoing _ = [] from hedges] at hedge
        cases hedge
      | jump hrest =>
        rw [show g.data.outgoing _ = [(_, FlowEdge.unconditional)] from hedges,
          List.mem_singleton] at hedge
        cases hedge
        exact ⟨_, _, hsilent, .inr ⟨rfl, rfl⟩, context, stopNode, hrest.at, hframes⟩
      | _ => exact (hchooses trivial).elim

theorem Matches.graphHalted {p : Position P} (h : g.Matches p s) (hhalted : g.Halted p) :
    ∃ s', TreeState.transitions.Silent s s' ∧ TreeState.transitions.halted s' := by
  obtain ⟨⟨operations, frames⟩, context, stopNode, terminator, rest, hsilent, hin, hframes⟩ :=
    h.arrive
  obtain ⟨⟨block, hblock, hterminator⟩, hedges, hplain, hoperations, visited, visited', hend⟩ := hin
  obtain ⟨hpending, block', hblock', hreturn⟩ := hhalted
  cases hblock.symm.trans hblock'
  cases hterminator.symm.trans hreturn
  cases hend
  cases hframes
  rw [hpending] at hoperations
  exact ⟨_, hsilent, hoperations, rfl⟩

theorem graph_simulation (g : CircuitCFG P) :
    g.transitions.Simulation TreeState.transitions g.Matches (· = ·) :=
  .of_step Matches.graphStep Matches.graphHalted

/-! ## From the tree to the graph -/

/-- A position from which the graph does what the tree does next. -/
inductive Ready (g : CircuitCFG P) (context : ControlContext) (stopNode : Option ℕ) :
    Position P → List (Operation P) → Prop where
  | stop {node} (hstop : stopNode = some node) : Ready g context stopNode (g.startOf node) []
  | halted {p} (hhalted : g.Halted p) (hstop : stopNode = none) : Ready g context stopNode p []
  | operation {node op pending operations terminator rest}
      (hin : g.InBlock context stopNode ⟨node, op :: pending⟩ (op :: operations) terminator rest) :
      Ready g context stopNode ⟨node, op :: pending⟩ (op :: operations)
  | choice {node operations terminator}
      (hin : g.InBlock context stopNode ⟨node, []⟩ operations terminator operations)
      (hchooses : Chooses terminator) : Ready g context stopNode ⟨node, []⟩ operations

theorem Ready.of_choice {node : ℕ} {block : BasicBlock P} (hblock : g.data.node node = some block)
    (hterminator : block.terminator = some terminator) (hedges : g.EdgesMatch node terminator)
    (hend : AtEnd g context stopNode node terminator visited operations visited')
    (hchooses : Chooses terminator) : g.Ready context stopNode ⟨node, []⟩ operations :=
  .choice ⟨⟨block, hblock, hterminator⟩, hedges, by simp [Plain], rfl, visited, visited', hend⟩
    hchooses

mutual

theorem Region.ready : ∀ {context stopNode node visited operations visited'},
      Region g context stopNode node visited operations visited' →
        ∃ p, g.transitions.Silent (g.startOf node) p ∧ g.Ready context stopNode p operations
  | _, _, _, _, _, _, .stop => ⟨_, .refl, .stop rfl⟩
  | context, stopNode, node, visited, _, _, .block _ _ hblock hplain hterminator hedges hend => by
    rw [startOf_eq hblock]
    obtain ⟨p, hsilent, hready⟩ := AtEnd.ready hblock hterminator hedges hend
    cases hoperations : BasicBlock.operations _ with
    | nil => exact ⟨p, hsilent, hready⟩
    | cons op operations =>
      rw [hoperations] at hplain
      exact ⟨_, .refl, .operation ⟨⟨_, hblock, hterminator⟩, hedges, hplain, rfl, _, _, hend⟩⟩

theorem AtEnd.ready : ∀ {context stopNode node block terminator visited operations visited'},
      g.data.node node = some block → block.terminator = some terminator →
        g.EdgesMatch node terminator →
          AtEnd g context stopNode node terminator visited operations visited' →
            ∃ p, g.transitions.Silent ⟨node, []⟩ p ∧ g.Ready context stopNode p operations
  | _, _, _, _, _, _, _, _, hblock, hterminator, _, .return_ =>
    ⟨_, .refl, .halted ⟨rfl, _, hblock, hterminator⟩ rfl⟩
  | _, _, _, _, _, _, _, _, hblock, hterminator, hedges, .jump hrest => by
    obtain ⟨p, hsilent, hready⟩ := Region.ready hrest
    have hedge : (_, .unconditional) ∈ g.data.outgoing _ := hedges ▸ List.mem_singleton_self _
    exact ⟨p, .head (.edge hblock hterminator hedge) hsilent, hready⟩
  | _, _, _, _, _, _, _, _, hblock, hterminator, hedges, hend@(.break_ _)
  | _, _, _, _, _, _, _, _, hblock, hterminator, hedges, hend@(.continue_ _)
  | _, _, _, _, _, _, _, _, hblock, hterminator, hedges, hend@(.if_ _ _ _ _ _)
  | _, _, _, _, _, _, _, _, hblock, hterminator, hedges, hend@(.while_ _ _ _ _)
  | _, _, _, _, _, _, _, _, hblock, hterminator, hedges, hend@(.for_ _ _ _ _)
  | _, _, _, _, _, _, _, _, hblock, hterminator, hedges, hend@(.switch _ _ _ _ _) =>
    ⟨_, .refl, .of_choice hblock hterminator hedges hend trivial⟩

end

theorem At.ready {p : Position P} (h : g.At context stopNode p operations) :
    ∃ p', g.transitions.Silent p p' ∧ g.Ready context stopNode p' operations := by
  rcases h with ⟨node, hstop, rfl, rfl⟩ | ⟨terminator, rest, hin⟩
  · exact ⟨_, .refl, .stop hstop⟩
  · obtain ⟨node, pending⟩ := p
    obtain ⟨⟨block, hblock, hterminator⟩, hedges, hplain, hoperations, visited, visited', hend⟩ :=
      hin
    cases pending with
    | nil =>
      rw [List.nil_append] at hoperations
      rw [hoperations]
      exact hend.ready hblock hterminator hedges
    | cons op pending =>
      rw [List.cons_append] at hoperations
      rw [hoperations]
      exact ⟨_, .refl, .operation ⟨⟨block, hblock, hterminator⟩, hedges, hplain, rfl, visited,
        visited', hend⟩⟩

theorem Matches.treeStep {p : Position P} {s' : TreeState P} {event : Option (Event P)}
    (h : g.Matches p s) (hstep : TreeState.Step s event s') :
    ∃ p₁ p₂, g.transitions.Silent p p₁ ∧ (g.Step p₁ event p₂ ∨ event = none ∧ p₁ = p₂) ∧
      g.Matches p₂ s' := by
  obtain ⟨operations, frames⟩ := s
  obtain ⟨context, stopNode, hat, hframes⟩ := h
  obtain ⟨p₁, hsilent, hready⟩ := hat.ready
  cases hready with
  | stop hstop =>
    subst hstop
    cases hstep with
    | leave => exact ⟨_, _, hsilent, .inr ⟨rfl, rfl⟩, hframes.resume⟩
  | halted hhalted hstop =>
    subst hstop
    cases hframes
    cases hstep
  | operation hin =>
    obtain ⟨hblock, hedges, hplain, hoperations, hend⟩ := hin
    rw [Plain, List.forall_mem_cons] at hplain
    cases hstep with
    | operation =>
      refine ⟨_, _, hsilent, .inl .operation, context, stopNode, .inr ⟨_, _, hblock, hedges,
        hplain.2, ?_, hend⟩, hframes⟩
      exact List.tail_eq_of_cons_eq hoperations
    | _ => exact (hplain.1 _ rfl).elim
  | choice hin hchooses =>
    obtain ⟨target, flow, hedge, hevent, hmatches⟩ :=
      (hin.sameMoves hchooses hframes).ofStep event s' hstep
    obtain ⟨block, hblock, hterminator⟩ := hin.block
    rw [← hevent]
    exact ⟨_, _, hsilent, .inl (.edge hblock hterminator hedge), hmatches⟩

theorem Matches.treeHalted {p : Position P} (h : g.Matches p s) (hhalted : s.Halted) :
    ∃ p', g.transitions.Silent p p' ∧ g.transitions.halted p' := by
  obtain ⟨operations, frames⟩ := s
  obtain ⟨context, stopNode, hat, hframes⟩ := h
  obtain ⟨rfl, rfl⟩ : operations = [] ∧ frames = [] := hhalted
  obtain ⟨p', hsilent, hready⟩ := hat.ready
  cases hframes
  cases hready with
  | stop hstop => cases hstop
  | halted hend => exact ⟨p', hsilent, hend⟩
  | choice hin hchooses =>
    obtain ⟨visited, visited', hend⟩ := hin.atEnd
    cases hend <;> exact hchooses.elim

theorem tree_simulation (g : CircuitCFG P) :
    TreeState.transitions.Simulation g.transitions (fun s p => g.Matches p s) (· = ·) :=
  .of_step Matches.treeStep Matches.treeHalted

theorem Region.trace_iff {entry : ℕ} (hentry : g.entryBlock = some entry)
    (h : Region g {} none entry [] operations visited') {events : List (Event P)} {ended : Bool} :
    g.Trace events ended ↔ OperationsTrace operations events ended := by
  have hmatches : g.Matches (g.startOf entry) ⟨operations, []⟩ := ⟨{}, none, h.at, .nil⟩
  constructor
  · rintro ⟨entry', hentry', htrace⟩
    cases hentry.symm.trans hentry'
    exact (graph_simulation g).trace_eq htrace hmatches
  · intro htrace
    exact ⟨entry, hentry, (tree_simulation g).trace_eq htrace hmatches⟩

end Cqlib.CircuitCFG
