import Cqlib.Circuit.Error
import Cqlib.Device.LayoutProofs

/-!
# The layout of a routing trial

`compile/sabre/dense_layout.rs`: the layout as two arrays over the positions of the qubits.
-/

open Cqlib.Lib Cqlib.Device

namespace Cqlib.Sabre

def usizeMax : ℕ := 2 ^ 64 - 1

structure DenseRoutingLayout where
  logicalQubits : List LogicalQubit
  logicalIndices : OrderedMap LogicalQubit ℕ
  logicalToPhysical : List ℕ
  physicalToLogical : List (Option ℕ)

namespace DenseRoutingLayout

/-- The position of every entry of a list, by value. -/
def indices (qubits : List ℕ) : OrderedMap ℕ ℕ :=
  OrderedMap.empty.insertMany qubits.zipIdx

/-- The loop over the logical qubits, which fills both arrays. The logical indices are in range. -/
def fill (layout : Layout) (physicalIndices : OrderedMap PhysicalQubit ℕ) :
    List (LogicalQubit × ℕ) → List ℕ × List (Option ℕ) →
      Except CompilerError (List ℕ × List (Option ℕ))
  | [], arrays => .ok arrays
  | (logical, logicalIndex) :: rest, (logicalToPhysical, physicalToLogical) =>
    match layout.getPhysical logical with
    | none => .error (.invariantViolation
        s!"sabre layout does not map logical qubit L{logical}")
    | some physical =>
      match physicalIndices.get? physical with
      | none => .error (.invariantViolation
          s!"sabre layout maps logical qubit L{logical} outside the routing target")
      | some physicalIndex =>
        match physicalToLogical[physicalIndex]? with
        | none => .error .panicked
        | some (some _) => .error (.invariantViolation
            s!"sabre layout maps multiple logical qubits to physical qubit P{physical}")
        | some none =>
          fill layout physicalIndices rest
            (logicalToPhysical.set logicalIndex physicalIndex,
              physicalToLogical.set physicalIndex (some logicalIndex))

def fromLayout (layout : Layout) (physicalQubits : List PhysicalQubit) :
    Except CompilerError DenseRoutingLayout := do
  let logicalQubits := layout.logicalQubits
  let (logicalToPhysical, physicalToLogical) ← fill layout (indices physicalQubits)
    logicalQubits.zipIdx
    (List.replicate logicalQubits.length usizeMax, List.replicate physicalQubits.length none)
  return { logicalQubits, logicalIndices := indices logicalQubits, logicalToPhysical,
           physicalToLogical }

def physicalIndex (self : DenseRoutingLayout) (logical : LogicalQubit) : Except CompilerError ℕ :=
  match self.logicalIndices.get? logical with
  | none => .error (.invariantViolation
      s!"sabre dense layout does not contain logical qubit L{logical}")
  | some logicalIndex =>
    match self.logicalToPhysical[logicalIndex]? with
    | none => .error .panicked
    | some physicalIndex => .ok physicalIndex

/-- The place of one logical qubit after an exchange. -/
def relocate (logical : Option ℕ) (place : ℕ) (logicalToPhysical : List ℕ) :
    Except CompilerError (List ℕ) :=
  match logical with
  | some logical =>
    if logical < logicalToPhysical.length then .ok (logicalToPhysical.set logical place)
    else .error .panicked
  | none => .ok logicalToPhysical

def swapPhysicalIndices (left right : ℕ) (self : DenseRoutingLayout) :
    Except CompilerError DenseRoutingLayout :=
  if left = right then .ok self
  else
    match self.physicalToLogical[left]?, self.physicalToLogical[right]? with
    | some leftLogical, some rightLogical => do
      let physicalToLogical := (self.physicalToLogical.set left rightLogical).set right leftLogical
      let logicalToPhysical ← relocate leftLogical right self.logicalToPhysical
      let logicalToPhysical ← relocate rightLogical left logicalToPhysical
      return { self with logicalToPhysical, physicalToLogical }
    | _, _ => .error .panicked

def physicalAt (self : DenseRoutingLayout) (physicalQubits : List PhysicalQubit)
    (logicalIndex : ℕ) : Except CompilerError PhysicalQubit :=
  match self.logicalToPhysical[logicalIndex]? with
  | none => .error .panicked
  | some physicalIndex =>
    match physicalQubits[physicalIndex]? with
    | none => .error .panicked
    | some physical => .ok physical

def toLayout (self : DenseRoutingLayout) (physicalQubits : List PhysicalQubit) :
    Except CompilerError Layout := do
  let mapping ← self.logicalQubits.zipIdx.mapM fun (logical, logicalIndex) => do
    return (logical, ← self.physicalAt physicalQubits logicalIndex)
  let mapping := OrderedMap.empty.insertMany mapping
  match Layout.new self.logicalQubits physicalQubits (some mapping) with
  | .ok layout => .ok layout
  | .error error => .error (.invariantViolation
      s!"failed to rebuild SABRE layout from dense routing state: {error.display}")

def signature (self : DenseRoutingLayout) : List (Option ℕ) := self.physicalToLogical

end DenseRoutingLayout

end Cqlib.Sabre

open Cqlib.Lib Cqlib.Lib.StateResult Cqlib.Device

namespace Cqlib.Sabre

namespace DenseRoutingLayout

/-! ## Positions -/

theorem indices_get? {qs : List ℕ} (hnodup : qs.Nodup) {q i : ℕ} :
    (indices qs).get? q = some i ↔ qs[i]? = some q := by
  have hkeys : (qs.zipIdx.map Prod.fst).Nodup := by
    rw [List.zipIdx_map_fst]
    exact hnodup
  have hperm : (indices qs).entries.Perm (qs.zipIdx ++ []) :=
    OrderedMap.entries_insertMany_perm (by simp) hkeys
  rw [OrderedMap.get?_eq_some, hperm.mem_iff, List.append_nil, List.mem_zipIdx_iff_getElem?]

/-- An exchange of two positions of a list without repetitions exchanges the two entries. -/
theorem getElem?_swap {qs : List ℕ} (hnodup : qs.Nodup) {left right : ℕ} (hl : left < qs.length)
    (hr : right < qs.length) (j : ℕ) :
    qs[Equiv.swap left right j]? = (qs[j]?).map (Equiv.swap qs[left] qs[right]) := by
  rw [Equiv.swap_apply_def]
  split
  · rename_i heq
    subst heq
    simp [hl, hr]
  · split
    · rename_i heq
      subst heq
      simp [hl, hr]
    · rename_i hneL hneR
      by_cases hj : j < qs.length
      · have hL : qs[j] ≠ qs[left] := by
          rw [ne_eq, hnodup.getElem_inj_iff]
          exact hneL
        have hR : qs[j] ≠ qs[right] := by
          rw [ne_eq, hnodup.getElem_inj_iff]
          exact hneR
        rw [List.getElem?_eq_getElem hj, Option.map_some, Equiv.swap_apply_of_ne_of_ne hL hR]
      · rw [List.getElem?_eq_none (by omega), Option.map_none]

/-! ## The two arrays -/

def MutuallyInverse (dense : DenseRoutingLayout) : Prop :=
  ∀ i j : ℕ, dense.logicalToPhysical[i]? = some j ↔ dense.physicalToLogical[j]? = some (some i)

/-- The dense layout stands for a layout, over one list of the device's qubits. -/
structure Represents (physicalQubits : List PhysicalQubit) (layout : Layout)
    (dense : DenseRoutingLayout) : Prop where
  logicalQubits : dense.logicalQubits = layout.logicalQubits
  logicalIndices : dense.logicalIndices = indices layout.logicalQubits
  logicalLength : dense.logicalToPhysical.length = layout.logicalQubits.length
  physicalLength : dense.physicalToLogical.length = physicalQubits.length
  places : ∀ (i : ℕ) (l : LogicalQubit), layout.logicalQubits[i]? = some l →
    ∃ (j : ℕ) (p : PhysicalQubit),
    dense.logicalToPhysical[i]? = some j ∧ physicalQubits[j]? = some p ∧
      layout.getPhysical l = some p
  inverse : dense.MutuallyInverse

/-! ## Conversion to the dense layout -/

structure Filled (physicalQubits : List PhysicalQubit) (layout : Layout)
    (done : List LogicalQubit) (arrays : List ℕ × List (Option ℕ)) : Prop where
  physicalLength : arrays.2.length = physicalQubits.length
  places : ∀ (i : ℕ) (l : LogicalQubit), done[i]? = some l → ∃ (j : ℕ) (p : PhysicalQubit),
    arrays.1[i]? = some j ∧ physicalQubits[j]? = some p ∧ layout.getPhysical l = some p
  inverse : ∀ i j : ℕ, arrays.2[j]? = some (some i) ↔ i < done.length ∧ arrays.1[i]? = some j

variable {physicalQubits : List PhysicalQubit} {layout : Layout}

theorem Filled.step {done : List LogicalQubit} {arrays : List ℕ × List (Option ℕ)}
    (h : Filled physicalQubits layout done arrays) {l : LogicalQubit} {j p : ℕ}
    (hlength : done.length < arrays.1.length) (hj : physicalQubits[j]? = some p)
    (hp : layout.getPhysical l = some p) (hvacant : arrays.2[j]? = some none) :
    Filled physicalQubits layout (done ++ [l])
      (arrays.1.set done.length j, arrays.2.set j (some done.length)) := by
  have hj' : j < arrays.2.length := by
    by_contra hge
    rw [List.getElem?_eq_none (by omega)] at hvacant
    simp at hvacant
  constructor
  · simpa using h.physicalLength
  · intro i l' hl'
    by_cases hi : i < done.length
    · rw [List.getElem?_append_left hi] at hl'
      obtain ⟨j', p', hj', hp'⟩ := h.places i l' hl'
      refine ⟨j', p', ?_, hp'⟩
      rw [List.getElem?_set_ne (by omega)]
      exact hj'
    · obtain rfl : i = done.length := by
        have := (List.getElem?_eq_some_iff.mp hl').1
        rw [List.length_append, List.length_singleton] at this
        omega
      rw [List.getElem?_concat_length, Option.some.injEq] at hl'
      subst hl'
      exact ⟨j, p, by simp [hlength], hj, hp⟩
  · intro i j'
    rw [List.length_append, List.length_singleton, List.getElem?_set, List.getElem?_set]
    by_cases heq : j = j'
    · subst heq
      rw [if_pos rfl, if_pos hj', Option.some.injEq, Option.some.injEq]
      have hold := h.inverse i j
      rw [hvacant] at hold
      by_cases hi : done.length = i
      · simp [hi]
        omega
      · rw [if_neg hi]
        constructor
        · exact fun heq => absurd heq hi
        · rintro ⟨hlt, hget⟩
          have := hold.mpr ⟨by omega, hget⟩
          simp at this
    · rw [if_neg heq, h.inverse]
      by_cases hi : done.length = i
      · simp [hi, heq]
      · rw [if_neg hi]
        constructor
        · exact fun ⟨hlt, hget⟩ => ⟨by omega, hget⟩
        · exact fun ⟨hlt, hget⟩ => ⟨by omega, hget⟩

theorem fill_ok (hb : layout.Bijective) (hp : physicalQubits.Nodup)
    (hmem : ∀ p, p ∈ physicalQubits ↔ p ∈ layout.physicalQubits) {rest done : List LogicalQubit}
    {arrays : List ℕ × List (Option ℕ)} (h : Filled physicalQubits layout done arrays)
    (hnodup : (done ++ rest).Nodup) (hbound : ∀ l ∈ rest, l ∈ layout.logicalQubits)
    (hlength : arrays.1.length = done.length + rest.length) :
    ∃ arrays', fill layout (indices physicalQubits) (rest.zipIdx done.length) arrays = .ok arrays' ∧
      arrays'.1.length = arrays.1.length ∧ Filled physicalQubits layout (done ++ rest) arrays' := by
  induction rest generalizing done arrays with
  | nil => exact ⟨arrays, rfl, rfl, by simpa using h⟩
  | cons l rest ih =>
    obtain ⟨p, hget⟩ := OrderedMap.mem_keys_iff_get?.mp (hbound l (by simp))
    obtain ⟨j, hj⟩ := List.mem_iff_getElem?.mp ((hmem p).mpr (hb.onDevice l p hget))
    have hj' : j < arrays.2.length := by
      rw [h.physicalLength]
      exact (List.getElem?_eq_some_iff.mp hj).1
    -- An occupied place belongs to an earlier logical qubit, which differs from this one.
    have hvacant : arrays.2[j]? = some none := by
      rw [List.getElem?_eq_getElem hj', Option.some.injEq]
      cases hold : arrays.2[j] with
      | none => rfl
      | some i =>
        have hget' : arrays.2[j]? = some (some i) := by rw [List.getElem?_eq_getElem hj', hold]
        obtain ⟨hi, hplace⟩ := (h.inverse i j).mp hget'
        obtain ⟨j₁, p₁, hj₁, hp₁, hl₁⟩ := h.places i done[i] (List.getElem?_eq_getElem hi)
        rw [hplace, Option.some.injEq] at hj₁
        subst hj₁
        rw [hj, Option.some.injEq] at hp₁
        subst hp₁
        have hl : some done[i] = some l := ((hb.inverse _ _).mp hl₁).symm.trans
          ((hb.inverse _ _).mp hget)
        rw [Option.some.injEq] at hl
        have hdisjoint := (List.nodup_append.mp hnodup).2.2 done[i] (List.getElem_mem hi) l (by simp)
        exact absurd hl hdisjoint
    have hstep := h.step (by rw [hlength, List.length_cons]; omega) hj hget hvacant
    have hrest := ih hstep (by simpa using hnodup) (fun l' hl' => hbound l' (by simp [hl']))
      (by simp [hlength]; omega)
    rw [List.zipIdx_cons]
    unfold fill
    rw [List.length_append, List.length_singleton] at hrest
    simp only [show layout.getPhysical l = some p from hget, (indices_get? hp).mpr hj, hvacant]
    obtain ⟨arrays', hok, hlen, hfilled⟩ := hrest
    exact ⟨arrays', hok, by simpa using hlen, by simpa using hfilled⟩

theorem fromLayout_represents (hb : layout.Bijective) (hp : physicalQubits.Nodup)
    (hmem : ∀ p, p ∈ physicalQubits ↔ p ∈ layout.physicalQubits) :
    ∃ dense, fromLayout layout physicalQubits = .ok dense ∧
      Represents physicalQubits layout dense := by
  have hempty : Filled physicalQubits layout []
      (List.replicate layout.logicalQubits.length usizeMax,
        List.replicate physicalQubits.length none) := by
    constructor
    · simp
    · simp
    · simp [List.getElem?_replicate]
  obtain ⟨⟨logicalToPhysical, physicalToLogical⟩, hok, hlen, h⟩ :=
    @fill_ok physicalQubits layout hb hp hmem layout.logicalQubits [] _ hempty
      layout.l2p.nodup_keys (fun _ hl => hl) (by simp)
  refine ⟨{ logicalQubits := layout.logicalQubits, logicalIndices := indices layout.logicalQubits,
            logicalToPhysical, physicalToLogical }, ?_, ?_⟩
  · unfold fromLayout
    rw [List.length_nil] at hok
    simp only [hok, ok_bind]
    rfl
  · constructor
    · rfl
    · rfl
    · simpa using hlen
    · exact h.physicalLength
    · simpa using h.places
    · intro i j
      rw [h.inverse]
      constructor
      · intro hget
        have hi := (List.getElem?_eq_some_iff.mp hget).1
        rw [hlen] at hi
        exact ⟨by simpa using hi, hget⟩
      · exact And.right

/-! ## Exchanges -/

theorem relocate_ok {logical : Option ℕ} {places : List ℕ} (place : ℕ)
    (h : ∀ i, logical = some i → i < places.length) :
    ∃ places', relocate logical place places = .ok places' ∧ places'.length = places.length ∧
      ∀ i < places.length, places'[i]? = if logical = some i then some place else places[i]? := by
  unfold relocate
  split
  · rename_i logical
    rw [if_pos (h logical rfl)]
    refine ⟨_, rfl, by simp, ?_⟩
    intro i hi
    simp only [List.getElem?_set, Option.some.injEq, h logical rfl, if_true]
  · exact ⟨places, rfl, rfl, by simp⟩

structure Exchanged (left right : ℕ) (dense dense' : DenseRoutingLayout) : Prop where
  logicalQubits : dense'.logicalQubits = dense.logicalQubits
  logicalIndices : dense'.logicalIndices = dense.logicalIndices
  logicalToPhysical : ∀ i : ℕ, dense'.logicalToPhysical[i]? =
    (dense.logicalToPhysical[i]?).map (Equiv.swap left right)
  physicalToLogical : ∀ j : ℕ, dense'.physicalToLogical[j]? =
    dense.physicalToLogical[Equiv.swap left right j]?
  logicalLength : dense'.logicalToPhysical.length = dense.logicalToPhysical.length
  physicalLength : dense'.physicalToLogical.length = dense.physicalToLogical.length

theorem swapPhysicalIndices_exchanged {dense : DenseRoutingLayout} {left right : ℕ}
    (hinverse : dense.MutuallyInverse) (hl : left < dense.physicalToLogical.length)
    (hr : right < dense.physicalToLogical.length) :
    ∃ dense', swapPhysicalIndices left right dense = .ok dense' ∧
      Exchanged left right dense dense' := by
  unfold swapPhysicalIndices
  split
  · rename_i heq
    subst heq
    exact ⟨dense, rfl, by constructor <;> simp⟩
  · rename_i hne
    have hleft := List.getElem?_eq_getElem hl
    have hright := List.getElem?_eq_getElem hr
    have hbound : ∀ i, dense.physicalToLogical[left] = some i →
        i < dense.logicalToPhysical.length := by
      intro i hi
      rw [hi] at hleft
      exact (List.getElem?_eq_some_iff.mp ((hinverse i left).mpr hleft)).1
    have hbound' : ∀ i, dense.physicalToLogical[right] = some i →
        i < dense.logicalToPhysical.length := by
      intro i hi
      rw [hi] at hright
      exact (List.getElem?_eq_some_iff.mp ((hinverse i right).mpr hright)).1
    obtain ⟨places₁, hok₁, hlen₁, hget₁⟩ := relocate_ok right hbound
    rw [← hlen₁] at hbound'
    obtain ⟨places₂, hok₂, hlen₂, hget₂⟩ := relocate_ok left hbound'
    rw [hleft, hright]
    simp only [hok₁, hok₂, ok_bind]
    refine ⟨_, rfl, rfl, rfl, ?_, ?_, ?_, ?_⟩
    · intro i
      by_cases hi : i < dense.logicalToPhysical.length
      · rw [hget₂ i (by omega), hget₁ i hi]
        have hLeft := hinverse i left
        have hRight := hinverse i right
        rw [hleft, Option.some.injEq] at hLeft
        rw [hright, Option.some.injEq] at hRight
        simp only [← hLeft, ← hRight]
        rw [List.getElem?_eq_getElem hi]
        simp only [Option.some.injEq, Option.map_some, Equiv.swap_apply_def]
        split
        · simp_all [eq_comm]
        · split <;> rfl
      · rw [List.getElem?_eq_none (by simp only; omega), List.getElem?_eq_none (by omega),
          Option.map_none]
    · intro j
      simp only [List.getElem?_set, List.length_set, Equiv.swap_apply_def, hl, hr, if_true]
      by_cases hjr : right = j
      · rw [if_pos hjr, if_neg (by omega), if_pos hjr.symm, hleft]
      · rw [if_neg hjr]
        by_cases hjl : left = j
        · rw [if_pos hjl, if_pos hjl.symm, hright]
        · rw [if_neg hjl, if_neg (Ne.symm hjl), if_neg (Ne.symm hjr)]
    · simp [hlen₂, hlen₁]
    · simp

variable {dense : DenseRoutingLayout}

theorem Exchanged.mutuallyInverse {left right : ℕ} {dense' : DenseRoutingLayout}
    (h : Exchanged left right dense dense') (hinverse : dense.MutuallyInverse) :
    dense'.MutuallyInverse := by
  intro i j
  rw [h.logicalToPhysical, h.physicalToLogical, ← hinverse, Option.map_eq_some_iff]
  constructor
  · rintro ⟨j', hget, rfl⟩
    simpa using hget
  · exact fun hget => ⟨_, hget, by simp⟩

theorem exchanged_logicalQubits {physA physB : PhysicalQubit} {layout' : Layout}
    (h : Layout.Exchanged physA physB layout layout') :
    layout'.logicalQubits = layout.logicalQubits := by
  apply OrderedMap.ext_keyList
  intro l
  simp only [OrderedMap.mem_keys_iff_get?, h.l2p, Option.map_eq_some_iff]
  constructor
  · rintro ⟨-, p, hget, -⟩
    exact ⟨p, hget⟩
  · rintro ⟨p, hget⟩
    exact ⟨_, p, hget, rfl⟩

theorem Represents.exchange {layout' : Layout} {dense' : DenseRoutingLayout}
    (h : Represents physicalQubits layout dense) (hnodup : physicalQubits.Nodup) {left right : ℕ}
    (hl : left < physicalQubits.length) (hr : right < physicalQubits.length)
    (hd : Exchanged left right dense dense')
    (hx : Layout.Exchanged physicalQubits[left] physicalQubits[right] layout layout') :
    Represents physicalQubits layout' dense' := by
  have hlogical := exchanged_logicalQubits hx
  constructor
  · rw [hd.logicalQubits, h.logicalQubits, hlogical]
  · rw [hd.logicalIndices, h.logicalIndices, hlogical]
  · rw [hd.logicalLength, h.logicalLength, hlogical]
  · rw [hd.physicalLength, h.physicalLength]
  · intro i l hget
    rw [hlogical] at hget
    obtain ⟨j, p, hj, hp, hl'⟩ := h.places i l hget
    refine ⟨Equiv.swap left right j, Equiv.swap physicalQubits[left] physicalQubits[right] p, ?_,
      ?_, ?_⟩
    · rw [hd.logicalToPhysical, hj, Option.map_some]
    · rw [getElem?_swap hnodup hl hr, hp, Option.map_some]
    · have hlayout' := hx.l2p l
      rw [show layout.l2p.get? l = some p from hl'] at hlayout'
      exact hlayout'
  · exact hd.mutuallyInverse h.inverse

/-! ## Conversion from the dense layout -/

theorem Represents.toLayout (h : Represents physicalQubits layout dense) (hb : layout.Bijective)
    (hp : physicalQubits.Nodup) (hmem : ∀ p, p ∈ physicalQubits ↔ p ∈ layout.physicalQubits) :
    dense.toLayout physicalQubits = .ok layout := by
  have hmapping : dense.logicalQubits.zipIdx.mapM (fun (logical, logicalIndex) => do
      return (logical, ← dense.physicalAt physicalQubits logicalIndex)) =
        .ok layout.l2p.entries := by
    rw [mapM_eq_ok, List.forall₂_iff_get, h.logicalQubits]
    refine ⟨by simp [Layout.logicalQubits, OrderedMap.keys], ?_⟩
    intro i hi hi'
    have hentry := OrderedMap.get?_eq_some.mpr (List.getElem_mem hi')
    have hl : layout.logicalQubits[i]? = some layout.l2p.entries[i].1 := by
      simp [Layout.logicalQubits, OrderedMap.keys, hi']
    obtain ⟨j, p, hj, hp, hget⟩ := h.places i _ hl
    have hp' : layout.l2p.entries[i].2 = p := Option.some.inj (hentry.symm.trans hget)
    have hat : dense.physicalAt physicalQubits i = .ok p := by
      unfold physicalAt
      simp only [hj, hp]
    simp only [List.get_eq_getElem, List.getElem_zipIdx, Nat.zero_add, hat, ok_bind]
    rw [pure_eq_ok, ← hp']
    simp [Layout.logicalQubits, OrderedMap.keys]
  unfold DenseRoutingLayout.toLayout
  simp only [hmapping, ok_bind]
  rw [OrderedMap.insertMany_entries, h.logicalQubits, Layout.new_l2p hb hp hmem]

/-! ## Runs -/

/-- A sequence of exchanges of positions. -/
def swapAll (swaps : List (ℕ × ℕ)) (dense : DenseRoutingLayout) :
    Except CompilerError DenseRoutingLayout :=
  swaps.foldlM (fun dense swap => dense.swapPhysicalIndices swap.1 swap.2) dense

theorem swapAll_represents (hnodup : physicalQubits.Nodup)
    (swaps : List (Fin physicalQubits.length × Fin physicalQubits.length)) (hb : layout.Bijective)
    (hmem : ∀ p, p ∈ physicalQubits ↔ p ∈ layout.physicalQubits)
    (h : Represents physicalQubits layout dense) :
    ∃ dense' layout', dense.swapAll (swaps.map fun s => (s.1.val, s.2.val)) = .ok dense' ∧
      exec (swaps.forM fun s => Layout.swapPhysical (physicalQubits.get s.1)
        (physicalQubits.get s.2)) layout = (.ok ⟨⟩, layout') ∧
      layout'.Bijective ∧ layout'.physicalQubits = layout.physicalQubits ∧
      Represents physicalQubits layout' dense' := by
  induction swaps generalizing layout dense with
  | nil => exact ⟨dense, layout, rfl, rfl, hb, rfl, h⟩
  | cons swap swaps ih =>
    obtain ⟨left, right⟩ := swap
    have hleft := (hmem _).mp (List.getElem_mem left.isLt)
    have hright := (hmem _).mp (List.getElem_mem right.isLt)
    obtain ⟨layout₁, hexec, hx⟩ := Layout.exec_swapPhysical hb hleft hright
    obtain ⟨dense₁, hok, hd⟩ := @swapPhysicalIndices_exchanged dense left right h.inverse
      (by rw [h.physicalLength]; exact left.isLt) (by rw [h.physicalLength]; exact right.isLt)
    obtain ⟨dense', layout', hdense, hlayout, hb', hqubits, h'⟩ :=
      ih (hx.bijective hleft hright hb) (by rw [hx.physicalQubits]; exact hmem)
        (h.exchange hnodup left.isLt right.isLt hd hx)
    refine ⟨dense', layout', ?_, ?_, hb', hqubits.trans hx.physicalQubits, h'⟩
    · unfold swapAll at hdense ⊢
      rw [List.map_cons, List.foldlM_cons, hok]
      exact hdense
    · rw [List.forM_eq_forM, List.forM_cons]
      exact (exec_bind_of_ok hexec).trans hlayout

end DenseRoutingLayout

/-- A layout is a partial bijection into the device after every run of calls, a failed call
leaves it as it is, and its dense form follows it through every sequence of exchanges. -/
theorem layout_bijection_dense {layout : Layout} (h : layout.Reachable) :
    (∀ l p, layout.getPhysical l = some p ↔ layout.getLogical p = some l) ∧
    (∀ l p, layout.getPhysical l = some p → p ∈ layout.physicalQubits) ∧
    (∀ call e layout', exec (Layout.runCall call) layout = (.error e, layout') →
      layout' = layout) ∧
    ∀ physicalQubits : List PhysicalQubit, physicalQubits.Nodup →
      (∀ p, p ∈ physicalQubits ↔ p ∈ layout.physicalQubits) →
      ∀ swaps : List (Fin physicalQubits.length × Fin physicalQubits.length),
      ∃ dense dense' layout', DenseRoutingLayout.fromLayout layout physicalQubits = .ok dense ∧
        dense.swapAll (swaps.map fun s => (s.1.val, s.2.val)) = .ok dense' ∧
        dense'.MutuallyInverse ∧
        exec (swaps.forM fun s => Layout.swapPhysical (physicalQubits.get s.1)
          (physicalQubits.get s.2)) layout = (.ok ⟨⟩, layout') ∧
        dense'.toLayout physicalQubits = .ok layout' := by
  have hb := h.bijective
  refine ⟨hb.inverse, hb.onDevice, fun _ _ _ => Layout.runCall_error hb, ?_⟩
  intro physicalQubits hnodup hmem swaps
  obtain ⟨dense, hok, hrep⟩ := DenseRoutingLayout.fromLayout_represents hb hnodup hmem
  obtain ⟨dense', layout', hdense, hlayout, hb', hqubits, hrep'⟩ :=
    DenseRoutingLayout.swapAll_represents hnodup swaps hb hmem hrep
  refine ⟨dense, dense', layout', hok, hdense, hrep'.inverse, hlayout, ?_⟩
  exact hrep'.toLayout hb' hnodup (by rw [hqubits]; exact hmem)

/-- One logical qubit on a device of three, moved twice. -/
theorem layout_bijection_dense_three : ∃ layout, Layout.new [7] [4, 2, 9] none = .ok layout ∧
    ∃ dense dense' layout', DenseRoutingLayout.fromLayout layout [4, 2, 9] = .ok dense ∧
      dense.swapAll [(0, 1), (1, 2)] = .ok dense' ∧ dense'.MutuallyInverse ∧
      exec ([(0, 1), (1, 2)].forM fun s : Fin 3 × Fin 3 =>
        Layout.swapPhysical ([4, 2, 9].get s.1) ([4, 2, 9].get s.2)) layout = (.ok ⟨⟩, layout') ∧
      dense'.toLayout [4, 2, 9] = .ok layout' := by
  refine ⟨_, rfl, ?_⟩
  have hreachable : Layout.Reachable _ := .new (rfl : Layout.new [7] [4, 2, 9] none = .ok _)
  refine (layout_bijection_dense hreachable).2.2.2 [4, 2, 9] (by decide) ?_ [(0, 1), (1, 2)]
  intro p
  change p ∈ [4, 2, 9] ↔ p ∈ ({9, 2, 4} : Finset ℕ)
  simp
  tauto

end Cqlib.Sabre
