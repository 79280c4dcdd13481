import Mathlib.Data.List.Nodup
import Mathlib.Data.List.Perm.Basic
import Mathlib.Data.List.Pairwise
import Mathlib.Order.Lattice

/-!
# Ordered maps

Maps with finitely many keys in the order of the keys, and partial bijections as two such maps,
one for each direction.
-/

namespace Cqlib.Lib

universe u v

variable {κ : Type u} {α : Type v} [LinearOrder κ]

/-- Insertion into a sorted list of entries. An existing entry is replaced. -/
def insertEntry (k : κ) (a : α) : List (κ × α) → List (κ × α)
  | [] => [(k, a)]
  | (k', a') :: rest =>
    if k < k' then (k, a) :: (k', a') :: rest
    else if k = k' then (k, a) :: rest
    else (k', a') :: insertEntry k a rest

def EntriesSorted (entries : List (κ × α)) : Prop := entries.Pairwise fun x y => x.1 < y.1

variable {k : κ} {a : α} {entries : List (κ × α)}

theorem mem_insertEntry (h : EntriesSorted entries) {x : κ × α} :
    x ∈ insertEntry k a entries ↔ x = (k, a) ∨ (x ∈ entries ∧ x.1 ≠ k) := by
  induction entries with
  | nil => simp [insertEntry]
  | cons hd tl ih =>
    obtain ⟨k', a'⟩ := hd
    obtain ⟨hlt, htl⟩ := List.pairwise_cons.mp h
    have htail : ∀ y ∈ tl, k' < y.1 := hlt
    unfold insertEntry
    split
    · rename_i hk
      have hne : ∀ y ∈ (k', a') :: tl, y.1 ≠ k := by
        intro y hy
        rcases List.mem_cons.mp hy with rfl | hy
        · exact hk.ne'
        · exact (hk.trans (htail y hy)).ne'
      constructor
      · intro hx
        rcases List.mem_cons.mp hx with rfl | hx
        · exact .inl rfl
        · exact .inr ⟨hx, hne x hx⟩
      · rintro (rfl | ⟨hx, -⟩)
        · exact List.mem_cons_self
        · exact List.mem_cons_of_mem _ hx
    · split
      · rename_i hk
        subst hk
        constructor
        · intro hx
          rcases List.mem_cons.mp hx with rfl | hx
          · exact .inl rfl
          · exact .inr ⟨List.mem_cons_of_mem _ hx, (htail x hx).ne'⟩
        · rintro (rfl | ⟨hx, hxk⟩)
          · exact List.mem_cons_self
          · rcases List.mem_cons.mp hx with rfl | hx
            · exact absurd rfl hxk
            · exact List.mem_cons_of_mem _ hx
      · rename_i hne
        rw [List.mem_cons, ih htl, List.mem_cons]
        constructor
        · rintro (rfl | rfl | ⟨hx, hxk⟩)
          · exact .inr ⟨.inl rfl, Ne.symm hne⟩
          · exact .inl rfl
          · exact .inr ⟨.inr hx, hxk⟩
        · rintro (rfl | ⟨rfl | hx, hxk⟩)
          · exact .inr (.inl rfl)
          · exact .inl rfl
          · exact .inr (.inr ⟨hx, hxk⟩)

theorem entriesSorted_insertEntry (h : EntriesSorted entries) :
    EntriesSorted (insertEntry k a entries) := by
  induction entries with
  | nil => exact List.pairwise_singleton _ _
  | cons hd tl ih =>
    obtain ⟨k', a'⟩ := hd
    obtain ⟨hlt, htl⟩ := List.pairwise_cons.mp h
    unfold insertEntry
    split
    · rename_i hk
      refine List.pairwise_cons.mpr ⟨fun y hy => ?_, h⟩
      rcases List.mem_cons.mp hy with rfl | hy
      · exact hk
      · exact hk.trans (hlt y hy)
    · split
      · rename_i hk
        subst hk
        exact List.pairwise_cons.mpr ⟨hlt, htl⟩
      · rename_i hnlt hne
        refine List.pairwise_cons.mpr ⟨fun y hy => ?_, ih htl⟩
        rcases (mem_insertEntry htl).mp hy with rfl | ⟨hy, -⟩
        · exact lt_of_le_of_ne (not_lt.mp hnlt) (Ne.symm hne)
        · exact hlt y hy

theorem insertEntry_perm (h : ∀ x ∈ entries, x.1 ≠ k) :
    (insertEntry k a entries).Perm ((k, a) :: entries) := by
  induction entries with
  | nil => exact .refl _
  | cons hd tl ih =>
    obtain ⟨k', a'⟩ := hd
    unfold insertEntry
    split
    · exact .refl _
    · rw [if_neg (h _ List.mem_cons_self).symm]
      exact ((ih fun x hx => h x (List.mem_cons_of_mem _ hx)).cons _).trans (.swap _ _ _)

structure OrderedMap (κ : Type u) (α : Type v) [LinearOrder κ] where
  entries : List (κ × α)
  sorted : EntriesSorted entries

namespace OrderedMap

instance [DecidableEq α] : DecidableEq (OrderedMap κ α) := fun a b =>
  decidable_of_iff (a.entries = b.entries) (by cases a; cases b; simp)

def empty : OrderedMap κ α := ⟨[], .nil⟩

def get? (m : OrderedMap κ α) (k : κ) : Option α :=
  (m.entries.find? fun x => x.1 = k).map Prod.snd

def contains (m : OrderedMap κ α) (k : κ) : Bool := (m.get? k).isSome

def insert (m : OrderedMap κ α) (k : κ) (a : α) : OrderedMap κ α :=
  ⟨insertEntry k a m.entries, entriesSorted_insertEntry m.sorted⟩

def erase (m : OrderedMap κ α) (k : κ) : OrderedMap κ α :=
  ⟨m.entries.filter fun x => x.1 ≠ k, m.sorted.filter _⟩

def keys (m : OrderedMap κ α) : List κ := m.entries.map Prod.fst

def size (m : OrderedMap κ α) : Nat := m.entries.length

def lastKey? (m : OrderedMap κ α) : Option κ := m.entries.getLast?.map Prod.fst

def insertMany (m : OrderedMap κ α) (entries : List (κ × α)) : OrderedMap κ α :=
  entries.foldl (fun m x => m.insert x.1 x.2) m

/-! ## Lookup -/

variable {m : OrderedMap κ α} {k k' : κ} {a : α}

theorem nodup_keys (m : OrderedMap κ α) : m.keys.Nodup := by
  rw [keys, List.nodup_iff_pairwise_ne, List.pairwise_map]
  exact m.sorted.imp fun h => h.ne

variable {x : κ × α}

theorem key_unique {y : κ × α} (hx : x ∈ m.entries) (hy : y ∈ m.entries) (h : x.1 = y.1) : x = y :=
  List.inj_on_of_nodup_map m.nodup_keys hx hy h

theorem get?_eq_some : m.get? k = some a ↔ (k, a) ∈ m.entries := by
  unfold get?
  constructor
  · intro h
    obtain ⟨x, hx, rfl⟩ := Option.map_eq_some_iff.mp h
    have hk : x.1 = k := by simpa using List.find?_some hx
    subst hk
    exact List.mem_of_find?_eq_some hx
  · intro h
    cases hf : m.entries.find? fun x => decide (x.1 = k) with
    | none =>
      have := List.find?_eq_none.mp hf _ h
      simp at this
    | some x =>
      have hk : x.1 = k := by simpa using List.find?_some hf
      have hx := key_unique (List.mem_of_find?_eq_some hf) h hk
      rw [hx]
      rfl

theorem get?_eq_none : m.get? k = none ↔ k ∉ m.keys := by
  rw [Option.eq_none_iff_forall_not_mem]
  simp only [Option.mem_def, get?_eq_some, keys, List.mem_map, Prod.exists, exists_and_right,
    exists_eq_right, not_exists]

theorem contains_iff : m.contains k = true ↔ k ∈ m.keys := by
  rw [contains, ← not_iff_not, ← get?_eq_none]
  simp

theorem contains_eq_false : m.contains k = false ↔ k ∉ m.keys := by
  rw [← contains_iff, Bool.not_eq_true]

theorem mem_keys : k ∈ m.keys ↔ ∃ a, (k, a) ∈ m.entries := by
  simp [keys]

@[simp] theorem keys_empty : (empty : OrderedMap κ α).keys = [] := rfl

@[simp] theorem entries_empty : (empty : OrderedMap κ α).entries = [] := rfl

/-! ## Insertion -/

theorem mem_entries_insert : x ∈ (m.insert k a).entries ↔ x = (k, a) ∨ (x ∈ m.entries ∧ x.1 ≠ k) :=
  mem_insertEntry m.sorted

theorem mem_keys_insert : k' ∈ (m.insert k a).keys ↔ k' = k ∨ k' ∈ m.keys := by
  simp only [mem_keys, mem_entries_insert, Prod.mk.injEq]
  constructor
  · rintro ⟨b, ⟨rfl, -⟩ | ⟨hb, -⟩⟩
    · exact .inl rfl
    · exact .inr ⟨b, hb⟩
  · rintro (rfl | ⟨b, hb⟩)
    · exact ⟨a, .inl ⟨rfl, rfl⟩⟩
    · by_cases hk : k' = k
      · exact ⟨a, .inl ⟨hk, rfl⟩⟩
      · exact ⟨b, .inr ⟨hb, hk⟩⟩

theorem get?_insert : (m.insert k a).get? k' = if k' = k then some a else m.get? k' := by
  split
  · rename_i h
    subst h
    exact get?_eq_some.mpr (mem_entries_insert.mpr (.inl rfl))
  · rename_i h
    refine Option.ext fun b => ?_
    simp only [get?_eq_some, mem_entries_insert, Prod.mk.injEq, h, false_and, false_or,
      ne_eq, not_false_eq_true, and_true]

theorem entries_insert_perm (h : k ∉ m.keys) :
    (m.insert k a).entries.Perm ((k, a) :: m.entries) :=
  insertEntry_perm fun x hx hk => h (by rw [← hk]; exact List.mem_map_of_mem hx)

/-! ## Insertion of many entries -/

theorem entries_insertMany_perm {entries : List (κ × α)}
    (hnew : ∀ x ∈ entries, x.1 ∉ m.keys) (hnodup : (entries.map Prod.fst).Nodup) :
    (m.insertMany entries).entries.Perm (entries ++ m.entries) := by
  induction entries generalizing m with
  | nil => exact .refl _
  | cons x rest ih =>
    obtain ⟨hx, hrest⟩ := List.nodup_cons.mp hnodup
    have hstep : ∀ y ∈ rest, y.1 ∉ (m.insert x.1 x.2).keys := by
      intro y hy hmem
      rcases mem_keys_insert.mp hmem with hyx | hmem
      · exact hx (by rw [← hyx]; exact List.mem_map_of_mem hy)
      · exact hnew y (List.mem_cons_of_mem _ hy) hmem
    refine (ih hstep hrest).trans ?_
    refine ((entries_insert_perm (hnew x List.mem_cons_self)).append_left rest).trans ?_
    exact List.perm_middle

theorem mem_keys_insertMany {entries : List (κ × α)} :
    k ∈ (m.insertMany entries).keys ↔ k ∈ entries.map Prod.fst ∨ k ∈ m.keys := by
  induction entries generalizing m with
  | nil => simp [insertMany]
  | cons x rest ih =>
    have hstep := @ih (m.insert x.1 x.2)
    simp only [insertMany, List.foldl_cons] at hstep ⊢
    rw [hstep, mem_keys_insert, List.map_cons, List.mem_cons]
    tauto

/-! ## Removal -/

theorem mem_entries_erase : x ∈ (m.erase k).entries ↔ x ∈ m.entries ∧ x.1 ≠ k := by
  simp [erase]

theorem mem_keys_erase : k' ∈ (m.erase k).keys ↔ k' ∈ m.keys ∧ k' ≠ k := by
  simp only [mem_keys, mem_entries_erase]
  exact exists_and_right

theorem entries_erase_perm (h : m.get? k = some a) :
    m.entries.Perm ((k, a) :: (m.erase k).entries) := by
  have hnodup : m.entries.Nodup := m.nodup_keys.of_map
  refine (List.perm_ext_iff_of_nodup hnodup ?_).mpr fun x => ?_
  · refine List.nodup_cons.mpr ⟨fun hmem => ?_, hnodup.filter _⟩
    exact (mem_entries_erase.mp hmem).2 rfl
  · rw [List.mem_cons, mem_entries_erase]
    constructor
    · intro hx
      by_cases hk : x.1 = k
      · exact .inl (key_unique hx (get?_eq_some.mp h) hk)
      · exact .inr ⟨hx, hk⟩
    · rintro (rfl | ⟨hx, -⟩)
      · exact get?_eq_some.mp h
      · exact hx

/-! ## Extensionality -/

theorem ext_entries {m' : OrderedMap κ α} (h : ∀ x, x ∈ m.entries ↔ x ∈ m'.entries) : m = m' := by
  have hperm : m.entries.Perm m'.entries :=
    (List.perm_ext_iff_of_nodup m.nodup_keys.of_map m'.nodup_keys.of_map).mpr h
  have heq := hperm.eq_of_pairwise
    (fun x y _ _ hxy hyx => absurd (hxy.trans hyx) (lt_irrefl _)) m.sorted m'.sorted
  cases m
  cases m'
  simp_all

theorem keys_ext {β : Type*} {m' : OrderedMap κ β} (h : ∀ k, k ∈ m.keys ↔ k ∈ m'.keys) :
    m.keys = m'.keys := by
  have hperm := (List.perm_ext_iff_of_nodup m.nodup_keys m'.nodup_keys).mpr h
  exact hperm.eq_of_pairwise (fun x y _ _ hxy hyx => absurd (hxy.trans hyx) (lt_irrefl _))
    (List.pairwise_map.mpr m.sorted) (List.pairwise_map.mpr m'.sorted)

theorem ext_keys {m m' : OrderedMap κ Unit} (h : ∀ k, k ∈ m.keys ↔ k ∈ m'.keys) : m = m' := by
  refine ext_entries fun x => ?_
  have hx : ∀ s : OrderedMap κ Unit, x ∈ s.entries ↔ x.1 ∈ s.keys := fun s => by
    rw [mem_keys]
    exact ⟨fun hx => ⟨x.2, hx⟩, fun ⟨_, hx⟩ => hx⟩
  rw [hx, hx, h]

/-! ## The greatest key -/

theorem le_lastKey? {last : κ} (hlast : m.lastKey? = some last) (hk : k ∈ m.keys) : k ≤ last := by
  unfold lastKey? at hlast
  obtain ⟨x, hx, rfl⟩ := Option.map_eq_some_iff.mp hlast
  obtain ⟨init, hinit⟩ := List.getLast?_eq_some_iff.mp hx
  obtain ⟨a, ha⟩ := mem_keys.mp hk
  have hsorted : EntriesSorted (init ++ [x]) := hinit ▸ m.sorted
  rw [hinit, List.mem_append, List.mem_singleton] at ha
  rcases ha with ha | rfl
  · exact ((List.pairwise_append.mp hsorted).2.2 _ ha x List.mem_cons_self).le
  · exact le_rfl

theorem lastKey?_eq_none (h : m.lastKey? = none) : m.keys = [] := by
  unfold lastKey? at h
  simp only [Option.map_eq_none_iff, List.getLast?_eq_none_iff] at h
  simp [keys, h]

end OrderedMap

end Cqlib.Lib

/-! ## Maps that are inverse to each other -/

namespace Cqlib.Lib

namespace OrderedMap

variable {κ α : Type} [LinearOrder κ]

variable {m : OrderedMap κ α}

variable {k : κ}

theorem get?_erase {k' : κ} : (m.erase k).get? k' = if k' = k then none else m.get? k' := by
  apply Option.ext
  intro a
  rw [get?_eq_some, mem_entries_erase]
  split
  · simp_all
  · simp_all [get?_eq_some]

theorem ext_get? {m' : OrderedMap κ α} (h : ∀ k, m.get? k = m'.get? k) : m = m' := by
  apply ext_entries
  rintro ⟨k, a⟩
  rw [← get?_eq_some, ← get?_eq_some, h]

@[simp] theorem get?_empty (k : κ) : (empty : OrderedMap κ α).get? k = none := rfl

theorem contains_eq_false_iff : m.contains k = false ↔ m.get? k = none := by
  simp [contains]

theorem mem_keys_iff_get? : k ∈ m.keys ↔ ∃ a, m.get? k = some a := by
  simp only [mem_keys, get?_eq_some]

theorem ext_keyList {β : Type} {m' : OrderedMap κ β} (h : ∀ k, k ∈ m.keys ↔ k ∈ m'.keys) :
    m.keys = m'.keys := by
  have hperm := (List.perm_ext_iff_of_nodup m.nodup_keys m'.nodup_keys).mpr h
  have hsorted {γ : Type} (m : OrderedMap κ γ) : m.keys.Pairwise (· < ·) :=
    List.pairwise_map.mpr m.sorted
  exact hperm.eq_of_pairwise (fun x y _ _ hxy hyx => absurd (hxy.trans hyx) (lt_irrefl _))
    (hsorted m) (hsorted m')

theorem insertMany_entries (m : OrderedMap κ α) : empty.insertMany m.entries = m := by
  apply ext_entries
  intro x
  have hperm := @entries_insertMany_perm _ _ _ empty m.entries (by simp) m.nodup_keys
  simpa using hperm.mem_iff

end OrderedMap

variable {κ α : Type} [LinearOrder κ] [LinearOrder α]

def InverseMaps (f : OrderedMap κ α) (g : OrderedMap α κ) : Prop :=
  ∀ k a, f.get? k = some a ↔ g.get? a = some k

namespace InverseMaps

variable {f : OrderedMap κ α} {g : OrderedMap α κ} {k : κ} {a : α}

theorem empty : InverseMaps (.empty : OrderedMap κ α) (.empty : OrderedMap α κ) := by
  intro k a
  simp

theorem insert (h : InverseMaps f g) (hk : f.get? k = none) (ha : g.get? a = none) :
    InverseMaps (f.insert k a) (g.insert a k) := by
  intro k' a'
  rw [OrderedMap.get?_insert, OrderedMap.get?_insert]
  split <;> split
  · simp_all
  · have hnone : g.get? a' ≠ some k := by
      rw [ne_eq, ← h, hk]
      simp
    simp_all
    tauto
  · have hnone : f.get? k' ≠ some a := by
      rw [ne_eq, h, ha]
      simp
    simp_all
    tauto
  · exact h k' a'

theorem erase (h : InverseMaps f g) (hk : f.get? k = some a) :
    InverseMaps (f.erase k) (g.erase a) := by
  have ha := (h k a).mp hk
  intro k' a'
  rw [OrderedMap.get?_erase, OrderedMap.get?_erase]
  split <;> split
  · simp
  · rename_i heq hne
    subst heq
    have : g.get? a' ≠ some k' := by
      rw [ne_eq, ← h, hk, Option.some.injEq]
      exact fun ha' => hne ha'.symm
    simp [this]
  · rename_i hne heq
    subst heq
    have : f.get? k' ≠ some a' := by
      rw [ne_eq, h, ha, Option.some.injEq]
      exact fun hk' => hne hk'.symm
    simp [this]
  · exact h k' a'

end InverseMaps

end Cqlib.Lib
