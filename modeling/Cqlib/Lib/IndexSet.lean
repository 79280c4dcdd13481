import Mathlib.Data.List.Nodup
import Mathlib.Data.List.Infix

/-!
# Sets that remember the order of insertion

An element keeps the position it was first inserted at.
-/

namespace Cqlib.Lib

structure IndexSet (α : Type) where
  toList : List α
  nodup : toList.Nodup

namespace IndexSet

variable {α : Type}

variable {s t : IndexSet α}

@[ext] theorem ext' (h : s.toList = t.toList) : s = t := by
  cases s; cases t; simp_all

instance [DecidableEq α] : DecidableEq (IndexSet α) := fun s t =>
  decidable_of_iff (s.toList = t.toList) ⟨ext', fun h => h ▸ rfl⟩

def empty : IndexSet α := ⟨[], List.nodup_nil⟩

instance : Inhabited (IndexSet α) := ⟨empty⟩

@[simp] theorem toList_empty : (empty : IndexSet α).toList = [] := rfl

def singleton (a : α) : IndexSet α := ⟨[a], List.nodup_singleton a⟩

@[simp] theorem toList_singleton (a : α) : (singleton a).toList = [a] := rfl

def len (s : IndexSet α) : ℕ := s.toList.length

def getIndex (s : IndexSet α) (i : ℕ) : Option α := s.toList[i]?

/-- Keeps the first `n` elements. -/
def truncate (s : IndexSet α) (n : ℕ) : IndexSet α :=
  ⟨s.toList.take n, s.nodup.sublist (s.toList.take_sublist n)⟩

@[simp] theorem toList_truncate (s : IndexSet α) (n : ℕ) :
    (s.truncate n).toList = s.toList.take n := rfl

theorem getIndex_isSome {i : ℕ} : (s.getIndex i).isSome ↔ i < s.len := by
  simp [getIndex, len]

theorem truncate_eq_of_prefix (h : s.toList <+: t.toList) :
    t.truncate s.len = s := by
  ext1
  rw [toList_truncate]
  exact List.prefix_iff_eq_take.mp h |>.symm

theorem getIndex_of_prefix (h : s.toList <+: t.toList) {i : ℕ} (hi : i < s.len) :
    t.getIndex i = s.getIndex i := by
  obtain ⟨rest, hrest⟩ := h
  unfold getIndex
  rw [← hrest, List.getElem?_append_left hi]

section Insert

variable [DecidableEq α]

def contains (s : IndexSet α) (a : α) : Bool := s.toList.contains a

/-- Returns the position of `a`, and whether `a` is new. -/
def insertFull (s : IndexSet α) (a : α) : IndexSet α × ℕ × Bool :=
  if h : a ∈ s.toList then (s, s.toList.idxOf a, false)
  else (⟨s.toList ++ [a], by
    simp only [List.nodup_append, List.nodup_singleton, true_and, List.mem_singleton]
    refine ⟨s.nodup, ?_⟩
    rintro b hb _ rfl rfl
    exact h hb⟩, s.len, true)

def insert (s : IndexSet α) (a : α) : IndexSet α := (s.insertFull a).1

def extend (s : IndexSet α) (as : List α) : IndexSet α := as.foldl insert s

def ofList (as : List α) : IndexSet α := empty.extend as

variable {s : IndexSet α}

variable {a : α}

@[simp] theorem contains_iff : s.contains a = true ↔ a ∈ s.toList := by
  simp [contains]

theorem insertFull_of_mem (h : a ∈ s.toList) :
    s.insertFull a = (s, s.toList.idxOf a, false) := dif_pos h

theorem insertFull_new : (s.insertFull a).2.2 = true ↔ a ∉ s.toList := by
  unfold insertFull
  split <;> simp_all

theorem insert_of_mem (h : a ∈ s.toList) : s.insert a = s := by
  simp [insert, insertFull_of_mem h]

theorem toList_insert_of_notMem (h : a ∉ s.toList) :
    (s.insert a).toList = s.toList ++ [a] := by
  simp [insert, insertFull, h]

@[simp] theorem mem_insert {b : α} :
    b ∈ (s.insert a).toList ↔ b ∈ s.toList ∨ b = a := by
  rcases em (a ∈ s.toList) with h | h
  · simp only [insert_of_mem h, iff_self_or]
    rintro rfl
    exact h
  · simp [toList_insert_of_notMem h]

section

variable (s : IndexSet α) (a : α)

theorem prefix_insert : s.toList <+: (s.insert a).toList := by
  rcases em (a ∈ s.toList) with h | h
  · rw [insert_of_mem h]
  · rw [toList_insert_of_notMem h]
    exact List.prefix_append _ _

theorem insertFull_snd_lt : (s.insertFull a).2.1 < (s.insert a).len := by
  unfold insert insertFull len
  split
  · rename_i h
    exact List.idxOf_lt_length_of_mem h
  · simp

theorem getIndex_insertFull : (s.insert a).getIndex (s.insertFull a).2.1 = some a := by
  unfold insert insertFull getIndex len
  split
  · rename_i h
    simp [List.getElem?_idxOf, h]
  · simp

end

@[simp] theorem mem_extend {as : List α} {b : α} :
    b ∈ (s.extend as).toList ↔ b ∈ s.toList ∨ b ∈ as := by
  induction as generalizing s with
  | nil => simp [extend]
  | cons a as ih =>
    change b ∈ ((s.insert a).extend as).toList ↔ _
    simp [ih, or_assoc]

theorem prefix_extend (s : IndexSet α) (as : List α) : s.toList <+: (s.extend as).toList := by
  induction as generalizing s with
  | nil => exact List.prefix_refl _
  | cons a as ih => exact (prefix_insert s a).trans (ih (s.insert a))

end Insert

end IndexSet

end Cqlib.Lib
