import Mathlib.Data.List.Nodup
import Mathlib.Data.List.Perm.Basic

/-!
# Lists with an index of their positions

A list without repetitions whose elements know their positions: one is taken out by moving the last
element to its place.
-/

namespace Cqlib.Lib

variable {α : Type*}

/-- Takes out one position. The last element comes there. -/
def swapRemove (items : List α) (i : ℕ) : List α :=
  match items.getLast? with
  | none => items
  | some last => (items.set i last).dropLast

/-- The positions after one element came to the place of another. -/
def reposition [DecidableEq α] (position : α → Option ℕ) (items : List α) (i : ℕ) : α → Option ℕ :=
  match items[i]? with
  | some a => Function.update position a (some i)
  | none => position

def Indexes (items : List α) (position : α → Option ℕ) : Prop :=
  ∀ a i, position a = some i ↔ items[i]? = some a

theorem getElem?_swapRemove {items : List α} {i : ℕ} (hi : i < items.length) (j : ℕ) :
    (swapRemove items i)[j]? =
      if j + 1 < items.length then
        if j = i then items[items.length - 1]? else items[j]?
      else none := by
  have hne : items ≠ [] := List.ne_nil_of_length_pos (Nat.zero_lt_of_lt hi)
  unfold swapRemove
  rw [List.getLast?_eq_some_getLast hne]
  dsimp only
  rw [List.getElem?_dropLast, List.length_set]
  split
  · rename_i hj
    rw [if_pos (by omega), List.getElem?_set]
    split
    · rename_i heq
      rw [if_pos heq.symm, List.getLast_eq_getElem, List.getElem?_eq_getElem]
    · rename_i hne
      rw [if_neg (Ne.symm hne)]
  · rw [if_neg (by omega)]

theorem swapRemove_perm {items : List α} {i : ℕ} {a : α} (h : items[i]? = some a) :
    items.Perm (a :: swapRemove items i) := by
  obtain ⟨hi, rfl⟩ := List.getElem?_eq_some_iff.mp h
  have hne : items ≠ [] := List.ne_nil_of_length_pos (Nat.zero_lt_of_lt hi)
  unfold swapRemove
  rw [List.getLast?_eq_some_getLast hne]
  dsimp only
  generalize hlast : items.getLast hne = last
  have hset : items.set i last ≠ [] := by simpa using hne
  have hend : (items.set i last).getLast hset = last := by
    rw [List.getLast_eq_getElem, List.getElem_set]
    split
    · rfl
    · have hsame := List.getLast_eq_getElem hne
      simp only [List.length_set]
      exact hsame.symm.trans hlast
  have hsame : (items.set i last).Perm (last :: (items.set i last).dropLast) := by
    have hsplit := List.dropLast_append_getLast hset
    rw [hend] at hsplit
    conv_lhs => rw [← hsplit]
    exact List.perm_append_singleton _ _
  have herase := List.set_perm_cons_eraseIdx hi last
  have hrest := (hsame.symm.trans herase).cons_inv
  exact (List.getElem_cons_eraseIdx_perm hi).symm.trans (hrest.symm.cons _)

namespace Indexes

variable {items : List α} {position : α → Option ℕ}

theorem empty : Indexes ([] : List α) fun _ => none := by
  intro a i
  simp

variable (h : Indexes items position)

include h

theorem mem_iff {a : α} : a ∈ items ↔ (position a).isSome := by
  rw [List.mem_iff_getElem?, Option.isSome_iff_exists]
  exact exists_congr fun i => (h a i).symm

theorem nodup : items.Nodup := by
  refine List.nodup_iff_injective_getElem.mpr fun i j heq => Fin.ext ?_
  have hi : items[i.val]? = some items[i.val] := List.getElem?_eq_getElem i.isLt
  have hj : items[j.val]? = some items[i.val] := by
    rw [show items[i.val] = items[j.val] from heq]
    exact List.getElem?_eq_getElem j.isLt
  have hsame := ((h _ _).mpr hi).symm.trans ((h _ _).mpr hj)
  exact Option.some.inj hsame

theorem push [DecidableEq α] {a : α} (ha : position a = none) :
    Indexes (items ++ [a]) (Function.update position a (some items.length)) := by
  have hnew : a ∉ items := by
    rw [h.mem_iff, ha]
    exact Bool.false_ne_true
  intro b i
  rw [Function.update_apply, List.getElem?_append]
  by_cases hba : b = a
  · subst hba
    rw [if_pos rfl, Option.some.injEq]
    by_cases hi : i < items.length
    · rw [if_pos hi]
      refine iff_of_false (by omega) fun hget => ?_
      exact hnew (List.mem_of_getElem? hget)
    · rw [if_neg hi, List.getElem?_singleton]
      split <;> simp <;> omega
  · rw [if_neg hba, h b i]
    by_cases hi : i < items.length
    · rw [if_pos hi]
    · rw [if_neg hi, List.getElem?_eq_none (by omega), List.getElem?_singleton]
      split
      · simp [Ne.symm hba]
      · simp

theorem remove [DecidableEq α] {a : α} {i : ℕ} (ha : position a = some i) :
    Indexes (swapRemove items i)
      (reposition (Function.update position a none) (swapRemove items i) i) := by
  have hget := (h a i).mp ha
  obtain ⟨hi, hgetElem⟩ := List.getElem?_eq_some_iff.mp hget
  have hperm := swapRemove_perm hget
  have hnodup := hperm.nodup h.nodup
  have hgone : a ∉ swapRemove items i := (List.nodup_cons.mp hnodup).1
  have hgone' : ∀ j : ℕ, (swapRemove items i)[j]? ≠ some a := fun j hj =>
    hgone (List.mem_of_getElem? hj)
  unfold reposition
  split
  · rename_i r hr
    have hri := getElem?_swapRemove hi i
    rw [hr] at hri
    split at hri
    · rename_i hlt
      rw [if_pos rfl] at hri
      intro b j
      rw [Function.update_apply]
      by_cases hbr : b = r
      · subst hbr
        rw [if_pos rfl, Option.some.injEq]
        constructor
        · rintro rfl
          exact hr
        · intro hj
          have hnodup' := (List.nodup_cons.mp hnodup).2
          exact (hnodup'.getElem_inj_iff).mp ((List.getElem?_eq_some_iff.mp hr).2.trans
            (List.getElem?_eq_some_iff.mp hj).2.symm)
      · rw [if_neg hbr, Function.update_apply]
        by_cases hba : b = a
        · subst hba
          rw [if_pos rfl]
          exact iff_of_false nofun (hgone' j)
        · rw [if_neg hba, h b j, getElem?_swapRemove hi]
          by_cases hji : j = i
          · subst hji
            rw [if_pos hlt, if_pos rfl, ← hri, hget]
            simp [Ne.symm hba, Ne.symm hbr]
          · by_cases hj : j + 1 < items.length
            · rw [if_pos hj, if_neg hji]
            · rw [if_neg hj]
              refine iff_of_false (fun hb => ?_) nofun
              have hlast : j = items.length - 1 := by
                have := (List.getElem?_eq_some_iff.mp hb).1
                omega
              rw [hlast, ← hri, Option.some.injEq] at hb
              exact hbr hb.symm
    · cases hri
  · rename_i hr
    have hri := getElem?_swapRemove hi i
    rw [hr] at hri
    have hend : ¬i + 1 < items.length := by
      intro hlt
      rw [if_pos hlt, if_pos rfl, List.getElem?_eq_getElem (by omega)] at hri
      cases hri
    intro b j
    rw [Function.update_apply]
    by_cases hba : b = a
    · subst hba
      rw [if_pos rfl]
      exact iff_of_false nofun (hgone' j)
    · rw [if_neg hba, h b j, getElem?_swapRemove hi]
      by_cases hj : j + 1 < items.length
      · rw [if_pos hj, if_neg (by omega)]
      · rw [if_neg hj]
        refine iff_of_false (fun hb => ?_) nofun
        have hji : j = i := by
          have := (List.getElem?_eq_some_iff.mp hb).1
          omega
        rw [hji, hget, Option.some.injEq] at hb
        exact hba hb.symm

end Indexes

end Cqlib.Lib
