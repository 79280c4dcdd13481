import Mathlib.Algebra.BigOperators.Group.List.Basic
import Mathlib.Tactic.Ring

/-!
# Removal of cancelling pairs

Two factors of a word may cancel when the first commutes with all that stands between them.
-/

namespace Cqlib.Lib

variable {ι κ : Type*} {cancels commutes : ι → ι → Prop}

/-- Two entries that cancel go away, when the first may be moved up to the second. -/
inductive RemovesPair (cancels commutes : ι → ι → Prop) : List ι → List ι → Prop where
  | mk {as bs cs : List ι} {x y : ι} (hcancels : cancels x y) (hcommutes : ∀ b ∈ bs, commutes x b) :
      RemovesPair cancels commutes (as ++ x :: (bs ++ y :: cs)) (as ++ (bs ++ cs))

theorem RemovesPair.prod_reverse {M : Type*} [Monoid M] {u : ι → M} {l l' : List ι}
    (h : RemovesPair cancels commutes l l') (hcancels : ∀ x y, cancels x y → u y * u x = 1)
    (hcommutes : ∀ x b, commutes x b → Commute (u x) (u b)) :
    (l'.reverse.map u).prod = (l.reverse.map u).prod := by
  obtain ⟨hxy, hbs⟩ := h
  rename_i as bs cs x y
  have hmove : Commute (u x) (bs.reverse.map u).prod := by
    apply Commute.list_prod_right
    intro m hm
    obtain ⟨b, hb, rfl⟩ := List.mem_map.mp hm
    exact hcommutes x b (hbs b (List.mem_reverse.mp hb))
  simp only [List.reverse_append, List.reverse_cons, List.map_append, List.map_cons, List.map_nil,
    List.prod_append, List.prod_singleton]
  calc (cs.reverse.map u).prod * (bs.reverse.map u).prod * (as.reverse.map u).prod
      = (cs.reverse.map u).prod * (u y * u x) * (bs.reverse.map u).prod *
          (as.reverse.map u).prod := by rw [hcancels x y hxy, mul_one]
    _ = (cs.reverse.map u).prod * u y * (u x * (bs.reverse.map u).prod) *
          (as.reverse.map u).prod := by simp only [mul_assoc]
    _ = (cs.reverse.map u).prod * u y * ((bs.reverse.map u).prod * u x) *
          (as.reverse.map u).prod := by rw [hmove.eq]
    _ = (cs.reverse.map u).prod * u y * (bs.reverse.map u).prod * u x *
          (as.reverse.map u).prod := by simp only [mul_assoc]

theorem RemovesPair.map {α : Type*} {g : ι → α} {cancels' commutes' : α → α → Prop} {l l' : List ι}
    (h : RemovesPair (fun x y => cancels' (g x) (g y)) (fun x b => commutes' (g x) (g b)) l l') :
    RemovesPair cancels' commutes' (l.map g) (l'.map g) := by
  obtain ⟨hxy, hbs⟩ := h
  simp only [List.map_append, List.map_cons]
  refine .mk hxy fun b hb => ?_
  obtain ⟨b', hb', rfl⟩ := List.mem_map.mp hb
  exact hbs b' hb'

theorem RemovesPair.context {l l' : List ι} (h : RemovesPair cancels commutes l l')
    (as cs : List ι) : RemovesPair cancels commutes (as ++ l ++ cs) (as ++ l' ++ cs) := by
  obtain ⟨hxy, hbs⟩ := h
  rename_i as' bs cs' x y
  have h' := @RemovesPair.mk ι cancels commutes (as ++ as') bs (cs' ++ cs) x y hxy hbs
  simpa only [List.append_assoc, List.cons_append] using h'

theorem exists_two_of_countP {p : ι → Bool} {l : List ι} (h : 2 ≤ l.countP p) :
    ∃ as x bs y cs, l = as ++ x :: (bs ++ y :: cs) ∧ p x = true ∧ p y = true := by
  induction l with
  | nil => simp at h
  | cons a l ih =>
    by_cases ha : p a = true
    · rw [List.countP_cons_of_pos ha] at h
      obtain ⟨y, hy, hpy⟩ := List.countP_pos_iff.mp (show 0 < l.countP p by omega)
      obtain ⟨bs, cs, rfl⟩ := List.append_of_mem hy
      exact ⟨[], a, bs, y, cs, rfl, ha, hpy⟩
    · rw [List.countP_cons_of_neg ha] at h
      obtain ⟨as, x, bs, y, cs, rfl, hx, hy⟩ := ih h
      exact ⟨a :: as, x, bs, y, cs, rfl, hx, hy⟩

section Buckets

variable [DecidableEq κ] {key : ι → Option κ} {deleted : ι → Bool}

def inBucket (key : ι → Option κ) (deleted : ι → Bool) (k : κ) (x : ι) : Bool :=
  deleted x && decide (key x = some k)

/-- Of each bucket an even number of entries is deleted. What stands between two entries of one
bucket commutes with the first of them, so that they go away pair by pair. -/
theorem removesPairs_filter {l : List ι} (hkey : ∀ x ∈ l, deleted x = true → (key x).isSome)
    (heven : ∀ k, Even (l.countP (inBucket key deleted k)))
    (hcancels : ∀ x y k, [x, y].Sublist l → key x = some k → key y = some k → cancels x y)
    (hcommutes : ∀ x w y k, [x, w, y].Sublist l → key x = some k → key y = some k →
      commutes x w) :
    Relation.ReflTransGen (RemovesPair cancels commutes) l (l.filter fun x => !deleted x) := by
  induction hn : l.length using Nat.strong_induction_on generalizing l with
  | _ n ih =>
    by_cases hnone : ∀ x ∈ l, deleted x = false
    · rw [List.filter_eq_self.mpr fun x hx => by simp [hnone x hx]]
    · push Not at hnone
      obtain ⟨z, hz, hdeleted⟩ := hnone
      replace hdeleted := Bool.eq_true_of_not_eq_false hdeleted
      obtain ⟨k, hk⟩ := Option.isSome_iff_exists.mp (hkey z hz hdeleted)
      have htwo : 2 ≤ l.countP (inBucket key deleted k) := by
        have hpos : 0 < l.countP (inBucket key deleted k) :=
          List.countP_pos_iff.mpr ⟨z, hz, by simp [inBucket, hdeleted, hk]⟩
        obtain ⟨m, hm⟩ := heven k
        omega
      obtain ⟨as, x, bs, y, cs, rfl, hx, hy⟩ := exists_two_of_countP htwo
      simp only [inBucket, Bool.and_eq_true, decide_eq_true_eq] at hx hy
      have hsub : (as ++ (bs ++ cs)).Sublist (as ++ x :: (bs ++ y :: cs)) :=
        (((List.sublist_cons_self y cs).append_left bs).cons x).append_left as
      have hfilter : (as ++ x :: (bs ++ y :: cs)).filter (fun x => !deleted x) =
          (as ++ (bs ++ cs)).filter fun x => !deleted x := by
        simp [List.filter_append, hx.1, hy.1]
      rw [hfilter]
      refine .head (.mk (hcancels x y k ?_ hx.2 hy.2) fun b hb => hcommutes x b y k ?_ hx.2 hy.2)
        (ih _ ?_ ?_ ?_ ?_ ?_ rfl)
      · exact ((List.singleton_sublist.mpr (by simp)).cons_cons x).trans
          (List.sublist_append_right as _)
      · obtain ⟨bs₁, bs₂, rfl⟩ := List.append_of_mem hb
        have hend : [b, y].Sublist (bs₁ ++ b :: bs₂ ++ y :: cs) := by
          rw [List.append_assoc, List.cons_append]
          exact ((List.singleton_sublist.mpr (by simp)).cons_cons b).trans
            (List.sublist_append_right bs₁ _)
        exact (hend.cons_cons x).trans (List.sublist_append_right as _)
      · rw [← hn]
        simp only [List.length_append, List.length_cons]
        omega
      · exact fun x hx => hkey x (hsub.subset hx)
      · intro k'
        have hcount := heven k'
        simp only [List.countP_append, List.countP_cons] at hcount ⊢
        have hsame : inBucket key deleted k' x = inBucket key deleted k' y := by
          simp [inBucket, hx.1, hy.1, hx.2, hy.2]
        rw [hsame] at hcount
        rw [Nat.even_iff] at hcount ⊢
        split at hcount <;> omega
      · exact fun x y k h => hcancels x y k (h.trans hsub)
      · exact fun x w y k h => hcommutes x w y k (h.trans hsub)

end Buckets

end Cqlib.Lib
