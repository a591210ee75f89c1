/-
  Stable sorting by a key, and building a stable sort one element at a time.

  `StableSortOf key xs ys` says that `ys` is sorted by `key` and that the elements of any one
  key stand in `ys` in the order they have in `xs`. Those two facts pin `ys` down
  (`StableSortOf.eq_stableSort`), so a structure that keeps them under insertion holds the
  stable sort of its history. `StableSortOf.snoc` is the insertion step: the new element goes
  after everything whose key is not above its own.
-/
import Mathlib.Data.List.Sort
import Mathlib.Data.List.TakeWhile
import Mathlib.Tactic

namespace Monya.Lib

variable {α γ : Type} [LinearOrder α]

/-- The stable sort of `xs` by `key`. -/
def stableSort (key : γ → α) (xs : List γ) : List γ :=
  xs.mergeSort fun a b => decide (key a ≤ key b)

structure StableSortOf (key : γ → α) (xs ys : List γ) : Prop where
  sorted : ys.Pairwise fun a b => key a ≤ key b
  stable : ∀ k, ys.filter (fun y => decide (key y = k)) = xs.filter fun x => decide (key x = k)

theorem stableSort_perm (key : γ → α) (xs : List γ) : (stableSort key xs).Perm xs :=
  List.mergeSort_perm _ _

theorem stableSort_sorted (key : γ → α) (xs : List γ) :
    (stableSort key xs).Pairwise fun a b => key a ≤ key b := by
  have h := @List.pairwise_mergeSort γ (fun a b => decide (key a ≤ key b))
    (fun a b c hab hbc => by simp only [decide_eq_true_eq] at *; exact le_trans hab hbc)
    (fun a b => by simp [le_total]) xs
  simpa [stableSort] using h

/-- A run of equal keys is a sorted sublist, so it survives `mergeSort` as a sublist; it has
    the right length because `mergeSort` is a permutation. -/
theorem stableSortOf_stableSort (key : γ → α) (xs : List γ) :
    StableSortOf key xs (stableSort key xs) := by
  refine ⟨stableSort_sorted key xs, fun k => ?_⟩
  have hsub : (xs.filter fun x => decide (key x = k)).Sublist (stableSort key xs) := by
    refine List.sublist_mergeSort
      (fun a b c hab hbc => by simp only [decide_eq_true_eq] at *; exact le_trans hab hbc)
      (fun a b => by simp [le_total]) ?_ List.filter_sublist
    refine List.pairwise_of_forall_mem_list ?_
    intro a ha b hb
    have ha' := List.of_mem_filter ha
    have hb' := List.of_mem_filter hb
    simp only [decide_eq_true_eq] at ha' hb' ⊢
    rw [ha', hb']
  have hsub' := hsub.filter fun x => decide (key x = k)
  rw [List.filter_filter] at hsub'
  simp only [Bool.and_self] at hsub'
  refine (hsub'.eq_of_length ?_).symm
  exact (((stableSort_perm key xs).filter _).length_eq).symm

/-- The smallest key of a sorted list is the key of its head. -/
theorem StableSortOf.head_le {key : γ → α} {xs : List γ} {y : γ} {ys : List γ}
    (h : StableSortOf key xs (y :: ys)) {z : γ} (hz : z ∈ xs) : key y ≤ key z := by
  have hf : z ∈ xs.filter fun x => decide (key x = key z) :=
    List.mem_filter.mpr ⟨hz, by simp⟩
  rw [← h.stable] at hf
  rcases List.mem_cons.mp (List.mem_of_mem_filter hf) with rfl | hm
  · exact le_refl _
  · exact (List.pairwise_cons.mp h.sorted).1 z hm

theorem StableSortOf.eq {key : γ → α} {ys zs : List γ} :
    ∀ {xs : List γ}, StableSortOf key xs ys → StableSortOf key xs zs → ys = zs := by
  suffices h : ∀ ys zs : List γ, ys.Pairwise (fun a b => key a ≤ key b) →
      zs.Pairwise (fun a b => key a ≤ key b) →
      (∀ k, ys.filter (fun y => decide (key y = k)) = zs.filter fun z => decide (key z = k)) →
      ys = zs by
    intro xs hy hz
    exact h ys zs hy.sorted hz.sorted fun k => (hy.stable k).trans (hz.stable k).symm
  intro ys
  induction ys with
  | nil =>
    intro zs _ _ he
    cases zs with
    | nil => rfl
    | cons z zs => have := he (key z); simp at this
  | cons y ys ih =>
    intro zs hy hz he
    cases zs with
    | nil => have := he (key y); simp at this
    | cons z zs =>
      -- both heads carry the smallest key, and that run starts with the same element
      have hyz : key y = key z := by
        have hy' : StableSortOf key (z :: zs) (y :: ys) := ⟨hy, he⟩
        have hz' : StableSortOf key (y :: ys) (z :: zs) := ⟨hz, fun k => (he k).symm⟩
        exact le_antisymm (hy'.head_le (List.mem_cons_self ..))
          (hz'.head_le (List.mem_cons_self ..))
      have hhead := he (key y)
      simp only [List.filter_cons, hyz, decide_true, if_true] at hhead
      obtain ⟨rfl, _⟩ := List.cons.inj hhead
      congr 1
      refine ih zs (List.pairwise_cons.mp hy).2 (List.pairwise_cons.mp hz).2 fun k => ?_
      have hk := he k
      simp only [List.filter_cons] at hk
      split at hk
      · exact (List.cons.inj hk).2
      · exact hk

theorem StableSortOf.eq_stableSort {key : γ → α} {xs ys : List γ} (h : StableSortOf key xs ys) :
    ys = stableSort key xs :=
  h.eq (stableSortOf_stableSort key xs)

theorem StableSortOf.perm {key : γ → α} {xs ys : List γ} (h : StableSortOf key xs ys) :
    ys.Perm xs := by
  rw [h.eq_stableSort]
  exact stableSort_perm key xs

theorem stableSortOf_nil (key : γ → α) : StableSortOf key [] [] := ⟨List.Pairwise.nil, fun _ => rfl⟩

/-- Insert `x` behind every element whose key is not above its own. -/
theorem StableSortOf.snoc {key : γ → α} {xs pre post : List γ} {x : γ}
    (h : StableSortOf key xs (pre ++ post)) (hpre : ∀ y ∈ pre, key y ≤ key x)
    (hpost : ∀ y ∈ post, key x < key y) :
    StableSortOf key (xs ++ [x]) (pre ++ x :: post) := by
  obtain ⟨hp1, hp2, hp3⟩ := List.pairwise_append.mp h.sorted
  refine ⟨?_, fun k => ?_⟩
  · rw [List.pairwise_append, List.pairwise_cons]
    refine ⟨hp1, ⟨fun y hy => (hpost y hy).le, hp2⟩, ?_⟩
    intro a ha b hb
    rcases List.mem_cons.mp hb with rfl | hb
    · exact hpre a ha
    · exact hp3 a ha b hb
  · have hst := h.stable k
    rw [List.filter_append] at hst
    by_cases hk : key x = k
    · have hnil : post.filter (fun y => decide (key y = k)) = [] := by
        rw [List.filter_eq_nil_iff]
        intro y hy
        have hlt := hpost y hy
        rw [hk] at hlt
        simpa using hlt.ne'
      rw [hnil, List.append_nil] at hst
      simp [List.filter_append, hk, hnil, hst]
    · simp [List.filter_append, hk, hst]

/-- Insert `x` before the first element with a larger key. -/
def insertSorted (key : γ → α) (x : γ) (xs : List γ) : List γ :=
  xs.takeWhile (fun y => decide (key y ≤ key x)) ++
    x :: xs.dropWhile fun y => decide (key y ≤ key x)

theorem length_insertSorted (key : γ → α) (x : γ) (xs : List γ) :
    (insertSorted key x xs).length = xs.length + 1 := by
  have h := congrArg List.length
    (List.takeWhile_append_dropWhile (p := fun y => decide (key y ≤ key x)) (l := xs))
  rw [List.length_append] at h
  rw [insertSorted, List.length_append, List.length_cons]
  omega

theorem insertSorted_eq {key : γ → α} {x : γ} {pre post : List γ}
    (hpre : ∀ y ∈ pre, key y ≤ key x) (hpost : ∀ y ∈ post.head?, key x < key y) :
    insertSorted key x (pre ++ post) = pre ++ x :: post := by
  induction pre with
  | nil =>
    cases post with
    | nil => rfl
    | cons y post => simp [insertSorted, hpost y rfl]
  | cons y pre ih =>
    have hy := hpre y List.mem_cons_self
    have ih := ih fun z hz => hpre z (List.mem_cons_of_mem _ hz)
    unfold insertSorted at ih ⊢
    simp only [List.cons_append, List.takeWhile_cons, List.dropWhile_cons, hy, decide_true, if_true,
      ih]

theorem insertSorted_stableSort (key : γ → α) (xs : List γ) (x : γ) :
    insertSorted key x (stableSort key xs) = stableSort key (xs ++ [x]) := by
  refine StableSortOf.eq_stableSort (StableSortOf.snoc ?_ ?_ ?_)
  · rw [List.takeWhile_append_dropWhile]
    exact stableSortOf_stableSort key xs
  · intro y hy
    simpa using List.mem_takeWhile_imp hy
  · -- the first of these keys is larger, and the others are not smaller than it
    intro y hy
    have hsorted := (stableSort_sorted key xs).sublist (List.dropWhile_sublist
      (fun y => decide (key y ≤ key x)))
    cases hd : (stableSort key xs).dropWhile fun y => decide (key y ≤ key x) with
    | nil => rw [hd] at hy; cases hy
    | cons z zs =>
      have hz := List.head?_dropWhile_not (fun y => decide (key y ≤ key x)) (stableSort key xs)
      rw [hd] at hz hy hsorted
      have hz' : key x < key z := by simpa using hz
      rcases List.mem_cons.mp hy with rfl | hy
      · exact hz'
      · exact hz'.trans_le ((List.pairwise_cons.mp hsorted).1 y hy)

/-- Keeping only the first `k` elements before an insertion changes nothing in the first `k` after
    it. -/
theorem take_insertSorted (key : γ → α) (x : γ) (xs : List γ) (k : Nat) :
    (insertSorted key x (xs.take k)).take k = (insertSorted key x xs).take k := by
  induction xs generalizing k with
  | nil => rw [List.take_nil]
  | cons y xs ih =>
    cases k with
    | zero => rw [List.take_zero, List.take_zero]
    | succ k =>
      rw [List.take_succ_cons]
      by_cases hy : key y ≤ key x
      · have h : ∀ zs, insertSorted key x (y :: zs) = y :: insertSorted key x zs := fun zs => by
          simp [insertSorted, hy]
        rw [h, h, List.take_succ_cons, List.take_succ_cons, ih]
      · have h : ∀ zs, insertSorted key x (y :: zs) = x :: y :: zs := fun zs => by
          simp [insertSorted, hy]
        rw [h, h, List.take_succ_cons, List.take_succ_cons]
        cases k with
        | zero => rw [List.take_zero, List.take_zero]
        | succ k =>
          rw [List.take_succ_cons, List.take_succ_cons, List.take_take, Nat.min_eq_left (by omega)]

/-- Of plain values there is only one sorted arrangement. -/
theorem eq_stableSort_id {xs ys : List α} (hs : ys.Pairwise (· ≤ ·)) (hp : ys.Perm xs) :
    ys = stableSort id xs :=
  (hp.trans (stableSort_perm id xs).symm).eq_of_pairwise' hs (stableSort_sorted id xs)

theorem map_stableSort (key : γ → α) (xs : List γ) :
    (stableSort key xs).map key = stableSort id (xs.map key) :=
  eq_stableSort_id (List.pairwise_map.mpr (stableSort_sorted key xs))
    ((stableSort_perm key xs).map key)

end Monya.Lib
