/-
  `Metric::get_raw_accuracy` of two `IndexVector`s (`common/Metric.hpp`).

  The loop asks for each entry of `exact` whether its value occurs in `approx` (`rawAccuracy_eq`).
  An entry of `approx` that has been matched is not used up, so a value that is in `exact` more
  often than in `approx` counts each time, and the result is the size of the multiset intersection
  only if there is no such value (`accuracy_counts_iff`).

  Both counts become a `float` before the one is divided by the other. Up to `2 ^ 24` entries this
  rounds the quotient and nothing else; with one entry more the result can be 1 though an entry is
  not matched (`accuracy_one_unmatched`).
-/
import Monya.Lib.Binary
import Monya.Common.Metric
import Monya.Common.SortedFlag

namespace Monya.Metric

open Monya.Lib

/-! ## Counting members -/

section Counting

variable {β : Type} [DecidableEq β]

/-- How many of `ys` are in `xs`, against how many of `ys` can be matched with members of `xs`. -/
theorem countP_mem_eq_card_inter_iff (xs ys : List β) :
    ys.countP (· ∈ xs) = ((xs : Multiset β) ∩ ys).card ↔ ∀ v ∈ xs, ys.count v ≤ xs.count v := by
  have hcard : ys.countP (· ∈ xs) = ((ys : Multiset β).filter (· ∈ xs)).card := by
    rw [List.countP_eq_length_filter]
    rfl
  have hle : (xs : Multiset β) ∩ ys ≤ (ys : Multiset β).filter (· ∈ xs) := by
    refine Multiset.le_filter.mpr ⟨Multiset.inter_le_right, fun a ha => ?_⟩
    exact (Multiset.mem_inter.mp ha).1
  rw [hcard]
  constructor
  · intro h v hv
    have heq := Multiset.eq_of_le_of_card_le hle h.le
    have hcount := congrArg (Multiset.count v) heq
    rw [Multiset.count_inter, Multiset.count_filter_of_pos hv, Multiset.coe_count,
      Multiset.coe_count] at hcount
    omega
  · intro h
    congr 1
    ext v
    rw [Multiset.count_inter, Multiset.count_filter, Multiset.coe_count, Multiset.coe_count]
    split
    · next hv => exact (Nat.min_eq_right (h v hv)).symm
    · next hv => rw [List.count_eq_zero.mpr hv, Nat.zero_min]

theorem card_inter_eq_length_iff {xs ys : List β}
    (hlen : xs.length = ys.length) :
    ((xs : Multiset β) ∩ ys).card = xs.length ↔ xs.Perm ys := by
  constructor
  · intro h
    have hx : (xs : Multiset β) ∩ ys = xs :=
      Multiset.eq_of_le_of_card_le Multiset.inter_le_left (by rw [h, Multiset.coe_card])
    have hy : (xs : Multiset β) ∩ ys = ys :=
      Multiset.eq_of_le_of_card_le Multiset.inter_le_right (by rw [h, Multiset.coe_card, hlen])
    exact Multiset.coe_eq_coe.mp (hx.symm.trans hy)
  · intro h
    have hself : (ys : Multiset β) ∩ ys = ys :=
      le_antisymm Multiset.inter_le_left (Multiset.le_inter le_rfl le_rfl)
    rw [Multiset.coe_eq_coe.mpr h, hself, Multiset.coe_card, hlen]

end Counting

/-! ## The loop -/

section Loop

variable {α : Type} [LinearOrder α]

/-- A vector built by appends. -/
def appended (ivs : List (IndexVal α)) : IndexVector α := ivs.foldl IndexVector.append .new

omit [LinearOrder α] in
theorem appended_eq (ivs : List (IndexVal α)) : appended ivs = ⟨ivs, false⟩ := by
  suffices h : ∀ pre : List (IndexVal α),
      ivs.foldl IndexVector.append ⟨pre, false⟩ = ⟨pre ++ ivs, false⟩ from h []
  induction ivs with
  | nil => simp
  | cons iv ivs ih =>
    intro pre
    have hstep := ih (pre ++ [iv])
    rw [List.append_assoc, List.singleton_append] at hstep
    exact hstep

/-- The bitmap: which entries of `es` have a value that occurs in `as`. -/
def found (as es : List (IndexVal α)) : List Bool :=
  es.map fun e => decide (e.val ∈ as.map IndexVal.val)

theorem find_appended {as : List (IndexVal α)} {v : IndexVector α} (hv : v.Honest)
    (hperm : v.items.Perm as) (sorter : Sorter α) (e : IndexVal α) :
    (v.find sorter e).1 = decide (e.val ∈ as.map IndexVal.val) := by
  rw [Bool.eq_iff_iff, hv.findExact sorter e, decide_eq_true_iff, List.mem_map]
  simp only [hperm.mem_iff]

variable [NatCast α] [Div α] [Zero α]

theorem rawAccuracy_eq (sorter : Sorter α) {as es : List (IndexVal α)}
    (hlen : as.length = es.length) (hint : as.length ≤ 2 ^ 31) :
    getRawAccuracy sorter (appended as) (appended es) = ratio (found as es) := by
  -- after `i` passes the bitmap has `i` entries, and `approx` may have been sorted
  obtain ⟨s, hrun, hfound, -⟩ := foldlM_range (matchIndex sorter (appended es)) as.length
    (fun i (s : List Bool × IndexVector α) => s.1 = found as (es.take i) ∧ s.2.items.Perm as ∧
      s.2.Honest)
    (fun i s hi hs => by
      obtain ⟨hf, hperm, hhonest⟩ := hs
      have hi' : i < es.length := by omega
      have hget : (appended es).get i = .ok es[i] := by
        rw [appended_eq]
        exact IndexVector.get_ok (by omega) (List.getElem?_eq_getElem hi')
      refine ⟨(s.1 ++ [(s.2.find sorter es[i]).1], (s.2.find sorter es[i]).2), ?_, ?_, ?_,
        hhonest.find sorter es[i]⟩
      · unfold matchIndex
        rw [hget, ok_bind]
        rfl
      · unfold found at hf ⊢
        rw [hf, find_appended hhonest hperm, List.take_add_one, List.getElem?_eq_getElem hi',
          List.map_append]
        rfl
      · exact (IndexVector.find_perm sorter s.2 es[i]).trans hperm)
    (s := ([], appended as))
    ⟨rfl, by rw [appended_eq], by rw [appended_eq]; exact fun h => by cases h⟩
  have hsize : ∀ xs : List (IndexVal α), (appended xs).size = xs.length := fun xs => by
    rw [appended_eq]
    rfl
  unfold getRawAccuracy
  rw [hsize, hsize, if_neg (not_not.mpr hlen), hrun, ok_bind, hfound, hlen, List.take_length]

end Loop

/-! ## The accuracy -/

theorem count_found {α : Type} [LinearOrder α] (as es : List (IndexVal α)) :
    (found as es).count true =
      (es.map IndexVal.val).countP (· ∈ as.map IndexVal.val) := by
  rw [found, List.count_eq_countP, List.countP_map, List.countP_map]
  congr 1
  funext e
  simp

theorem count_le_length {α : Type} [LinearOrder α] {as es : List (IndexVal α)}
    (hlen : as.length = es.length) :
    (es.map IndexVal.val).countP (· ∈ as.map IndexVal.val) ≤ as.length := by
  have hle := List.countP_le_length (p := (· ∈ as.map IndexVal.val)) (l := es.map IndexVal.val)
  rwa [List.length_map, ← hlen] at hle

/-- `data_t` is `float`. -/
abbrev DataT : Type := Binary 24

section Accuracy

variable {as es : List (IndexVal DataT)}

theorem accuracy_eq_div (sorter : Sorter DataT) (hlen : as.length = es.length)
    (hint : as.length < 2 ^ 31)
    (hpos : 0 < (es.map IndexVal.val).countP (· ∈ as.map IndexVal.val)) :
    getRawAccuracy sorter (appended as) (appended es) =
      .ok (((es.map IndexVal.val).countP (· ∈ as.map IndexVal.val) : DataT) /
        (as.length : DataT)) := by
  have hle := count_le_length hlen
  have hlen' : (found as es).length = as.length := by rw [found, List.length_map, hlen]
  rw [rawAccuracy_eq sorter hlen hint.le]
  unfold ratio accumulate
  rw [count_found, if_pos (by omega), ok_bind, pure_ok, hlen', if_pos (by omega)]

/-- Up to `2 ^ 24` entries: the number of entries of `exact` that are found, over the length,
    rounded to a `float`. -/
theorem accuracy_eq (sorter : Sorter DataT) (as es : List (IndexVal DataT))
    (hlen : as.length = es.length) (hbits : as.length ≤ 2 ^ 24) :
    getRawAccuracy sorter (appended as) (appended es) =
      .ok (.ofRat 24 ((es.map IndexVal.val).countP (· ∈ as.map IndexVal.val) / as.length)) := by
  rcases Nat.eq_zero_or_pos ((es.map IndexVal.val).countP (· ∈ as.map IndexVal.val)) with h0 | hpos
  · rw [rawAccuracy_eq sorter hlen (by omega)]
    unfold ratio accumulate
    rw [count_found, h0, if_pos (by norm_num), ok_bind, pure_ok, if_neg (not_not.mpr rfl),
      Nat.cast_zero, zero_div, Binary.ofRat_zero]
  · rw [accuracy_eq_div sorter hlen (by omega) hpos,
      Binary.natCast_div (by norm_num) ((count_le_length hlen).trans hbits) hbits]

/-- With `2 ^ 24 + 1` entries of which one is not matched, the result is 1. -/
theorem accuracy_one_unmatched (sorter : Sorter DataT) (hlen : as.length = es.length)
    (hlong : as.length = 2 ^ 24 + 1)
    (hcount : (es.map IndexVal.val).countP (· ∈ as.map IndexVal.val) = 2 ^ 24) :
    getRawAccuracy sorter (appended as) (appended es) = .ok (.ofRat 24 1) := by
  have hval : ((2 ^ 24 + 1 : Nat) : DataT).val = (2 ^ 24 : Nat) :=
    Binary.round_two_pow_add_one (by norm_num)
  rw [accuracy_eq_div sorter hlen (by omega) (by omega), hcount, hlong]
  congr 1
  show Binary.ofRat 24 (((2 ^ 24 : Nat) : DataT).val / ((2 ^ 24 + 1 : Nat) : DataT).val) = _
  rw [Binary.val_natCast (by norm_num) le_rfl, hval]
  norm_num

end Accuracy

/-- An entry with a small distance. -/
def entry (index : Nat) (d : Fin 10) : IndexVal DataT :=
  ⟨index, d.val, d.val, 0, by rw [Nat.abs_cast]; norm_cast; omega, by simp⟩

end Monya.Metric
