/-
  The ranks of the natural numbers that have a property: how many numbers with the property come
  before them, in terms of `Nat.count`.

  `getElem?_filter_range` tells which number is chosen as number `e`: the one with `e` chosen
  numbers before it. A property is `Gapless` if every number below one that has it has it too, that
  is if every number is its own rank (`gapless_iff`).
-/
import Mathlib.Data.Nat.Count
import Mathlib.Tactic

namespace Monya.Lib

section Ranks

variable (p : Nat → Prop) [DecidablePred p]

theorem length_filter_range (n : Nat) : ((List.range n).filter p).length = Nat.count p n :=
  List.countP_eq_length_filter.symm

theorem getElem?_filter_range {n e a : Nat} :
    ((List.range n).filter p)[e]? = some a ↔ a < n ∧ p a ∧ Nat.count p a = e := by
  induction n with
  | zero => simp
  | succ n ih =>
    rw [List.range_succ, List.filter_append]
    rcases Nat.lt_or_ge e (Nat.count p n) with he | he
    · rw [List.getElem?_append_left (by rwa [length_filter_range]), ih]
      refine ⟨fun h => ⟨Nat.lt_succ_of_lt h.1, h.2⟩, fun ⟨hlt, hp, hcount⟩ => ⟨?_, hp, hcount⟩⟩
      refine Nat.lt_of_le_of_ne (Nat.le_of_lt_succ hlt) fun han => ?_
      rw [han] at hcount
      omega
    · rw [List.getElem?_append_right (by rwa [length_filter_range]), length_filter_range]
      -- the numbers below `n` have lower ranks
      have hlow : ∀ {a}, a < n → p a → Nat.count p a ≠ e := fun ha hp =>
        Nat.ne_of_lt (Nat.lt_of_lt_of_le (Nat.count_strict_mono hp ha) he)
      by_cases hn : p n
      · rw [List.filter_cons_of_pos (by simpa using hn), List.filter_nil,
          List.getElem?_singleton]
        constructor
        · intro h
          split at h
          · obtain rfl := Option.some.inj h
            exact ⟨Nat.lt_succ_self n, hn, by omega⟩
          · cases h
        · rintro ⟨hlt, hp, hcount⟩
          rcases Nat.lt_succ_iff_lt_or_eq.mp hlt with han | rfl
          · exact absurd hcount (hlow han hp)
          · rw [if_pos (by omega)]
      · rw [List.filter_cons_of_neg (by simpa using hn), List.filter_nil, List.getElem?_nil]
        refine ⟨fun h => (nomatch h), fun ⟨hlt, hp, hcount⟩ => ?_⟩
        rcases Nat.lt_succ_iff_lt_or_eq.mp hlt with han | rfl
        · exact absurd hcount (hlow han hp)
        · exact absurd hp hn

theorem exists_rank {n e : Nat} (h : e < Nat.count p n) : ∃ a, a < n ∧ p a ∧ Nat.count p a = e := by
  rw [← length_filter_range] at h
  exact ⟨_, (getElem?_filter_range p).mp (List.getElem?_eq_getElem h)⟩

theorem count_le_of_forall_lt {b : Nat} (h : ∀ a, p a → a < b) (n : Nat) : Nat.count p n ≤ b := by
  rcases Nat.le_total n b with hn | hn
  · exact (Nat.count_le p).trans hn
  · obtain ⟨k, rfl⟩ := Nat.exists_eq_add_of_le hn
    have hzero : Nat.count (fun a => p (b + a)) k = 0 :=
      Nat.count_iff_forall_not.mpr fun a _ ha => absurd (h _ ha) (by omega)
    rw [Nat.count_add, hzero]
    exact Nat.count_le p

/-- Every number below one with the property has it too. -/
def Gapless (p : Nat → Prop) : Prop := ∀ a, p a → ∀ e, e < a → p e

theorem gapless_iff : Gapless p ↔ ∀ a, p a → Nat.count p a = a :=
  forall₂_congr fun _ _ => Nat.count_iff_forall.symm

/-- A property that holds of the ranks of its numbers has no gap. -/
theorem gapless_of_rank (h : ∀ a, p a → p (Nat.count p a)) : Gapless p := by
  rw [gapless_iff]
  intro a
  induction a using Nat.strong_induction_on with
  | _ a ih =>
    intro ha
    refine le_antisymm (Nat.count_le p) (Nat.le_of_not_lt fun hlt => ?_)
    -- the rank would have a rank of its own, below it
    have hrank := Nat.count_strict_mono (h a ha) hlt
    rw [ih _ hlt (h a ha)] at hrank
    exact lt_irrefl _ hrank

end Ranks

end Monya.Lib
