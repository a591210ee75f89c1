/-
  The flag `sorted` of an `IndexVector` (`common/types.hpp`).

  `sort` sets the flag, and so does `find`, which sorts first; only `set_sorted` clears it. The
  calls that change the entries leave it as it is, so after a sort they have to keep the order
  themselves (`InOrder`). `flag_honest_iff` is about whole histories of calls: the flag is right in
  every state of a history, and `find` with it, exactly if every call of the history does.
-/
import Monya.Common.Types

namespace Monya.IndexVector

open Monya.Lib

/-! ## Histories -/

section Source

inductive Ctor (α : Type) where
  | default
  | ofSize (nelem : Nat)
  | ofVals (vals : List α)
  | ofIds (ids : List Nat)

inductive Call (α : Type) where
  | append (iv : IndexVal α)
  | insert (item : IndexVal α) (offset : Nat)
  | setIndexes (idxs : Buf Nat) (nelem : Nat)
  | setIndexesVals (vals : Buf α) (nelem : Nat)
  | resize (nelem : Nat)
  /-- With the values that the new entries happen to have. -/
  | trim (nelem : Nat) (uninit : Nat → α)
  | sort
  | find (iv : IndexVal α)

variable {α : Type} [LinearOrder α] [Zero α] (sorter : Sorter α) (fuel : Nat)

omit [LinearOrder α] in
def construct : Ctor α → Except Fault (IndexVector α)
  | .default => .ok new
  | .ofSize nelem => ofSize fuel nelem
  | .ofVals vals => .ok (ofVals vals)
  | .ofIds ids => .ok (ofIds ids)

def perform (v : IndexVector α) : Call α → Except Fault (IndexVector α)
  | .append iv => .ok (v.append iv)
  | .insert item offset => v.insert item offset
  | .setIndexes idxs nelem => v.setIndexes idxs nelem
  | .setIndexesVals vals nelem => v.setIndexesVals vals nelem
  | .resize nelem => v.resize fuel nelem
  | .trim nelem uninit => .ok (v.trim uninit nelem)
  | .sort => .ok (v.sort sorter)
  | .find iv => .ok (v.find sorter iv).2

/-- The vector after a constructor and then the calls. -/
def history (c : Ctor α) (calls : List (Call α)) : Except Fault (IndexVector α) := do
  let v ← construct fuel c
  calls.foldlM (perform sorter fuel) v

end Source

variable {α : Type} [LinearOrder α]

/-- The entries are in the order of their values. -/
def Ordered (items : List (IndexVal α)) : Prop := items.Pairwise fun a b => a.val ≤ b.val

/-- The flag is set only if the entries are in order. -/
def Honest (v : IndexVector α) : Prop := v.sorted = true → Ordered v.items

/-- `find` finds what there is. -/
def FindExact (sorter : Sorter α) (v : IndexVector α) : Prop :=
  ∀ iv, (v.find sorter iv).1 = true ↔ ∃ x ∈ v.items, x.val = iv.val

/-- The call keeps the order of a vector that has the flag. -/
def InOrder [Zero α] (v : IndexVector α) : Call α → Prop
  | .append iv => v.sorted = true → ∀ x ∈ v.items, x.val ≤ iv.val
  | .insert item offset => v.sorted = true →
      (∀ x ∈ v.items.take offset, x.val ≤ item.val) ∧ ∀ x ∈ v.items.drop offset, item.val ≤ x.val
  | .setIndexesVals vals nelem => v.sorted = true →
      ∀ i j x y, i < j → j < nelem → vals i = some x → vals j = some y → x ≤ y
  | .resize nelem => v.sorted = true → nelem ≤ v.size ∨ ∀ x ∈ v.items, x.val ≤ 0
  | .trim nelem uninit => v.sorted = true → nelem ≤ v.size ∨
      (∀ x ∈ v.items, x.val ≤ uninit 0) ∧ ∀ i j, i < j → j < nelem - v.size → uninit i ≤ uninit j
  | .setIndexes _ _ => True
  | .sort => True
  | .find _ => True

/-! ## `find` -/

theorem binarySearch_iff {items : List (IndexVal α)} (h : Ordered items) (iv : IndexVal α) :
    binarySearch items iv = true ↔ ∃ x ∈ items, x.val = iv.val := by
  induction items with
  | nil => simp [binarySearch]
  | cons y ys ih =>
    obtain ⟨hy, hys⟩ := List.pairwise_cons.mp h
    unfold binarySearch at ih ⊢
    by_cases hlt : y.val < iv.val
    · rw [List.dropWhile_cons_of_pos (by simpa using hlt), ih hys]
      simp [hlt.ne]
    · -- the first entry that is not below `iv` decides
      rw [List.dropWhile_cons_of_neg (by simpa using hlt)]
      simp only [Bool.not_eq_true', decide_eq_false_iff_not, List.mem_cons, exists_eq_or_imp]
      constructor
      · intro hge
        exact Or.inl (le_antisymm (not_lt.mp hge) (not_lt.mp hlt))
      · rintro (he | ⟨x, hx, he⟩)
        · exact not_lt.mpr he.le
        · exact not_lt.mpr (he ▸ hy x hx)

theorem Honest.findExact {v : IndexVector α} (h : Honest v) (sorter : Sorter α) :
    FindExact sorter v := by
  intro iv
  unfold find
  by_cases hs : v.sorted = true
  · simp only [hs, if_true]
    exact binarySearch_iff (h hs) iv
  · simp only [hs, sort]
    rw [if_neg (by simp), binarySearch_iff (sorter.sorted _ _ _)]
    simp only [(sorter.perm _ _ _).mem_iff]

/-- `find` sorts the entries or leaves them. -/
theorem find_perm (sorter : Sorter α) (v : IndexVector α) (iv : IndexVal α) :
    (v.find sorter iv).2.items.Perm v.items := by
  unfold find
  by_cases hflag : v.sorted = true
  · simp [hflag]
  · simp only [hflag, sort]
    exact sorter.perm _ _ _

theorem Honest.find {v : IndexVector α} (hv : Honest v) (sorter : Sorter α) (iv : IndexVal α) :
    Honest (v.find sorter iv).2 := by
  unfold IndexVector.find
  by_cases hflag : v.sorted = true
  · simpa [hflag] using hv
  · simp only [hflag]
    exact fun _ => sorter.sorted _ _ _

/-! ## One call -/

section Order

variable {xs ys : List (IndexVal α)}

theorem ordered_iff_vals : Ordered xs ↔ (xs.map IndexVal.val).Pairwise (· ≤ ·) :=
  List.pairwise_map.symm

omit [LinearOrder α] in
theorem zipIdx_vals (vals : List α) :
    vals.zipIdx.map (IndexVal.val ∘ fun p => (⟨sampleId p.2, p.1⟩ : IndexVal α)) = vals := by
  exact List.zipIdx_map_fst 0 vals

theorem ordered_append_iff (hx : Ordered xs) :
    Ordered (xs ++ ys) ↔ Ordered ys ∧ ∀ x ∈ xs, ∀ y ∈ ys, x.val ≤ y.val := by
  unfold Ordered
  rw [List.pairwise_append]
  exact and_iff_right hx

theorem ordered_insert_iff (hx : Ordered xs) (item : IndexVal α) (offset : Nat) :
    Ordered (xs.take offset ++ item :: xs.drop offset) ↔
      (∀ x ∈ xs.take offset, x.val ≤ item.val) ∧ ∀ x ∈ xs.drop offset, item.val ≤ x.val := by
  have hsplit := hx
  rw [← List.take_append_drop offset xs] at hsplit
  obtain ⟨htake, hdrop, hcross⟩ := List.pairwise_append.mp hsplit
  rw [ordered_append_iff htake]
  unfold Ordered
  rw [List.pairwise_cons]
  constructor
  · rintro ⟨⟨hge, -⟩, hle⟩
    exact ⟨fun x hx => hle x hx item List.mem_cons_self, hge⟩
  · rintro ⟨hle, hge⟩
    refine ⟨⟨hge, hdrop⟩, fun x hx y hy => ?_⟩
    rcases List.mem_cons.mp hy with rfl | hy
    · exact hle x hx
    · exact hcross x hx y hy

theorem ordered_map_range {g : Nat → IndexVal α} {n : Nat} :
    Ordered ((List.range n).map g) ↔ ∀ i j, i < j → j < n → (g i).val ≤ (g j).val := by
  unfold Ordered
  rw [List.pairwise_map, List.pairwise_iff_getElem]
  simp only [List.length_range, List.getElem_range]
  constructor
  · intro h i j hij hj
    exact h i j (by omega) hj hij
  · intro h i j _ hj hij
    exact h i j hij hj

end Order

section Step

variable {v v' : IndexVector α}

/-- A call that leaves the flag and has the order of its entries at stake. -/
theorem honest_iff_of_flag {p : Prop} (hv : Honest v) (hflag : v'.sorted = v.sorted)
    (horder : v.sorted = true → Ordered v.items → (Ordered v'.items ↔ p)) :
    Honest v' ↔ (v.sorted = true → p) := by
  unfold Honest
  rw [hflag]
  constructor
  · intro h hs
    exact (horder hs (hv hs)).mp (h hs)
  · intro h hs
    exact (horder hs (hv hs)).mpr (h hs)

theorem honest_trim_iff {nelem : Nat} {uninit : Nat → α} (hv : Honest v) :
    Honest (v.trim uninit nelem) ↔ (v.sorted = true → nelem ≤ v.size ∨
      (∀ x ∈ v.items, x.val ≤ uninit 0) ∧
        ∀ i j, i < j → j < nelem - v.size → uninit i ≤ uninit j) := by
  refine honest_iff_of_flag hv rfl fun _ ho => ?_
  have htake : Ordered (v.items.take nelem) := ho.sublist (List.take_sublist _ _)
  unfold trim
  rw [ordered_append_iff htake, ordered_map_range]
  rcases Nat.lt_or_ge v.size nelem with hlt | hge
  · have hall : v.items.take nelem = v.items := List.take_of_length_le hlt.le
    rw [hall]
    constructor
    · rintro ⟨hnew, hcross⟩
      refine Or.inr ⟨fun x hx => hcross x hx _ (List.mem_map_of_mem (List.mem_range.mpr ?_)), hnew⟩
      omega
    · rintro (hge | ⟨hle, hnew⟩)
      · omega
      · refine ⟨hnew, fun x hx y hy => ?_⟩
        obtain ⟨i, hi, rfl⟩ := List.mem_map.mp hy
        rcases Nat.eq_zero_or_pos i with rfl | hpos
        · exact hle x hx
        · exact (hle x hx).trans (hnew 0 i hpos (List.mem_range.mp hi))
  · rw [Nat.sub_eq_zero_of_le hge]
    simp [hge]

variable [Zero α]

theorem honest_resize_iff {nelem : Nat} (hv : Honest v)
    (h : Returns (fun fuel => v.resize fuel nelem) v') : Honest v' ↔ InOrder v (.resize nelem) := by
  have hle : v.size ≤ nelem := by
    obtain ⟨N, hN⟩ := h
    have hok : v.resize N nelem = .ok v' := hN N (le_refl N)
    by_contra hlt
    unfold resize at hok
    rw [if_neg hlt] at hok
    cases hok
  obtain rfl := h.unique (v.resize_returns hle)
  refine honest_iff_of_flag hv rfl fun _ ho => ?_
  rw [ordered_append_iff ho]
  constructor
  · rintro ⟨-, hcross⟩
    rcases Nat.lt_or_ge v.size nelem with hlt | hge
    · exact Or.inr fun x hx =>
        hcross x hx ⟨0, 0⟩ (List.mem_replicate.mpr ⟨by omega, rfl⟩)
    · exact Or.inl hge
  · intro hcond
    refine ⟨List.pairwise_replicate.mpr (Or.inr (le_refl _)), fun x hx y hy => ?_⟩
    obtain ⟨hpos, rfl⟩ := List.mem_replicate.mp hy
    rcases hcond with hge | hall
    · omega
    · exact hall x hx

/-- A call that returns from an honest state leads to an honest one exactly if it keeps the
    order. -/
theorem perform_honest_iff {sorter : Sorter α} {call : Call α} (hv : Honest v)
    (h : Returns (fun fuel => perform sorter fuel v call) v') : Honest v' ↔ InOrder v call := by
  obtain ⟨N, hN⟩ := id h
  have hok := hN N (le_refl N)
  cases call with
  | append iv =>
    obtain rfl := Except.ok.inj hok
    refine honest_iff_of_flag hv rfl fun _ ho => ?_
    unfold append
    rw [ordered_append_iff ho]
    simp [Ordered]
  | insert item offset =>
    simp only [perform, insert] at hok
    split at hok
    · obtain rfl := Except.ok.inj hok
      exact honest_iff_of_flag hv rfl fun _ ho => ordered_insert_iff ho item offset
    · cases hok
  | setIndexes idxs nelem =>
    obtain ⟨xs, -, hret⟩ := bind_ok hok
    obtain rfl := Except.ok.inj hret
    refine iff_of_true (fun _ => ?_) trivial
    exact List.pairwise_map.mpr (List.pairwise_of_forall fun _ _ => le_refl _)
  | setIndexesVals vals nelem =>
    obtain ⟨xs, hxs, hret⟩ := bind_ok hok
    obtain rfl := Except.ok.inj hret
    obtain ⟨hlen, hget⟩ := Buf.copy_get hxs
    refine honest_iff_of_flag hv rfl fun _ _ => ?_
    rw [ordered_iff_vals, List.map_map, zipIdx_vals, List.pairwise_iff_getElem]
    constructor
    · intro h i j x y hij hj hx hy
      rw [hget i (by omega)] at hx
      rw [hget j hj] at hy
      obtain ⟨hi', rfl⟩ := List.getElem?_eq_some_iff.mp hx
      obtain ⟨hj', rfl⟩ := List.getElem?_eq_some_iff.mp hy
      exact h i j hi' hj' hij
    · intro h i j hi hj hij
      refine h i j _ _ hij (hlen ▸ hj) ?_ ?_
      · rw [hget i (hlen ▸ hi), List.getElem?_eq_getElem hi]
      · rw [hget j (hlen ▸ hj), List.getElem?_eq_getElem hj]
  | resize nelem => exact honest_resize_iff hv h
  | trim nelem uninit =>
    obtain rfl := Except.ok.inj hok
    exact honest_trim_iff hv
  | sort =>
    obtain rfl := Except.ok.inj hok
    exact iff_of_true (fun _ => sorter.sorted _ _ _) trivial
  | find iv =>
    obtain rfl := Except.ok.inj hok
    exact iff_of_true (hv.find sorter iv) trivial

end Step

/-! ## Whole histories -/

section History

variable [Zero α] {sorter : Sorter α} {c : Ctor α} {v : IndexVector α}

omit [LinearOrder α] in
theorem resize_ok_returns {fuel nelem : Nat} {v' : IndexVector α}
    (h : v.resize fuel nelem = .ok v') : Returns (fun fuel => v.resize fuel nelem) v' := by
  unfold resize at h ⊢
  split at h
  · next hle =>
    simp only [if_pos hle]
    exact loop_ok_returns h
  · cases h

theorem perform_ok_returns {fuel : Nat} {call : Call α} {v' : IndexVector α}
    (h : perform sorter fuel v call = .ok v') :
    Returns (fun fuel => perform sorter fuel v call) v' := by
  cases call with
  | resize nelem => exact resize_ok_returns h
  | append _ => exact ⟨0, fun _ _ => h⟩
  | insert _ _ => exact ⟨0, fun _ _ => h⟩
  | setIndexes _ _ => exact ⟨0, fun _ _ => h⟩
  | setIndexesVals _ _ => exact ⟨0, fun _ _ => h⟩
  | trim _ _ => exact ⟨0, fun _ _ => h⟩
  | sort => exact ⟨0, fun _ _ => h⟩
  | find _ => exact ⟨0, fun _ _ => h⟩

omit [LinearOrder α] in
theorem construct_ok_returns {fuel : Nat} (h : construct fuel c = .ok v) :
    Returns (fun fuel => construct fuel c) v := by
  cases c with
  | ofSize nelem => exact resize_ok_returns (v := new) h
  | default => exact ⟨0, fun _ _ => h⟩
  | ofVals _ => exact ⟨0, fun _ _ => h⟩
  | ofIds _ => exact ⟨0, fun _ _ => h⟩

/-- No constructor sets the flag. -/
theorem construct_honest (h : Returns (fun fuel => construct fuel c) v) : Honest v := by
  suffices hflag : v.sorted = false by
    intro hs
    rw [hflag] at hs
    cases hs
  cases c with
  | default => rw [h.unique (.pure new)]; rfl
  | ofSize nelem =>
    rw [h.unique ((new : IndexVector α).resize_returns (Nat.zero_le nelem))]
    rfl
  | ofVals vals => rw [h.unique (.pure (ofVals vals))]; rfl
  | ofIds ids => rw [h.unique (.pure (ofIds ids))]; rfl

theorem history_nil (fuel : Nat) : history sorter fuel c [] = construct fuel c := by
  unfold history
  simp only [List.foldlM_nil, bind_pure]

theorem history_snoc (fuel : Nat) (pre : List (Call α)) (call : Call α) :
    history sorter fuel c (pre ++ [call]) =
      history sorter fuel c pre >>= fun v => perform sorter fuel v call := by
  unfold history
  simp only [List.foldlM_append, List.foldlM_cons, List.foldlM_nil, bind_pure, bind_assoc]

theorem history_ok_returns {fuel : Nat} {calls : List (Call α)}
    (h : history sorter fuel c calls = .ok v) :
    Returns (fun fuel => history sorter fuel c calls) v := by
  induction calls using List.reverseRecOn generalizing v with
  | nil =>
    rw [history_nil] at h
    exact (construct_ok_returns h).of_eq fun fuel => history_nil fuel
  | append_singleton pre call ih =>
    rw [history_snoc] at h
    obtain ⟨v₁, h₁, h₂⟩ := bind_ok h
    exact ((ih h₁).bind (perform_ok_returns h₂)).of_eq fun fuel => history_snoc fuel pre call

/-- The state before the last call of a history. -/
theorem returns_history_snoc {pre : List (Call α)} {call : Call α}
    (h : Returns (fun fuel => history sorter fuel c (pre ++ [call])) v) :
    ∃ v₁, Returns (fun fuel => history sorter fuel c pre) v₁ ∧
      Returns (fun fuel => perform sorter fuel v₁ call) v := by
  obtain ⟨N, hN⟩ := h
  have hok := hN N (le_refl N)
  simp only [history_snoc] at hok
  obtain ⟨v₁, h₁, h₂⟩ := bind_ok hok
  exact ⟨v₁, history_ok_returns h₁, perform_ok_returns h₂⟩

/-- In every history of calls, the flag is right and `find` exact in every state exactly if every
    call that returns keeps the order of a vector that has the flag. -/
theorem flag_honest_iff (sorter : Sorter α) (c : Ctor α) (calls : List (Call α)) :
    (∀ pre post v, calls = pre ++ post → Returns (fun fuel => history sorter fuel c pre) v →
      Honest v ∧ FindExact sorter v) ↔
    ∀ pre call post v v', calls = pre ++ call :: post →
      Returns (fun fuel => history sorter fuel c pre) v →
      Returns (fun fuel => perform sorter fuel v call) v' → InOrder v call := by
  constructor
  · intro h pre call post v v' hcalls hv hv'
    obtain ⟨hhonest, -⟩ := h pre (call :: post) v hcalls hv
    obtain ⟨hhonest', -⟩ := h (pre ++ [call]) post v' (by simpa using hcalls)
      ((hv.bind hv').of_eq fun fuel => history_snoc fuel pre call)
    exact (perform_honest_iff hhonest hv').mp hhonest'
  · intro h pre post v hcalls hv
    suffices hhonest : Honest v from ⟨hhonest, hhonest.findExact sorter⟩
    induction pre using List.reverseRecOn generalizing v post with
    | nil => exact construct_honest (hv.of_eq fun fuel => (history_nil fuel).symm)
    | append_singleton pre call ih =>
      obtain ⟨v₁, h₁, h₂⟩ := returns_history_snoc hv
      have hcalls' : calls = pre ++ call :: post := by simpa using hcalls
      exact (perform_honest_iff (ih (call :: post) v₁ hcalls' h₁) h₂).mpr
        (h pre call post v₁ v hcalls' h₁ h₂)

end History

/-- `sort` on an empty vector sets the flag. The two entries appended after it are out of order, and
    `find` misses the second one. -/
theorem flag_lies_two :
    ∃ v : IndexVector Int, Returns (fun fuel => history stableSorter fuel .default
        [.sort, .append ⟨0, 2⟩, .append ⟨1, 1⟩]) v ∧
      v.sorted = true ∧ ¬ Honest v ∧ ¬ FindExact stableSorter v := by
  refine ⟨⟨[⟨0, 2⟩, ⟨1, 1⟩], true⟩, ⟨0, fun fuel _ => ?_⟩, rfl, fun h => ?_, fun h => ?_⟩
  · simp [history, construct, perform, sort, stableSorter, stableSort, new, append,
      ok_bind, pure_ok]
  · exact absurd (h rfl) (by unfold Ordered; decide)
  · exact absurd ((h ⟨1, 1⟩).mpr ⟨⟨1, 1⟩, by simp, rfl⟩) (by decide)

end Monya.IndexVector
