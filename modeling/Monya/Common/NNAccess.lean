/-
  Reading an `NNVector` (`common/NNVector.hpp`): `operator[]` with its cache, `operator==`, `find`
  and `to_IndexVector`.

  `operator[]` starts from the node of the last access where it can. `Accessible v as xs` says that
  the vector has the nodes `as` with the entries `xs` and that the cache, if it holds a node at
  all, holds the one of its index; every access keeps that (`Accessible.get_ok`).

  The loops of `find` and `to_IndexVector` do not move on from a node. `find` ends only where the
  list is empty or its first entry is the one looked for (`Accessible.find_cons`), and
  `to_IndexVector` only where the list is empty (`Accessible.toIndexVector_cons`).
-/
import Monya.Common.NNVector

namespace Monya

open Monya.Lib Monya.Lib.Ring

namespace NNVector

variable {α : Type}

def updateCache (v : NNVector α) (index : Nat) (node : Ptr) : NNVector α :=
  { v with cache := (index, node) }

/-- The node `curr` that `operator[]` gets to. -/
def locate (v : NNVector α) (index : Nat) : Except Fault Ptr :=
  match v.cache.2 with
  | some node =>
      -- a hit: `cache.first == index - 1` of `size_t`, which no cached index meets at `index` 0
      if v.cache.1 + 1 = index then do return (← v.heap.read node).next
      else if v.cache.1 ≤ index then advance v.heap (index - v.cache.1) (some node)
      else advance v.heap (index + 1) (some v.sentinel)
  | none => advance v.heap (index + 1) (some v.sentinel)

/-- `operator[]`. -/
def get (v : NNVector α) (index : Nat) : Except Fault (IndexVal α × NNVector α) :=
  if v.size < index + 1 then .error (.thrown ("Out of bounds index: " ++ toString index))
  else do
    match ← v.locate index with
    | none => .error .assertion
    | some curr => return ((← v.heap.read curr).data, v.updateCache index (some curr))

section Loops

variable [LinearOrder α]

/-- The loop of `operator==(IndexVector&)`, over the indexes that are left. -/
def eqLoop (iv : IndexVector α) : List Nat → NNVector α → Except Fault (Bool × NNVector α)
  | [], v => .ok (true, v)
  | i :: is, v => do
      let x ← iv.get i
      let (y, v) ← v.get i
      if x.val ≠ y.val then return (false, v) else eqLoop iv is v

/-- `operator==(IndexVector&)`. -/
def eqIndexVector (v : NNVector α) (iv : IndexVector α) : Except Fault (Bool × NNVector α) :=
  if iv.size ≠ v.size then .ok (false, v) else eqLoop iv (List.range v.size) v

/-- The loop of `operator==(NNVector&)`, over the indexes that are left. -/
def eqVectorLoop : List Nat → NNVector α → NNVector α →
    Except Fault (Bool × NNVector α × NNVector α)
  | [], v, other => .ok (true, v, other)
  | i :: is, v, other => do
      let (x, other) ← other.get i
      let (y, v) ← v.get i
      if x.val ≠ y.val then return (false, v, other) else eqVectorLoop is v other

/-- `operator==(NNVector&)`, and `operator==(NNVector*)`, which has the same body. `other` is
    another object, so that each access is in a cache of its own. -/
def eqVector (v other : NNVector α) : Except Fault (Bool × NNVector α × NNVector α) :=
  if other.size ≠ v.size then .ok (false, v, other) else eqVectorLoop (List.range v.size) v other

/-- The loop of `find`. -/
def seekStep (v : NNVector α) (iv : IndexVal α) (p : Ptr) : Except Fault (Pass Ptr Bool) := do
  let curr ← target p
  if curr = v.sentinel then return .done false
  else if (← v.heap.read curr).data.val = iv.val then return .done true
  else return .next p

def find (fuel : Nat) (v : NNVector α) (iv : IndexVal α) : Except Fault Bool := do
  loop (v.seekStep iv) fuel (← v.heap.read v.sentinel).next

end Loops

/-- The loop of `to_IndexVector`. -/
def appendStep (v : NNVector α) :
    Ptr × IndexVector α → Except Fault (Pass (Ptr × IndexVector α) (IndexVector α))
  | (p, ret) => do
      let curr ← target p
      if curr = v.sentinel then return .done ret
      else return .next (p, ret.append (← v.heap.read curr).data)

def toIndexVector (fuel : Nat) (v : NNVector α) : Except Fault (IndexVector α) := do
  loop v.appendStep fuel ((← v.heap.read v.sentinel).next, .new)

/-! ## `operator[]` -/

theorem get_k {v v' : NNVector α} {i : Nat} {x : IndexVal α} (h : v.get i = .ok (x, v')) :
    v'.k = v.k := by
  unfold get at h
  split at h
  · cases h
  · obtain ⟨p, -, h⟩ := bind_ok h
    cases p with
    | none => cases h
    | some curr =>
      obtain ⟨l, -, h⟩ := bind_ok h
      cases h
      rfl

/-- `v` has the nodes `as` with the entries `xs`, and its cache is right. -/
structure Accessible (v : NNVector α) (as : List Nat) (xs : List (IndexVal α)) : Prop where
  ring : IsRing v.heap v.sentinel as
  data : as.map (data v.heap) = xs.map some
  size : v.size = xs.length
  cache : ∀ node, v.cache.2 = some node → as[v.cache.1]? = some node

variable {v : NNVector α} {as : List Nat} {xs : List (IndexVal α)}

theorem Holds.accessible (hv : Holds v xs) (hc : v.cache.2 = none) : ∃ as, Accessible v as xs := by
  obtain ⟨as, hr, hd⟩ := hv.ring
  refine ⟨as, hr, hd, hv.size, fun node hn => ?_⟩
  rw [hc] at hn
  cases hn

namespace Accessible

theorem length_eq (h : Accessible v as xs) : as.length = xs.length := by
  have hlen := congrArg List.length h.data
  rwa [List.length_map, List.length_map] at hlen

/-- The `i`-th node is number `i + 1` from the sentinel on. -/
theorem advance_node (h : Accessible v as xs) {i n : Nat} (hn : i + n < xs.length) :
    advance v.heap n as[i]? = .ok as[i + n]? := by
  have hadv := h.ring.advance_ok (i := i + 1) (n := n) (by rw [h.length_eq]; omega)
  rwa [List.getElem?_cons_succ, Nat.add_right_comm, List.getElem?_cons_succ] at hadv

theorem locate_ok (h : Accessible v as xs) {i : Nat} (hi : i < xs.length) :
    v.locate i = .ok as[i]? := by
  have hsent : advance v.heap (i + 1) (some v.sentinel) = .ok as[i]? := by
    have hadv := h.ring.advance_ok (i := 0) (n := i + 1) (by rw [h.length_eq]; omega)
    rwa [Nat.zero_add, List.getElem?_cons_succ, List.getElem?_cons_zero] at hadv
  unfold locate
  cases hc : v.cache.2 with
  | none => exact hsent
  | some node =>
    have hnode := h.cache node hc
    by_cases hhit : v.cache.1 + 1 = i
    · -- one step on from the cached node
      have hadv := h.advance_node (i := v.cache.1) (n := 1) (by omega)
      rw [hnode, hhit] at hadv
      simp only [if_pos hhit]
      rw [← hadv, advance, target_some, ok_bind]
      rfl
    · by_cases hle : v.cache.1 ≤ i
      · have hadv := h.advance_node (i := v.cache.1) (n := i - v.cache.1) (by omega)
        rw [hnode, Nat.add_sub_cancel' hle] at hadv
        simp only [if_neg hhit, if_pos hle, hadv]
      · simp only [if_neg hhit, if_neg hle, hsent]

theorem data_get (h : Accessible v as xs) {i a : Nat} {x : IndexVal α} (ha : as[i]? = some a)
    (hx : xs[i]? = some x) : Ring.data v.heap a = some x := by
  have hmap := congrArg (fun l => l[i]?) h.data
  simpa [ha, hx] using hmap

theorem get_ok (h : Accessible v as xs) {i : Nat} {x : IndexVal α} (hx : xs[i]? = some x) :
    ∃ v', v.get i = .ok (x, v') ∧ Accessible v' as xs := by
  have hi : i < xs.length := (List.getElem?_eq_some_iff.mp hx).1
  obtain ⟨a, ha⟩ : ∃ a, as[i]? = some a :=
    ⟨_, List.getElem?_eq_getElem (by rw [h.length_eq]; exact hi)⟩
  obtain ⟨l, hl, hlx⟩ := read_data (h.data_get ha hx)
  refine ⟨v.updateCache i (some a), ?_, h.ring, h.data, h.size, fun node hn => ?_⟩
  · unfold get
    rw [if_neg (by rw [h.size]; omega), h.locate_ok hi, ok_bind, ha]
    simp only [hl, ok_bind, hlx]
    rfl
  · cases hn
    exact ha

/-! ## `operator==` -/

variable [LinearOrder α]

theorem eqLoop_ok (h : Accessible v as xs) {iv : IndexVector α} (hlen : xs.length ≤ 2 ^ 31)
    (hv : iv.items.map IndexVal.val = xs.map IndexVal.val) {is : List Nat}
    (his : ∀ i ∈ is, i < xs.length) : ∃ v', eqLoop iv is v = .ok (true, v') := by
  induction is generalizing v with
  | nil => exact ⟨v, rfl⟩
  | cons i is ih =>
    have hi : i < xs.length := his i List.mem_cons_self
    have hi' : i < iv.items.length := by
      have hl := congrArg List.length hv
      rw [List.length_map, List.length_map] at hl
      omega
    have hval : iv.items[i].val = xs[i].val := by
      have hmap := congrArg (fun l => l[i]?) hv
      simpa [hi, hi'] using hmap
    have hget : iv.get i = .ok iv.items[i] :=
      IndexVector.get_ok (by omega) (List.getElem?_eq_getElem hi')
    obtain ⟨v₁, hv₁, h₁⟩ := h.get_ok (List.getElem?_eq_getElem hi)
    obtain ⟨v₂, hv₂⟩ := ih h₁ fun j hj => his j (List.mem_cons_of_mem i hj)
    refine ⟨v₂, ?_⟩
    rw [eqLoop, hget, ok_bind, hv₁, ok_bind]
    simp only [hval, ne_eq, not_true_eq_false, if_false, hv₂]

theorem eqIndexVector_ok (h : Accessible v as xs) {iv : IndexVector α}
    (hlen : xs.length ≤ 2 ^ 31) (hv : iv.items.map IndexVal.val = xs.map IndexVal.val) :
    ∃ v', v.eqIndexVector iv = .ok (true, v') := by
  have hsize : iv.size = v.size := by
    have hl := congrArg List.length hv
    rw [List.length_map, List.length_map] at hl
    rw [IndexVector.size, hl, h.size]
  have hrange : ∀ i ∈ List.range v.size, i < xs.length := fun i hi => by
    rw [← h.size]
    exact List.mem_range.mp hi
  obtain ⟨v', hv'⟩ := h.eqLoop_ok hlen hv hrange
  exact ⟨v', by rw [eqIndexVector, if_neg (not_not.mpr hsize), hv']⟩

theorem eqVectorLoop_ok {other : NNVector α} {bs : List Nat} {ys : List (IndexVal α)}
    (h : Accessible v as xs) (h' : Accessible other bs ys) (hlen : ys.length = xs.length)
    {is : List Nat} (his : ∀ i ∈ is, i < xs.length) :
    ∃ b v' other', eqVectorLoop is v other = .ok (b, v', other') ∧
      (b = true ↔ ∀ i ∈ is, (ys.map IndexVal.val)[i]? = (xs.map IndexVal.val)[i]?) := by
  induction is generalizing v other with
  | nil => exact ⟨true, v, other, rfl, by simp⟩
  | cons i is ih =>
    have hi : i < xs.length := his i List.mem_cons_self
    have hi' : i < ys.length := by rw [hlen]; exact hi
    obtain ⟨o₁, ho, h₁'⟩ := h'.get_ok (List.getElem?_eq_getElem hi')
    obtain ⟨v₁, hv, h₁⟩ := h.get_ok (List.getElem?_eq_getElem hi)
    have hat : (ys.map IndexVal.val)[i]? = (xs.map IndexVal.val)[i]? ↔ ys[i].val = xs[i].val := by
      simp [hi, hi']
    by_cases hval : ys[i].val = xs[i].val
    · obtain ⟨b, v₂, o₂, hrest, hb⟩ := ih h₁ h₁' fun j hj => his j (List.mem_cons_of_mem i hj)
      refine ⟨b, v₂, o₂, ?_, ?_⟩
      · rw [eqVectorLoop, ho, ok_bind]
        dsimp only
        rw [hv, ok_bind]
        simp only [hval, ne_eq, not_true_eq_false, if_false, hrest]
      · rw [hb, List.forall_mem_cons, hat, and_iff_right hval]
    · refine ⟨false, v₁, o₁, ?_, ?_⟩
      · rw [eqVectorLoop, ho, ok_bind]
        dsimp only
        rw [hv, ok_bind]
        simp only [ne_eq, hval, not_false_eq_true, if_true]
        rfl
      · rw [List.forall_mem_cons, hat]
        exact iff_of_false Bool.false_ne_true fun hall => hval hall.1

/-- `operator==` compares the values, and nothing else. -/
theorem eqVector_ok {other : NNVector α} {bs : List Nat} {ys : List (IndexVal α)}
    (h : Accessible v as xs) (h' : Accessible other bs ys) :
    ∃ b v' other', v.eqVector other = .ok (b, v', other') ∧
      (b = true ↔ ys.map IndexVal.val = xs.map IndexVal.val) := by
  unfold eqVector
  by_cases hlen : ys.length = xs.length
  · rw [if_neg (by rw [h.size, h'.size, not_not, hlen])]
    have his : ∀ i ∈ List.range v.size, i < xs.length := fun i hi => by
      rw [← h.size]
      exact List.mem_range.mp hi
    obtain ⟨b, v', o', hloop, hb⟩ := h.eqVectorLoop_ok h' hlen his
    refine ⟨b, v', o', hloop, hb.trans ⟨fun hall => List.ext_getElem? fun i => ?_, fun heq => ?_⟩⟩
    · by_cases hi : i < v.size
      · exact hall i (List.mem_range.mpr hi)
      · rw [h.size] at hi
        rw [List.getElem?_eq_none (by rw [List.length_map]; omega),
          List.getElem?_eq_none (by rw [List.length_map]; omega)]
    · rw [heq]
      exact fun _ _ => rfl
  · rw [if_pos (by rw [h.size, h'.size]; exact hlen)]
    refine ⟨false, v, other, rfl, iff_of_false Bool.false_ne_true fun heq => hlen ?_⟩
    have hl := congrArg List.length heq
    rwa [List.length_map, List.length_map] at hl

end Accessible

/-- A comparison that comes to an end has read every index it was given. -/
theorem get_of_eqLoop [LinearOrder α] {iv : IndexVector α} {is : List Nat} {v v' : NNVector α}
    (h : eqLoop iv is v = .ok (true, v')) : ∀ i ∈ is, ∃ x, iv.get i = .ok x := by
  induction is generalizing v with
  | nil => exact fun i hi => absurd hi List.not_mem_nil
  | cons i is ih =>
    rw [eqLoop] at h
    obtain ⟨x, hx, h⟩ := bind_ok h
    obtain ⟨⟨y, v₁⟩, -, h⟩ := bind_ok h
    dsimp only at h
    split at h
    · cases h
    · intro j hj
      rcases List.mem_cons.mp hj with rfl | hj
      · exact ⟨x, hx⟩
      · exact ih h j hj

/-- The index of `IndexVector::operator[]` is an `int`. -/
theorem size_le_of_eqIndexVector [LinearOrder α] {iv : IndexVector α} {v v' : NNVector α}
    (h : v.eqIndexVector iv = .ok (true, v')) : v.size ≤ 2 ^ 31 := by
  unfold eqIndexVector at h
  split at h
  · cases h
  · by_contra hlt
    obtain ⟨x, hx⟩ := get_of_eqLoop h (2 ^ 31) (List.mem_range.mpr (by omega))
    simp [IndexVector.get, intIndex] at hx

/-! ## `find` and `to_IndexVector` -/

namespace Accessible

/-- `sentinel->next`. -/
theorem read_first (h : Accessible v as xs) :
    ∃ l, v.heap.read v.sentinel = .ok l ∧ l.next = (as ++ [v.sentinel]).head? := by
  obtain ⟨b, hb⟩ : ∃ b, (as ++ [v.sentinel]).head? = some b := by cases as <;> simp
  have hring : IsRing v.heap v.sentinel ([] ++ as) := h.ring
  rw [hb]
  exact read_next (hring.adjacent rfl hb).1

/-- The first node is not the sentinel. -/
theorem first_node {x : IndexVal α} (h : Accessible v as (x :: xs)) :
    ∃ a as' l, as = a :: as' ∧ a ≠ v.sentinel ∧ v.heap.read a = .ok l ∧ l.data = x := by
  obtain ⟨a, as', rfl, ha, -⟩ := List.map_eq_cons_iff.mp h.data
  obtain ⟨l, hl, hx⟩ := read_data ha
  refine ⟨a, as', l, rfl, ?_, hl, hx⟩
  rintro rfl
  exact (List.nodup_cons.mp h.ring.nodup).1 List.mem_cons_self

theorem nodes_nil (h : Accessible v as []) : as = [] := List.map_eq_nil_iff.mp h.data

theorem toIndexVector_nil (h : Accessible v as []) :
    Returns (fun fuel => v.toIndexVector fuel) .new := by
  obtain ⟨l, hl, hfirst⟩ := h.read_first
  rw [h.nodes_nil] at hfirst
  have hloop : Returns (fun fuel => loop v.appendStep fuel (some v.sentinel, .new)) .new := by
    refine returns_done ?_
    simp [appendStep, ok_bind, pure_ok]
  refine hloop.of_eq fun fuel => ?_
  rw [toIndexVector, hl, ok_bind, hfirst]
  rfl

/-- At the first node the loop appends for ever. -/
theorem toIndexVector_cons {x : IndexVal α} (h : Accessible v as (x :: xs)) (fuel : Nat) :
    v.toIndexVector fuel = .error .outOfFuel := by
  obtain ⟨l, hl, hfirst⟩ := h.read_first
  obtain ⟨a, as', la, rfl, hne, hla, -⟩ := h.first_node
  rw [toIndexVector, hl, ok_bind, hfirst]
  refine loop_diverges (fun s => s.1 = some a) ?_ rfl fuel
  rintro ⟨p, ret⟩ rfl
  refine ⟨(some a, ret.append la.data), ?_, rfl⟩
  simp [appendStep, ok_bind, pure_ok, hne, hla]

variable [LinearOrder α]

theorem find_nil (h : Accessible v as []) (iv : IndexVal α) :
    Returns (fun fuel => v.find fuel iv) false := by
  obtain ⟨l, hl, hfirst⟩ := h.read_first
  rw [h.nodes_nil] at hfirst
  have hloop : Returns (fun fuel => loop (v.seekStep iv) fuel (some v.sentinel)) false := by
    refine returns_done ?_
    simp [seekStep, ok_bind, pure_ok]
  refine hloop.of_eq fun fuel => ?_
  rw [find, hl, ok_bind, hfirst]
  rfl

/-- Only the first entry is ever looked at. -/
theorem find_cons {x : IndexVal α} (h : Accessible v as (x :: xs)) (iv : IndexVal α) :
    (x.val = iv.val → Returns (fun fuel => v.find fuel iv) true) ∧
      (x.val ≠ iv.val → ∀ fuel, v.find fuel iv = .error .outOfFuel) := by
  obtain ⟨l, hl, hfirst⟩ := h.read_first
  obtain ⟨a, as', la, rfl, hne, hla, rfl⟩ := h.first_node
  have hfind : ∀ fuel, v.find fuel iv = loop (v.seekStep iv) fuel (some a) := fun fuel => by
    rw [find, hl, ok_bind, hfirst]
    rfl
  refine ⟨fun heq => ?_, fun hval fuel => ?_⟩
  · have hdone : v.seekStep iv (some a) = .ok (.done true) := by
      simp [seekStep, ok_bind, pure_ok, hne, hla, heq]
    exact (returns_done hdone).of_eq hfind
  · rw [hfind]
    refine loop_diverges (fun p => p = some a) ?_ rfl fuel
    rintro p rfl
    refine ⟨some a, ?_, rfl⟩
    simp [seekStep, ok_bind, pure_ok, hne, hla, hval]

end Accessible

end NNVector

end Monya
