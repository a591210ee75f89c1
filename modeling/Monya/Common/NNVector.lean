/-
  `NNVector` (`common/NNVector.hpp`): the `k` nearest neighbours seen so far, in a circular doubly
  linked list with a sentinel.

  `Holds v xs` says that the list of `v` has the entries `xs`. A new entry goes before the first one
  with a larger value, so behind those with an equal one, and the last entry goes when there are
  more than `k` (`eval_returns`). Over a history of calls that is the stable sort of the history,
  cut off at `k` (`Evaluated`, `keeps_first_of_stableSort`).
-/
import Monya.Common.Types
import Monya.Lib.Ring
import Monya.Lib.StableSort

namespace Monya

open Monya.Lib Monya.Lib.Ring

structure NNVector (α : Type) where
  heap : Heap (Link (IndexVal α))
  sentinel : Nat
  /-- The index and the node of the last access. -/
  cache : Nat × Ptr
  k : Nat
  size : Nat

namespace NNVector

variable {α : Type}

/-- The constructor; the sentinel gets the largest value. -/
def new (dataMax : α) (k : Nat) : NNVector α where
  heap := Heap.empty.alloc ⟨some 0, some 0, ⟨0, dataMax⟩⟩
  sentinel := 0
  cache := (0, none)
  k := k
  size := 0

def invalidateCache (v : NNVector α) : NNVector α := { v with cache := (v.cache.1, none) }

/-- `new Node(iv)`, at address `v.heap.brk`. -/
def newNode (v : NNVector α) (iv : IndexVal α) : NNVector α :=
  { v with heap := v.heap.alloc ⟨none, none, iv⟩ }

/-- `push_back`, of a node that has been allocated. -/
def pushBack (v : NNVector α) (node : Nat) : Except Fault (NNVector α) :=
  if v.size = 0 then do
    let h ← setPrev v.heap node (some v.sentinel)
    let h ← setNext h node (some v.sentinel)
    let h ← setPrev h v.sentinel (some node)
    let h ← setNext h v.sentinel (some node)
    return { v with heap := h, size := v.size + 1 }
  else do
    let back ← target (← v.heap.read v.sentinel).prev
    let h ← setNext v.heap node (some v.sentinel)
    let h ← setPrev h node (some back)
    let h ← setNext h back (some node)
    let h ← setPrev h v.sentinel (some node)
    return { v with heap := h, size := v.size + 1 }

def popBack (v : NNVector α) : Except Fault (NNVector α) :=
  if v.size = 0 then return v
  else do
    let delnode ← target (← v.heap.read v.sentinel).prev
    if delnode = v.sentinel then return v
    else
      let h ← setNext v.heap (← target (← v.heap.read delnode).prev) (some v.sentinel)
      let h ← setPrev h v.sentinel (← h.read delnode).prev
      let _ ← h.read delnode
      return invalidateCache { v with heap := h.free delnode, size := v.size - 1 }

/-- The size check of `eval`. -/
def trim (v : NNVector α) : Except Fault (NNVector α) :=
  if v.k < v.size then v.popBack else return v

/-- The first branch of `eval`. -/
def addFirst (v : NNVector α) (iv : IndexVal α) : Except Fault (NNVector α) := do
  let node := v.heap.brk
  let v := v.newNode iv
  let h ← setNext v.heap v.sentinel (some node)
  let h ← setPrev h node (some v.sentinel)
  let h ← setPrev h v.sentinel (some node)
  let h ← setNext h node (some v.sentinel)
  return { v with heap := h, size := v.size + 1 }

/-- The body of the `if` in `eval`'s loop: a new node before `curr`. -/
def insertBefore (v : NNVector α) (curr : Nat) (iv : IndexVal α) : Except Fault (NNVector α) := do
  let node := v.heap.brk
  let v := v.newNode iv
  let h ← setNext v.heap (← target (← v.heap.read curr).prev) (some node)
  let h ← setPrev h node (← h.read curr).prev
  let h ← setPrev h curr (some node)
  let h ← setNext h node (some curr)
  return { v with heap := h, size := v.size + 1 }

variable [LinearOrder α]

/-- The loop of `eval`: the first node with a value above `val`. -/
def findStep (v : NNVector α) (val : α) : Ptr → Except Fault (Pass Ptr Ptr)
  | none => .error .assertion
  | some curr =>
      if curr = v.sentinel then return .done none
      else do
        let l ← v.heap.read curr
        if val < l.data.val then return .done (some curr) else return .next l.next

/-- `eval`, up to the size check. -/
def place (fuel : Nat) (v : NNVector α) (iv : IndexVal α) : Except Fault (NNVector α) :=
  if v.size = 0 then v.addFirst iv
  else do
    match ← loop (v.findStep iv.val) fuel (← v.heap.read v.sentinel).next with
    | some curr => v.insertBefore curr iv
    | none => if v.size < v.k then (v.newNode iv).pushBack v.heap.brk else return v

def eval (fuel : Nat) (v : NNVector α) (iv : IndexVal α) : Except Fault (NNVector α) := do
  let v ← v.place fuel iv
  let v ← v.trim
  return v.invalidateCache

/-! ## What the vector holds -/

/-- The ring of `v` has the entries `xs`, in order. -/
structure Holds {α : Type} (v : NNVector α) (xs : List (IndexVal α)) : Prop where
  ring : ∃ as, IsRing v.heap v.sentinel as ∧ as.map (data v.heap) = xs.map some
  size : v.size = xs.length

section Links

variable {α : Type} {v : NNVector α}

theorem holds_new (dataMax : α) (k : Nat) : Holds (new dataMax k) [] := by
  refine ⟨⟨[], ⟨?_, List.nodup_singleton _⟩, rfl⟩, rfl⟩
  exact List.isChain_pair.mpr ⟨rfl, rfl⟩

/-- A new node, at an address not in the ring, has been linked in. -/
theorem holds_insert {iv : IndexVal α} {as₁ as₂ : List Nat}
    {xs₁ xs₂ : List (IndexVal α)} {p q : Nat}
    {h' : Heap (Link (IndexVal α))} (hr : IsRing v.heap v.sentinel (as₁ ++ as₂))
    (hd₁ : as₁.map (data v.heap) = xs₁.map some) (hd₂ : as₂.map (data v.heap) = xs₂.map some)
    (hp : (v.sentinel :: as₁).getLast? = some p) (hq : (as₂ ++ [v.sentinel]).head? = some q)
    (hi : Inserted v.heap h' p q v.heap.brk iv) (hs : v.size = (xs₁ ++ xs₂).length) :
    Holds { v with heap := h', size := v.size + 1 } (xs₁ ++ iv :: xs₂) := by
  have hnew : v.heap.brk ∉ v.sentinel :: (as₁ ++ as₂) := fun hm => by
    obtain ⟨l, hl⟩ := hr.live hm
    exact absurd (v.heap.lt_brk hl) (lt_irrefl _)
  have hdata : ∀ as : List Nat, as ⊆ as₁ ++ as₂ → as.map (data h') = as.map (data v.heap) := by
    intro as has
    refine List.map_congr_left fun a ha => ?_
    rw [hi.data, if_neg]
    rintro rfl
    exact hnew (List.mem_cons_of_mem _ (has ha))
  refine ⟨⟨as₁ ++ v.heap.brk :: as₂, hr.insert hp hq hnew hi, ?_⟩, ?_⟩
  · rw [List.map_append, List.map_cons, hdata as₁ (List.subset_append_left _ _),
      hdata as₂ (List.subset_append_right _ _), hd₁, hd₂, hi.data, if_pos rfl]
    simp
  · simp only [hs, List.length_append, List.length_cons]
    omega

theorem addFirst_ok (iv : IndexVal α) (hv : Holds v []) :
    ∃ v', addFirst v iv = .ok v' ∧ Holds v' [iv] ∧ v'.k = v.k := by
  obtain ⟨as, hr, hd⟩ := hv.ring
  obtain rfl : as = [] := List.map_eq_nil_iff.mp hd
  have hs : Live v.heap v.sentinel := hr.live List.mem_cons_self
  obtain ⟨h₁, h₂, h₃, h₄, e₁, -, e₂, e₃, e₄, hi⟩ := link_ok hs hs iv
  refine ⟨{ v with heap := h₄, size := v.size + 1 }, ?_, ?_, rfl⟩
  · simp only [addFirst, newNode]
    rw [e₁, ok_bind, e₂, ok_bind, e₃, ok_bind, e₄]
    rfl
  · have hr' : IsRing v.heap v.sentinel ([] ++ []) := hr
    have hnil : [].map (data v.heap) = ([] : List (IndexVal α)).map some := rfl
    exact holds_insert hr' hnil hnil rfl rfl hi hv.size

theorem insertBefore_ok (iv : IndexVal α) {as₁ as₂ : List Nat} {xs₁ xs₂ : List (IndexVal α)}
    {curr : Nat}
    (hr : IsRing v.heap v.sentinel (as₁ ++ curr :: as₂))
    (hd₁ : as₁.map (data v.heap) = xs₁.map some)
    (hd₂ : (curr :: as₂).map (data v.heap) = xs₂.map some)
    (hs : v.size = (xs₁ ++ xs₂).length) :
    ∃ v', insertBefore v curr iv = .ok v' ∧ Holds v' (xs₁ ++ iv :: xs₂) ∧ v'.k = v.k := by
  obtain ⟨p, hp⟩ := exists_last v.sentinel as₁
  have hq : (curr :: as₂ ++ [v.sentinel]).head? = some curr := rfl
  have hadj := hr.adjacent hp hq
  have hlc : Live v.heap curr := hr.live (by simp)
  have hne : curr ≠ v.heap.brk := by
    obtain ⟨l, hl⟩ := hlc
    exact Nat.ne_of_lt (v.heap.lt_brk hl)
  obtain ⟨h₁, h₂, h₃, h₄, e₁, hprev, e₂, e₃, e₄, hi⟩ := link_ok (live_of_next hadj.1) hlc iv
  obtain ⟨l, hl, hlp⟩ := read_prev (h := (v.newNode iv).heap) (a := curr)
    (by rw [newNode, prev_alloc, if_neg hne]; exact hadj.2)
  obtain ⟨l₁, hl₁, hlp₁⟩ := read_prev (hprev.trans hadj.2)
  refine ⟨{ v with heap := h₄, size := v.size + 1 }, ?_, ?_, rfl⟩
  · simp only [insertBefore]
    rw [hl, ok_bind, hlp, target_some, ok_bind]
    simp only [newNode]
    rw [e₁, ok_bind, hl₁, ok_bind, hlp₁, e₂, ok_bind, e₃, ok_bind, e₄]
    rfl
  · exact holds_insert hr hd₁ hd₂ hp hq hi hs

theorem pushBack_ok (iv : IndexVal α) {xs : List (IndexVal α)} (hv : Holds v xs) (hne : xs ≠ []) :
    ∃ v', (v.newNode iv).pushBack v.heap.brk = .ok v' ∧ Holds v' (xs ++ [iv]) ∧ v'.k = v.k := by
  obtain ⟨as, hr, hd⟩ := hv.ring
  obtain ⟨p, hp⟩ := exists_last v.sentinel as
  have hr' : IsRing v.heap v.sentinel (as ++ []) := by rwa [List.append_nil]
  have hadj := hr'.adjacent hp rfl
  have hls : Live v.heap v.sentinel := hr.live List.mem_cons_self
  have hsb : v.sentinel ≠ v.heap.brk := by
    obtain ⟨l, hl⟩ := hls
    exact Nat.ne_of_lt (v.heap.lt_brk hl)
  have hsize : ¬ (v.newNode iv).size = 0 := by
    change ¬ v.size = 0
    rw [hv.size, List.length_eq_zero_iff]
    exact hne
  obtain ⟨h₁, h₂, h₃, h₄, e₁, e₂, e₃, e₄, hi⟩ := link_ok' (live_of_next hadj.1) hls iv
  obtain ⟨l, hl, hlp⟩ := read_prev (h := (v.newNode iv).heap) (a := v.sentinel)
    (by rw [newNode, prev_alloc, if_neg hsb]; exact hadj.2)
  refine ⟨{ v with heap := h₄, size := v.size + 1 }, ?_, ?_, rfl⟩
  · rw [pushBack, if_neg hsize, show (v.newNode iv).sentinel = v.sentinel from rfl, hl, ok_bind,
      hlp, target_some, ok_bind]
    simp only [newNode]
    rw [e₁, ok_bind, e₂, ok_bind, e₃, ok_bind, e₄]
    rfl
  · exact holds_insert hr' hd rfl hp rfl hi (by rw [List.append_nil]; exact hv.size)

theorem popBack_ok {xs : List (IndexVal α)} {x : IndexVal α} (hv : Holds v (xs ++ [x])) :
    ∃ v', v.popBack = .ok v' ∧ Holds v' xs ∧ v'.k = v.k ∧ v'.cache.2 = none := by
  obtain ⟨as', hr, hd⟩ := hv.ring
  rw [List.map_append] at hd
  obtain ⟨as, ds, rfl, hd₁, hd₂⟩ := List.map_eq_append_iff.mp hd
  obtain ⟨d, rfl, -⟩ := List.map_eq_singleton_iff.mp hd₂
  obtain ⟨p, hp⟩ := exists_last v.sentinel as
  have hadj := hr.adjacent hp (q := d) rfl
  have hr' : IsRing v.heap v.sentinel (as ++ [d] ++ []) := by rwa [List.append_nil]
  have hadj' := hr'.adjacent (p := d) (q := v.sentinel)
    (by rw [← List.cons_append]; exact List.getLast?_concat) rfl
  have hnd := List.nodup_cons.mp hr.nodup
  have hds : d ≠ v.sentinel := fun he => hnd.1 (by simp [he])
  have hdas : d ∉ as := fun hm =>
    (List.nodup_append.mp hnd.2).2.2 d hm d (List.mem_singleton_self d) rfl
  obtain ⟨h₁, h₂, e₁, hprev, e₂, hlive, hm⟩ :=
    unlink_ok (live_of_next hadj.1) (hr.live List.mem_cons_self) d
  obtain ⟨l, hl, hlp⟩ := read_prev hadj'.2
  obtain ⟨l', hl', hlp'⟩ := read_prev hadj.2
  obtain ⟨l₁, hl₁, hlp₁⟩ := read_prev (hprev.trans hadj.2)
  obtain ⟨l₂, hl₂⟩ := hlive (hr.live (by simp))
  have hsize : ¬ v.size = 0 := by
    rw [hv.size]
    simp
  refine ⟨invalidateCache { v with heap := h₂.free d, size := v.size - 1 }, ?_, ?_, rfl, rfl⟩
  · rw [popBack, if_neg hsize, hl, ok_bind, hlp, target_some, ok_bind, if_neg hds, hl', ok_bind,
      hlp', target_some, ok_bind, e₁, ok_bind, hl₁, ok_bind, hlp₁, e₂, ok_bind, Heap.read_ok hl₂]
    rfl
  · refine ⟨⟨as, hr.removeLast hp hm, ?_⟩, ?_⟩
    · rw [← hd₁]
      exact List.map_congr_left fun a ha => hm.data a fun he => hdas (he ▸ ha)
    · change v.size - 1 = xs.length
      rw [hv.size, List.length_append, List.length_singleton, Nat.add_sub_cancel]

theorem trim_ok {xs : List (IndexVal α)} (hv : Holds v xs) (hle : xs.length ≤ v.k + 1) :
    ∃ v', v.trim = .ok v' ∧ Holds v' (xs.take v.k) ∧ v'.k = v.k := by
  unfold trim
  by_cases hlt : v.k < v.size
  · have hlen : xs.length = v.k + 1 := by
      have := hv.size
      omega
    obtain ⟨ys, y, rfl⟩ : ∃ ys y, xs = ys ++ [y] := by
      have hne : xs ≠ [] := by
        rintro rfl
        cases hlen
      exact ⟨xs.dropLast, xs.getLast hne, (List.dropLast_append_getLast hne).symm⟩
    obtain ⟨v', hpop, hv', hk, -⟩ := popBack_ok hv
    rw [List.length_append, List.length_singleton] at hlen
    refine ⟨v', by rw [if_pos hlt, hpop], ?_, hk⟩
    rwa [List.take_left' (by omega)]
  · refine ⟨v, by rw [if_neg hlt]; rfl, ?_, rfl⟩
    rwa [List.take_of_length_le (by have := hv.size; omega)]

end Links

/-! ## `eval` -/

section Eval

variable {α : Type} [LinearOrder α] {v : NNVector α}

/-- The loop, with the nodes of `pre` behind it: it stops at the first value above `val`. -/
theorem find_from (val : α) (rest : List Nat) : ∀ (pre : List Nat) (xs : List (IndexVal α)),
    IsRing v.heap v.sentinel (pre ++ rest) → rest.map (data v.heap) = xs.map some →
    ∃ r, Returns (fun fuel => loop (v.findStep val) fuel (rest ++ [v.sentinel]).head?) r ∧
      ((r = none ∧ ∀ x ∈ xs, x.val ≤ val) ∨
        ∃ as₁ q as₂ xs₁ x xs₂, r = some q ∧ rest = as₁ ++ q :: as₂ ∧ xs = xs₁ ++ x :: xs₂ ∧
          as₁.map (data v.heap) = xs₁.map some ∧
          (q :: as₂).map (data v.heap) = (x :: xs₂).map some ∧
          (∀ y ∈ xs₁, y.val ≤ val) ∧ val < x.val) := by
  induction rest with
  | nil =>
    intro pre xs _ hd
    obtain rfl : xs = [] := List.map_eq_nil_iff.mp hd.symm
    refine ⟨none, returns_done ?_, Or.inl ⟨rfl, fun x hx => absurd hx List.not_mem_nil⟩⟩
    simp [findStep, pure_ok]
  | cons a rest ih =>
    intro pre xs hr hd
    obtain ⟨x, xs, rfl⟩ : ∃ x xs', xs = x :: xs' := by
      cases xs with
      | nil => cases hd
      | cons x xs => exact ⟨x, xs, rfl⟩
    rw [List.map_cons, List.map_cons, List.cons.injEq] at hd
    have hr' : IsRing v.heap v.sentinel (pre ++ [a] ++ rest) := by simpa using hr
    obtain ⟨b, hb⟩ : ∃ b, (rest ++ [v.sentinel]).head? = some b := by cases rest <;> simp
    have hadj := hr'.adjacent (p := a)
      (by rw [← List.cons_append]; exact List.getLast?_concat) hb
    have hne : a ≠ v.sentinel := by
      rintro rfl
      exact (List.nodup_cons.mp hr.nodup).1 (by simp)
    obtain ⟨l, hl, hln⟩ := read_next hadj.1
    obtain ⟨l', hl', hld⟩ := read_data hd.1
    cases hl.symm.trans hl'
    by_cases hlt : val < x.val
    · refine ⟨some a, returns_done ?_,
        Or.inr ⟨[], a, rest, [], x, xs, rfl, rfl, rfl, rfl, ?_, ?_, hlt⟩⟩
      · change findStep v val (some a) = _
        simp [findStep, hne, hl, ok_bind, hld, hlt, pure_ok]
      · rw [List.map_cons, List.map_cons, hd.1, hd.2]
      · exact fun y hy => absurd hy List.not_mem_nil
    · have hstep : findStep v val (some a) = .ok (.next (rest ++ [v.sentinel]).head?) := by
        simp [findStep, hne, hl, ok_bind, hld, hlt, pure_ok, hln, hb]
      obtain ⟨r, hret, hr⟩ := ih (pre ++ [a]) xs hr' hd.2
      refine ⟨r, returns_next hstep hret, ?_⟩
      rcases hr with ⟨rfl, hall⟩ | ⟨as₁, q, as₂, xs₁, y, xs₂, rfl, rfl, rfl, h₁, h₂, h₃, h₄⟩
      · left
        refine ⟨rfl, fun y hy => ?_⟩
        rcases List.mem_cons.mp hy with rfl | hy
        · exact not_lt.mp hlt
        · exact hall y hy
      · right
        refine ⟨a :: as₁, q, as₂, x :: xs₁, y, xs₂, rfl, rfl, rfl, ?_, h₂, fun z hz => ?_, h₄⟩
        · rw [List.map_cons, List.map_cons, hd.1, h₁]
        · rcases List.mem_cons.mp hz with rfl | hz
          · exact not_lt.mp hlt
          · exact h₃ z hz

/-- `eval` up to the size check puts the entry in its place, or drops it if that is behind `k`
    others. -/
theorem place_returns (iv : IndexVal α) {xs : List (IndexVal α)} (hv : Holds v xs) :
    ∃ v', Returns (fun fuel => v.place fuel iv) v' ∧ v'.k = v.k ∧
      (Holds v' (insertSorted IndexVal.val iv xs) ∨
        v.k ≤ xs.length ∧ xs ≠ [] ∧ insertSorted IndexVal.val iv xs = xs ++ [iv] ∧
          Holds v' xs) := by
  by_cases hnil : xs = []
  · subst hnil
    obtain ⟨v', hadd, hv', hk⟩ := addFirst_ok iv hv
    refine ⟨v', ⟨0, fun fuel _ => ?_⟩, hk, Or.inl hv'⟩
    simp only [place]
    rw [if_pos (show v.size = 0 from hv.size), hadd]
  have hsize : ¬ v.size = 0 := by
    rw [hv.size, List.length_eq_zero_iff]
    exact hnil
  obtain ⟨as, hr, hd⟩ := hv.ring
  obtain ⟨r, hret, hcases⟩ := find_from iv.val as [] xs hr hd
  obtain ⟨b, hb⟩ : ∃ b, (as ++ [v.sentinel]).head? = some b := by cases as <;> simp
  have hr' : IsRing v.heap v.sentinel ([] ++ as) := hr
  obtain ⟨l, hl, hln⟩ := read_next (hr'.adjacent (p := v.sentinel) rfl hb).1
  -- what `place` does once the loop has returned
  have hplace : ∀ v', (match r with
      | some curr => v.insertBefore curr iv
      | none => if v.size < v.k then (v.newNode iv).pushBack v.heap.brk else pure v) = .ok v' →
      Returns (fun fuel => v.place fuel iv) v' := by
    intro v' hv'
    refine (hret.bind (g := fun _ r => match r with
      | some curr => v.insertBefore curr iv
      | none => if v.size < v.k then (v.newNode iv).pushBack v.heap.brk else pure v)
      ⟨0, fun _ _ => hv'⟩).of_eq fun fuel => ?_
    rw [place, if_neg hsize, hl, ok_bind, hln, hb]
  rcases hcases with ⟨rfl, hall⟩ | ⟨as₁, q, as₂, xs₁, x, xs₂, rfl, rfl, rfl, hd₁, hd₂, hle, hlt⟩
  · have hins : insertSorted IndexVal.val iv xs = xs ++ [iv] := by
      have hpost : ∀ y ∈ ([] : List (IndexVal α)).head?, iv.val < y.val := by simp
      have h := insertSorted_eq hall hpost
      rwa [List.append_nil] at h
    by_cases hlt : v.size < v.k
    · obtain ⟨v', hpush, hv', hk⟩ := pushBack_ok iv hv hnil
      exact ⟨v', hplace v' (by simp only [if_pos hlt, hpush]), hk, Or.inl (hins ▸ hv')⟩
    · refine ⟨v, hplace v (by simp only [if_neg hlt, pure_ok]), rfl, Or.inr ⟨?_, hnil, hins, hv⟩⟩
      rw [← hv.size]
      exact Nat.le_of_not_lt hlt
  · obtain ⟨v', hinsert, hv', hk⟩ := insertBefore_ok iv hr hd₁ hd₂ hv.size
    have hpost : ∀ y ∈ (x :: xs₂).head?, iv.val < y.val := by simpa using hlt
    have hins := insertSorted_eq hle hpost
    exact ⟨v', hplace v' hinsert, hk, Or.inl (hins ▸ hv')⟩

/-- `eval` keeps the `k` smallest entries, in order. -/
theorem eval_returns (iv : IndexVal α) {xs : List (IndexVal α)} (hv : Holds v xs)
    (hle : xs.length ≤ v.k) :
    ∃ v', Returns (fun fuel => v.eval fuel iv) v' ∧ v'.k = v.k ∧
      Holds v' ((insertSorted IndexVal.val iv xs).take v.k) := by
  obtain ⟨v₁, hret, hk, hcases⟩ := place_returns iv hv
  have heval : ∀ v₂, v₁.trim = .ok v₂ →
      Returns (fun fuel => v.eval fuel iv) v₂.invalidateCache := by
    intro v₂ hv₂
    refine hret.bind (g := fun _ v => do
      let v ← v.trim
      return v.invalidateCache) ⟨0, fun _ _ => ?_⟩
    rw [hv₂]
    rfl
  rcases hcases with hv₁ | ⟨hge, -, hins, hv₁⟩
  · have hlen := length_insertSorted IndexVal.val iv xs
    obtain ⟨v₂, htrim, hv₂, hk₂⟩ := trim_ok hv₁ (by omega)
    exact ⟨_, heval v₂ htrim, hk₂.trans hk, hk ▸ ⟨hv₂.ring, hv₂.size⟩⟩
  · obtain ⟨v₂, htrim, hv₂, hk₂⟩ := trim_ok hv₁ (by omega)
    refine ⟨_, heval v₂ htrim, hk₂.trans hk, ?_⟩
    have htake : (xs ++ [iv]).take v.k = xs.take v₁.k := by
      rw [hk, List.take_append_of_le_length hge]
    rw [hins, htake]
    exact ⟨hv₂.ring, hv₂.size⟩

/-- After `es` have been offered to it, a vector holds the first `k` of their stable sort. -/
def Evaluated (v : NNVector α) (es : List (IndexVal α)) : Prop :=
  Holds v ((stableSort IndexVal.val es).take v.k)

theorem evaluated_new (dataMax : α) (k : Nat) : Evaluated (new dataMax k) [] := by
  have h : stableSort IndexVal.val ([] : List (IndexVal α)) = [] :=
    List.Perm.eq_nil (stableSort_perm _ _)
  rw [Evaluated, h, List.take_nil]
  exact holds_new dataMax k

theorem Evaluated.eval {es : List (IndexVal α)} (h : Evaluated v es) (iv : IndexVal α) :
    ∃ v', Returns (fun fuel => v.eval fuel iv) v' ∧ v'.k = v.k ∧ Evaluated v' (es ++ [iv]) := by
  obtain ⟨v', hret, hk, hv'⟩ := eval_returns iv h (by simp)
  refine ⟨v', hret, hk, ?_⟩
  rw [take_insertSorted, insertSorted_stableSort] at hv'
  rwa [Evaluated, hk]

/-! ## A history of calls -/

/-- The cache is cold after every call. -/
theorem eval_cache {fuel : Nat} {iv : IndexVal α} {v' : NNVector α}
    (h : v.eval fuel iv = .ok v') : v'.cache.2 = none := by
  unfold eval at h
  obtain ⟨v₁, -, h⟩ := bind_ok h
  obtain ⟨v₂, -, h⟩ := bind_ok h
  cases h
  rfl

/-- Calls of `eval`, one after the other. -/
def evalAll (fuel : Nat) (v : NNVector α) (es : List (IndexVal α)) : Except Fault (NNVector α) :=
  es.foldlM (fun v iv => v.eval fuel iv) v

theorem evalAll_returns (dataMax : α) (k : Nat) (es : List (IndexVal α)) :
    ∃ v, Returns (fun fuel => evalAll fuel (new dataMax k) es) v ∧ v.k = k ∧ Evaluated v es ∧
      v.cache.2 = none := by
  refine foldlM_returns (fun fuel iv v => v.eval fuel iv) es
    (fun pre v => v.k = k ∧ Evaluated v pre ∧ v.cache.2 = none) ?_
    ⟨rfl, evaluated_new dataMax k, rfl⟩
  rintro pre iv post v - ⟨hk, he, -⟩
  obtain ⟨v', hret, hk', he'⟩ := he.eval iv
  obtain ⟨N, hN⟩ := hret
  exact ⟨v', ⟨N, hN⟩, hk'.trans hk, he', eval_cache (hN N (le_refl N))⟩

omit [LinearOrder α] in
theorem Holds.walk_next {xs : List (IndexVal α)} (hv : Holds v xs) :
    Returns (walk v.heap v.sentinel Link.next) xs := by
  obtain ⟨as, hr, hd⟩ := hv.ring
  exact hr.walk_next hd

omit [LinearOrder α] in
theorem Holds.walk_prev {xs : List (IndexVal α)} (hv : Holds v xs) :
    Returns (walk v.heap v.sentinel Link.prev) xs.reverse := by
  obtain ⟨as, hr, hd⟩ := hv.ring
  exact hr.walk_prev hd

theorem take_stableSort (k : Nat) (es : List (IndexVal α)) :
    (stableSort IndexVal.val es).take k =
      (stableSort IndexVal.val es).take (min k es.length) := by
  rw [← (stableSort_perm IndexVal.val es).length_eq, List.take_eq_take_iff]
  omega

theorem Evaluated.size_eq {es : List (IndexVal α)} (h : Evaluated v es) :
    v.size = min v.k es.length := by
  rw [h.size, List.length_take, (stableSort_perm IndexVal.val es).length_eq]

/-- Any number of calls of `eval` returns, and leaves the first `min k n` of the `n` entries in the
    order of a stable sort: so the list reads forwards, and in reverse backwards. -/
theorem keeps_first_of_stableSort (dataMax : α) (k : Nat) (es : List (IndexVal α)) :
    ∃ v, Returns (fun fuel => evalAll fuel (new dataMax k) es) v ∧
      v.size = min k es.length ∧
      Returns (walk v.heap v.sentinel Link.next)
        ((stableSort IndexVal.val es).take (min k es.length)) ∧
      Returns (walk v.heap v.sentinel Link.prev)
        ((stableSort IndexVal.val es).take (min k es.length)).reverse := by
  obtain ⟨v, hret, rfl, he, -⟩ := evalAll_returns dataMax k es
  rw [← take_stableSort]
  exact ⟨v, hret, he.size_eq, he.walk_next, he.walk_prev⟩

end Eval

end NNVector

end Monya
