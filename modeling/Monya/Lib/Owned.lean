/-
  What a heap still holds.

  `live h` is the set of the addresses with a cell. An allocation adds one, a store changes none and
  a `delete` takes one away, so a program that deletes everything it allocated ends with the empty
  set. `delete` faults on an address without a cell: one that returns has not freed anything twice.

  `Ensures x Q` says that what `x` returns meets `Q`, if it returns: with its rule for `>>=` a
  property that every store keeps is carried through a program statement by statement.

  `Spans left right h t` says that the cells of the nodes of `t` are linked by the two fields `left`
  and `right` in the shape of `t`, whatever else they hold.
-/
import Mathlib.Data.Finset.Card
import Mathlib.Data.Finset.Range
import Monya.Lib.LinkedTree

namespace Monya.Lib

namespace Heap

variable {V : Type} {h h' : Heap V} {a : Nat} {v : V}

/-- `delete` of a non-null pointer. -/
def delete (h : Heap V) (a : Nat) : Except Fault (Heap V) := do
  let _ ← h.read a
  return h.free a

def live (h : Heap V) : Finset Nat := (Finset.range h.brk).filter fun a => (h.cell a).isSome

theorem mem_live : a ∈ h.live ↔ ∃ v, h.cell a = some v := by
  unfold live
  rw [Finset.mem_filter, Finset.mem_range, Option.isSome_iff_exists]
  constructor
  · exact And.right
  · rintro ⟨v, hv⟩
    exact ⟨h.lt_brk hv, v, hv⟩

theorem brk_notMem_live (h : Heap V) : h.brk ∉ h.live := by
  rw [mem_live]
  rintro ⟨v, hv⟩
  exact absurd (h.lt_brk hv) (Nat.lt_irrefl _)

theorem live_eq_empty : h.live = ∅ ↔ ∀ a, h.cell a = none := by
  rw [Finset.eq_empty_iff_forall_notMem]
  refine forall_congr' fun a => ?_
  rw [mem_live, Option.eq_none_iff_forall_ne_some, not_exists]

@[simp] theorem live_empty : (Heap.empty : Heap V).live = ∅ := live_eq_empty.mpr fun _ => rfl

theorem live_alloc (h : Heap V) (v : V) : (h.alloc v).live = insert h.brk h.live := by
  ext a
  rw [Finset.mem_insert, mem_live, mem_live, alloc_cell]
  by_cases ha : a = h.brk
  · simp [ha]
  · simp [ha]

theorem card_live_alloc (h : Heap V) (v : V) : (h.alloc v).live.card = h.live.card + 1 := by
  rw [live_alloc, Finset.card_insert_of_notMem h.brk_notMem_live]

@[simp] theorem live_update (h : Heap V) (a : Nat) (f : V → V) : (h.update a f).live = h.live := by
  ext b
  rw [mem_live, mem_live, update_cell]
  split
  · simp
  · rfl

theorem live_modify {f : V → V} (hm : h.modify a f = .ok h') : h'.live = h.live := by
  rw [(of_modify hm).1, live_update]

theorem live_free (h : Heap V) (a : Nat) : (h.free a).live = h.live.erase a := by
  ext b
  rw [Finset.mem_erase, mem_live, mem_live, free]
  by_cases hb : b = a
  · simp [hb]
  · simp [hb]

theorem delete_ok (ha : h.cell a = some v) : h.delete a = .ok (h.free a) := by
  rw [delete, read_ok ha, ok_bind, pure_ok]

end Heap

/-! ## What a run that returns ensures -/

section Ensures

variable {β γ : Type} {x : Except Fault β} {f : β → Except Fault γ} {P : β → Prop} {Q : γ → Prop}

def Ensures (x : Except Fault β) (Q : β → Prop) : Prop := ∀ b, x = .ok b → Q b

theorem Ensures.bind (hx : Ensures x P) (hf : ∀ b, P b → Ensures (f b) Q) :
    Ensures (x >>= f) Q := by
  intro c h
  obtain ⟨b, hb, h⟩ := bind_ok h
  exact hf b (hx b hb) c h

/-- A statement of which nothing is needed. -/
theorem Ensures.skip (hf : ∀ b, Ensures (f b) Q) : Ensures (x >>= f) Q :=
  Ensures.bind (P := fun _ => True) (fun _ _ => trivial) fun b _ => hf b

theorem Ensures.ok {b : β} (h : P b) : Ensures (.ok b) P := by
  intro b' hb
  cases hb
  exact h

theorem Ensures.ite {c : Prop} [Decidable c] {y : Except Fault β} (hx : Ensures x P)
    (hy : Ensures y P) : Ensures (if c then x else y) P := by
  split
  · exact hx
  · exact hy

/-- The pass goes on in a state of `I`, or leaves the loop with `Q`. -/
def Pass.All {σ : Type} (I : σ → Prop) (Q : β → Prop) : Pass σ β → Prop
  | .next s => I s
  | .done b => Q b

theorem Ensures.loop {σ : Type} {body : σ → Except Fault (Pass σ β)} {I : σ → Prop}
    (hbody : ∀ s, I s → Ensures (body s) (Pass.All I P)) {s : σ} (hs : I s) (fuel : Nat) :
    Ensures (loop body fuel s) P :=
  fun _ h =>
    loop_ok_keeps (fun s _ hn hI => hbody s hI _ hn) (fun s _ hd hI => hbody s hI _ hd) h hs

end Ensures

/-! ## Trees of cells -/

theorem BTree.length_addrs {β : Type} (t : BTree β) : t.addrs.length = t.size := by
  rw [addrs, List.length_map, size]

namespace TreeMem

variable {β : Type} {m m' m'' : TreeMem β}

/-- Nothing has been allocated or deleted between the two memories. -/
structure SameSpace (m m' : TreeMem β) : Prop where
  brk : m'.heap.brk = m.heap.brk
  live : m'.heap.live = m.heap.live

theorem SameSpace.refl (m : TreeMem β) : SameSpace m m := ⟨rfl, rfl⟩

theorem SameSpace.trans (h : SameSpace m m') (h' : SameSpace m' m'') : SameSpace m m'' :=
  ⟨h'.brk.trans h.brk, h'.live.trans h.live⟩

theorem SameKeys.live {γ : Type} {key : β → γ} (h : SameKeys key m m') :
    m'.heap.live = m.heap.live := by
  ext a
  rw [Heap.mem_live, Heap.mem_live, ← Option.isSome_iff_exists, ← Option.isSome_iff_exists]
  have ha := congrArg Option.isSome (h a)
  rw [Option.isSome_map, Option.isSome_map] at ha
  exact Bool.eq_iff_iff.mp ha

/-- The rule for a store: what comes after it may assume that the space is the same. -/
theorem SameSpace.store {γ : Type} {g : TreeMem β → Except Fault γ} {Q : γ → Prop} {a : Nat}
    {f : Cell β → Cell β} (h : SameSpace m m') (hg : ∀ m₁, SameSpace m m₁ → Ensures (g m₁) Q) :
    Ensures (m'.modify a f >>= g) Q := by
  refine Ensures.bind (P := SameSpace m) (fun m₁ hm => ?_) hg
  obtain ⟨h₁, hmod, hm⟩ := bind_ok hm
  cases hm
  obtain ⟨rfl, -⟩ := Heap.of_modify hmod
  exact h.trans ⟨rfl, Heap.live_update _ _ _⟩

/-- The last store of a function. -/
theorem SameSpace.last {a : Nat} {f : Cell β → Cell β} (h : SameSpace m m') :
    Ensures (m'.modify a f) (SameSpace m) := by
  have hstore := h.store (a := a) (f := f) (g := .ok) (Q := SameSpace m) fun _ => Ensures.ok
  intro m₁ hm
  exact hstore m₁ (by rw [hm]; rfl)

end TreeMem

section Spans

variable {V β : Type} {left right : V → Ptr} {h h' : Heap V} {t : BTree β}

def Spans (left right : V → Ptr) (h : Heap V) : BTree β → Prop
  | .nil => True
  | .node a _ l r => (∃ v, h.cell a = some v ∧ left v = l.root ∧ right v = r.root) ∧
      Spans left right h l ∧ Spans left right h r

theorem Spans.frame (ht : Spans left right h t) (hc : ∀ a ∈ t.addrs, h'.cell a = h.cell a) :
    Spans left right h' t := by
  induction t with
  | nil => trivial
  | node a v l r ihl ihr =>
    obtain ⟨⟨w, hw, hl, hr⟩, htl, htr⟩ := ht
    refine ⟨⟨w, by rw [hc a (by simp), hw], hl, hr⟩, ihl htl fun b hb => hc b ?_,
      ihr htr fun b hb => hc b ?_⟩
    · simp [hb]
    · simp [hb]

theorem Spans.cell (ht : Spans left right h t) {a : Nat} (ha : a ∈ t.addrs) :
    ∃ v, h.cell a = some v := by
  induction t with
  | nil => cases ha
  | node b v l r ihl ihr =>
    obtain ⟨⟨w, hw, -, -⟩, htl, htr⟩ := ht
    rw [BTree.addrs_node, List.mem_append, List.mem_cons] at ha
    rcases ha with ha | rfl | ha
    · exact ihl htl ha
    · exact ⟨w, hw⟩
    · exact ihr htr ha

theorem Linked.spans {m : TreeMem β} {p : Ptr} (ht : Linked m p t) :
    Spans Cell.left Cell.right m.heap t := by
  induction t generalizing p with
  | nil => trivial
  | node a v l r ihl ihr => exact ⟨⟨_, ht.1, rfl, rfl⟩, ihl ht.2.1, ihr ht.2.2⟩

end Spans

end Monya.Lib
