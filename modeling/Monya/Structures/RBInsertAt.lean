/-
  `RBTree::insert_at`.

  `insert_at` hangs the new node below `node` and then calls `balance` with `node` in the place of
  the new node and of its parent. `balance` links its arguments once more, so it makes `node` a
  child of itself (`linkNode_self`), and each pass of its loop only moves that link to the other
  side (`balanceStep_twisted`). So a call that does not throw never ends (`insertAt_outOfFuel`), and
  it throws by the left child alone, wherever the new node is to go.

  `insertAt_attaches_iff` has what is left of the intent: the calls for an occupied position that
  are told apart by the left child.
-/
import Monya.Structures.RBInsert

namespace Monya.Structures

open Monya.Lib

namespace RBTree

variable {α : Type} {m : RBTree α} {p : Nat}

/-! ## A node that is its own child -/

/-- The node `p` is red, its own parent and its own child, at the side other than `s`. -/
def Twisted (p : Nat) (s : Side) (m : RBTree α) : Prop :=
  ∃ k, m.cell p = some (Cell.mkAt s (some p) ⟨.red, k⟩ none (some p))

theorem rotate_self {s : Side} {v : RBVal α}
    (h : m.cell p = some (Cell.mkAt s (some p) v none (some p))) :
    ∃ m', rotate s p m = .ok m' ∧
      m'.cell p = some (Cell.mkAt s.other (some p) v none (some p)) := by
  set m₁ := m.upd p (·.setChild s.other none) with hm₁
  set m₂ := m₁.upd p (·.setParent (some p)) with hm₂
  set m₃ := m₂.upd p (·.setChild s (some p)) with hm₃
  have h₁ : m₁.cell p = some (Cell.mkAt s (some p) v none none) := by
    rw [hm₁, TreeMem.upd_cell h, Cell.mkAt_setChild_other]
  have h₂ : m₂.cell p = some (Cell.mkAt s (some p) v none none) := by
    rw [hm₂, TreeMem.upd_cell h₁, Cell.mkAt_setParent]
  have h₃ : m₃.cell p = some (Cell.mkAt s (some p) v (some p) none) := by
    rw [hm₃, TreeMem.upd_cell h₂, Cell.mkAt_setChild]
  -- the re-hanging writes the link that is there
  obtain ⟨m₄, hm₄, h₄⟩ : ∃ m₄, hang p (some p) m₃ = .ok m₄ ∧
      m₄.cell p = some (Cell.mkAt s (some p) v (some p) none) := by
    refine ⟨m₃.upd p (·.setChild s (some p)), ?_, by rw [TreeMem.upd_cell h₃, Cell.mkAt_setChild]⟩
    unfold hang
    rw [TreeMem.parent_ok h₃, ok_bind, Cell.mkAt_parent]
    simp only [TreeMem.child_ok h₃, ok_bind, TreeMem.setChild_ok h₃]
    cases s with
    | left => exact if_pos rfl
    | right => exact if_neg (by simp [Cell.mkAt, Cell.child])
  refine ⟨m₄.upd p (·.setParent (some p)), ?_, ?_⟩
  · simp only [rotate, TreeMem.child_ok h, Cell.mkAt_child_other, ok_bind, target_some,
      Cell.mkAt_child, TreeMem.setChild_ok h, ← hm₁, pure_ok, TreeMem.parent_ok h₁,
      Cell.mkAt_parent, TreeMem.setParent_ok h₁, ← hm₂, TreeMem.setChild_ok h₂, ← hm₃, hm₄,
      TreeMem.setParent_ok h₄]
  · rw [TreeMem.upd_cell h₄, Cell.mkAt_setParent]
    cases s <;> rfl

/-- A pass of `balance` from a node that is its own child leaves one that is its own child. -/
theorem balanceStep_twisted {s : Side} (h : Twisted p s m) :
    ∃ m', balanceStep (p, m) = .ok (.next (p, m')) ∧ Twisted p s.other m' := by
  obtain ⟨k, h⟩ := h
  have hside : (if (Cell.mkAt s (some p) (⟨.red, k⟩ : RBVal α) none (some p)).child .left = some p
      then Side.left else Side.right) = s.other := by
    cases s <;> simp [Cell.mkAt, Cell.child]
  have hb : (recolor m p .black).cell p =
      some (Cell.mkAt s (some p) ⟨.black, k⟩ none (some p)) := by
    rw [recolor_cell h, Cell.mkAt_setVal, Cell.mkAt_val]
  have hr : (recolor (recolor m p .black) p .red).cell p =
      some (Cell.mkAt s (some p) ⟨.red, k⟩ none (some p)) := by
    rw [recolor_cell hb, Cell.mkAt_setVal, Cell.mkAt_val]
  obtain ⟨m', hm', h'⟩ := rotate_self hr
  refine ⟨m', ?_, k, h'⟩
  have hturn : turnInner s.other p p m = .ok (p, m) := by
    unfold turnInner
    rw [TreeMem.child_ok h, ok_bind, Side.other_other, Cell.mkAt_child, if_neg (by simp)]
    rfl
  have hraise : raiseParent s.other p m = .ok m' := by
    simp only [raiseParent, TreeMem.parent_ok h, Cell.mkAt_parent, ok_bind, target_some,
      setColor_ok h, TreeMem.parent_ok hb, setColor_ok hb, Side.other_other, rotateAt_eq, hm']
  simp only [balanceStep, TreeMem.parent_ok h, Cell.mkAt_parent, ok_bind, color_ok h,
    Cell.mkAt_val, reduceCtorEq, if_false, target_some, TreeMem.child_ok h, hside,
    Side.other_other, Cell.mkAt_child, isRed, hturn, hraise, pure_ok, Bool.false_eq_true]

section Ordered

variable [LinearOrder α] {n : Nat} {c d : Cell (RBVal α)}

/-- `balance` called with a node as its own parent makes it its own child. -/
theorem linkNode_self (h : m.cell p = some c) :
    ∃ m', linkNode (some p) p m = .ok m' ∧ Twisted p .left m' := by
  set m₁ := recolor m p .red with hm₁
  set m₂ := m₁.upd p (·.setParent (some p)) with hm₂
  set m₃ := m₂.upd p (·.setChild .right none) with hm₃
  set m₄ := m₃.upd p (·.setChild .left none) with hm₄
  have h₁ : m₁.cell p = _ := recolor_cell h .red
  have h₂ : m₂.cell p = _ := TreeMem.upd_cell h₁ _
  have h₃ : m₃.cell p = _ := TreeMem.upd_cell h₂ _
  have h₄ : m₄.cell p = _ := TreeMem.upd_cell h₃ _
  refine ⟨m₄.upd p (·.setChild .right (some p)), ?_, c.val.comparator, TreeMem.upd_cell h₄ _⟩
  -- a comparator is not below itself
  simp only [linkNode, setColor_ok h, ← hm₁, ok_bind, TreeMem.setParent_ok h₁, ← hm₂,
    TreeMem.setChild_ok h₂, ← hm₃, TreeMem.setChild_ok h₃, ← hm₄, comparator_ok h₄, lt_irrefl,
    if_false, TreeMem.setChild_ok h₄]

theorem balance_self_outOfFuel (h : m.cell p = some c) (fuel : Nat) :
    balance fuel (some p) p m = .error .outOfFuel := by
  obtain ⟨m', hm', htw⟩ := linkNode_self h
  have hloop : loop balanceStep fuel (p, m') = .error .outOfFuel := by
    refine loop_diverges (fun x => x.1 = p ∧ ∃ s, Twisted p s x.2) ?_ ⟨rfl, .left, htw⟩ fuel
    rintro ⟨q, m⟩ ⟨rfl, s, hs⟩
    obtain ⟨m', hstep, hs'⟩ := balanceStep_twisted hs
    exact ⟨(q, m'), hstep, rfl, s.other, hs'⟩
  unfold balance
  rw [hm', ok_bind, hloop, error_bind]

/-! ## The two outcomes of a call -/

/-- With a left child the call throws, for either position. -/
theorem insertAt_thrown (h : m.cell p = some c) (hleft : c.left ≠ none) (fuel : Nat) (pos : Side) :
    insertAt fuel n p pos m = .error (.thrown "Left child already populated") := by
  unfold insertAt
  rw [TreeMem.child_ok h, ok_bind]
  exact if_pos hleft

/-- Without a left child it never ends. -/
theorem insertAt_outOfFuel (h : m.cell p = some c) (hleft : c.left = none) (hn : m.cell n = some d)
    (hne : n ≠ p) (fuel : Nat) (pos : Side) :
    insertAt fuel n p pos m = .error .outOfFuel := by
  obtain ⟨m', hstores, -, hne', -, -⟩ := redLeaf_ok hn p
  have hp : m'.cell p = some c := by rw [hne' p hne.symm, h]
  have hq := TreeMem.upd_cell hp (·.setChild pos (some n))
  have hchild : ¬ c.child .left ≠ none := not_not.mpr hleft
  unfold insertAt
  rw [TreeMem.child_ok h, ok_bind, if_neg hchild]
  refine (hstores _).trans ?_
  rw [TreeMem.setChild_ok hp, ok_bind, balance_self_outOfFuel hq]

/-! ## Trees built by insertions -/

/-- There is a child at this side of the node. -/
def Occupied (m : RBTree α) (pos : Side) (p : Nat) : Prop := ∃ q, m.child pos p = .ok (some q)

/-- What `insert_at` is for, on a tree of the nodes `nodes`: it throws for an occupied position and
    only for one, and at any other it returns a tree with one more node. -/
structure Attaches (nodes : List Nat) (n p : Nat) (pos : Side) (m : RBTree α) : Prop where
  throws : (∃ what, Raises (fun fuel => insertAt fuel n p pos m) (.thrown what)) ↔ Occupied m pos p
  attached : ¬ Occupied m pos p → ∃ m' t, Returns (fun fuel => insertAt fuel n p pos m) m' ∧
    Holds m' t ∧ t.addrs.Perm (n :: nodes)

omit [LinearOrder α] in
theorem occupied_iff (h : m.cell p = some c) (pos : Side) :
    Occupied m pos p ↔ c.child pos ≠ none := by
  unfold Occupied
  rw [TreeMem.child_ok h, Option.ne_none_iff_exists']
  exact exists_congr fun q => ⟨Except.ok.inj, congrArg _⟩

theorem attaches_iff {nodes : List Nat} (h : m.cell p = some c) (hn : m.cell n = some d)
    (hne : n ≠ p) (pos : Side) :
    Attaches nodes n p pos m ↔ Occupied m .left p ∧ Occupied m pos p := by
  by_cases hleft : c.left = none
  · have hrun := fun fuel => insertAt_outOfFuel h hleft hn hne fuel pos
    have hno : ¬ Occupied m .left p := fun ho => (occupied_iff h .left).mp ho hleft
    refine ⟨fun ha => absurd ha ?_, fun ho => absurd ho.1 hno⟩
    -- neither of the two happens
    rintro ⟨hthrows, hattached⟩
    by_cases ho : Occupied m pos p
    · obtain ⟨what, N, hN⟩ := hthrows.mpr ho
      have hraise : insertAt N n p pos m = .error (.thrown what) := hN N (le_refl N)
      rw [hrun] at hraise
      cases hraise
    · obtain ⟨m', t, hret, -⟩ := hattached ho
      exact not_returns_of_outOfFuel hrun m' hret
  · have hrun := fun fuel => insertAt_thrown (n := n) h hleft fuel pos
    have hyes : Occupied m .left p := (occupied_iff h .left).mpr hleft
    have hraise : ∃ what, Raises (fun fuel => insertAt fuel n p pos m) (.thrown what) :=
      ⟨_, 0, fun fuel _ => hrun fuel⟩
    exact ⟨fun ha => ⟨hyes, ha.throws.mp hraise⟩,
      fun ho => ⟨⟨fun _ => ho.2, fun _ => hraise⟩, fun hno => absurd ho.2 hno⟩⟩

/-- On a tree built by insertions, `insert_at` does what it is for exactly if the node has a left
    child and the position is occupied. -/
theorem insertAt_attaches_iff (k : Nat → α) (nodes : List Nat) (m₀ : RBTree α)
    (hroot : m₀.root = none) (hnd : nodes.Nodup)
    (hk : ∀ n ∈ nodes, ∃ d, m₀.cell n = some d ∧ d.val.comparator = k n) :
    ∃ m, Returns (fun fuel => insertAll fuel nodes m₀) m ∧
      ∀ p ∈ nodes, ∀ pos n, n ∉ nodes → ∀ d, m.cell n = some d →
        (Attaches nodes n p pos m ↔ Occupied m .left p ∧ (pos = .left ∨ Occupied m .right p)) := by
  obtain ⟨m, t, hret, hg⟩ := insertAll_returns hroot hnd hk
  refine ⟨m, hret, fun p hp pos n hn d hd => ?_⟩
  obtain ⟨c, hc⟩ := hg.holds.cell_of_mem (hg.addrs_perm.mem_iff.mpr hp)
  have hne : n ≠ p := fun he => hn (he ▸ hp)
  rw [attaches_iff hc hd hne pos]
  cases pos with
  | left => simp
  | right => simp

end Ordered

/-- The node 0 with its left child 1, and the node 2 outside. -/
theorem insertAll_two : ∃ m, Returns (fun fuel => insertAll fuel [0, 1] threeNodes) m ∧
    m.child .left 0 = .ok (some 1) ∧ ∃ d, m.cell 2 = some d := by
  refine ⟨match insertAll 3 [0, 1] threeNodes with | .ok m => m | .error _ => TreeMem.empty,
    ⟨3, fun fuel hf => ?_⟩, rfl, _, rfl⟩
  obtain ⟨k, rfl⟩ := Nat.exists_eq_add_of_le' hf
  rfl

theorem insertAt_attaches_left : ∃ m, Returns (fun fuel => insertAll fuel [0, 1] threeNodes) m ∧
    Occupied m .left 0 ∧ Attaches [0, 1] 2 0 .left m := by
  obtain ⟨m, hret, hiff⟩ := insertAt_attaches_iff (fun n => if n = 0 then 2 else 1) [0, 1]
    threeNodes rfl (by decide) (by decide)
  obtain ⟨m', hret', hleft, d, hd⟩ := insertAll_two
  cases hret.unique hret'
  have hocc : Occupied m .left 0 := ⟨1, hleft⟩
  exact ⟨m, hret, hocc, (hiff 0 (by decide) .left 2 (by decide) d hd).mpr ⟨hocc, Or.inl rfl⟩⟩

/-- Below the only node of a tree, which has no children, `insert_at` never ends. -/
theorem insertAt_only_node : ∃ m, Returns (fun fuel => insertAll fuel [0] threeNodes) m ∧
    ¬ Occupied m .right 0 ∧ (∃ d, m.cell 1 = some d) ∧
      (∀ fuel, insertAt fuel 1 0 .right m = .error .outOfFuel) ∧ ¬ Attaches [0] 1 0 .right m := by
  obtain ⟨m, hret, c, d, hc, hl, hr, hd⟩ : ∃ m,
      Returns (fun fuel => insertAll fuel [0] threeNodes) m ∧ ∃ c d,
        m.cell 0 = some c ∧ c.left = none ∧ c.right = none ∧ m.cell 1 = some d := by
    refine ⟨match insertAll 2 [0] threeNodes with | .ok m => m | .error _ => TreeMem.empty,
      ⟨2, fun fuel hf => ?_⟩, _, _, rfl, rfl, rfl, rfl⟩
    obtain ⟨k, rfl⟩ := Nat.exists_eq_add_of_le' hf
    rfl
  have hfree : ¬ Occupied m .right 0 := fun ho => (occupied_iff hc .right).mp ho hr
  exact ⟨m, hret, hfree, ⟨d, hd⟩, fun fuel => insertAt_outOfFuel hc hl hd (by decide) fuel .right,
    fun ha => hfree ((attaches_iff hc hd (by decide) .right).mp ha).2⟩

end RBTree

end Monya.Structures
