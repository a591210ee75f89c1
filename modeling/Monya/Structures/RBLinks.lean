/-
  What the link-changing helpers of `RBTree` do to the tree in memory.

  Each is followed with the zipper of `Lib.LinkedTree`: `rotate_holds` is the rotation of the
  subtree in the hole, `linkNode_holds` the hanging of a new leaf in the hole and
  `setColor_holds` the recolouring of the node in the hole. The results are stated on `Holds`,
  so the parent pointers are covered by each of them, and each keeps `SameNodes`: no helper
  allocates or frees a node or writes a comparator, in the tree or outside of it.
-/
import Monya.Structures.RBTree

namespace Monya.Structures

open Monya.Lib

namespace RBTree

variable {α : Type} {m : RBTree α}

/-- The same nodes, with the same comparators. -/
abbrev SameNodes (m m' : RBTree α) : Prop := TreeMem.SameKeys RBVal.comparator m m'

/-! ## Recolouring -/

theorem color_ok {a : Nat} {c : Cell (RBVal α)} (h : m.cell a = some c) :
    color m a = .ok c.val.color := by
  unfold color
  rw [TreeMem.val_ok h]; rfl

theorem comparator_ok {a : Nat} {c : Cell (RBVal α)} (h : m.cell a = some c) :
    comparator m a = .ok c.val.comparator := by
  unfold comparator
  rw [TreeMem.val_ok h]; rfl

/-- The memory after a colour is assigned. -/
def recolor (m : RBTree α) (a : Nat) (col : Color) : RBTree α :=
  m.upd a fun c => c.setVal { c.val with color := col }

theorem setColor_ok {a : Nat} {c : Cell (RBVal α)} (h : m.cell a = some c) (col : Color) :
    setColor m a col = .ok (recolor m a col) := TreeMem.modify_ok h _

theorem recolor_cell {a : Nat} {c : Cell (RBVal α)} (h : m.cell a = some c) (col : Color) :
    (recolor m a col).cell a = some (c.setVal { c.val with color := col }) := TreeMem.upd_cell h _

theorem sameNodes_recolor (a : Nat) (col : Color) : SameNodes m (recolor m a col) := by
  refine TreeMem.sameKeys_upd ?_ a
  exact fun _ => rfl

/-- Colouring the node in the hole. -/
theorem holds_recolor {c : List (Frame (RBVal α))} {s : Side} {a : Nat} {v : RBVal α}
    {x y : BTree (RBVal α)} (h : Holds m (plug c (.join s a v x y))) (col : Color) :
    Holds (recolor m a col) (plug c (.join s a { v with color := col } x y)) := by
  cases s <;> exact h.upd_focus rfl

theorem setColor_holds {c : List (Frame (RBVal α))} {s : Side} {a : Nat} {v : RBVal α}
    {x y : BTree (RBVal α)} (h : Holds m (plug c (.join s a v x y))) (col : Color) :
    ∃ m', setColor m a col = .ok m' ∧
      Holds m' (plug c (.join s a { v with color := col } x y)) ∧ SameNodes m m' := by
  obtain ⟨hcell, _⟩ := linked_join.mp h.focus
  exact ⟨_, setColor_ok hcell col, holds_recolor h col, sameNodes_recolor a col⟩

/-! ## Re-hanging a subtree -/

theorem hang_eq {c : List (Frame (RBVal α))} {x : Nat} (hctx : LinkedCtx m (some x) c)
    (hpar : m.parent x = .ok (holeParent c)) (hx : x ∉ ctxAddrs c) (q : Ptr) :
    hang x q m = .ok (hung c q m) := by
  unfold hang
  rw [hpar, ok_bind]
  cases c with
  | nil => rfl
  | cons f c =>
    have hf := hctx.1
    simp only [holeParent_cons, hung, TreeMem.child_ok hf, ok_bind, TreeMem.setChild_ok hf]
    cases hs : f.side with
    | left => rw [if_pos]; simp [Frame.cell, hs, Cell.mkAt, Cell.child]
    | right =>
      -- the left child is the sibling, and `x` is not in it
      rw [if_neg]
      intro he
      have hroot : f.sib.root = some x := by simpa [Frame.cell, hs, Cell.mkAt, Cell.child] using he
      exact hx (by simp [BTree.root_mem_addrs hroot])

/-! ## Rotation -/

section Rotate

variable {c : List (Frame (RBVal α))} {s : Side} {x y : Nat} {vx vy : RBVal α}
  {A B C : BTree (RBVal α)}

/-- The stores of a rotation, up to the re-hanging: the inner subtree `B` changes parent, and
    `x` and `y` swap places. -/
def rotated (s : Side) (x y : Nat) (p : Ptr) (B : BTree (RBVal α)) (m : RBTree α) : RBTree α :=
  let m := m.upd x (·.setChild s.other B.root)
  let m := match B.root with
    | none => m
    | some b => m.upd b (·.setParent (some x))
  let m := m.upd y (·.setParent p)
  m.upd y (·.setChild s (some x))

theorem rotated_cell_ne {p : Ptr} {a : Nat} (hx : a ≠ x) (hy : a ≠ y) (hb : B.root ≠ some a) :
    (rotated s x y p B m).cell a = m.cell a := by
  unfold rotated
  cases hB : B.root with
  | none => simp only [TreeMem.upd_cell_ne _ _ hx, TreeMem.upd_cell_ne _ _ hy]
  | some b =>
    have hab : a ≠ b := fun he => hb (by rw [hB, he])
    simp only [TreeMem.upd_cell_ne _ _ hx, TreeMem.upd_cell_ne _ _ hy, TreeMem.upd_cell_ne _ _ hab]

theorem rotated_cell_x {p : Ptr} (hxy : x ≠ y) (hb : B.root ≠ some x) :
    (rotated s x y p B m).cell x = (m.cell x).map (·.setChild s.other B.root) := by
  unfold rotated
  cases hB : B.root with
  | none => simp only [TreeMem.upd_cell_ne _ _ hxy, TreeMem.upd_cell_self]
  | some b =>
    have hxb : x ≠ b := fun he => hb (by rw [hB, he])
    simp only [TreeMem.upd_cell_ne _ _ hxy, TreeMem.upd_cell_ne _ _ hxb, TreeMem.upd_cell_self]

theorem rotated_cell_y {p : Ptr} (hxy : y ≠ x) (hb : B.root ≠ some y) :
    (rotated s x y p B m).cell y =
      (m.cell y).map fun d => (d.setParent p).setChild s (some x) := by
  unfold rotated
  cases hB : B.root with
  | none =>
    simp only [TreeMem.upd_cell_self, TreeMem.upd_cell_ne _ _ hxy, Option.map_map]
    rfl
  | some b =>
    have hyb : y ≠ b := fun he => hb (by rw [hB, he])
    simp only [TreeMem.upd_cell_self, TreeMem.upd_cell_ne _ _ hxy, TreeMem.upd_cell_ne _ _ hyb,
      Option.map_map]
    rfl

theorem rotated_cell_b {p : Ptr} {b : Nat} (hB : B.root = some b) (hx : b ≠ x) (hy : b ≠ y) :
    (rotated s x y p B m).cell b = (m.cell b).map (·.setParent (some x)) := by
  unfold rotated
  simp only [hB, TreeMem.upd_cell_ne _ _ hy, TreeMem.upd_cell_self, TreeMem.upd_cell_ne _ _ hx]

theorem sameNodes_rotated (p : Ptr) : SameNodes m (rotated s x y p B m) := by
  unfold rotated
  refine .trans ?_ (.trans (TreeMem.sameKeys_setParent y p)
    (TreeMem.sameKeys_setChild s y (some x)))
  cases B.root with
  | none => exact TreeMem.sameKeys_setChild s.other x none
  | some b => exact .trans (TreeMem.sameKeys_setChild s.other x _) (TreeMem.sameKeys_setParent b _)

/-- The addresses around a rotation are apart from each other. -/
theorem rotate_apart (h : Holds m (plug c (.join s x vx A (.join s y vy B C)))) :
    x ≠ y ∧ x ∉ A.addrs ∧ x ∉ B.addrs ∧ x ∉ C.addrs ∧ y ∉ A.addrs ∧ y ∉ B.addrs ∧ y ∉ C.addrs ∧
      A.addrs.Nodup ∧ B.addrs.Nodup ∧ C.addrs.Nodup ∧ List.Disjoint A.addrs B.addrs ∧
      List.Disjoint A.addrs C.addrs ∧ List.Disjoint B.addrs C.addrs := by
  have hnd := h.focus_nodup
  rw [BTree.nodup_addrs_join, BTree.nodup_addrs_join] at hnd
  obtain ⟨hxA, hxr, hA, ⟨hyB, hyC, hB, hC, hBC⟩, hdis⟩ := hnd
  simp only [BTree.mem_addrs_join, not_or] at hxr
  refine ⟨hxr.1, hxA, hxr.2.1, hxr.2.2, fun hm => hdis hm ?_, hyB, hyC, hA, hB, hC,
    fun a ha hb => hdis ha ?_, fun a ha hb => hdis ha ?_, hBC⟩
  · simp [BTree.mem_addrs_join]
  · simp [BTree.mem_addrs_join, hb]
  · simp [BTree.mem_addrs_join, hb]

/-- The context does not see the stores before the re-hanging. -/
theorem rotated_ctx {p : Ptr} (h : Holds m (plug c (.join s x vx A (.join s y vy B C)))) :
    LinkedCtx (rotated s x y p B m) (some x) c := by
  have hc := h.ctx
  rw [BTree.root_join] at hc
  refine hc.frame fun a ha => ?_
  have hna := h.not_mem_focus ha
  simp only [BTree.mem_addrs_join, not_or] at hna
  exact rotated_cell_ne hna.1 hna.2.2.1 fun he => hna.2.2.2.1 (BTree.root_mem_addrs he)

theorem rotate_eq (h : Holds m (plug c (.join s x vx A (.join s y vy B C)))) :
    rotate s x m = .ok ((hung c (some y) (rotated s x y (holeParent c) B m)).upd x
      (·.setParent (some y))) := by
  obtain ⟨hxy, _, hxB, _, _, hyB, _⟩ := rotate_apart h
  obtain ⟨hx, _, hright⟩ := linked_join.mp h.focus
  obtain ⟨hy, hBl, _⟩ := linked_join.mp hright
  have hxb : B.root ≠ some x := fun he => hxB (BTree.root_mem_addrs he)
  have hyb : B.root ≠ some y := fun he => hyB (BTree.root_mem_addrs he)
  have hxc : x ∉ ctxAddrs c := fun hm => h.disjoint hm (by simp [BTree.mem_addrs_join])
  set p := holeParent c with hp
  -- the stores before the re-hanging
  have hx' : (rotated s x y p B m).cell x = some (Cell.mkAt s p vx A.root B.root) := by
    rw [rotated_cell_x hxy hxb, hx]
    simp
  have hhang := hang_eq (rotated_ctx h) (by rw [TreeMem.parent_ok hx', Cell.mkAt_parent])
    hxc (some y)
  have hxhung : (hung c (some y) (rotated s x y p B m)).cell x =
      some (Cell.mkAt s p vx A.root B.root) := by
    rw [hung_cell_ne, hx']
    exact fun he => hxc (holeParent_mem he)
  have hlast := TreeMem.setParent_ok hxhung (some y)
  unfold rotate
  rw [TreeMem.child_ok hx, ok_bind, Cell.mkAt_child_other, BTree.root_join, target_some, ok_bind,
    TreeMem.child_ok hy, ok_bind, Cell.mkAt_child, TreeMem.setChild_ok hx, ok_bind]
  have hx1 : (m.upd x (·.setChild s.other B.root)).cell x =
      some (Cell.mkAt s p vx A.root B.root) := by
    rw [TreeMem.upd_cell_self, hx]
    simp
  cases hB : B.root with
  | none =>
    have hy2 : (m.upd x (·.setChild s.other B.root)).cell y =
        some (Cell.mkAt s (some x) vy B.root C.root) := by
      rw [TreeMem.upd_cell_ne _ _ hxy.symm, hy]
    rw [hB] at hx1 hy2
    simp only [pure_ok, ok_bind, TreeMem.parent_ok hx1, Cell.mkAt_parent, TreeMem.setParent_ok hy2]
    rw [TreeMem.setChild_ok (c := (Cell.mkAt s (some x) vy none C.root).setParent p)
      (by rw [TreeMem.upd_cell_self, hy2]; rfl), ok_bind]
    simp only [rotated, hB] at hhang hlast
    simp only [rotated, hB, hhang, ok_bind, hlast]
  | some b =>
    have hbB : b ∈ B.addrs := BTree.root_mem_addrs hB
    have hbx : b ≠ x := fun he => hxB (he ▸ hbB)
    have hby : b ≠ y := fun he => hyB (he ▸ hbB)
    obtain ⟨d, hd⟩ := hBl.cell_of_mem hbB
    rw [hB] at hx1
    have hd1 : (m.upd x (·.setChild s.other (some b))).cell b = some d := by
      rw [TreeMem.upd_cell_ne _ _ hbx, hd]
    have hx2 : ((m.upd x (·.setChild s.other (some b))).upd b (·.setParent (some x))).cell x =
        some (Cell.mkAt s p vx A.root (some b)) := by
      rw [TreeMem.upd_cell_ne _ _ hbx.symm, hx1]
    have hy2 : ((m.upd x (·.setChild s.other (some b))).upd b (·.setParent (some x))).cell y =
        some (Cell.mkAt s (some x) vy B.root C.root) := by
      rw [TreeMem.upd_cell_ne _ _ hby.symm, TreeMem.upd_cell_ne _ _ hxy.symm, hy]
    simp only [TreeMem.setParent_ok hd1, ok_bind, TreeMem.parent_ok hx2, Cell.mkAt_parent,
      TreeMem.setParent_ok hy2]
    rw [TreeMem.setChild_ok (c := (Cell.mkAt s (some x) vy B.root C.root).setParent p)
      (by rw [TreeMem.upd_cell_self, hy2]; rfl), ok_bind]
    simp only [rotated, hB] at hhang hlast
    simp only [rotated, hB, hhang, ok_bind, hlast]

/-- The rotation of the subtree in the hole. -/
theorem rotate_holds (h : Holds m (plug c (.join s x vx A (.join s y vy B C)))) :
    ∃ m', rotate s x m = .ok m' ∧ Holds m' (plug c (.join s y vy (.join s x vx A B) C)) ∧
      SameNodes m m' := by
  refine ⟨_, rotate_eq h, ?_, .trans (.trans (sameNodes_rotated _) (sameKeys_hung _))
    (TreeMem.sameKeys_setParent x _)⟩
  obtain ⟨hxy, hxA, hxB, hxC, hyA, hyB, hyC, hA, hB, hC, hAB, hAC, hBC⟩ := rotate_apart h
  obtain ⟨hx, hAl, hright⟩ := linked_join.mp h.focus
  obtain ⟨hy, hBl, hCl⟩ := linked_join.mp hright
  have hxb : B.root ≠ some x := fun he => hxB (BTree.root_mem_addrs he)
  have hyb : B.root ≠ some y := fun he => hyB (BTree.root_mem_addrs he)
  set p := holeParent c with hp
  have hpar : ∀ a, a ∈ (BTree.join s x vx A (.join s y vy B C)).addrs → p ≠ some a :=
    fun a ha he => h.disjoint (holeParent_mem he) ha
  have hmemx : x ∈ (BTree.join s x vx A (.join s y vy B C)).addrs := by simp [BTree.mem_addrs_join]
  have hmemy : y ∈ (BTree.join s x vx A (.join s y vy B C)).addrs := by simp [BTree.mem_addrs_join]
  set m' := (hung c (some y) (rotated s x y p B m)).upd x (·.setParent (some y)) with hm'
  have hne : ∀ a, a ≠ x → a ≠ y → B.root ≠ some a → p ≠ some a → m'.cell a = m.cell a := by
    intro a h1 h2 h3 h4
    rw [hm', TreeMem.upd_cell_ne _ _ h1, hung_cell_ne h4, rotated_cell_ne h1 h2 h3]
  have hcx : m'.cell x = some (Cell.mkAt s (some y) vx A.root B.root) := by
    rw [hm', TreeMem.upd_cell_self, hung_cell_ne (hpar x hmemx), rotated_cell_x hxy hxb, hx]
    simp
  have hcy : m'.cell y = some (Cell.mkAt s p vy (some x) C.root) := by
    rw [hm', TreeMem.upd_cell_ne _ _ hxy.symm, hung_cell_ne (hpar y hmemy),
      rotated_cell_y hxy.symm hyb, hy]
    simp
  have hctx : LinkedCtx m' (some y) c := by
    refine (linkedCtx_hung (rotated_ctx h) h.ctx_nodup).frame
      fun a ha => TreeMem.upd_cell_ne _ _ fun he => ?_
    exact h.disjoint (he ▸ ha) hmemx
  refine ⟨linked_plug.mpr ⟨linked_join.mpr ⟨?_, linked_join.mpr ⟨?_, ?_, ?_⟩, ?_⟩, ?_⟩, ?_, ?_⟩
  · rw [hcy, BTree.root_join]
  · exact hcx
  · refine hAl.frame fun a ha => hne a ?_ ?_ ?_ ?_
    · exact fun he => hxA (he ▸ ha)
    · exact fun he => hyA (he ▸ ha)
    · exact fun he => hAB ha (BTree.root_mem_addrs he)
    · exact hpar a (by simp [BTree.mem_addrs_join, ha])
  · refine hBl.reparent hB (fun b hb => ?_) fun a ha hroot => hne a ?_ ?_ hroot ?_
    · have hbB := BTree.root_mem_addrs hb
      have hbx : b ≠ x := fun he => hxB (he ▸ hbB)
      have hby : b ≠ y := fun he => hyB (he ▸ hbB)
      rw [hm', TreeMem.upd_cell_ne _ _ hbx,
        hung_cell_ne (hpar b (by simp [BTree.mem_addrs_join, hbB])), rotated_cell_b hb hbx hby]
    · exact fun he => hxB (he ▸ ha)
    · exact fun he => hyB (he ▸ ha)
    · exact hpar a (by simp [BTree.mem_addrs_join, ha])
  · refine hCl.frame fun a ha => hne a ?_ ?_ ?_ ?_
    · exact fun he => hxC (he ▸ ha)
    · exact fun he => hyC (he ▸ ha)
    · exact fun he => hBC (BTree.root_mem_addrs he) ha
    · exact hpar a (by simp [BTree.mem_addrs_join, ha])
  · rw [BTree.root_join]; exact hctx
  · have hnd := nodup_addrs_plug.mp h.nodup
    refine nodup_addrs_plug.mpr ⟨hnd.1, ?_, fun a ha hb => hnd.2.2 ha ?_⟩
    · rw [BTree.nodup_addrs_join, BTree.nodup_addrs_join]
      refine ⟨?_, hyC, ⟨hxA, hxB, hA, hB, hAB⟩, hC, ?_⟩
      · simp only [BTree.mem_addrs_join, not_or]
        exact ⟨hxy.symm, hyA, hyB⟩
      · intro a ha hc
        rcases BTree.mem_addrs_join.mp ha with rfl | ha | ha
        · exact hxC hc
        · exact hAC ha hc
        · exact hBC ha hc
    · simp only [BTree.mem_addrs_join] at hb ⊢
      tauto
  · rw [hm', TreeMem.upd_root]
    have hr : (rotated s x y p B m).root = (plug c (.join s x vx A (.join s y vy B C))).root := by
      rw [← h.root_eq]
      unfold rotated
      cases B.root <;> rfl
    have hr' := hung_root (u := BTree.join s y vy (.join s x vx A B) C) hr
    rwa [BTree.root_join] at hr'

end Rotate

/-! ## Hanging a new leaf -/

section Link

variable {c : List (Frame (RBVal α))} {n : Nat} {d : Cell (RBVal α)}

/-- The colour a new node gets: the root of an empty tree is black. -/
def newColor (c : List (Frame (RBVal α))) : Color :=
  match c with
  | [] => .black
  | _ :: _ => .red

/-- The four stores that make the node at `n` a red leaf below `p`, before anything else. -/
theorem redLeaf_ok (hn : m.cell n = some d) (p : Nat) :
    ∃ m', (∀ next : RBTree α → Except Fault (RBTree α), (do
        let m ← setColor m n .red
        let m ← m.setParent n (some p)
        let m ← m.setChild .right n none
        let m ← m.setChild .left n none
        next m) = next m') ∧
      m'.cell n = some ⟨some p, none, none, ⟨.red, d.val.comparator⟩⟩ ∧
      (∀ a, a ≠ n → m'.cell a = m.cell a) ∧ m'.root = m.root ∧ SameNodes m m' := by
  set m₁ := recolor m n .red with hm₁
  set m₂ := m₁.upd n (·.setParent (some p)) with hm₂
  set m₃ := m₂.upd n (·.setChild .right none) with hm₃
  set m₄ := m₃.upd n (·.setChild .left none) with hm₄
  have h₁ : m₁.cell n = _ := recolor_cell hn .red
  have h₂ : m₂.cell n = _ := TreeMem.upd_cell h₁ _
  have h₃ : m₃.cell n = _ := TreeMem.upd_cell h₂ _
  refine ⟨m₄, fun next => ?_, TreeMem.upd_cell h₃ _, fun a ha => ?_, rfl, ?_⟩
  · simp only [setColor_ok hn, ok_bind, TreeMem.setParent_ok h₁, TreeMem.setChild_ok h₂,
      TreeMem.setChild_ok h₃, ← hm₁, ← hm₂, ← hm₃, ← hm₄]
  · simp only [hm₄, hm₃, hm₂, hm₁, recolor, TreeMem.upd_cell_ne _ _ ha]
  · exact .trans (.trans (.trans (sameNodes_recolor n _) (TreeMem.sameKeys_setParent n _))
      (TreeMem.sameKeys_setChild .right n none)) (TreeMem.sameKeys_setChild .left n none)

/-- `linkNode` puts the node at `n` into the hole of `c`, whatever the pointer into the hole
    and the node's own links were before. So running it twice is running it once. -/
theorem linkNode_holds [LinearOrder α] {q : Ptr} (hn : m.cell n = some d) (hctx : LinkedCtx m q c)
    (hnd : (n :: ctxAddrs c).Nodup) (hroot : c ≠ [] → m.root = (plug c .nil).root)
    (hside : ∀ f c', c = f :: c' → f.side = goInsert RBVal.comparator d.val.comparator f.v) :
    ∃ m', linkNode (holeParent c) n m = .ok m' ∧
      Holds m' (plug c (.node n ⟨newColor c, d.val.comparator⟩ .nil .nil)) ∧ SameNodes m m' := by
  cases c with
  | nil =>
    -- the root pointer is set first, which the stores to the node do not see
    set m₁ := recolor m n .black with hm₁
    set m₂ := m₁.upd n (·.setChild .right none) with hm₂
    set m₃ := m₂.upd n (·.setChild .left none) with hm₃
    set m₄ := m₃.upd n (·.setParent none) with hm₄
    have h₀ : (m.setRoot (some n)).cell n = some d := hn
    have h₁ : (m₁.setRoot (some n)).cell n = _ := recolor_cell h₀ .black
    have h₂ : (m₂.setRoot (some n)).cell n = _ := TreeMem.upd_cell h₁ _
    have h₃ : (m₃.setRoot (some n)).cell n = _ := TreeMem.upd_cell h₂ _
    have h₄ : m₄.cell n = _ := TreeMem.upd_cell h₃ _
    refine ⟨hung [] (some n) m₄, ?_, holds_leaf hctx hnd hroot h₄ (fun a ha => ?_) rfl, ?_⟩
    · change (do
        let m ← setColor (m.setRoot (some n)) n .black
        let m ← m.setChild .right n none
        let m ← m.setChild .left n none
        m.setParent n none) = _
      rw [setColor_ok h₀, ok_bind]
      change ((m₁.setRoot (some n)).setChild .right n none >>= _) = _
      rw [TreeMem.setChild_ok h₁, ok_bind]
      change ((m₂.setRoot (some n)).setChild .left n none >>= _) = _
      rw [TreeMem.setChild_ok h₂, ok_bind]
      exact TreeMem.setParent_ok h₃ none
    · simp only [hm₄, hm₃, hm₂, hm₁, recolor, TreeMem.upd_cell_ne _ _ ha]
    · exact .trans (.trans (.trans (.trans (sameNodes_recolor n _)
        (TreeMem.sameKeys_setChild .right n none)) (TreeMem.sameKeys_setChild .left n none))
        (TreeMem.sameKeys_setParent n none)) (sameKeys_hung _)
  | cons f c =>
    have hfn : f.a ≠ n := fun he => (List.nodup_cons.mp hnd).1 (by simp [he])
    obtain ⟨m', hstores, hleaf, hne, hroot', hsame⟩ := redLeaf_ok hn f.a
    have hf : m'.cell f.a = some (f.cell (holeParent c) q) := by rw [hne f.a hfn, hctx.1]
    refine ⟨hung (f :: c) (some n) m', ?_, holds_leaf hctx hnd hroot hleaf hne hroot',
      hsame.trans (sameKeys_hung _)⟩
    have hs := hside f c rfl
    unfold goInsert at hs
    refine (hstores _).trans ?_
    simp only [comparator_ok hleaf, comparator_ok hf, ok_bind, TreeMem.setChild_ok hf, hung,
      Frame.cell, Cell.mkAt_val]
    split at hs
    · next hlt => rw [if_pos hlt, hs]
    · next hlt => rw [if_neg hlt, hs]

end Link

end RBTree

end Monya.Structures
