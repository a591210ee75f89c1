/-
  `RBTree::insert` and `balance`.

  A pass of the loop of `balance` is followed in the zipper whose hole holds `new_node`:
  `balanceStep_spec` shows that it keeps `Balancing` and shortens the context, by two frames when
  it recolours and by one when it rotates. So the loop ends, and no pass reads a null
  grandparent. `insert_returns` is the whole call on a red-black tree, and `insertAll_returns` a
  whole history of calls on an empty tree.
-/
import Monya.Structures.RBInvariant
import Monya.Structures.RBLinks

namespace Monya.Structures

open Monya.Lib

namespace RBTree

variable {α : Type} {m : RBTree α}

theorem rotateAt_eq (s : Side) (x : Nat) (m : RBTree α) : rotateAt s x m = rotate s x m := by
  cases s <;> rfl

theorem isRed_ok {p : Ptr} {t : BTree (RBVal α)} (h : Linked m p t) :
    isRed m t.root = .ok (decide (rootColor t = .red)) := by
  cases t with
  | nil => rfl
  | node a v l r =>
    obtain ⟨hcell, _⟩ := h
    simp only [BTree.root_node, isRed, color_ok hcell, ok_bind, rootColor]
    rfl

/-! ## One pass of `balance` -/

section Pass

variable {c : List (Frame (RBVal α))} {t : BTree (RBVal α)} {n : Nat}

theorem raiseParent_holds {s : Side} {p g : Nat} {vp vg : RBVal α} {Q U : BTree (RBVal α)}
    (h : Holds m (plug (⟨s, p, vp, Q⟩ :: ⟨s, g, vg, U⟩ :: c) t)) (ht : t.root = some n) :
    ∃ m', raiseParent s n m = .ok m' ∧
      Holds m' (plug (⟨s, p, { vp with color := .black },
        .join s.other g { vg with color := .red } U Q⟩ :: c) t) ∧ SameNodes m m' := by
  have hpar := h.focus_parent ht
  obtain ⟨m₁, hm₁, h₁, hs₁⟩ := setColor_holds (c := ⟨s, g, vg, U⟩ :: c) h .black
  have hpar₁ := h₁.focus_parent (BTree.root_join _ _ _ _ _)
  obtain ⟨m₂, hm₂, h₂, hs₂⟩ := setColor_holds (c := c) h₁ .red
  -- seen from the other side, the grandparent is the upper node of a rotation
  rw [← BTree.join_other s g, ← BTree.join_other s p] at h₂
  obtain ⟨m₃, hm₃, h₃, hs₃⟩ := rotate_holds h₂
  refine ⟨m₃, ?_, ?_, .trans (.trans hs₁ hs₂) hs₃⟩
  · simp only [raiseParent, hpar, holeParent_cons, ok_bind, target_some, hm₁, hpar₁, hm₂,
      rotateAt_eq, hm₃]
  · rw [BTree.join_other s p] at h₃
    exact h₃

theorem turnInner_outer {s : Side} {p : Nat} {vp : RBVal α} {Q : BTree (RBVal α)}
    (h : Holds m (plug (⟨s, p, vp, Q⟩ :: c) t)) (ht : t.root = some n) :
    turnInner s p n m = .ok (n, m) := by
  have hchild := h.child_eq_iff ht (holeParent c) s.other
  have hne : ¬ s = s.other := Side.ne_other s
  unfold turnInner
  rw [TreeMem.child_ok h.frame_cell, ok_bind, if_neg (fun he => hne (hchild.mp he))]
  rfl

theorem turnInner_inner {s : Side} {p : Nat} {v vp : RBVal α} {A B C : BTree (RBVal α)}
    (h : Holds m (plug (⟨s.other, p, vp, A⟩ :: c) (.join s n v B C))) :
    ∃ m', turnInner s p n m = .ok (p, m') ∧
      Holds m' (plug (⟨s, n, v, C⟩ :: c) (.join s p vp A B)) ∧ SameNodes m m' := by
  have hchild := h.child_eq_iff (BTree.root_join _ _ _ _ _) (holeParent c) s.other
  have h' : Holds m (plug c (.join s p vp A (.join s n v B C))) := by
    rw [← BTree.join_other s p]; exact h
  obtain ⟨m', hm', hh, hs⟩ := rotate_holds h'
  refine ⟨m', ?_, hh, hs⟩
  unfold turnInner
  rw [TreeMem.child_ok h.frame_cell, ok_bind, if_pos (hchild.mpr rfl), rotateAt_eq, hm']
  rfl

section Branches

variable {f g : Frame (RBVal α)}

/-- A pass below a red parent, with the links it reads resolved. -/
theorem balanceStep_eq (h : Holds m (plug (f :: g :: c) t)) (ht : t.root = some n)
    (hf : f.v.color = .red) :
    balanceStep (n, m) =
      if rootColor g.sib = .red then do
        let m ← setColor m f.a .black
        let m ← setColor m (← target g.sib.root) .black
        let m ← setColor m g.a .red
        return .next (g.a, m)
      else do
        let (n, m) ← turnInner g.side f.a n m
        let m ← raiseParent g.side n m
        return .next (n, m) := by
  have hpn : m.parent n = .ok (some f.a) := h.focus_parent ht
  have hp : m.cell f.a = some (f.cell (some g.a) t.root) := h.frame_cell
  have hg : m.cell g.a = some (g.cell (holeParent c) (some f.a)) := by
    have hg := Holds.frame_cell (c := c) (t := f.fill t) h
    rwa [Frame.fill, BTree.root_join] at hg
  have hside : (if (g.cell (holeParent c) (some f.a)).child .left = some f.a then Side.left
      else Side.right) = g.side := by
    have hiff := Holds.child_eq_iff (c := c) (t := f.fill t) (f := g) h (BTree.root_join _ _ _ _ _)
      (holeParent c) .left
    rw [Frame.fill, BTree.root_join] at hiff
    cases hgs : g.side with
    | left => rw [if_pos (hiff.mpr hgs)]
    | right => rw [if_neg (fun he => by rw [hiff.mp he] at hgs; cases hgs)]
  have huncle : (g.cell (holeParent c) (some f.a)).child g.side.other = g.sib.root :=
    Cell.mkAt_child_other _ _ _ _ _
  have hred : isRed m g.sib.root = .ok (decide (rootColor g.sib = .red)) := isRed_ok h.ctx.2.2.2.1
  have hcol : color m f.a = .ok .red := by rw [color_ok hp, Frame.cell, Cell.mkAt_val, hf]
  have hgp : m.parent f.a = .ok (some g.a) := by
    rw [TreeMem.parent_ok hp, Frame.cell, Cell.mkAt_parent]
  simp only [balanceStep, hpn, ok_bind, hcol, reduceCtorEq, if_false, hgp, target_some,
    TreeMem.child_ok hg, hside, huncle, hred, decide_eq_true_eq]

/-- The uncle is red. -/
theorem balanceStep_recolor (h : Holds m (plug (f :: g :: c) t)) (ht : t.root = some n)
    (hb : Balancing (f :: g :: c) t) (hf : f.v.color = .red) (hu : rootColor g.sib = .red) :
    ∃ m' t', balanceStep (n, m) = .ok (.next (g.a, m')) ∧ Holds m' (plug c t') ∧
      t'.root = some g.a ∧ Balancing c t' ∧ keys (plug c t') = keys (plug (f :: g :: c) t) ∧
      SameNodes m m' := by
  obtain ⟨u, w, x, y, hsib⟩ : ∃ u w x y, g.sib = .join .left u w x y := by
    cases hs : g.sib with
    | nil => rw [hs] at hu; cases hu
    | node u w x y => exact ⟨u, w, x, y, rfl⟩
  have hw : w.color = .red := by simpa [hsib] using hu
  obtain ⟨m₁, hm₁, h₁, hs₁⟩ := setColor_holds (c := g :: c) h .black
  -- the uncle is in the hole once the parent is the sibling
  have h₁' : Holds m₁ (plug (⟨g.side.other, g.a, g.v,
      .join f.side f.a { f.v with color := .black } t f.sib⟩ :: c) (.join .left u w x y)) := by
    rw [plug_cons, Frame.fill, BTree.join_other, ← hsib]
    exact h₁
  obtain ⟨m₂, hm₂, h₂, hs₂⟩ := setColor_holds h₁' .black
  rw [plug_cons, Frame.fill, BTree.join_other] at h₂
  obtain ⟨m₃, hm₃, h₃, hs₃⟩ := setColor_holds h₂ .red
  refine ⟨m₃, _, ?_, h₃, BTree.root_join _ _ _ _ _, hb.recolor hf hsib hw, ?_,
    .trans (.trans hs₁ hs₂) hs₃⟩
  · rw [balanceStep_eq h ht hf, if_pos hu, hm₁, ok_bind, hsib, BTree.root_join, target_some,
      ok_bind, hm₂, ok_bind, hm₃]
    rfl
  · refine keys_plug_congr ?_
    simp only [Frame.fill, keys_join, hsib]

/-- The uncle is black, or null. -/
theorem balanceStep_rotate (h : Holds m (plug (f :: g :: c) t)) (ht : t.root = some n)
    (hb : Balancing (f :: g :: c) t) (hf : f.v.color = .red) (hu : rootColor g.sib = .black) :
    ∃ n' m' f' t', balanceStep (n, m) = .ok (.next (n', m')) ∧ Holds m' (plug (f' :: c) t') ∧
      t'.root = some n' ∧ Balancing (f' :: c) t' ∧
      keys (plug (f' :: c) t') = keys (plug (f :: g :: c) t) ∧ SameNodes m m' := by
  have heq := balanceStep_eq h ht hf
  rw [if_neg (by rw [hu]; decide)] at heq
  obtain ⟨s, a, vg, U⟩ := g
  obtain ⟨sf, p, vp, Q⟩ := f
  by_cases hs : sf = s
  · subst hs
    obtain ⟨m', hm', h', hs'⟩ := raiseParent_holds h ht
    refine ⟨n, m', _, t, ?_, h', ht, hb.rotateUp hf hu, ?_, hs'⟩
    · rw [heq, turnInner_outer h ht]
      simp only [ok_bind, hm', pure_ok]
    · refine keys_plug_congr (c := c) ?_
      simp only [Frame.fill]
      rw [← BTree.join_other sf p, keys_rotate, BTree.join_other, BTree.join_other]
      simp only [keys_join]
  · have hso : sf = s.other := by cases s <;> cases sf <;> simp_all
    subst hso
    cases t with
    | nil => cases ht
    | node n' v l r =>
      cases ht
      obtain ⟨B, C, hBC⟩ := BTree.exists_join s n v l r
      rw [hBC] at h hb
      obtain ⟨m₁, hm₁, h₁, hs₁⟩ := turnInner_inner h
      obtain ⟨hv, hb₁⟩ := hb.rotateIn hf
      obtain ⟨m₂, hm₂, h₂, hs₂⟩ := raiseParent_holds h₁ (BTree.root_join _ _ _ _ _)
      refine ⟨p, m₂, _, _, ?_, h₂, BTree.root_join _ _ _ _ _, hb₁.rotateUp hv hu, ?_,
        .trans hs₁ hs₂⟩
      · rw [heq, hm₁]
        simp only [ok_bind, hm₂, pure_ok]
      · refine keys_plug_congr (c := c) ?_
        rw [hBC]
        cases s <;> simp [Frame.fill, keys_join]

end Branches

/-- One pass: the loop ends with a tree that is red-black up to the colour of its root, or goes
    on with a shorter context. -/
theorem balanceStep_spec (h : Holds m (plug c t)) (ht : t.root = some n) (hb : Balancing c t) :
    (∃ n' m' c' t', balanceStep (n, m) = .ok (.next (n', m')) ∧ Holds m' (plug c' t') ∧
      t'.root = some n' ∧ Balancing c' t' ∧ c'.length < c.length ∧
      keys (plug c' t') = keys (plug c t) ∧ SameNodes m m') ∨
    (balanceStep (n, m) = .ok (.done m) ∧ (c = [] ∨ IsRedBlack (plug c t))) := by
  cases c with
  | nil =>
    right
    have hpar := h.focus_parent ht
    exact ⟨by simp only [balanceStep, hpar, holeParent_nil, ok_bind, pure_ok], Or.inl rfl⟩
  | cons f c =>
    have hpar := h.focus_parent ht
    have hcol := color_ok h.frame_cell
    rw [Frame.cell, Cell.mkAt_val] at hcol
    cases hf : f.v.color with
    | black =>
      right
      rw [hf] at hcol
      refine ⟨?_, Or.inr (hb.done_of_black hf)⟩
      simp only [balanceStep, hpar, holeParent_cons, ok_bind, hcol, if_true, pure_ok]
    | red =>
      left
      obtain ⟨g, c', rfl, hg, _⟩ := hb.exists_grandparent hf
      cases hu : rootColor g.sib with
      | red =>
        obtain ⟨m', t', hstep, hh, hr, hb', hk, hs⟩ := balanceStep_recolor h ht hb hf hu
        exact ⟨g.a, m', c', t', hstep, hh, hr, hb', by simp only [List.length_cons]; omega, hk, hs⟩
      | black =>
        obtain ⟨n', m', f', t', hstep, hh, hr, hb', hk, hs⟩ := balanceStep_rotate h ht hb hf hu
        exact ⟨n', m', f' :: c', t', hstep, hh, hr, hb', by simp, hk, hs⟩

/-- The loop of `balance` and the blackening of the root after it. -/
theorem balance_loop_returns (h : Holds m (plug c t)) (ht : t.root = some n)
    (hb : Balancing c t) :
    ∃ m' t', Returns (fun fuel => do
        let m ← loop balanceStep fuel (n, m)
        setColor m (← target m.root) .black) m' ∧
      Holds m' t' ∧ IsRedBlack t' ∧ keys t' = keys (plug c t) ∧ SameNodes m m' := by
  obtain ⟨m₁, ⟨a, v, l, r, h₁, hrb, hk, hs₁⟩, hret⟩ := loop_returns
    (fun k s => ∃ c' t', Holds s.2 (plug c' t') ∧ t'.root = some s.1 ∧ Balancing c' t' ∧
      c'.length = k ∧ keys (plug c' t') = keys (plug c t) ∧ SameNodes m s.2)
    (fun m' => ∃ a v l r, Holds m' (.node a v l r) ∧
      IsRedBlack (.node a { v with color := .black } l r) ∧
      keys (.node a v l r) = keys (plug c t) ∧ SameNodes m m')
    (by
      rintro k ⟨n', m'⟩ ⟨c', t', hh, hr, hb', rfl, hk, hs⟩
      rcases balanceStep_spec hh hr hb' with
        ⟨n₂, m₂, c₂, t₂, hstep, hh₂, hr₂, hb₂, hlt, hk₂, hs₂⟩ | ⟨hstep, hdone⟩
      · exact Or.inl ⟨c₂.length, (n₂, m₂), hstep,
          ⟨c₂, t₂, hh₂, hr₂, hb₂, rfl, hk₂.trans hk, hs.trans hs₂⟩, hlt⟩
      · refine Or.inr ⟨m', hstep, ?_⟩
        cases hp : plug c' t' with
        | nil =>
          have hmem := mem_addrs_plug (c := c').mpr (Or.inr (BTree.root_mem_addrs hr))
          rw [hp] at hmem
          simp at hmem
        | node a v l r =>
          refine ⟨a, v, l, r, hp ▸ hh, ?_, hp ▸ hk, hs⟩
          rcases hdone with rfl | hrb
          · rw [plug_nil] at hp
            subst hp
            exact Balancing.done_of_root (s := .left) hb'
          · -- the root is black already
            rw [hp] at hrb
            obtain ⟨col, k⟩ := v
            have hcol : col = .black := hrb.root
            subst hcol
            exact hrb)
    c.length (n, m) ⟨c, t, h, ht, hb, rfl, rfl, .refl m⟩
  obtain ⟨m₂, hm₂, h₂, hs₂⟩ := setColor_holds (c := []) (s := .left) h₁ .black
  refine ⟨m₂, _, hret.bind ?_, h₂, hrb, ?_, hs₁.trans hs₂⟩
  · rw [h₁.root_eq, BTree.root_node, target_some, ok_bind, hm₂]
    exact .pure m₂
  · rw [← hk]
    simp [keys, BTree.keyed, BTree.join]

end Pass

/-! ## `insert` -/

section Insert

variable [LinearOrder α] {t : BTree (RBVal α)} {n : Nat} {d : Cell (RBVal α)}

/-- The place where `insert` hangs a node with comparator `k`. -/
def insertPath (k : α) (t : BTree (RBVal α)) : List (Frame (RBVal α)) :=
  path (goInsert RBVal.comparator k) t []

/-- A new leaf in a red-black tree is where `balance` can start. -/
theorem balancing_leaf (hrb : IsRedBlack t) (k : α) (n : Nat) :
    Balancing (insertPath k t)
      (.node n ⟨newColor (insertPath k t), k⟩ .nil .nil) := by
  have hplug : plug (insertPath k t) .nil = t := plug_path _ t []
  have hnrr := hrb.noRedRed
  have hroot := hrb.root
  obtain ⟨N, hN⟩ := hrb.height
  rw [← hplug] at hnrr hroot hN
  rw [noRedRed_plug] at hnrr
  rw [rootColor_plug] at hroot
  obtain ⟨j, hj, hctx⟩ := blackHeight_plug.mp hN
  have hj0 := hj.unique blackHeight_nil
  subst hj0
  refine ⟨⟨fun _ => ⟨rfl, rfl⟩, trivial, trivial⟩, hnrr.2, hroot, ?_, ?_⟩
  · cases hc : insertPath k t with
    | nil =>
      exact ⟨1, 1, (blackHeight_black (s := .left) rfl).mpr ⟨blackHeight_nil, blackHeight_nil⟩, rfl⟩
    | cons f c =>
      exact ⟨0, N, (blackHeight_red (s := .left) rfl).mpr ⟨blackHeight_nil, blackHeight_nil⟩,
        hc ▸ hctx⟩
  · cases hc : insertPath k t with
    | nil => exact Or.inr rfl
    | cons f c => exact Or.inl rfl

/-- `insert` of a node outside a red-black tree terminates without a fault, and leaves a
    red-black tree with the node at the place the comparisons lead to. -/
theorem insert_returns (h : Holds m t) (hrb : IsRedBlack t) (hn : n ∉ t.addrs)
    (hd : m.cell n = some d) :
    ∃ m' t', Returns (fun fuel => insert fuel n m) m' ∧ Holds m' t' ∧ IsRedBlack t' ∧
      SameNodes m m' ∧
      keys t' = keys (plug (insertPath d.val.comparator t)
        (.node n ⟨.red, d.val.comparator⟩ .nil .nil)) := by
  set k := d.val.comparator with hk
  set c := insertPath k t with hc
  obtain ⟨h₀, hnd, hside⟩ : Holds m (plug c .nil) ∧ (n :: ctxAddrs c).Nodup ∧
      ∀ f c', c = f :: c' → f.side = goInsert RBVal.comparator k f.v := h.path_nil hn _
  obtain ⟨m₁, hm₁, h₁, hs₁⟩ := linkNode_holds hd h₀.ctx hnd (fun _ => h₀.root_eq) hside
  -- `balance` links the node once more
  have hroot : c ≠ [] → m₁.root = (plug c .nil).root := by
    intro hne
    rw [h₁.root_eq]
    cases hc' : c with
    | nil => exact absurd hc' hne
    | cons f c' => exact root_plug_cons f c' _ _
  obtain ⟨m₂, hm₂, h₂, hs₂⟩ := linkNode_holds h₁.focus_cell h₁.ctx hnd hroot hside
  obtain ⟨m₃, t', hret, h₃, hrb', hkeys, hs₃⟩ :=
    balance_loop_returns h₂ (BTree.root_node _ _ _ _) (balancing_leaf hrb k n)
  refine ⟨m₃, t', ?_, h₃, hrb', .trans (.trans hs₁ hs₂) hs₃, ?_⟩
  · unfold insert
    rw [comparator_ok hd]
    have hdesc := descend_returns (goInsert RBVal.comparator k) (c := []) h
    rw [← h.root_eq] at hdesc
    refine hdesc.bind ?_
    change Returns (fun fuel => linkNode (holeParent c) n m >>= fun m =>
      balance fuel (holeParent c) n m) m₃
    rw [hm₁]
    unfold balance
    simp only [ok_bind, hm₂]
    exact hret
  · rw [hkeys]
    exact keys_plug_congr rfl

/-- A history of `insert` calls. -/
def insertAll (fuel : Nat) (nodes : List Nat) (m : RBTree α) : Except Fault (RBTree α) :=
  nodes.foldlM (fun m n => insert fuel n m) m

/-- The tree in memory after the nodes `nodes`, with the comparators `k`, have been inserted. -/
structure Grown (k : Nat → α) (nodes : List Nat) (m : RBTree α) (t : BTree (RBVal α)) : Prop where
  holds : Holds m t
  redBlack : IsRedBlack t
  stable : StableSortOf Prod.snd (nodes.map fun n => (n, k n)) (keys t)

theorem Grown.addrs_perm {k : Nat → α} {nodes : List Nat} (h : Grown k nodes m t) :
    t.addrs.Perm nodes := by
  have hp := h.stable.perm.map Prod.fst
  rw [keys, keyed_fst, List.map_map] at hp
  simpa [Function.comp_def] using hp

theorem grown_nil (k : Nat → α) (h : m.root = none) : Grown k [] m .nil :=
  ⟨⟨trivial, List.nodup_nil, h⟩, ⟨rfl, trivial, 0, blackHeight_nil⟩, stableSortOf_nil _⟩

theorem Grown.insert {k : Nat → α} {nodes : List Nat} (h : Grown k nodes m t) (hn : n ∉ nodes)
    (hd : m.cell n = some d) (hk : d.val.comparator = k n) :
    ∃ m' t', Returns (fun fuel => insert fuel n m) m' ∧ Grown k (nodes ++ [n]) m' t' ∧
      SameNodes m m' := by
  have hna : n ∉ t.addrs := fun hm => hn (h.addrs_perm.mem_iff.mp hm)
  obtain ⟨m', t', hret, hh, hrb, hs, hkeys⟩ := insert_returns h.holds h.redBlack hna hd
  refine ⟨m', t', hret, ⟨hh, hrb, ?_⟩, hs⟩
  rw [hkeys, List.map_append, hk]
  exact h.stable.insert_leaf n ⟨.red, k n⟩

theorem insertAll_returns {k : Nat → α} {nodes : List Nat} (hroot : m.root = none)
    (hnd : nodes.Nodup) (hk : ∀ n ∈ nodes, ∃ d, m.cell n = some d ∧ d.val.comparator = k n) :
    ∃ m' t', Returns (fun fuel => insertAll fuel nodes m) m' ∧ Grown k nodes m' t' := by
  obtain ⟨m', hret, t', hg, _⟩ := foldlM_returns insert nodes
    (fun pre m' => ∃ t, Grown k pre m' t ∧ SameNodes m m')
    (by
      rintro pre n post m₁ rfl ⟨t, hg, hs⟩
      have hpre : n ∉ pre := fun hm =>
        (List.nodup_append.mp hnd).2.2 n hm n List.mem_cons_self rfl
      obtain ⟨d, hd, hdk⟩ := hk n (by simp)
      obtain ⟨d₁, hd₁, hdk₁⟩ := hs.cell hd
      obtain ⟨m₂, t₂, hret, hg₂, hs₂⟩ := hg.insert hpre hd₁ (hdk₁.trans hdk)
      exact ⟨m₂, hret, t₂, hg₂, hs.trans hs₂⟩)
    ⟨.nil, grown_nil k hroot, .refl m⟩
  exact ⟨m', t', hret, hg⟩

/-- Three unlinked nodes with the comparators 2, 1 and 1; their other fields hold garbage. -/
def threeNodes : RBTree Nat :=
  let garbage : Ptr := some 7
  ⟨((Heap.empty.alloc ⟨garbage, garbage, none, ⟨.red, 2⟩⟩).alloc
    ⟨none, garbage, garbage, ⟨.black, 1⟩⟩).alloc ⟨garbage, none, garbage, ⟨.red, 1⟩⟩, none⟩

/-- A history of insertions of distinct nodes into an empty tree, whatever their comparators and
    whatever their colours and links were: every call returns, and the tree left has a black
    root, no red child of a red node, the same number of black nodes on every path to a null
    link, and consistent parent and child links. -/
theorem insertAll_isRedBlack (k : Nat → α) (nodes : List Nat) (m : RBTree α)
    (hroot : m.root = none) (hnd : nodes.Nodup)
    (hk : ∀ n ∈ nodes, ∃ d, m.cell n = some d ∧ d.val.comparator = k n) :
    ∃ m' t, Returns (fun fuel => insertAll fuel nodes m) m' ∧ Holds m' t ∧ t.addrs.Perm nodes ∧
      rootColor t = .black ∧ NoRedRed t ∧ (∃ N, ∀ k ∈ blackCounts t, k = N) ∧
      (∀ a, m'.root = some a → m'.parent a = .ok none) ∧
      (∀ c ∈ nodes, ∀ p ∈ nodes, m'.parent c = .ok (some p) ↔
        (m'.child .left p = .ok (some c) ∨ m'.child .right p = .ok (some c))) := by
  obtain ⟨m', t, hret, hg⟩ := insertAll_returns hroot hnd hk
  have hmem : ∀ a, a ∈ t.addrs ↔ a ∈ nodes := fun a => hg.addrs_perm.mem_iff
  refine ⟨m', t, hret, hg.holds, hg.addrs_perm, hg.redBlack.root, hg.redBlack.noRedRed,
    hg.redBlack.height, fun a ha => hg.holds.root_parent ha, fun c hc p hp => ?_⟩
  exact hg.holds.parent_iff_child ((hmem c).mpr hc) ((hmem p).mpr hp)

theorem insertAll_isRedBlack_three :
    ∃ m' t, Returns (fun fuel => insertAll fuel [0, 1, 2] threeNodes) m' ∧ Holds m' t ∧
      t.addrs.Perm [0, 1, 2] ∧ rootColor t = .black := by
  obtain ⟨m', t, hret, hh, hp, hr, _⟩ := insertAll_isRedBlack (fun n => if n = 0 then 2 else 1)
    [0, 1, 2] threeNodes rfl (by decide) (by decide)
  exact ⟨m', t, hret, hh, hp, hr⟩

end Insert

end RBTree

end Monya.Structures
