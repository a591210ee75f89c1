/-
  The red-black invariants of a coloured tree, and what they say of a tree with a hole.

  `blackCounts` lists, for every null link, the number of black nodes on the path to it, so
  `BlackHeight t n` is the textbook condition that all these paths have `n` black nodes.
  `NoRedRed` forbids a red child of a red node. For a context, `CtxHeight` and `CtxNoRedRed`
  say what the filling of the hole has to bring along for the whole to be well formed; the
  `_plug` lemmas are exact in both directions.
-/
import Monya.Structures.RBTree

namespace Monya.Structures

open Monya.Lib

variable {α : Type}

/-- The number of black nodes a node of this colour adds to a path. -/
def Color.weight : Color → Nat
  | .black => 1
  | .red => 0

/-- A null link counts as black. -/
def rootColor : BTree (RBVal α) → Color
  | .nil => .black
  | .node _ v _ _ => v.color

def blackCounts : BTree (RBVal α) → List Nat
  | .nil => [0]
  | .node _ v l r => (blackCounts l ++ blackCounts r).map (· + v.color.weight)

def BlackHeight (t : BTree (RBVal α)) (n : Nat) : Prop := ∀ k ∈ blackCounts t, k = n

def NoRedRed : BTree (RBVal α) → Prop
  | .nil => True
  | .node _ v l r =>
      (v.color = .red → rootColor l = .black ∧ rootColor r = .black) ∧ NoRedRed l ∧ NoRedRed r

structure IsRedBlack (t : BTree (RBVal α)) : Prop where
  root : rootColor t = .black
  noRedRed : NoRedRed t
  height : ∃ n, BlackHeight t n

/-- Addresses and comparators in symmetric order. -/
def keys (t : BTree (RBVal α)) : List (Nat × α) := t.keyed RBVal.comparator

/-! ## Subtrees -/

section Subtrees

variable {s : Side} {a : Nat} {v : RBVal α} {x y : BTree (RBVal α)}

@[simp] theorem rootColor_join : rootColor (.join s a v x y) = v.color := by cases s <;> rfl

theorem noRedRed_join :
    NoRedRed (.join s a v x y) ↔
      (v.color = .red → rootColor x = .black ∧ rootColor y = .black) ∧ NoRedRed x ∧ NoRedRed y := by
  cases s
  · exact Iff.rfl
  · simp only [BTree.join, NoRedRed]
    tauto

theorem blackCounts_ne_nil (t : BTree (RBVal α)) : blackCounts t ≠ [] := by
  cases t with
  | nil => simp [blackCounts]
  | node a v l r =>
    have := blackCounts_ne_nil l
    simp [blackCounts, this]

theorem blackHeight_nil : BlackHeight (.nil : BTree (RBVal α)) 0 := by
  simp [BlackHeight, blackCounts]

theorem BlackHeight.unique {t : BTree (RBVal α)} {n k : Nat} (hn : BlackHeight t n)
    (hk : BlackHeight t k) : n = k := by
  obtain ⟨j, hj⟩ := List.exists_mem_of_ne_nil _ (blackCounts_ne_nil t)
  exact (hn j hj).symm.trans (hk j hj)

theorem blackHeight_join {n : Nat} :
    BlackHeight (.join s a v x y) n ↔
      ∃ k, n = k + v.color.weight ∧ BlackHeight x k ∧ BlackHeight y k := by
  have hmem : ∀ j, j ∈ blackCounts (.join s a v x y) ↔
      ∃ i, (i ∈ blackCounts x ∨ i ∈ blackCounts y) ∧ i + v.color.weight = j := by
    intro j
    cases s <;> simp only [BTree.join, blackCounts, List.mem_map, List.mem_append]
    constructor <;> rintro ⟨i, hi, he⟩ <;> exact ⟨i, hi.symm, he⟩
  constructor
  · intro h
    obtain ⟨j, hj⟩ := List.exists_mem_of_ne_nil _ (blackCounts_ne_nil x)
    have hn := h (j + v.color.weight) ((hmem _).mpr ⟨j, Or.inl hj, rfl⟩)
    refine ⟨j, hn.symm, fun i hi => ?_, fun i hi => ?_⟩
    · have := h (i + v.color.weight) ((hmem _).mpr ⟨i, Or.inl hi, rfl⟩); omega
    · have := h (i + v.color.weight) ((hmem _).mpr ⟨i, Or.inr hi, rfl⟩); omega
  · rintro ⟨k, rfl, hx, hy⟩ j hj
    obtain ⟨i, hi | hi, rfl⟩ := (hmem j).mp hj
    · rw [hx i hi]
    · rw [hy i hi]

theorem blackHeight_red {n : Nat} (hv : v.color = .red) :
    BlackHeight (.join s a v x y) n ↔ BlackHeight x n ∧ BlackHeight y n := by
  rw [blackHeight_join, hv]
  simp [Color.weight]

theorem blackHeight_black {n : Nat} (hv : v.color = .black) :
    BlackHeight (.join s a v x y) (n + 1) ↔ BlackHeight x n ∧ BlackHeight y n := by
  rw [blackHeight_join, hv]
  simp [Color.weight]

end Subtrees

/-! ## Contexts -/

/-- A filling of black height `n` gives a whole of black height `N`. -/
def CtxHeight : List (Frame (RBVal α)) → Nat → Nat → Prop
  | [], n, N => n = N
  | f :: c, n, N => BlackHeight f.sib n ∧ CtxHeight c (n + f.v.color.weight) N

/-- The context has no red child of a red node when its filling has a root of colour `col`. -/
def CtxNoRedRed : Color → List (Frame (RBVal α)) → Prop
  | _, [] => True
  | col, f :: c =>
      (f.v.color = .red → col = .black ∧ rootColor f.sib = .black) ∧ NoRedRed f.sib ∧
        CtxNoRedRed f.v.color c

/-- The root's colour when the filling has a root of colour `col`. -/
def topColor : Color → List (Frame (RBVal α)) → Color
  | col, [] => col
  | _, f :: c => topColor f.v.color c

section Contexts

variable {c : List (Frame (RBVal α))} {t : BTree (RBVal α)}

theorem blackHeight_plug {N : Nat} :
    BlackHeight (plug c t) N ↔ ∃ n, BlackHeight t n ∧ CtxHeight c n N := by
  induction c generalizing t with
  | nil => simp [CtxHeight]
  | cons f c ih =>
    rw [plug_cons, ih]
    constructor
    · rintro ⟨n, hn, hc⟩
      obtain ⟨k, rfl, ht, hs⟩ := blackHeight_join.mp hn
      exact ⟨k, ht, hs, hc⟩
    · rintro ⟨k, ht, hs, hc⟩
      exact ⟨k + f.v.color.weight, blackHeight_join.mpr ⟨k, rfl, ht, hs⟩, hc⟩

theorem noRedRed_plug : NoRedRed (plug c t) ↔ NoRedRed t ∧ CtxNoRedRed (rootColor t) c := by
  induction c generalizing t with
  | nil => simp [CtxNoRedRed]
  | cons f c ih =>
    rw [plug_cons, ih, Frame.fill, noRedRed_join, rootColor_join]
    simp only [CtxNoRedRed]
    tauto

theorem rootColor_plug : rootColor (plug c t) = topColor (rootColor t) c := by
  induction c generalizing t with
  | nil => rfl
  | cons f c ih => rw [plug_cons, ih, Frame.fill, rootColor_join]; rfl

/-- Only the innermost frame sees the colour of the filling. -/
theorem CtxNoRedRed.of_black_frame {f : Frame (RBVal α)} {col col' : Color}
    (hf : f.v.color = .black) (h : CtxNoRedRed col (f :: c)) : CtxNoRedRed col' (f :: c) :=
  ⟨fun hr => absurd (hf.symm.trans hr) (by decide), h.2⟩

theorem keys_plug_congr {u : BTree (RBVal α)} (h : keys t = keys u) :
    keys (plug c t) = keys (plug c u) := by
  unfold keys at h ⊢
  rw [keyed_plug, keyed_plug, h]

end Contexts

theorem keys_join {s : Side} {a : Nat} {v : RBVal α} {x y : BTree (RBVal α)} :
    keys (.join s a v x y) =
      match s with
      | .left => keys x ++ (a, v.comparator) :: keys y
      | .right => keys y ++ (a, v.comparator) :: keys x := by
  cases s <;> simp [keys, BTree.keyed, BTree.join]

theorem keys_rotate (s : Side) (a b : Nat) (v w : RBVal α) (x y z : BTree (RBVal α)) :
    keys (.join s b w (.join s a v x y) z) = keys (.join s a v x (.join s b w y z)) := by
  unfold keys BTree.keyed
  rw [BTree.inorder_rotate]

/-! ## The state of `balance` -/

/-- The loop of `balance` holds the filling `t` of `c` as the only possible offender: seen as
    black, its root would leave the whole well formed. -/
structure Balancing (c : List (Frame (RBVal α))) (t : BTree (RBVal α)) : Prop where
  filling : NoRedRed t
  context : CtxNoRedRed .black c
  top : topColor .black c = .black
  height : ∃ k N, BlackHeight t k ∧ CtxHeight c k N
  red : rootColor t = .red ∨ c = []

namespace Balancing

variable {c : List (Frame (RBVal α))} {t : BTree (RBVal α)}

/-- Below a black node the offence is gone. -/
theorem done_of_black {f : Frame (RBVal α)} (h : Balancing (f :: c) t)
    (hf : f.v.color = .black) : IsRedBlack (plug (f :: c) t) := by
  refine ⟨?_, ?_, ?_⟩
  · rw [rootColor_plug]; exact h.top
  · rw [noRedRed_plug]
    exact ⟨h.filling, h.context.of_black_frame hf⟩
  · obtain ⟨k, N, hk, hN⟩ := h.height
    exact ⟨N, blackHeight_plug.mpr ⟨k, hk, hN⟩⟩

/-- At the root the offence is cured by blackening it. -/
theorem done_of_root {s : Side} {a : Nat} {v : RBVal α} {x y : BTree (RBVal α)}
    (h : Balancing [] (.join s a v x y)) :
    IsRedBlack (.join s a { v with color := .black } x y) := by
  obtain ⟨_, hx, hy⟩ := noRedRed_join.mp h.filling
  obtain ⟨k, _, hk, _⟩ := h.height
  obtain ⟨j, _, hjx, hjy⟩ := blackHeight_join.mp hk
  refine ⟨by simp, ?_, j + 1, (blackHeight_black rfl).mpr ⟨hjx, hjy⟩⟩
  rw [noRedRed_join]
  exact ⟨fun hr => (by cases hr), hx, hy⟩

/-- Below a red node there is a black grandparent. -/
theorem exists_grandparent {f : Frame (RBVal α)} (h : Balancing (f :: c) t)
    (hf : f.v.color = .red) :
    ∃ g c', c = g :: c' ∧ g.v.color = .black ∧ rootColor f.sib = .black := by
  cases c with
  | nil =>
    have htop := h.top
    simp only [topColor, hf] at htop
    cases htop
  | cons g c' =>
    refine ⟨g, c', rfl, ?_, (h.context.1 hf).2⟩
    cases hg : g.v.color with
    | black => rfl
    | red =>
      have hb := (h.context.2.2.1 hg).1
      rw [hf] at hb
      cases hb

/-- The uncle is red: both it and the parent turn black, and the grandparent, red now, is
    the next possible offender. -/
theorem recolor {f g : Frame (RBVal α)} {u : Nat} {w : RBVal α} {x y : BTree (RBVal α)}
    {s : Side} (h : Balancing (f :: g :: c) t) (hf : f.v.color = .red)
    (hu : g.sib = .join s u w x y) (hw : w.color = .red) :
    Balancing c (.join g.side g.a { g.v with color := .red }
      (.join f.side f.a { f.v with color := .black } t f.sib)
      (.join s u { w with color := .black } x y)) := by
  obtain ⟨k, N, hk, hfs, hgs, hN⟩ := h.height
  obtain ⟨g', c', he, hg, _⟩ := h.exists_grandparent hf
  cases he
  have hgn := h.context.2.2
  rw [hu] at hgs
  obtain ⟨_, hxn, hyn⟩ := noRedRed_join.mp (hu ▸ hgn.2.1)
  simp only [hf, hg, Color.weight, Nat.add_zero] at hgs hN
  refine ⟨?_, ?_, ?_, ⟨k + 1, N, ?_, hN⟩, ?_⟩
  · rw [noRedRed_join, noRedRed_join, noRedRed_join]
    refine ⟨fun _ => ⟨by simp, by simp⟩, ⟨fun hr => (by cases hr), h.filling, h.context.2.1⟩,
      fun hr => (by cases hr), hxn, hyn⟩
  · have hc := hgn.2.2
    rwa [hg] at hc
  · have htop := h.top
    simpa only [topColor, hg] using htop
  · rw [blackHeight_red rfl, blackHeight_black rfl, blackHeight_black rfl]
    rw [blackHeight_red hw] at hgs
    exact ⟨⟨hk, hfs⟩, hgs⟩
  · left; simp

/-- The uncle is black: the grandparent goes down, red, on the far side of the black parent. -/
theorem rotateUp {s : Side} {p g : Nat} {vp vg : RBVal α} {Q U : BTree (RBVal α)}
    (h : Balancing (⟨s, p, vp, Q⟩ :: ⟨s, g, vg, U⟩ :: c) t) (hp : vp.color = .red)
    (hU : rootColor U = .black) :
    Balancing (⟨s, p, { vp with color := .black },
      .join s.other g { vg with color := .red } U Q⟩ :: c) t := by
  obtain ⟨k, N, hk, hfs, hgs, hN⟩ := h.height
  obtain ⟨g', c', he, hg, hQ⟩ := h.exists_grandparent hp
  cases he
  have hgn := h.context.2.2
  replace hg : vg.color = .black := hg
  simp only [hp, hg, Color.weight, Nat.add_zero] at hgs hN
  refine ⟨h.filling, ⟨fun hr => (by cases hr), ?_, ?_⟩, ?_, ⟨k, N, hk, ?_, hN⟩, ?_⟩
  · rw [noRedRed_join]
    exact ⟨fun _ => ⟨hU, hQ⟩, hgn.2.1, h.context.2.1⟩
  · have hc := hgn.2.2
    rw [hg] at hc
    exact hc
  · have htop := h.top
    simpa only [topColor, hg] using htop
  · rw [blackHeight_red rfl]
    exact ⟨hgs, hfs⟩
  · exact h.red.imp id fun hc => (by cases hc)

/-- An inner grandchild is rotated to the outside first. -/
theorem rotateIn {s : Side} {n p : Nat} {v vp : RBVal α} {A B C : BTree (RBVal α)}
    {g : Frame (RBVal α)}
    (h : Balancing (⟨s.other, p, vp, A⟩ :: g :: c) (.join s n v B C)) (hp : vp.color = .red) :
    v.color = .red ∧ Balancing (⟨s, n, v, C⟩ :: g :: c) (.join s p vp A B) := by
  have hv : v.color = .red := by
    rcases h.red with hr | hc
    · simpa using hr
    · cases hc
  obtain ⟨hBC, hB, hC⟩ := noRedRed_join.mp h.filling
  obtain ⟨k, N, hk, hfs, hgs, hN⟩ := h.height
  obtain ⟨g', c', he, hg, hA⟩ := h.exists_grandparent hp
  cases he
  rw [blackHeight_red hv] at hk
  refine ⟨hv, ?_, ⟨fun _ => ⟨rfl, (hBC hv).2⟩, hC, ?_⟩, ?_, ⟨k, N, ?_, hk.2, ?_⟩, ?_⟩
  · rw [noRedRed_join]
    exact ⟨fun _ => ⟨hA, (hBC hv).1⟩, h.context.2.1, hB⟩
  · have hc := h.context.2.2
    simpa only [hp, hv] using hc
  · have htop := h.top
    simpa only [topColor, hg] using htop
  · rw [blackHeight_red hp]
    exact ⟨hfs, hk.1⟩
  · exact ⟨by simpa only [hp, hv] using hgs, by simpa only [hp, hv] using hN⟩
  · left; simpa using hp

end Balancing

end Monya.Structures
