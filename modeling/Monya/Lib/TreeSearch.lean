/-
  Walking down a linked tree.

  `descendStep` is the walk to the null link where a new node belongs, and `seekStep` the walk
  that stops at a matching node. Both are followed by a zipper (`path`, `seek`), so their
  results come with the context they were reached in. The order lemmas at the end say what a
  walk by comparisons knows about the context when the tree is sorted in symmetric order. The
  order may have ties: nothing here asks that equal keys lie on one side. A leaf hung where
  `descendStep` ends keeps the tree a stable sort of its history
  (`StableSortOf.insert_leaf`), and `seekStep` finds a key iff the tree has it (`find_returns`).
-/
import Mathlib.Order.Basic
import Monya.Lib.LinkedTree
import Monya.Lib.StableSort

namespace Monya.Lib

variable {β : Type}

/-! ## To a null link -/

/-- `while (tmp) { parent = tmp; tmp = (go tmp) ? left : right; }`, on the pair
    `(parent, tmp)`. The result is the last node met. -/
def descendStep (go : β → Side) (m : TreeMem β) : Ptr × Ptr → Except Fault (Pass (Ptr × Ptr) Ptr)
  | (parent, none) => .ok (.done parent)
  | (_, some tmp) => do
      let v ← m.val tmp
      let next ← m.child (go v) tmp
      return .next (some tmp, next)

/-- The context of the null link the walk ends at. -/
def path (go : β → Side) : BTree β → List (Frame β) → List (Frame β)
  | .nil, c => c
  | .node a v l r, c =>
      match go v with
      | .left => path go l (⟨.left, a, v, r⟩ :: c)
      | .right => path go r (⟨.right, a, v, l⟩ :: c)

theorem plug_path (go : β → Side) (t : BTree β) (c : List (Frame β)) :
    plug (path go t c) .nil = plug c t := by
  induction t generalizing c with
  | nil => rfl
  | node a v l r ihl ihr =>
    cases hg : go v with
    | left => simp only [path, hg]; rw [ihl]; rfl
    | right => simp only [path, hg]; rw [ihr]; rfl

/-- Every step of the walk went to the side `go` names. -/
theorem side_of_mem_path {go : β → Side} {t : BTree β} {c : List (Frame β)} {f : Frame β}
    (hf : f ∈ path go t c) : f ∈ c ∨ f.side = go f.v := by
  induction t generalizing c with
  | nil => exact Or.inl hf
  | node a v l r ihl ihr =>
    cases hg : go v with
    | left =>
      simp only [path, hg] at hf
      rcases ihl hf with h | h
      · rcases List.mem_cons.mp h with rfl | h
        · right; exact hg.symm
        · left; exact h
      · right; exact h
    | right =>
      simp only [path, hg] at hf
      rcases ihr hf with h | h
      · rcases List.mem_cons.mp h with rfl | h
        · right; exact hg.symm
        · left; exact h
      · right; exact h

/-- A node from outside the tree may be hung where the walk ends. -/
theorem Holds.path_nil {m : TreeMem β} {t : BTree β} {n : Nat} (h : Holds m t) (hn : n ∉ t.addrs)
    (go : β → Side) :
    Holds m (plug (path go t []) .nil) ∧ (n :: ctxAddrs (path go t [])).Nodup ∧
      ∀ f c', path go t [] = f :: c' → f.side = go f.v := by
  have hplug : plug (path go t []) .nil = t := plug_path go t []
  have h₀ : Holds m (plug (path go t []) .nil) := hplug.symm ▸ h
  refine ⟨h₀, List.nodup_cons.mpr ⟨fun hm => hn ?_, h₀.ctx_nodup⟩, fun f c' he => ?_⟩
  · rw [← hplug]
    exact mem_addrs_plug.mpr (Or.inl hm)
  · have hf : f ∈ path go t [] := by rw [he]; exact List.mem_cons_self
    exact (side_of_mem_path hf).resolve_left List.not_mem_nil

theorem descend_returns {m : TreeMem β} (go : β → Side) {t : BTree β} {c : List (Frame β)}
    (h : Holds m (plug c t)) :
    Returns (fun fuel => loop (descendStep go m) fuel (holeParent c, t.root))
      (holeParent (path go t c)) := by
  induction t generalizing c with
  | nil => exact returns_done rfl
  | node a v l r ihl ihr =>
    have hcell := h.focus_cell
    cases hg : go v with
    | left =>
      have hstep : descendStep go m (holeParent c, some a) = .ok (.next (some a, l.root)) := by
        simp [descendStep, TreeMem.val_ok hcell, ok_bind, hg, TreeMem.child_ok hcell, pure_ok,
          Cell.child]
      simp only [path, hg]
      exact returns_next hstep (ihl (c := ⟨.left, a, v, r⟩ :: c) h)
    | right =>
      have hstep : descendStep go m (holeParent c, some a) = .ok (.next (some a, r.root)) := by
        simp [descendStep, TreeMem.val_ok hcell, ok_bind, hg, TreeMem.child_ok hcell, pure_ok,
          Cell.child]
      simp only [path, hg]
      exact returns_next hstep (ihr (c := ⟨.right, a, v, l⟩ :: c) h)

/-! ## To a matching node -/

/-- `while (node) { if (match) break; node = left or right; }`: `dir` is `none` at a match. -/
def seekStep (dir : β → Option Side) (m : TreeMem β) : Ptr → Except Fault (Pass Ptr Ptr)
  | none => .ok (.done none)
  | some a => do
      let v ← m.val a
      match dir v with
      | none => return .done (some a)
      | some s =>
          let next ← m.child s a
          return .next next

/-- The place the walk stops at: its context and the subtree there. -/
def seek (dir : β → Option Side) : BTree β → List (Frame β) → List (Frame β) × BTree β
  | .nil, c => (c, .nil)
  | .node a v l r, c =>
      match dir v with
      | none => (c, .node a v l r)
      | some .left => seek dir l (⟨.left, a, v, r⟩ :: c)
      | some .right => seek dir r (⟨.right, a, v, l⟩ :: c)

theorem plug_seek (dir : β → Option Side) (t : BTree β) (c : List (Frame β)) :
    plug (seek dir t c).1 (seek dir t c).2 = plug c t := by
  induction t generalizing c with
  | nil => rfl
  | node a v l r ihl ihr =>
    rcases hg : dir v with _ | _ | _
    · simp only [seek, hg]
    · simp only [seek, hg]; rw [ihl]; rfl
    · simp only [seek, hg]; rw [ihr]; rfl

/-- The walk stops in a node only at a match. -/
theorem dir_of_seek_node {dir : β → Option Side} {t : BTree β} {c c' : List (Frame β)} {a : Nat}
    {v : β} {l r : BTree β} (h : seek dir t c = (c', .node a v l r)) : dir v = none := by
  induction t generalizing c with
  | nil => cases h
  | node b w l₁ r₁ ihl ihr =>
    rcases hg : dir w with _ | _ | _
    · simp only [seek, hg] at h
      cases h
      exact hg
    · simp only [seek, hg] at h; exact ihl h
    · simp only [seek, hg] at h; exact ihr h

theorem seek_returns {m : TreeMem β} (dir : β → Option Side) {t : BTree β} {c : List (Frame β)}
    (h : Holds m (plug c t)) :
    Returns (fun fuel => loop (seekStep dir m) fuel t.root) (seek dir t c).2.root := by
  induction t generalizing c with
  | nil => exact returns_done rfl
  | node a v l r ihl ihr =>
    have hcell := h.focus_cell
    rcases hg : dir v with _ | _ | _
    · refine returns_done ?_
      simp [seekStep, TreeMem.val_ok hcell, ok_bind, hg, pure_ok, seek]
    · have hstep : seekStep dir m (some a) = .ok (.next l.root) := by
        simp [seekStep, TreeMem.val_ok hcell, ok_bind, hg, TreeMem.child_ok hcell, pure_ok,
          Cell.child]
      simp only [seek, hg]
      exact returns_next hstep (ihl (c := ⟨.left, a, v, r⟩ :: c) h)
    · have hstep : seekStep dir m (some a) = .ok (.next r.root) := by
        simp [seekStep, TreeMem.val_ok hcell, ok_bind, hg, TreeMem.child_ok hcell, pure_ok,
          Cell.child]
      simp only [seek, hg]
      exact returns_next hstep (ihr (c := ⟨.right, a, v, l⟩ :: c) h)

/-! ## Sorted trees -/

/-- The nodes in symmetric order, each with its key. -/
def BTree.keyed {α : Type} (key : β → α) (t : BTree β) : List (Nat × α) :=
  t.inorder.map fun x => (x.1, key x.2)

theorem keyed_plug {α : Type} (key : β → α) (c : List (Frame β)) (t : BTree β) :
    (plug c t).keyed key = (before c).map (fun x => (x.1, key x.2)) ++ t.keyed key ++
      (after c).map fun x => (x.1, key x.2) := by
  simp [BTree.keyed, inorder_plug]

theorem keyed_fst {α : Type} (key : β → α) (t : BTree β) :
    (t.keyed key).map Prod.fst = t.addrs := by
  simp [BTree.keyed, BTree.addrs, Function.comp_def]

section Sorted

variable {α : Type} [LinearOrder α] (key : β → α) (k : α)

/-- Sorted in symmetric order, ties allowed on both sides of a node. -/
def BTree.Sorted (t : BTree β) : Prop := t.inorder.Pairwise fun x y => key x.2 ≤ key y.2

/-- `k < key` goes left, everything else right. -/
def goInsert (v : β) : Side := if k < key v then .left else .right

/-- `key > k` goes left, `key < k` right, equality stops. -/
def dirFind (v : β) : Option Side :=
  if k < key v then some .left else if key v < k then some .right else none

variable {key k}

theorem BTree.Sorted.node {a : Nat} {v : β} {l r : BTree β} {c : List (Frame β)}
    (h : (plug c (.node a v l r)).Sorted key) :
    (∀ x ∈ l.inorder, key x.2 ≤ key v) ∧ (∀ x ∈ r.inorder, key v ≤ key x.2) := by
  unfold BTree.Sorted at h
  rw [inorder_plug, BTree.inorder_node, List.pairwise_append] at h
  have h1 := (List.pairwise_append.mp h.1).2.1
  obtain ⟨_, h2, h3⟩ := List.pairwise_append.mp h1
  exact ⟨fun x hx => h3 x hx (a, v) (List.mem_cons_self ..),
    fun x hx => (List.pairwise_cons.mp h2).1 x hx⟩

/-- A step to the left puts the node and its right subtree after the hole. -/
theorem forall_after_left {P : Nat × β → Prop} {f : Frame β} {c : List (Frame β)}
    (hf : f.side = .left) (hv : P (f.a, f.v)) (hr : ∀ x ∈ f.sib.inorder, P x)
    (ha : ∀ x ∈ after c, P x) : ∀ x ∈ after (f :: c), P x := by
  intro x hx
  simp only [after, hf, List.cons_append, List.mem_cons, List.mem_append] at hx
  rcases hx with rfl | hx | hx
  · exact hv
  · exact hr x hx
  · exact ha x hx

/-- A step to the right puts the node and its left subtree before it. -/
theorem forall_before_right {P : Nat × β → Prop} {f : Frame β} {c : List (Frame β)}
    (hf : f.side = .right) (hv : P (f.a, f.v)) (hl : ∀ x ∈ f.sib.inorder, P x)
    (hb : ∀ x ∈ before c, P x) : ∀ x ∈ before (f :: c), P x := by
  intro x hx
  simp only [before, hf, List.mem_append, List.mem_singleton] at hx
  rcases hx with hx | hx | rfl
  · exact hb x hx
  · exact hl x hx
  · exact hv

/-- The walk to a null link leaves before it what is not above `k` and after it what is. -/
theorem path_split {t : BTree β} {c : List (Frame β)} (hs : (plug c t).Sorted key)
    (hb : ∀ x ∈ before c, key x.2 ≤ k) (ha : ∀ x ∈ after c, k < key x.2) :
    (∀ x ∈ before (path (goInsert key k) t c), key x.2 ≤ k) ∧
      (∀ x ∈ after (path (goInsert key k) t c), k < key x.2) := by
  induction t generalizing c with
  | nil => exact ⟨hb, ha⟩
  | node a v l r ihl ihr =>
    obtain ⟨hl, hr⟩ := hs.node
    by_cases hk : k < key v
    · have hg : goInsert key k v = .left := by simp [goInsert, hk]
      simp only [path, hg]
      exact ihl hs hb (forall_after_left rfl hk (fun x hx => lt_of_lt_of_le hk (hr x hx)) ha)
    · have hg : goInsert key k v = .right := by simp [goInsert, hk]
      simp only [path, hg]
      have hle := not_lt.mp hk
      exact ihr hs (forall_before_right rfl hle (fun x hx => le_trans (hl x hx) hle) hb) ha

/-- The walk to a match leaves before it what is below `k` and after it what is above. -/
theorem seek_split {t : BTree β} {c : List (Frame β)} (hs : (plug c t).Sorted key)
    (hb : ∀ x ∈ before c, key x.2 < k) (ha : ∀ x ∈ after c, k < key x.2) :
    (∀ x ∈ before (seek (dirFind key k) t c).1, key x.2 < k) ∧
      (∀ x ∈ after (seek (dirFind key k) t c).1, k < key x.2) := by
  induction t generalizing c with
  | nil => exact ⟨hb, ha⟩
  | node a v l r ihl ihr =>
    obtain ⟨hl, hr⟩ := hs.node
    rcases lt_trichotomy k (key v) with hk | hk | hk
    · have hg : dirFind key k v = some .left := by simp [dirFind, hk]
      simp only [seek, hg]
      exact ihl hs hb (forall_after_left rfl hk (fun x hx => lt_of_lt_of_le hk (hr x hx)) ha)
    · have hg : dirFind key k v = none := by simp [dirFind, hk]
      simp only [seek, hg]
      exact ⟨hb, ha⟩
    · have hg : dirFind key k v = some .right := by simp [dirFind, hk, hk.le]
      simp only [seek, hg]
      exact ihr hs (forall_before_right rfl hk (fun x hx => lt_of_le_of_lt (hl x hx) hk) hb) ha

theorem key_of_seek_node {t : BTree β} {c c' : List (Frame β)} {a : Nat} {v : β} {l r : BTree β}
    (h : seek (dirFind key k) t c = (c', .node a v l r)) : key v = k := by
  have hd := dir_of_seek_node h
  unfold dirFind at hd
  split at hd
  · cases hd
  · next h1 =>
    split at hd
    · cases hd
    · next h2 => exact le_antisymm (not_lt.mp h1) (not_lt.mp h2)

/-- A walk that falls off the tree has met no match because there is none. -/
theorem seek_nil_iff {t : BTree β} (hs : t.Sorted key) :
    (seek (dirFind key k) t []).2 = .nil ↔ ∀ x ∈ t.inorder, key x.2 ≠ k := by
  have hplug := plug_seek (dirFind key k) t []
  rw [plug_nil] at hplug
  constructor
  · intro hn x hx he
    obtain ⟨hb, ha⟩ :=
      seek_split (k := k) (t := t) (c := []) hs (by simp [before]) (by simp [after])
    rw [hn] at hplug
    rw [← hplug, inorder_plug] at hx
    simp only [BTree.inorder_nil, List.append_nil, List.mem_append] at hx
    rcases hx with hx | hx
    · exact (hb x hx).ne he
    · exact (ha x hx).ne' he
  · intro hall
    rcases hr : seek (dirFind key k) t [] with ⟨c', t'⟩
    cases t' with
    | nil => rfl
    | node a v l r =>
      rw [hr] at hplug
      refine absurd (key_of_seek_node hr) (hall (a, v) ?_)
      rw [← hplug, inorder_plug]
      simp

theorem sorted_iff_keyed {t : BTree β} :
    t.Sorted key ↔ (t.keyed key).Pairwise fun x y => x.2 ≤ y.2 := by
  unfold BTree.keyed
  rw [List.pairwise_map]
  exact Iff.rfl

theorem StableSortOf.insert_leaf {hist : List (Nat × α)} {t : BTree β}
    (h : StableSortOf Prod.snd hist (t.keyed key)) (n : Nat) (v : β) :
    StableSortOf Prod.snd (hist ++ [(n, key v)])
      ((plug (path (goInsert key (key v)) t []) (.node n v .nil .nil)).keyed key) := by
  obtain ⟨hb, ha⟩ := path_split (k := key v) (t := t) (c := []) (sorted_iff_keyed.mpr h.sorted)
    (by simp [before]) (by simp [after])
  rw [← plug_nil t, ← plug_path (goInsert key (key v)), keyed_plug] at h
  rw [keyed_plug, List.append_assoc]
  simp only [BTree.keyed, BTree.inorder_nil, List.map_nil, List.append_nil] at h
  refine h.snoc (x := (n, key v)) ?_ ?_
  · intro y hy
    obtain ⟨x, hx, rfl⟩ := List.mem_map.mp hy
    exact hb x hx
  · intro y hy
    obtain ⟨x, hx, rfl⟩ := List.mem_map.mp hy
    exact ha x hx

/-- The walk of a find: it ends at a node with key `k`, or at null when there is none. -/
theorem find_returns {m : TreeMem β} {t : BTree β} (h : Holds m t) (hs : t.Sorted key) (k : α) :
    (∃ a, (a, k) ∈ t.keyed key ∧
      Returns (fun fuel => loop (seekStep (dirFind key k) m) fuel m.root) (some a)) ∨
    ((∀ x ∈ t.keyed key, x.2 ≠ k) ∧
      Returns (fun fuel => loop (seekStep (dirFind key k) m) fuel m.root) none) := by
  have hret := seek_returns (dirFind key k) (c := []) h
  rw [← h.root_eq] at hret
  rcases hr : seek (dirFind key k) t [] with ⟨c', t'⟩
  rw [hr] at hret
  cases t' with
  | nil =>
    refine Or.inr ⟨fun x hx => ?_, hret⟩
    obtain ⟨y, hy, rfl⟩ := List.mem_map.mp hx
    exact (seek_nil_iff hs).mp (by rw [hr]) y hy
  | node a v l r =>
    refine Or.inl ⟨a, List.mem_map.mpr ⟨(a, v), ?_, ?_⟩, hret⟩
    · have hplug := plug_seek (dirFind key k) t []
      rw [hr, plug_nil] at hplug
      rw [← hplug, inorder_plug]
      simp
    · rw [key_of_seek_node hr]

end Sorted

end Monya.Lib
