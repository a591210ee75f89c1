/-
  `BinaryTree` (`structures/BinaryTree.cpp`, `structures/BinaryNode.hpp`): the plain search tree,
  and its agreement with `RBTree`.

  A tree holds nodes of any class derived from `NodeView`; the model is generic in what a node
  holds and takes the comparator as a function of it. `BinaryTree::depth` is not read by the
  functions here and is left out.

  Neither tree keeps equal comparators on one side for good: a rotation of `RBTree` moves them
  to the left. What both keep is the symmetric order as a stable sort of the insertions
  (`Grown.stable`, `Sprouted.stable`), and `insertAll_agree` follows from that alone.
-/
import Monya.Structures.RBInsert

namespace Monya.Structures

open Monya.Lib

abbrev BinaryTree (β : Type) := TreeMem β

namespace BinaryTree

variable {α β : Type}

def populated : Side → String
  | .left => "BinaryTree::insert_at: Left child already populated"
  | .right => "BinaryTree::insert_at: Right child already populated"

/-- `insert_at`. Its branch for a null `node` is behind a read of `node`'s child, so it is not
    reached. -/
def insertAt (newNode node : Nat) (pos : Side) (m : BinaryTree β) :
    Except Fault (BinaryTree β) := do
  if (← m.child pos node) ≠ none then .error (.thrown (populated pos))
  else
    let m ← m.setParent newNode (some node)
    let m ← m.setChild .right newNode none
    let m ← m.setChild .left newNode none
    m.setChild pos node (some newNode)

variable [LinearOrder α] (comparator : β → α)

/-- The second half of `insert`: hang `node` below `parent`, or make it the root. -/
def linkNode (parent : Ptr) (node : Nat) (m : BinaryTree β) : Except Fault (BinaryTree β) :=
  match parent with
  | none => do
      let m := m.setRoot (some node)
      let m ← m.setChild .right node none
      let m ← m.setChild .left node none
      m.setParent node none
  | some p => do
      let m ← m.setParent node (some p)
      let m ← m.setChild .right node none
      let m ← m.setChild .left node none
      if comparator (← m.val node) < comparator (← m.val p) then m.setChild .left p (some node)
      else m.setChild .right p (some node)

def insert (fuel : Nat) (node : Nat) (m : BinaryTree β) : Except Fault (BinaryTree β) := do
  let k := comparator (← m.val node)
  let parent ← loop (descendStep (goInsert comparator k) m) fuel (none, m.root)
  linkNode comparator parent node m

def find (fuel : Nat) (shell : α) (m : BinaryTree β) : Except Fault Nat := do
  match ← loop (seekStep (dirFind comparator shell) m) fuel m.root with
  | some node => return node
  | none => .error (.thrown "node not found")

/-- A history of `insert` calls. -/
def insertAll (fuel : Nat) (nodes : List Nat) (m : BinaryTree β) : Except Fault (BinaryTree β) :=
  nodes.foldlM (fun m n => insert comparator fuel n m) m

/-! ## Insertion -/

section Insert

variable {comparator} {m : BinaryTree β} {c : List (Frame β)} {t : BTree β} {n : Nat} {d : Cell β}

theorem linkNode_holds {q : Ptr} (hn : m.cell n = some d) (hctx : LinkedCtx m q c)
    (hnd : (n :: ctxAddrs c).Nodup) (hroot : c ≠ [] → m.root = (plug c .nil).root)
    (hside : ∀ f c', c = f :: c' → f.side = goInsert comparator (comparator d.val) f.v) :
    ∃ m', linkNode comparator (holeParent c) n m = .ok m' ∧
      Holds m' (plug c (.node n d.val .nil .nil)) ∧ TreeMem.SameKeys comparator m m' := by
  cases c with
  | nil =>
    -- the root pointer is set first, which the stores to the node do not see
    set m₁ := m.upd n (·.setChild .right none) with hm₁
    set m₂ := m₁.upd n (·.setChild .left none) with hm₂
    set m₃ := m₂.upd n (·.setParent none) with hm₃
    have h₀ : (m.setRoot (some n)).cell n = some d := hn
    have h₁ : (m₁.setRoot (some n)).cell n = _ := TreeMem.upd_cell h₀ _
    have h₂ : (m₂.setRoot (some n)).cell n = _ := TreeMem.upd_cell h₁ _
    have h₃ : m₃.cell n = _ := TreeMem.upd_cell h₂ _
    refine ⟨hung [] (some n) m₃, ?_, holds_leaf hctx hnd hroot h₃ (fun a ha => ?_) rfl, ?_⟩
    · change ((m.setRoot (some n)).setChild .right n none >>= _) = _
      rw [TreeMem.setChild_ok h₀, ok_bind]
      change ((m₁.setRoot (some n)).setChild .left n none >>= _) = _
      rw [TreeMem.setChild_ok h₁, ok_bind]
      exact TreeMem.setParent_ok h₂ none
    · simp only [hm₃, hm₂, hm₁, TreeMem.upd_cell_ne _ _ ha]
    · exact .trans (.trans (.trans (TreeMem.sameKeys_setChild .right n none)
        (TreeMem.sameKeys_setChild .left n none)) (TreeMem.sameKeys_setParent n none))
        (sameKeys_hung _)
  | cons f c =>
    have hfn : f.a ≠ n := fun he => (List.nodup_cons.mp hnd).1 (by simp [he])
    set m₁ := m.upd n (·.setParent (some f.a)) with hm₁
    set m₂ := m₁.upd n (·.setChild .right none) with hm₂
    set m₃ := m₂.upd n (·.setChild .left none) with hm₃
    have h₁ : m₁.cell n = _ := TreeMem.upd_cell hn _
    have h₂ : m₂.cell n = _ := TreeMem.upd_cell h₁ _
    have h₃ : m₃.cell n = some ⟨some f.a, none, none, d.val⟩ := TreeMem.upd_cell h₂ _
    have hne : ∀ a, a ≠ n → m₃.cell a = m.cell a := by
      intro a ha
      simp only [hm₃, hm₂, hm₁, TreeMem.upd_cell_ne _ _ ha]
    have hf : m₃.cell f.a = some (f.cell (holeParent c) q) := by rw [hne f.a hfn, hctx.1]
    refine ⟨hung (f :: c) (some n) m₃, ?_, holds_leaf hctx hnd hroot h₃ hne rfl, ?_⟩
    · have hs := hside f c rfl
      unfold goInsert at hs
      simp only [holeParent_cons, linkNode, ok_bind, TreeMem.setParent_ok hn,
        TreeMem.setChild_ok h₁, TreeMem.setChild_ok h₂, ← hm₁, ← hm₂, ← hm₃, TreeMem.val_ok h₃,
        TreeMem.val_ok hf, TreeMem.setChild_ok hf, hung, Frame.cell, Cell.mkAt_val]
      split at hs
      · next hlt => rw [if_pos hlt, hs]
      · next hlt => rw [if_neg hlt, hs]
    · exact .trans (.trans (.trans (TreeMem.sameKeys_setParent n _)
        (TreeMem.sameKeys_setChild .right n none)) (TreeMem.sameKeys_setChild .left n none))
        (sameKeys_hung _)

/-- `insert` of a node outside the tree hangs it where the comparisons lead to. -/
theorem insert_returns (comparator : β → α) (h : Holds m t) (hn : n ∉ t.addrs)
    (hd : m.cell n = some d) :
    ∃ m', Returns (fun fuel => insert comparator fuel n m) m' ∧
      Holds m' (plug (path (goInsert comparator (comparator d.val)) t [])
        (.node n d.val .nil .nil)) ∧ TreeMem.SameKeys comparator m m' := by
  obtain ⟨h₀, hnd, hside⟩ := h.path_nil hn (goInsert comparator (comparator d.val))
  obtain ⟨m', hm', hh, hs⟩ := linkNode_holds hd h₀.ctx hnd (fun _ => h₀.root_eq) hside
  refine ⟨m', ?_, hh, hs⟩
  unfold insert
  rw [TreeMem.val_ok hd]
  have hdesc := descend_returns (goInsert comparator (comparator d.val)) (c := []) h
  rw [← h.root_eq] at hdesc
  refine hdesc.bind ?_
  rw [hm']
  exact .pure m'

/-- The tree in memory after the nodes `nodes`, with the comparators `k`, have been inserted. -/
structure Sprouted (comparator : β → α) (k : Nat → α) (nodes : List Nat) (m : BinaryTree β)
    (t : BTree β) : Prop where
  holds : Holds m t
  stable : StableSortOf Prod.snd (nodes.map fun n => (n, k n)) (t.keyed comparator)

theorem insertAll_returns {k : Nat → α} {nodes : List Nat} (hroot : m.root = none)
    (hnd : nodes.Nodup) (hk : ∀ n ∈ nodes, ∃ d, m.cell n = some d ∧ comparator d.val = k n) :
    ∃ m' t', Returns (fun fuel => insertAll comparator fuel nodes m) m' ∧
      Sprouted comparator k nodes m' t' := by
  obtain ⟨m', hret, t', hg, _⟩ := foldlM_returns (insert comparator) nodes
    (fun pre m' => ∃ t, Sprouted comparator k pre m' t ∧ TreeMem.SameKeys comparator m m')
    (by
      rintro pre n post m₁ rfl ⟨t, hg, hs⟩
      have hpre : n ∉ t.addrs := by
        have hp := hg.stable.perm.map Prod.fst
        rw [keyed_fst, List.map_map] at hp
        intro hm
        have hmem : n ∈ pre := by simpa [Function.comp_def] using hp.mem_iff.mp hm
        exact (List.nodup_append.mp hnd).2.2 n hmem n List.mem_cons_self rfl
      obtain ⟨d, hd, hdk⟩ := hk n (by simp)
      obtain ⟨d₁, hd₁, hdk₁⟩ := hs.cell hd
      obtain ⟨m₂, hret, hh₂, hs₂⟩ := insert_returns comparator hg.holds hpre hd₁
      refine ⟨m₂, hret, _, ⟨hh₂, ?_⟩, hs.trans hs₂⟩
      rw [List.map_append]
      have hst := hg.stable.insert_leaf n d₁.val
      rwa [hdk₁.trans hdk] at hst ⊢)
    ⟨.nil, ⟨⟨trivial, List.nodup_nil, hroot⟩, stableSortOf_nil _⟩, .refl m⟩
  exact ⟨m', t', hret, hg⟩

end Insert

/-! ## Agreement with `RBTree` -/

section Agree

variable {k : Nat → α} {nodes : List Nat} {shell : α}

/-- The result of `find` after a history of insertions, in either tree. -/
def FindSpec (k : Nat → α) (nodes : List Nat) (find : Nat → α → Except Fault Nat) (shell : α) :
    Prop :=
  ((∃ n ∈ nodes, k n = shell) → ∃ a ∈ nodes, k a = shell ∧
    Returns (fun fuel => find fuel shell) a) ∧
    ((∀ n ∈ nodes, k n ≠ shell) → Raises (fun fuel => find fuel shell) (.thrown "node not found"))

/-- A walk through a stable sort of the insertions meets `FindSpec`. -/
theorem findSpec_of_stable {γ : Type} {key : γ → α} {m : TreeMem γ} {t : BTree γ} (h : Holds m t)
    (hst : StableSortOf Prod.snd (nodes.map fun n => (n, k n)) (t.keyed key)) (shell : α) :
    FindSpec k nodes (fun fuel shell => do
      match ← loop (seekStep (dirFind key shell) m) fuel m.root with
      | some node => return node
      | none => .error (.thrown "node not found")) shell := by
  have hmem : ∀ x, x ∈ t.keyed key ↔ ∃ n ∈ nodes, (n, k n) = x := fun x => by
    rw [hst.perm.mem_iff, List.mem_map]
  rcases find_returns h (sorted_iff_keyed.mpr hst.sorted) shell with ⟨a, ha, hret⟩ | ⟨hnone, hret⟩
  · obtain ⟨n, hn, he⟩ := (hmem _).mp ha
    obtain ⟨rfl, rfl⟩ := Prod.mk.inj he
    exact ⟨fun _ => ⟨n, hn, rfl, hret.bind (.pure n)⟩, fun hne => absurd rfl (hne n hn)⟩
  · refine ⟨?_, fun _ => .of_bind hret ⟨0, fun _ _ => rfl⟩⟩
    rintro ⟨n, hn, rfl⟩
    exact absurd rfl (hnone (n, k n) ((hmem _).mpr ⟨n, hn, rfl⟩))

/-- The same nodes inserted into an empty `RBTree` and an empty `BinaryTree` stand in the same
    symmetric order, the stable sort of the insertions by comparator, and `find` answers alike:
    a node with the shell's comparator if one was inserted, "node not found" otherwise. -/
theorem insertAll_agree (k : Nat → α) (nodes : List Nat) (m : RBTree α) (b : BinaryTree β)
    (hm : m.root = none) (hb : b.root = none) (hnd : nodes.Nodup)
    (hmk : ∀ n ∈ nodes, ∃ d, m.cell n = some d ∧ d.val.comparator = k n)
    (hbk : ∀ n ∈ nodes, ∃ d, b.cell n = some d ∧ comparator d.val = k n) :
    ∃ m' t b' u, Returns (fun fuel => RBTree.insertAll fuel nodes m) m' ∧ Holds m' t ∧
      Returns (fun fuel => insertAll comparator fuel nodes b) b' ∧ Holds b' u ∧
      keys t = u.keyed comparator ∧
      u.keyed comparator = stableSort Prod.snd (nodes.map fun n => (n, k n)) ∧
      ∀ shell, FindSpec k nodes (fun fuel shell => RBTree.find fuel shell m') shell ∧
        FindSpec k nodes (fun fuel shell => find comparator fuel shell b') shell := by
  obtain ⟨m', t, hret, hg⟩ := RBTree.insertAll_returns hm hnd hmk
  obtain ⟨b', u, hretb, hs⟩ := insertAll_returns hb hnd hbk
  refine ⟨m', t, b', u, hret, hg.holds, hretb, hs.holds, hg.stable.eq hs.stable,
    hs.stable.eq_stableSort, fun shell => ⟨?_, ?_⟩⟩
  · exact findSpec_of_stable hg.holds hg.stable shell
  · exact findSpec_of_stable hs.holds hs.stable shell

/-- Three unlinked nodes with the comparators 2, 1 and 1. -/
def threeNodes : BinaryTree Nat :=
  ⟨((Heap.empty.alloc ⟨none, none, none, 2⟩).alloc ⟨none, none, none, 1⟩).alloc
    ⟨none, none, none, 1⟩, none⟩

theorem insertAll_agree_three :
    ∃ m' t b' u, Returns (fun fuel => RBTree.insertAll fuel [0, 1, 2] RBTree.threeNodes) m' ∧
      Holds m' t ∧ Returns (fun fuel => insertAll id fuel [0, 1, 2] threeNodes) b' ∧ Holds b' u ∧
      keys t = u.keyed id := by
  obtain ⟨m', t, b', u, h⟩ := insertAll_agree id (fun n => if n = 0 then 2 else 1) [0, 1, 2]
    RBTree.threeNodes threeNodes rfl rfl (by decide) (by decide) (by decide)
  exact ⟨m', t, b', u, h.1, h.2.1, h.2.2.1, h.2.2.2.1, h.2.2.2.2.1⟩

end Agree

end BinaryTree

end Monya.Structures
