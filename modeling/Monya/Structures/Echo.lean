/-
  `echo` of the tree classes (`structures/BinaryTree.cpp`, `structures/RBTree.cpp`).

  `echo` writes one node a line in symmetric order, two tabs deeper on each level; `RBTree` writes a
  letter for the colour behind the comparator. The text of a comparator is what `operator<<` writes,
  of which only that it has no tab and no line end is used here: two comparators may well have one
  text. What `echo` writes determines the tree up to that (`echo_eq_iff`).
-/
import Monya.Lib.Outline
import Monya.Structures.BinaryTree

namespace Monya.Structures

open Monya.Lib

section Nodes

variable {β : Type} (text : β → List Char)

/-- `echo(node, tabs)`: what it writes to `std::cout`, where `text` is what it writes of a node. -/
def echoNode (m : TreeMem β) : Nat → Ptr → Nat → Except Fault (List Char)
  | _, none, _ => .ok []
  | 0, some _, _ => .error .outOfFuel
  | fuel + 1, some node, tabs => do
      let before ← echoNode m fuel (← m.child .left node) (tabs + 1)
      let line := (List.replicate tabs ['\t', '\t']).flatten ++ text (← m.val node) ++ ['\n']
      let after ← echoNode m fuel (← m.child .right node) (tabs + 1)
      return before ++ line ++ after

variable {m : TreeMem β} {t : BTree β}

theorem echoNode_returns (text : β → List Char) {p : Ptr} (ht : Linked m p t) (tabs : Nat) :
    Returns (fun fuel => echoNode text m fuel t.root tabs)
      (outline '\t' '\n' 2 (levels tabs (t.labels text))) := by
  induction t generalizing p tabs with
  | nil => exact ⟨0, fun fuel _ => by cases fuel <;> rfl⟩
  | node a v l r ihl ihr =>
    obtain ⟨hcell, htl, htr⟩ := ht
    obtain ⟨N, hN⟩ := ihl htl (tabs + 1)
    obtain ⟨N', hN'⟩ := ihr htr (tabs + 1)
    refine ⟨max N N' + 1, fun fuel hf => ?_⟩
    obtain ⟨k, rfl⟩ : ∃ k, fuel = k + 1 := ⟨fuel - 1, by omega⟩
    have hleft := hN k (by omega)
    have hright := hN' k (by omega)
    have hindent : (List.replicate tabs ['\t', '\t']).flatten = List.replicate (2 * tabs) '\t' := by
      change (List.replicate tabs (List.replicate 2 '\t')).flatten = _
      rw [List.flatten_replicate_replicate, Nat.mul_comm]
    simp only at hleft hright
    simp only [BTree.root_node, echoNode, TreeMem.child_ok hcell, TreeMem.val_ok hcell, ok_bind,
      Cell.child, hleft, hright, pure_ok, hindent, BTree.labels, levels, outline, outlineLine,
      List.flatMap_append, List.flatMap_cons, List.append_assoc]

end Nodes

/-- What two trees write is the same just if they have the same shape and the same text at every
    node. -/
theorem outline_labels_inj {β : Type} {text : β → List Char}
    (hplain : ∀ v, Plain '\t' '\n' (text v)) (t u : BTree β) :
    outline '\t' '\n' 2 (levels 0 (t.labels text)) =
        outline '\t' '\n' 2 (levels 0 (u.labels text)) ↔
      t.labels text = u.labels text := by
  have hmem : ∀ t : BTree β, ∀ l ∈ levels 0 (t.labels text), Plain '\t' '\n' l.2 := by
    intro t l hl
    obtain ⟨v, hv⟩ := exists_of_mem_levels_labels hl
    exact hv ▸ hplain v
  refine ⟨fun h => ?_, fun h => by rw [h]⟩
  exact levels_injective 0 (outline_injective (by decide) (by decide) (hmem t) (hmem u) h)

namespace BinaryTree

variable {β : Type}

/-- `echo()`; `text` is what `operator<<` writes of a node's comparator. -/
def echo (text : β → List Char) (fuel : Nat) (m : BinaryTree β) : Except Fault (List Char) :=
  echoNode text m fuel m.root 0

theorem echo_returns (text : β → List Char) {m : BinaryTree β} {t : BTree β} (h : Holds m t) :
    Returns (fun fuel => echo text fuel m) (outline '\t' '\n' 2 (levels 0 (t.labels text))) := by
  have hret := echoNode_returns text h.linked 0
  rwa [← h.root_eq] at hret

end BinaryTree

namespace RBTree

variable {α : Type}

/-- `node->color ? "B" : "R"`, though a `color` of 1 is red. -/
def letter : Color → Char
  | .black => 'R'
  | .red => 'B'

/-- `node->get_comparator() << (node->color ? "B" : "R")`. -/
def nodeText (text : α → List Char) (v : RBVal α) : List Char :=
  text v.comparator ++ [letter v.color]

/-- `echo()`; `text` is what `operator<<` writes of a comparator. -/
def echo (text : α → List Char) (fuel : Nat) (m : RBTree α) : Except Fault (List Char) :=
  echoNode (nodeText text) m fuel m.root 0

theorem letter_injective : Function.Injective letter := by
  intro c d
  cases c <;> cases d <;> decide

theorem plain_nodeText {text : α → List Char} (h : ∀ x, Plain '\t' '\n' (text x)) (v : RBVal α) :
    Plain '\t' '\n' (nodeText text v) := by
  obtain ⟨htab, hnl⟩ := h v.comparator
  refine ⟨fun hm => ?_, fun hm => ?_⟩ <;> rcases List.mem_append.mp hm with hm | hm
  · exact htab hm
  · cases hc : v.color <;> simp [letter, hc] at hm
  · exact hnl hm
  · cases hc : v.color <;> simp [letter, hc] at hm

/-- `echo` of two trees writes the same just if they have the same shape with the same colours and
    the same texts of comparators, wherever their nodes are. -/
theorem echo_eq_iff (text : α → List Char) (hplain : ∀ x, Plain '\t' '\n' (text x))
    {m m' : RBTree α} {t t' : BTree (RBVal α)} (h : Holds m t) (h' : Holds m' t') :
    ∃ out out', Returns (fun fuel => echo text fuel m) out ∧
      Returns (fun fuel => echo text fuel m') out' ∧
      (out = out' ↔ t.labels (fun v => (text v.comparator, v.color)) =
        t'.labels fun v => (text v.comparator, v.color)) := by
  have hret := BinaryTree.echo_returns (nodeText text) h
  have hret' := BinaryTree.echo_returns (nodeText text) h'
  refine ⟨_, _, hret, hret', ?_⟩
  rw [outline_labels_inj (plain_nodeText hplain)]
  refine labels_eq_iff (fun v w => ?_) t t'
  constructor
  · intro he
    obtain ⟨htext, hlet⟩ := List.append_inj' he rfl
    rw [htext, letter_injective (List.singleton_inj.mp hlet)]
  · intro he
    obtain ⟨htext, hcol⟩ := Prod.mk.inj he
    rw [nodeText, nodeText, htext, hcol]

/-- The nodes 1 and 2, with 2 at the root. -/
def twoAbove : RBTree Nat :=
  ⟨(Heap.empty.alloc ⟨none, some 1, none, ⟨.black, 2⟩⟩).alloc ⟨some 0, none, none, ⟨.red, 1⟩⟩,
    some 0⟩

/-- The nodes 1 and 2, with 1 at the root. -/
def oneAbove : RBTree Nat :=
  ⟨(Heap.empty.alloc ⟨none, none, some 1, ⟨.black, 1⟩⟩).alloc ⟨some 0, none, none, ⟨.red, 2⟩⟩,
    some 0⟩

theorem holds_twoAbove :
    Holds twoAbove (.node 0 ⟨.black, 2⟩ (.node 1 ⟨.red, 1⟩ .nil .nil) .nil) :=
  ⟨⟨rfl, ⟨rfl, trivial, trivial⟩, trivial⟩, by decide, rfl⟩

theorem holds_oneAbove :
    Holds oneAbove (.node 0 ⟨.black, 1⟩ .nil (.node 1 ⟨.red, 2⟩ .nil .nil)) :=
  ⟨⟨rfl, trivial, ⟨rfl, trivial, trivial⟩⟩, by decide, rfl⟩

/-- Numbers in unary: two trees with the same numbers in the same order, of different shapes. -/
theorem echo_eq_iff_shape : ∃ out out',
    Returns (fun fuel => echo (List.replicate · '|') fuel twoAbove) out ∧
    Returns (fun fuel => echo (List.replicate · '|') fuel oneAbove) out' ∧ out ≠ out' := by
  obtain ⟨out, out', hret, hret', hiff⟩ := echo_eq_iff (List.replicate · '|')
    (fun x => by simp [Plain]) holds_twoAbove holds_oneAbove
  refine ⟨out, out', hret, hret', fun he => ?_⟩
  have hlabels := hiff.mp he
  simp [BTree.labels] at hlabels

end RBTree

end Monya.Structures
