/-
  Outlines: a binary tree written with one node a line, in symmetric order, each line indented by
  the depth of its node.

  The depths alone tell where the root is, since everything else lies deeper, so the list of the
  nodes with their depths determines the tree (`levels_injective`). The text determines that list as
  long as the labels have neither the indentation's character nor the one that ends a line
  (`outline_injective`).
-/
import Mathlib.Data.List.Basic
import Mathlib.Data.Tree.Basic
import Monya.Lib.LinkedTree

namespace Monya.Lib

/-! ## Nodes and depths -/

section Levels

variable {γ : Type}

/-- The labels in symmetric order with their depths, when the root is at depth `d`. -/
def levels : Nat → BinaryTree γ → List (Nat × γ)
  | _, .nil => []
  | d, .node x l r => levels (d + 1) l ++ (d, x) :: levels (d + 1) r

theorem le_of_mem_levels {t : BinaryTree γ} {d : Nat} {p : Nat × γ} (hp : p ∈ levels d t) :
    d ≤ p.1 := by
  induction t generalizing d with
  | nil => cases hp
  | node x l r ihl ihr =>
    rcases List.mem_append.mp hp with hp | hp
    · exact Nat.le_of_succ_le (ihl hp)
    rcases List.mem_cons.mp hp with rfl | hp
    · exact Nat.le_refl d
    · exact Nat.le_of_succ_le (ihr hp)

theorem levels_injective (d : Nat) : Function.Injective (levels d : BinaryTree γ → _) := by
  intro t
  induction t generalizing d with
  | nil =>
    intro u h
    cases u with
    | nil => rfl
    | node y l r => simp [levels] at h
  | node x l r ihl ihr =>
    intro u h
    cases u with
    | nil => simp [levels] at h
    | node y l' r' =>
      -- below the root every depth is larger than the root's
      have hdeep : ∀ t : BinaryTree γ, (d, y) ∉ levels (d + 1) t := fun t hm =>
        absurd (le_of_mem_levels hm) (Nat.not_succ_le_self d)
      obtain ⟨hl, hx, hr⟩ := (List.append_cons_inj_of_notMem (hdeep l) (hdeep r)).mp h
      rw [ihl (d + 1) hl, ihr (d + 1) hr, (Prod.mk.inj hx).2]

/-- The shape of a tree in memory, with a label for each node. -/
def BTree.labels {β : Type} (label : β → γ) : BTree β → BinaryTree γ
  | .nil => .nil
  | .node _ v l r => .node (label v) (l.labels label) (r.labels label)

/-- Labels that determine each other give the same comparison of shapes. -/
theorem labels_eq_iff {β δ : Type} {label : β → γ} {label' : β → δ}
    (h : ∀ v w, label v = label w ↔ label' v = label' w) (t u : BTree β) :
    t.labels label = u.labels label ↔ t.labels label' = u.labels label' := by
  induction t generalizing u with
  | nil => cases u <;> simp [BTree.labels]
  | node a v l r ihl ihr =>
    cases u with
    | nil => simp [BTree.labels]
    | node b w l' r' => simp only [BTree.labels, BinaryTree.node.injEq, h, ihl, ihr]

theorem exists_of_mem_levels_labels {β : Type} {label : β → γ} {t : BTree β} {d : Nat} {p : Nat × γ}
    (hp : p ∈ levels d (t.labels label)) : ∃ v, p.2 = label v := by
  induction t generalizing d with
  | nil => cases hp
  | node a v l r ihl ihr =>
    rcases List.mem_append.mp hp with hp | hp
    · exact ihl hp
    rcases List.mem_cons.mp hp with rfl | hp
    · exact ⟨v, rfl⟩
    · exact ihr hp

end Levels

/-! ## The text -/

section Text

variable {κ : Type} (tab nl : κ) (width : Nat)

/-- A line for a label at depth `d`, indented by `width` per level. -/
def outlineLine (l : Nat × List κ) : List κ := List.replicate (width * l.1) tab ++ l.2 ++ [nl]

def outline (ls : List (Nat × List κ)) : List κ := ls.flatMap (outlineLine tab nl width)

variable {tab nl width}

theorem append_nl_inj {xs ys xs' ys' : List κ} (hx : nl ∉ xs) (hy : nl ∉ ys)
    (h : xs ++ nl :: xs' = ys ++ nl :: ys') : xs = ys ∧ xs' = ys' := by
  induction xs generalizing ys with
  | nil =>
    cases ys with
    | nil => exact ⟨rfl, (List.cons.inj h).2⟩
    | cons y ys => exact absurd (List.cons.inj h).1 fun he => hy (he ▸ List.mem_cons_self)
  | cons x xs ih =>
    cases ys with
    | nil => exact absurd (List.cons.inj h).1 fun he => hx (he ▸ List.mem_cons_self)
    | cons y ys =>
      obtain ⟨rfl, hrest⟩ := List.cons.inj h
      obtain ⟨rfl, rfl⟩ := ih (fun hm => hx (List.mem_cons_of_mem x hm))
        (fun hm => hy (List.mem_cons_of_mem x hm)) hrest
      exact ⟨rfl, rfl⟩

/-- A label that can be told from what stands around it. -/
def Plain (tab nl : κ) (text : List κ) : Prop := tab ∉ text ∧ nl ∉ text

theorem indent_inj {d e : Nat} {xs ys : List κ} (hw : 0 < width) (hx : tab ∉ xs) (hy : tab ∉ ys)
    (h : List.replicate (width * d) tab ++ xs = List.replicate (width * e) tab ++ ys) :
    d = e ∧ xs = ys := by
  classical
  have hcount := congrArg (List.count tab) h
  rw [List.count_append, List.count_append, List.count_replicate_self, List.count_replicate_self,
    List.count_eq_zero_of_not_mem hx, List.count_eq_zero_of_not_mem hy] at hcount
  obtain rfl : d = e := Nat.eq_of_mul_eq_mul_left hw (by omega)
  exact ⟨rfl, List.append_cancel_left h⟩

theorem outline_injective (hw : 0 < width) (hne : tab ≠ nl) {ls ms : List (Nat × List κ)}
    (hl : ∀ l ∈ ls, Plain tab nl l.2) (hm : ∀ l ∈ ms, Plain tab nl l.2)
    (h : outline tab nl width ls = outline tab nl width ms) : ls = ms := by
  induction ls generalizing ms with
  | nil =>
    cases ms with
    | nil => rfl
    | cons m ms => simp [outline, outlineLine] at h
  | cons l ls ih =>
    cases ms with
    | nil => simp [outline, outlineLine] at h
    | cons m ms =>
      obtain ⟨hlt, hln⟩ := hl l List.mem_cons_self
      obtain ⟨hmt, hmn⟩ := hm m List.mem_cons_self
      have hnl : ∀ (d : Nat) (xs : List κ), nl ∉ xs →
          nl ∉ List.replicate (width * d) tab ++ xs := by
        intro d xs hx hm
        rcases List.mem_append.mp hm with hm | hm
        · exact hne (List.eq_of_mem_replicate hm).symm
        · exact hx hm
      simp only [outline, List.flatMap_cons, outlineLine] at h
      rw [List.append_assoc _ [nl], List.append_assoc _ [nl]] at h
      obtain ⟨hline, hrest⟩ := append_nl_inj (hnl l.1 l.2 hln) (hnl m.1 m.2 hmn) h
      obtain ⟨hd, htext⟩ := indent_inj hw hlt hmt hline
      rw [Prod.ext hd htext, ih (fun x hx => hl x (List.mem_cons_of_mem l hx))
        (fun x hx => hm x (List.mem_cons_of_mem m hx)) hrest]

end Text

end Monya.Lib
