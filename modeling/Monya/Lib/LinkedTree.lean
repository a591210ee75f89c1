/-
  Binary trees linked in a heap by parent, left and right pointers.

  `TreeMem` is the memory of one tree object: the heap of cells and the root pointer. The
  accessors (`parent`, `child`, `val` and their setters) are the loads and stores of a program
  that walks or changes the tree; each faults on an address without a cell.

  `Holds m t` says that the memory `m` holds exactly the tree `t`: every node of `t` has its cell,
  with the links `t` gives it, no two nodes share an address, and the root pointer is right.
  `Holds` is what "all links are consistent" means for the results built on this file.

  A program that walks down the tree is followed by a zipper: `plug c t` is the tree with the
  subtree `t` in the hole of the context `c`, and `linked_plug` splits the links of the whole
  into those of the subtree and those of the context. A program that changes links near the
  hole then needs only the frame rules (`Linked.frame`, `LinkedCtx.frame`): what it does not
  write stays linked.
-/
import Monya.Lib.Heap

namespace Monya.Lib

inductive Side where
  | left
  | right
  deriving DecidableEq, Repr

def Side.other : Side → Side
  | .left => .right
  | .right => .left

@[simp] theorem Side.other_left : Side.left.other = .right := rfl

@[simp] theorem Side.other_right : Side.right.other = .left := rfl

@[simp] theorem Side.other_other (s : Side) : s.other.other = s := by cases s <;> rfl

@[simp] theorem Side.other_ne (s : Side) : s.other ≠ s := by cases s <;> decide

@[simp] theorem Side.ne_other (s : Side) : s ≠ s.other := by cases s <;> decide

/-- A node in memory. -/
structure Cell (β : Type) where
  parent : Ptr
  left : Ptr
  right : Ptr
  val : β
  deriving DecidableEq, Repr

namespace Cell

variable {β : Type}

def child (c : Cell β) : Side → Ptr
  | .left => c.left
  | .right => c.right

def setChild (c : Cell β) : Side → Ptr → Cell β
  | .left, p => { c with left := p }
  | .right, p => { c with right := p }

def setParent (c : Cell β) (p : Ptr) : Cell β := { c with parent := p }

def setVal (c : Cell β) (v : β) : Cell β := { c with val := v }

/-- The cell with parent `p`, value `v`, `q` as its child at side `s` and `r` as the other. -/
def mkAt (s : Side) (p : Ptr) (v : β) (q r : Ptr) : Cell β :=
  match s with
  | .left => ⟨p, q, r, v⟩
  | .right => ⟨p, r, q, v⟩

@[simp] theorem setChild_val (c : Cell β) (s : Side) (p : Ptr) :
    (c.setChild s p).val = c.val := by cases s <;> rfl

@[simp] theorem mkAt_parent (s : Side) (p : Ptr) (v : β) (q r : Ptr) :
    (mkAt s p v q r).parent = p := by cases s <;> rfl

@[simp] theorem mkAt_val (s : Side) (p : Ptr) (v : β) (q r : Ptr) :
    (mkAt s p v q r).val = v := by cases s <;> rfl

@[simp] theorem mkAt_child (s : Side) (p : Ptr) (v : β) (q r : Ptr) :
    (mkAt s p v q r).child s = q := by cases s <;> rfl

@[simp] theorem mkAt_child_other (s : Side) (p : Ptr) (v : β) (q r : Ptr) :
    (mkAt s p v q r).child s.other = r := by cases s <;> rfl

@[simp] theorem mkAt_setChild (s : Side) (p : Ptr) (v : β) (q r q' : Ptr) :
    (mkAt s p v q r).setChild s q' = mkAt s p v q' r := by cases s <;> rfl

@[simp] theorem mkAt_setChild_other (s : Side) (p : Ptr) (v : β) (q r r' : Ptr) :
    (mkAt s p v q r).setChild s.other r' = mkAt s p v q r' := by cases s <;> rfl

@[simp] theorem mkAt_setParent (s : Side) (p p' : Ptr) (v : β) (q r : Ptr) :
    (mkAt s p v q r).setParent p' = mkAt s p' v q r := by cases s <;> rfl

@[simp] theorem mkAt_setVal (s : Side) (p : Ptr) (v w : β) (q r : Ptr) :
    (mkAt s p v q r).setVal w = mkAt s p w q r := by cases s <;> rfl

end Cell

/-- The memory of one tree object. -/
structure TreeMem (β : Type) where
  heap : Heap (Cell β)
  root : Ptr

namespace TreeMem

variable {β : Type}

def empty : TreeMem β := ⟨Heap.empty, none⟩

def cell (m : TreeMem β) (a : Nat) : Option (Cell β) := m.heap.cell a

def parent (m : TreeMem β) (a : Nat) : Except Fault Ptr := do
  return (← m.heap.read a).parent

def child (m : TreeMem β) (s : Side) (a : Nat) : Except Fault Ptr := do
  return (← m.heap.read a).child s

def val (m : TreeMem β) (a : Nat) : Except Fault β := do
  return (← m.heap.read a).val

def modify (m : TreeMem β) (a : Nat) (f : Cell β → Cell β) : Except Fault (TreeMem β) := do
  return { m with heap := ← m.heap.modify a f }

def setParent (m : TreeMem β) (a : Nat) (p : Ptr) : Except Fault (TreeMem β) :=
  m.modify a (·.setParent p)

def setChild (m : TreeMem β) (s : Side) (a : Nat) (p : Ptr) : Except Fault (TreeMem β) :=
  m.modify a (·.setChild s p)

def setVal (m : TreeMem β) (a : Nat) (v : β) : Except Fault (TreeMem β) :=
  m.modify a (·.setVal v)

/-- Assign the root pointer. -/
def setRoot (m : TreeMem β) (p : Ptr) : TreeMem β := { m with root := p }

/-- The memory after a store to an allocated cell. -/
def upd (m : TreeMem β) (a : Nat) (f : Cell β → Cell β) : TreeMem β :=
  { m with heap := m.heap.update a f }

@[simp] theorem upd_root (m : TreeMem β) (a : Nat) (f : Cell β → Cell β) :
    (m.upd a f).root = m.root := rfl

@[simp] theorem upd_cell_self (m : TreeMem β) (a : Nat) (f : Cell β → Cell β) :
    (m.upd a f).cell a = (m.cell a).map f := by
  simp [upd, cell]

theorem upd_cell {m : TreeMem β} {a : Nat} {c : Cell β} (h : m.cell a = some c)
    (f : Cell β → Cell β) : (m.upd a f).cell a = some (f c) := by
  rw [upd_cell_self, h, Option.map_some]

theorem upd_cell_ne (m : TreeMem β) {a b : Nat} (f : Cell β → Cell β) (h : b ≠ a) :
    (m.upd a f).cell b = m.cell b := by
  simp [upd, cell, Heap.update_cell_ne _ _ h]

variable {m : TreeMem β} {a : Nat} {c : Cell β}

theorem parent_ok (h : m.cell a = some c) : m.parent a = .ok c.parent := by
  unfold parent
  rw [Heap.read_ok h]; rfl

theorem child_ok (h : m.cell a = some c) (s : Side) : m.child s a = .ok (c.child s) := by
  unfold child
  rw [Heap.read_ok h]; rfl

theorem val_ok (h : m.cell a = some c) : m.val a = .ok c.val := by
  unfold val
  rw [Heap.read_ok h]; rfl

theorem modify_ok (h : m.cell a = some c) (f : Cell β → Cell β) :
    m.modify a f = .ok (m.upd a f) := by
  unfold modify
  rw [Heap.modify_ok h]; rfl

theorem setParent_ok (h : m.cell a = some c) (p : Ptr) :
    m.setParent a p = .ok (m.upd a (·.setParent p)) := modify_ok h _

theorem setChild_ok (h : m.cell a = some c) (s : Side) (p : Ptr) :
    m.setChild s a p = .ok (m.upd a (·.setChild s p)) := modify_ok h _

/-- The two memories have the same nodes allocated, and these have the same keys. -/
def SameKeys {γ : Type} (key : β → γ) (m m' : TreeMem β) : Prop :=
  ∀ a, (m'.cell a).map (fun c => key c.val) = (m.cell a).map fun c => key c.val

section SameKeys

variable {γ : Type} {key : β → γ} {m' m'' : TreeMem β}

theorem SameKeys.refl (m : TreeMem β) : SameKeys key m m := fun _ => rfl

theorem SameKeys.trans (h : SameKeys key m m') (h' : SameKeys key m' m'') :
    SameKeys key m m'' := fun a => (h' a).trans (h a)

theorem sameKeys_setRoot (p : Ptr) : SameKeys key m (m.setRoot p) := fun _ => rfl

theorem sameKeys_upd {f : Cell β → Cell β} (hf : ∀ c, key (f c).val = key c.val) (a : Nat) :
    SameKeys key m (m.upd a f) := by
  intro b
  by_cases hb : b = a
  · subst hb
    rw [upd_cell_self]
    cases m.cell b <;> simp [hf]
  · rw [upd_cell_ne _ _ hb]

theorem sameKeys_setChild (s : Side) (a : Nat) (q : Ptr) :
    SameKeys key m (m.upd a (·.setChild s q)) :=
  sameKeys_upd (fun c => by rw [Cell.setChild_val]) a

theorem sameKeys_setParent (a : Nat) (q : Ptr) : SameKeys key m (m.upd a (·.setParent q)) := by
  refine sameKeys_upd ?_ a
  exact fun _ => rfl

theorem SameKeys.cell (h : SameKeys key m m') {d : Cell β} (hd : m.cell a = some d) :
    ∃ d', m'.cell a = some d' ∧ key d'.val = key d.val := by
  have ha := h a
  rw [hd, Option.map_some] at ha
  cases hc : m'.cell a with
  | none => rw [hc] at ha; cases ha
  | some d' =>
    rw [hc, Option.map_some] at ha
    exact ⟨d', rfl, Option.some.inj ha⟩

end SameKeys

end TreeMem

/-! ## Trees and contexts -/

/-- The tree a memory holds: each node with its address and its value. -/
inductive BTree (β : Type) where
  | nil
  | node (a : Nat) (v : β) (l r : BTree β)
  deriving DecidableEq, Repr

/-- One step of a path: the hole is the child at `side` of the node at `a`, whose other
    child is `sib`. -/
structure Frame (β : Type) where
  side : Side
  a : Nat
  v : β
  sib : BTree β

namespace BTree

variable {β : Type}

def root : BTree β → Ptr
  | nil => none
  | node a _ _ _ => some a

/-- The node whose child at side `s` is `x` and whose other child is `y`. -/
def join (s : Side) (a : Nat) (v : β) (x y : BTree β) : BTree β :=
  match s with
  | .left => node a v x y
  | .right => node a v y x

/-- Addresses and values in symmetric order. -/
def inorder : BTree β → List (Nat × β)
  | nil => []
  | node a v l r => inorder l ++ (a, v) :: inorder r

def addrs (t : BTree β) : List Nat := t.inorder.map Prod.fst

def size (t : BTree β) : Nat := t.inorder.length

@[simp] theorem root_nil : (nil : BTree β).root = none := rfl

@[simp] theorem root_node (a : Nat) (v : β) (l r : BTree β) : (node a v l r).root = some a := rfl

@[simp] theorem root_join (s : Side) (a : Nat) (v : β) (x y : BTree β) :
    (join s a v x y).root = some a := by cases s <;> rfl

@[simp] theorem inorder_nil : (nil : BTree β).inorder = [] := rfl

@[simp] theorem inorder_node (a : Nat) (v : β) (l r : BTree β) :
    (node a v l r).inorder = l.inorder ++ (a, v) :: r.inorder := rfl

@[simp] theorem addrs_nil : (nil : BTree β).addrs = [] := rfl

@[simp] theorem addrs_node (a : Nat) (v : β) (l r : BTree β) :
    (node a v l r).addrs = l.addrs ++ a :: r.addrs := by
  simp [addrs]

theorem join_other (s : Side) (a : Nat) (v : β) (x y : BTree β) :
    join s.other a v x y = join s a v y x := by cases s <;> rfl

/-- A node seen from either side. -/
theorem exists_join (s : Side) (a : Nat) (v : β) (l r : BTree β) :
    ∃ x y, node a v l r = join s a v x y := by
  cases s with
  | left => exact ⟨l, r, rfl⟩
  | right => exact ⟨r, l, rfl⟩

theorem inorder_rotate (s : Side) (a b : Nat) (v w : β) (x y z : BTree β) :
    (join s b w (join s a v x y) z).inorder = (join s a v x (join s b w y z)).inorder := by
  cases s <;> simp [join, inorder]

theorem mem_addrs_join {s : Side} {a : Nat} {v : β} {x y : BTree β} {b : Nat} :
    b ∈ (join s a v x y).addrs ↔ b = a ∨ b ∈ x.addrs ∨ b ∈ y.addrs := by
  cases s <;> simp [join] <;> tauto

theorem addrs_join_perm (s : Side) (a : Nat) (v : β) (x y : BTree β) :
    (join s a v x y).addrs.Perm (a :: (x.addrs ++ y.addrs)) := by
  cases s
  · simp only [join, addrs_node]
    exact List.perm_middle
  · simp only [join, addrs_node]
    exact List.perm_middle.trans (List.Perm.cons _ List.perm_append_comm)

theorem nodup_addrs_join {s : Side} {a : Nat} {v : β} {x y : BTree β} :
    (join s a v x y).addrs.Nodup ↔
      a ∉ x.addrs ∧ a ∉ y.addrs ∧ x.addrs.Nodup ∧ y.addrs.Nodup ∧
        List.Disjoint x.addrs y.addrs := by
  rw [(addrs_join_perm s a v x y).nodup_iff, List.nodup_cons, List.nodup_append', List.mem_append]
  tauto

theorem root_mem_addrs {t : BTree β} {a : Nat} (h : t.root = some a) : a ∈ t.addrs := by
  cases t with
  | nil => cases h
  | node b v l r => cases h; simp

end BTree

namespace Frame

variable {β : Type}

/-- Fill the hole of one frame. -/
def fill (f : Frame β) (t : BTree β) : BTree β := BTree.join f.side f.a f.v t f.sib

/-- The cell of the frame's node, with parent `p` and `q` in the hole. -/
def cell (f : Frame β) (p q : Ptr) : Cell β := Cell.mkAt f.side p f.v q f.sib.root

def addrs (f : Frame β) : List Nat := f.a :: f.sib.addrs

end Frame

/-- Fill the hole of a context; the innermost frame comes first. -/
def plug {β : Type} : List (Frame β) → BTree β → BTree β
  | [], t => t
  | f :: c, t => plug c (f.fill t)

/-- The parent pointer of what stands in the hole. -/
def holeParent {β : Type} : List (Frame β) → Ptr
  | [] => none
  | f :: _ => some f.a

def ctxAddrs {β : Type} (c : List (Frame β)) : List Nat := c.flatMap Frame.addrs

section Plug

variable {β : Type}

@[simp] theorem plug_nil (t : BTree β) : plug [] t = t := rfl

@[simp] theorem plug_cons (f : Frame β) (c : List (Frame β)) (t : BTree β) :
    plug (f :: c) t = plug c (f.fill t) := rfl

theorem plug_append (c d : List (Frame β)) (t : BTree β) :
    plug (c ++ d) t = plug d (plug c t) := by
  induction c generalizing t with
  | nil => rfl
  | cons f c ih => exact ih (f.fill t)

@[simp] theorem holeParent_nil : holeParent ([] : List (Frame β)) = none := rfl

@[simp] theorem holeParent_cons (f : Frame β) (c : List (Frame β)) :
    holeParent (f :: c) = some f.a := rfl

@[simp] theorem ctxAddrs_cons (f : Frame β) (c : List (Frame β)) :
    ctxAddrs (f :: c) = f.a :: f.sib.addrs ++ ctxAddrs c := rfl

theorem addrs_plug_perm (c : List (Frame β)) (t : BTree β) :
    (plug c t).addrs.Perm (ctxAddrs c ++ t.addrs) := by
  induction c generalizing t with
  | nil => exact List.Perm.refl _
  | cons f c ih =>
    refine (ih (f.fill t)).trans ?_
    have hf : (f.fill t).addrs.Perm (f.a :: (t.addrs ++ f.sib.addrs)) :=
      BTree.addrs_join_perm _ _ _ _ _
    have hswap : (f.a :: (t.addrs ++ f.sib.addrs)).Perm (f.a :: f.sib.addrs ++ t.addrs) :=
      List.Perm.cons _ List.perm_append_comm
    rw [ctxAddrs_cons]
    refine ((hf.trans hswap).append_left _).trans ?_
    rw [← List.append_assoc]
    exact List.perm_append_comm.append_right _

theorem mem_addrs_plug {c : List (Frame β)} {t : BTree β} {b : Nat} :
    b ∈ (plug c t).addrs ↔ b ∈ ctxAddrs c ∨ b ∈ t.addrs := by
  rw [(addrs_plug_perm c t).mem_iff, List.mem_append]

theorem nodup_addrs_plug {c : List (Frame β)} {t : BTree β} :
    (plug c t).addrs.Nodup ↔
      (ctxAddrs c).Nodup ∧ t.addrs.Nodup ∧ List.Disjoint (ctxAddrs c) t.addrs := by
  rw [(addrs_plug_perm c t).nodup_iff, List.nodup_append']

/-- The root of the whole does not depend on what stands in the hole of a proper context. -/
theorem root_plug_cons (f : Frame β) (c : List (Frame β)) (t t' : BTree β) :
    (plug (f :: c) t).root = (plug (f :: c) t').root := by
  induction c generalizing f t t' with
  | nil => simp [Frame.fill]
  | cons g c ih => exact ih g (f.fill t) (f.fill t')

/-- Two trees with the same root pointer give the whole the same root pointer. -/
theorem root_plug_congr {c : List (Frame β)} {t t' : BTree β} (h : t.root = t'.root) :
    (plug c t).root = (plug c t').root := by
  cases c with
  | nil => exact h
  | cons f c => exact root_plug_cons f c t t'

end Plug

/-! ## Links -/

/-- Every node of `t` has its cell, with the links `t` gives it; `p` is the root's parent. -/
def Linked {β : Type} (m : TreeMem β) : Ptr → BTree β → Prop
  | _, .nil => True
  | p, .node a v l r =>
      m.cell a = some ⟨p, l.root, r.root, v⟩ ∧ Linked m (some a) l ∧ Linked m (some a) r

/-- Every node of the context has its cell, when `q` is the pointer to what is in the hole. -/
def LinkedCtx {β : Type} (m : TreeMem β) : Ptr → List (Frame β) → Prop
  | _, [] => True
  | q, f :: c =>
      m.cell f.a = some (f.cell (holeParent c) q) ∧ Linked m (some f.a) f.sib ∧
        LinkedCtx m (some f.a) c

/-- The memory holds exactly the tree `t`. -/
structure Holds {β : Type} (m : TreeMem β) (t : BTree β) : Prop where
  linked : Linked m none t
  nodup : t.addrs.Nodup
  root_eq : m.root = t.root

section Links

variable {β : Type} {m m' : TreeMem β}

theorem linked_join {p : Ptr} {s : Side} {a : Nat} {v : β} {x y : BTree β} :
    Linked m p (.join s a v x y) ↔
      m.cell a = some (Cell.mkAt s p v x.root y.root) ∧ Linked m (some a) x ∧
        Linked m (some a) y := by
  cases s
  · exact Iff.rfl
  · simp only [BTree.join, Linked, Cell.mkAt]
    tauto

theorem Linked.frame {p : Ptr} {t : BTree β} (h : Linked m p t)
    (heq : ∀ a ∈ t.addrs, m'.cell a = m.cell a) : Linked m' p t := by
  induction t generalizing p with
  | nil => trivial
  | node a v l r ihl ihr =>
    obtain ⟨hc, hl, hr⟩ := h
    refine ⟨?_, ihl hl fun b hb => heq b (by simp [hb]), ihr hr fun b hb => heq b (by simp [hb])⟩
    rw [heq a (by simp)]
    exact hc

/-- Only the root's parent pointer has been rewritten. -/
theorem Linked.reparent {p q : Ptr} {t : BTree β} (h : Linked m p t) (hnd : t.addrs.Nodup)
    (hroot : ∀ a, t.root = some a → m'.cell a = (m.cell a).map (·.setParent q))
    (heq : ∀ a ∈ t.addrs, t.root ≠ some a → m'.cell a = m.cell a) : Linked m' q t := by
  cases t with
  | nil => trivial
  | node a v l r =>
    obtain ⟨hc, hl, hr⟩ := h
    rw [BTree.addrs_node, List.nodup_append'] at hnd
    obtain ⟨_, hra, hdis⟩ := hnd
    have hla : a ∉ l.addrs := fun hm => hdis hm (List.mem_cons_self ..)
    have hra' : a ∉ r.addrs := (List.nodup_cons.mp hra).1
    refine ⟨?_, hl.frame fun b hb => heq b (by simp [hb]) ?_,
      hr.frame fun b hb => heq b (by simp [hb]) ?_⟩
    · rw [hroot a rfl, hc]; rfl
    · intro he; cases he; exact hla hb
    · intro he; cases he; exact hra' hb

theorem Linked.cell_of_mem {p : Ptr} {t : BTree β} (h : Linked m p t) {a : Nat}
    (ha : a ∈ t.addrs) : ∃ c, m.cell a = some c := by
  induction t generalizing p with
  | nil => simp at ha
  | node b v l r ihl ihr =>
    obtain ⟨hc, hl, hr⟩ := h
    rw [BTree.addrs_node, List.mem_append, List.mem_cons] at ha
    rcases ha with ha | rfl | ha
    · exact ihl hl ha
    · exact ⟨_, hc⟩
    · exact ihr hr ha

/-- The memory determines the tree it holds. -/
theorem Linked.unique {p p' : Ptr} {t t' : BTree β} (h : Linked m p t) (h' : Linked m p' t')
    (he : t.root = t'.root) : t = t' := by
  induction t generalizing p p' t' with
  | nil =>
    cases t' with
    | nil => rfl
    | node => cases he
  | node a v l r ihl ihr =>
    cases t' with
    | nil => cases he
    | node a' v' l' r' =>
      cases he
      obtain ⟨hc, hl, hr⟩ := h
      obtain ⟨hc', hl', hr'⟩ := h'
      obtain ⟨_, hel, her, hv⟩ := Cell.mk.inj (Option.some.inj (hc.symm.trans hc'))
      rw [hv, ihl hl hl' hel, ihr hr hr' her]

theorem LinkedCtx.frame {q : Ptr} {c : List (Frame β)} (h : LinkedCtx m q c)
    (heq : ∀ a ∈ ctxAddrs c, m'.cell a = m.cell a) : LinkedCtx m' q c := by
  induction c generalizing q with
  | nil => trivial
  | cons f c ih =>
    obtain ⟨hc, hs, hr⟩ := h
    refine ⟨?_, hs.frame fun b hb => heq b (by simp [hb]), ih hr fun b hb => heq b (by simp [hb])⟩
    rw [heq f.a (by simp)]
    exact hc

/-- Only the innermost node's pointer into the hole has been rewritten. -/
theorem LinkedCtx.relink {q q' : Ptr} {f : Frame β} {c : List (Frame β)}
    (h : LinkedCtx m q (f :: c)) (hf : m'.cell f.a = (m.cell f.a).map (·.setChild f.side q'))
    (heq : ∀ a ∈ f.sib.addrs ++ ctxAddrs c, m'.cell a = m.cell a) :
    LinkedCtx m' q' (f :: c) := by
  obtain ⟨hc, hs, hr⟩ := h
  refine ⟨?_, hs.frame fun b hb => heq b (by simp [hb]), hr.frame fun b hb => heq b (by simp [hb])⟩
  rw [hf, hc]
  simp [Frame.cell]

/-- The links of the whole are those of the subtree and those of the context. -/
theorem linked_plug {c : List (Frame β)} {t : BTree β} :
    Linked m none (plug c t) ↔ Linked m (holeParent c) t ∧ LinkedCtx m t.root c := by
  induction c generalizing t with
  | nil => simp [LinkedCtx]
  | cons f c ih =>
    rw [plug_cons, ih, Frame.fill, linked_join]
    simp only [LinkedCtx, Frame.cell, BTree.root_join, holeParent_cons]
    tauto

/-- Any node of a tree can be brought into the hole. -/
theorem exists_plug_of_mem {t : BTree β} {a : Nat} (ha : a ∈ t.addrs) :
    ∃ c v l r, t = plug c (.node a v l r) := by
  suffices h : ∀ c₀ : List (Frame β), ∃ c v l r, plug c₀ t = plug c (.node a v l r) from h []
  induction t with
  | nil => simp at ha
  | node b v l r ihl ihr =>
    intro c₀
    rw [BTree.addrs_node, List.mem_append, List.mem_cons] at ha
    rcases ha with ha | rfl | ha
    · exact ihl ha (⟨.left, b, v, r⟩ :: c₀)
    · exact ⟨c₀, v, l, r, rfl⟩
    · exact ihr ha (⟨.right, b, v, l⟩ :: c₀)

namespace Holds

variable {t : BTree β} {c : List (Frame β)}

theorem focus (h : Holds m (plug c t)) : Linked m (holeParent c) t := (linked_plug.mp h.linked).1

theorem ctx (h : Holds m (plug c t)) : LinkedCtx m t.root c := (linked_plug.mp h.linked).2

theorem focus_nodup (h : Holds m (plug c t)) : t.addrs.Nodup := (nodup_addrs_plug.mp h.nodup).2.1

theorem ctx_nodup (h : Holds m (plug c t)) : (ctxAddrs c).Nodup := (nodup_addrs_plug.mp h.nodup).1

theorem disjoint (h : Holds m (plug c t)) : List.Disjoint (ctxAddrs c) t.addrs :=
  (nodup_addrs_plug.mp h.nodup).2.2

theorem not_mem_focus (h : Holds m (plug c t)) {a : Nat} (ha : a ∈ ctxAddrs c) : a ∉ t.addrs :=
  fun hm => h.disjoint ha hm

/-- The cell of the node in the hole. -/
theorem focus_cell {a : Nat} {v : β} {l r : BTree β} (h : Holds m (plug c (.node a v l r))) :
    m.cell a = some ⟨holeParent c, l.root, r.root, v⟩ := h.focus.1

/-- The cell of the node above the hole. -/
theorem frame_cell {f : Frame β} (h : Holds m (plug (f :: c) t)) :
    m.cell f.a = some (f.cell (holeParent c) t.root) := h.ctx.1

/-- The node above the hole has what stands in the hole as its child on the frame's side only. -/
theorem child_eq_iff {f : Frame β} {a : Nat} (h : Holds m (plug (f :: c) t)) (ht : t.root = some a)
    (p : Ptr) (s : Side) : (f.cell p t.root).child s = some a ↔ f.side = s := by
  by_cases hs : s = f.side
  · subst hs
    simp [Frame.cell, ht]
  · have hso : s = f.side.other := by cases s <;> cases hf : f.side <;> simp_all
    subst hso
    refine ⟨fun he => ?_, fun he => absurd he.symm hs⟩
    rw [Frame.cell, Cell.mkAt_child_other] at he
    exact absurd (BTree.root_mem_addrs ht) (h.not_mem_focus (by simp [BTree.root_mem_addrs he]))

/-- The parent pointer of the node in the hole. -/
theorem focus_parent {a : Nat} (h : Holds m (plug c t)) (ht : t.root = some a) :
    m.parent a = .ok (holeParent c) := by
  cases t with
  | nil => cases ht
  | node b v l r => cases ht; exact TreeMem.parent_ok h.focus_cell

/-- A store to the node in the hole that keeps its links. -/
theorem upd_focus {a : Nat} {v v' : β} {l r : BTree β} {f : Cell β → Cell β}
    (h : Holds m (plug c (.node a v l r)))
    (hf : f ⟨holeParent c, l.root, r.root, v⟩ = ⟨holeParent c, l.root, r.root, v'⟩) :
    Holds (m.upd a f) (plug c (.node a v' l r)) := by
  have hnd := nodup_addrs_plug.mp h.nodup
  obtain ⟨hcell, hl, hr⟩ := h.focus
  have hla : a ∉ l.addrs ∧ a ∉ r.addrs := by
    have := hnd.2.1
    rw [← BTree.join, BTree.nodup_addrs_join] at this
    exact ⟨this.1, this.2.1⟩
  have hca : a ∉ ctxAddrs c := fun hm => hnd.2.2 hm (by simp)
  have hne : ∀ b, b ≠ a → (m.upd a f).cell b = m.cell b := fun b hb => TreeMem.upd_cell_ne m f hb
  refine ⟨linked_plug.mpr ⟨⟨?_, ?_, ?_⟩, ?_⟩, ?_, ?_⟩
  · rw [TreeMem.upd_cell_self, hcell, Option.map_some, hf]
  · exact hl.frame fun b hb => hne b fun he => hla.1 (he ▸ hb)
  · exact hr.frame fun b hb => hne b fun he => hla.2 (he ▸ hb)
  · exact h.ctx.frame fun b hb => hne b fun he => hca (he ▸ hb)
  · rw [nodup_addrs_plug]
    simpa using hnd
  · rw [TreeMem.upd_root, h.root_eq]
    exact root_plug_congr rfl

theorem cell_of_mem (h : Holds m t) {a : Nat} (ha : a ∈ t.addrs) : ∃ d, m.cell a = some d :=
  h.linked.cell_of_mem ha

theorem unique {t' : BTree β} (h : Holds m t) (h' : Holds m t') : t = t' :=
  h.linked.unique h'.linked (h.root_eq.symm.trans h'.root_eq)

/-- The root has no parent. -/
theorem root_parent (h : Holds m t) {a : Nat} (ha : m.root = some a) : m.parent a = .ok none := by
  rw [h.root_eq] at ha
  cases t with
  | nil => cases ha
  | node b v l r =>
    cases ha
    exact TreeMem.parent_ok h.linked.1

/-- A node's parent pointer is `p` exactly when it is the left or the right child of `p`. -/
theorem parent_iff_child (h : Holds m t) {a p : Nat} (ha : a ∈ t.addrs) (hp : p ∈ t.addrs) :
    m.parent a = .ok (some p) ↔
      m.child .left p = .ok (some a) ∨ m.child .right p = .ok (some a) := by
  constructor
  · intro hpar
    obtain ⟨c, v, l, r, rfl⟩ := exists_plug_of_mem ha
    rw [TreeMem.parent_ok h.focus_cell] at hpar
    cases c with
    | nil => cases hpar
    | cons f c =>
      cases hpar
      have hf := h.frame_cell
      cases hs : f.side with
      | left => left; rw [TreeMem.child_ok hf]; simp [Frame.cell, hs, Cell.mkAt, Cell.child]
      | right => right; rw [TreeMem.child_ok hf]; simp [Frame.cell, hs, Cell.mkAt, Cell.child]
  · intro hch
    obtain ⟨c, v, l, r, rfl⟩ := exists_plug_of_mem hp
    obtain ⟨hcell, hl, hr⟩ := h.focus
    rw [TreeMem.child_ok hcell, TreeMem.child_ok hcell] at hch
    rcases hch with hch | hch
    · cases l with
      | nil => cases hch
      | node b w l₁ l₂ => cases hch; exact TreeMem.parent_ok hl.1
    · cases r with
      | nil => cases hch
      | node b w r₁ r₂ => cases hch; exact TreeMem.parent_ok hr.1

end Holds

end Links

/-! ## Order -/

section Order

variable {β : Type}

/-- What a context puts before the hole in symmetric order. -/
def before : List (Frame β) → List (Nat × β)
  | [] => []
  | f :: c =>
      match f.side with
      | .left => before c
      | .right => before c ++ (f.sib.inorder ++ [(f.a, f.v)])

/-- What a context puts after the hole in symmetric order. -/
def after : List (Frame β) → List (Nat × β)
  | [] => []
  | f :: c =>
      match f.side with
      | .left => (f.a, f.v) :: f.sib.inorder ++ after c
      | .right => after c

theorem inorder_plug (c : List (Frame β)) (t : BTree β) :
    (plug c t).inorder = before c ++ t.inorder ++ after c := by
  induction c generalizing t with
  | nil => simp [before, after]
  | cons f c ih =>
    rw [plug_cons, ih]
    cases hs : f.side <;> simp [before, after, hs, Frame.fill, BTree.join]

end Order

/-! ## Changing what stands in the hole -/

section Hung

variable {β : Type} {m : TreeMem β}

/-- The memory after the pointer into the hole of `c` is set to `q`. -/
def hung (c : List (Frame β)) (q : Ptr) (m : TreeMem β) : TreeMem β :=
  match c with
  | [] => m.setRoot q
  | f :: _ => m.upd f.a (·.setChild f.side q)

theorem hung_cell_ne {c : List (Frame β)} {q : Ptr} {a : Nat}
    (ha : holeParent c ≠ some a) : (hung c q m).cell a = m.cell a := by
  cases c with
  | nil => rfl
  | cons f c =>
    refine TreeMem.upd_cell_ne m _ fun he => ha ?_
    rw [he, holeParent_cons]

theorem hung_root {c : List (Frame β)} {t u : BTree β}
    (h : m.root = (plug c t).root) : (hung c u.root m).root = (plug c u).root := by
  cases c with
  | nil => rfl
  | cons f c =>
    simp only [hung, TreeMem.upd_root, h]
    exact root_plug_cons f c t u

theorem linkedCtx_hung {c : List (Frame β)} {q₀ q : Ptr} (h : LinkedCtx m q₀ c)
    (hnd : (ctxAddrs c).Nodup) : LinkedCtx (hung c q m) q c := by
  cases c with
  | nil => trivial
  | cons f c =>
    refine h.relink (TreeMem.upd_cell_self _ _ _) fun a ha => TreeMem.upd_cell_ne m _ fun he => ?_
    rw [ctxAddrs_cons, List.cons_append, List.nodup_cons] at hnd
    exact hnd.1 (he ▸ ha)

theorem holeParent_mem {c : List (Frame β)} {a : Nat} (h : holeParent c = some a) :
    a ∈ ctxAddrs c := by
  cases c with
  | nil => cases h
  | cons f c => cases h; simp

theorem sameKeys_hung {γ : Type} {key : β → γ} {c : List (Frame β)} (q : Ptr) :
    TreeMem.SameKeys key m (hung c q m) := by
  cases c with
  | nil => exact TreeMem.sameKeys_setRoot q
  | cons f c => exact TreeMem.sameKeys_setChild f.side f.a q

/-- A new leaf, with its links set, is hung into the hole of `c`. -/
theorem holds_leaf {m' : TreeMem β} {c : List (Frame β)} {n : Nat} {v : β} {q : Ptr}
    (hctx : LinkedCtx m q c) (hnd : (n :: ctxAddrs c).Nodup)
    (hroot : c ≠ [] → m.root = (plug c .nil).root)
    (hcell : m'.cell n = some ⟨holeParent c, none, none, v⟩)
    (hframe : ∀ a, a ≠ n → m'.cell a = m.cell a) (hr : m'.root = m.root) :
    Holds (hung c (some n) m') (plug c (.node n v .nil .nil)) := by
  obtain ⟨hnc, hcnd⟩ := List.nodup_cons.mp hnd
  have hctx' : LinkedCtx m' q c := hctx.frame fun a ha => hframe a fun he => hnc (he ▸ ha)
  refine ⟨linked_plug.mpr ⟨⟨?_, trivial, trivial⟩, ?_⟩, ?_, ?_⟩
  · rw [hung_cell_ne fun he => hnc (holeParent_mem he), hcell]
    rfl
  · exact linkedCtx_hung hctx' hcnd
  · rw [nodup_addrs_plug]
    simpa using ⟨hcnd, fun h => hnc h⟩
  · cases c with
    | nil => rfl
    | cons f c =>
      have h : m'.root = (plug (f :: c) .nil).root := hr.trans (hroot (List.cons_ne_nil _ _))
      exact hung_root (u := .node n v .nil .nil) h

/-- A leaf is cut off below its parent. -/
theorem Holds.cut {f : Frame β} {c : List (Frame β)} {n : Nat} {v : β}
    (h : Holds m (plug (f :: c) (.node n v .nil .nil))) :
    Holds (hung (f :: c) none m) (plug (f :: c) .nil) := by
  refine ⟨linked_plug.mpr ⟨trivial, linkedCtx_hung h.ctx h.ctx_nodup⟩, ?_, ?_⟩
  · rw [nodup_addrs_plug]
    exact ⟨h.ctx_nodup, List.nodup_nil, fun _ _ hn => by simp at hn⟩
  · exact hung_root (u := .nil) h.root_eq

end Hung

end Monya.Lib
