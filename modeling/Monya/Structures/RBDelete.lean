/-
  `RBTree::_delete`, alone and in runs together with `insert`.

  `_delete` hands the wrong node to its fix-up loop: `old` is null when the node has fewer than
  two children, and otherwise it is the successor in its new place, not the child that moved up
  into the successor's old place. So it works where there is nothing to fix. `DeleteSafe` says
  where that is, `delete_returns` that `_delete` then does what it is for, and
  `safe_run_delete` carries this to whole runs. `delete_adjacent_successor` is the shortest run
  that writes through a null pointer.
-/
import Monya.Structures.RBInsert

namespace Monya.Structures

open Monya.Lib

/-- The colour of the leftmost node. -/
def minColor {α : Type} : BTree (RBVal α) → Color
  | .nil => .black
  | .node _ v .nil _ => v.color
  | .node _ _ l _ => minColor l

variable {α : Type}

/-- Under a null left link a red node has no right child either. -/
theorem right_eq_nil_of_red {o n : Nat} {w : RBVal α} {x : BTree (RBVal α)}
    (hnrr : NoRedRed (.node o w .nil x)) (hb : BlackHeight (.node o w .nil x) n)
    (hw : w.color = .red) : x = .nil := by
  obtain ⟨hn, hx⟩ := (blackHeight_red (s := .left) hw).mp hb
  have hn0 := hn.unique blackHeight_nil
  subst hn0
  cases x with
  | nil => rfl
  | node b v l r =>
    have hblack : v.color = .black := (hnrr.1 hw).2
    obtain ⟨k, hk, _⟩ := (blackHeight_join (s := .left)).mp hx
    rw [hblack] at hk
    simp [Color.weight] at hk

theorem CtxNoRedRed.of_red {c : List (Frame (RBVal α))} (h : CtxNoRedRed .red c) :
    CtxNoRedRed .black c := by
  cases c with
  | nil => trivial
  | cons f c => exact ⟨fun hf => absurd (h.1 hf).1 (by decide), h.2⟩

/-- Taking a red leaf from below another node. -/
theorem cut_red {c : List (Frame (RBVal α))} {f : Frame (RBVal α)} {o : Nat} {w : RBVal α}
    {x : BTree (RBVal α)} {n : Nat} (hnrr : NoRedRed (plug (f :: c) (.node o w .nil x)))
    (hb : BlackHeight (plug (f :: c) (.node o w .nil x)) n) (hw : w.color = .red) :
    x = .nil ∧ NoRedRed (plug (f :: c) .nil) ∧ BlackHeight (plug (f :: c) .nil) n ∧
      rootColor (plug (f :: c) .nil) = rootColor (plug (f :: c) (.node o w .nil x)) := by
  obtain ⟨hleaf, hctx⟩ := noRedRed_plug.mp hnrr
  obtain ⟨k, hk, hkc⟩ := blackHeight_plug.mp hb
  have hx := right_eq_nil_of_red hleaf hk hw
  obtain ⟨hnil, _⟩ := (blackHeight_red (s := .left) hw).mp hk
  refine ⟨hx, ?_, blackHeight_plug.mpr ⟨k, hnil, hkc⟩, ?_⟩
  · rw [noRedRed_plug]
    have hcol : rootColor (.node o w .nil x) = .red := hw
    rw [hcol] at hctx
    exact ⟨trivial, hctx.of_red⟩
  · rw [rootColor_plug, rootColor_plug]
    rfl

/-- A red-black tree stays one when a node with a distant red successor is replaced by it. -/
theorem IsRedBlack.replace {c d : List (Frame (RBVal α))} {f : Frame (RBVal α)} {a o : Nat}
    {v w : RBVal α} {l x : BTree (RBVal α)}
    (h : IsRedBlack (plug c (.node a v l (plug (f :: d) (.node o w .nil x)))))
    (hw : w.color = .red) :
    x = .nil ∧
      IsRedBlack (plug c (.node o { w with color := v.color } l (plug (f :: d) .nil))) := by
  obtain ⟨hroot, hnrr, N, hN⟩ := h
  obtain ⟨⟨hv, hl, hr⟩, hctx⟩ := noRedRed_plug.mp hnrr
  obtain ⟨k, hk, hkc⟩ := blackHeight_plug.mp hN
  obtain ⟨j, hj, hjl, hjr⟩ := (blackHeight_join (s := .left)).mp hk
  obtain ⟨hx, hr', hjr', hcol⟩ := cut_red hr hjr hw
  refine ⟨hx, ?_, ?_, N, ?_⟩
  · rw [rootColor_plug] at hroot ⊢
    exact hroot
  · refine noRedRed_plug.mpr ⟨⟨fun hred => ?_, hl, hr'⟩, hctx⟩
    rw [hcol]
    exact hv hred
  · refine blackHeight_plug.mpr ⟨k, ?_, hkc⟩
    exact (blackHeight_join (s := .left)).mpr ⟨j, hj, hjl, hjr'⟩

/-- Below left links only, the hole is the first place of the symmetric order. -/
theorem before_of_left {c : List (Frame (RBVal α))} (h : ∀ f ∈ c, f.side = .left) :
    before c = [] := by
  induction c with
  | nil => rfl
  | cons f c ih =>
    obtain ⟨s, a, v, t⟩ := f
    have hs : s = .left := h ⟨s, a, v, t⟩ List.mem_cons_self
    subst hs
    exact ih fun g hg => h g (List.mem_cons_of_mem _ hg)

/-- The replacement takes exactly the replaced node out of the symmetric order. -/
theorem keys_replace {c d : List (Frame (RBVal α))} {a o : Nat} {v w : RBVal α}
    {l : BTree (RBVal α)} (hd : ∀ f ∈ d, f.side = .left) :
    ∃ pre post, keys (plug c (.node a v l (plug d (.node o w .nil .nil)))) =
        pre ++ (a, v.comparator) :: post ∧
      keys (plug c (.node o { w with color := v.color } l (plug d .nil))) = pre ++ post := by
  refine ⟨(before c).map (fun x => (x.1, x.2.comparator)) ++ keys l,
    (o, w.comparator) :: (after d).map (fun x => (x.1, x.2.comparator)) ++
      (after c).map (fun x => (x.1, x.2.comparator)), ?_, ?_⟩
  · simp [keys, BTree.keyed, inorder_plug, before_of_left hd]
  · simp [keys, BTree.keyed, inorder_plug, before_of_left hd]

namespace RBTree

/-- A call from outside: `insert` of a node just created, with whatever its colour and links hold,
    or `_delete`. -/
inductive Call (α : Type) where
  | insert (node : Cell (RBVal α))
  | delete (shell : α)

def Call.exec [LinearOrder α] (fuel : Nat) : Call α → RBTree α → Except Fault (RBTree α)
  | .insert node, m => RBTree.insert fuel m.heap.brk ⟨m.heap.alloc node, m.root⟩
  | .delete shell, m => RBTree.delete fuel shell m

def runCalls [LinearOrder α] (fuel : Nat) (calls : List (Call α)) (m : RBTree α) :
    Except Fault (RBTree α) :=
  calls.foldlM (fun m call => call.exec fuel m) m

variable {m : RBTree α}

/-! ## The successor -/

/-- `minimum` walks down the left links of the subtree in the hole. -/
theorem minimum_returns {c : List (Frame (RBVal α))} {r : BTree (RBVal α)} {a : Nat}
    (h : Holds m (plug c r)) (hr : r.root = some a) :
    ∃ c₂ o w x, r = plug c₂ (.node o w .nil x) ∧ (∀ f ∈ c₂, f.side = .left) ∧
      minColor r = w.color ∧ Returns (fun fuel => minimum fuel a m) o := by
  induction r generalizing c a with
  | nil => cases hr
  | node b v l x ihl _ =>
    cases hr
    have hchild := TreeMem.child_ok h.focus_cell .left
    cases l with
    | nil =>
      refine ⟨[], b, v, x, rfl, by simp, rfl, returns_done ?_⟩
      simp only [minimumStep, hchild, ok_bind]
      rfl
    | node b' v' l' x' =>
      obtain ⟨c₂, o, w, y, he, hside, hcol, hret⟩ :=
        ihl (c := ⟨.left, b, v, x⟩ :: c) h (BTree.root_node _ _ _ _)
      refine ⟨c₂ ++ [⟨.left, b, v, x⟩], o, w, y, ?_, ?_, hcol, returns_next ?_ hret⟩
      · rw [plug_append, ← he]
        rfl
      · intro f hf
        rcases List.mem_append.mp hf with hf | hf
        · exact hside f hf
        · rw [List.mem_singleton.mp hf]
      · simp only [minimumStep, hchild, ok_bind]
        rfl

/-! ## Replacing a node by a detached one -/

section Replace

variable {c : List (Frame (RBVal α))} {a o lr rr : Nat} {v : RBVal α} {l r : BTree (RBVal α)}
  {d : Cell (RBVal α)}

/-- The stores of `takePlace`: `o` goes into the hole of `c`, above the left child `lr`. -/
def placed (c : List (Frame (RBVal α))) (o lr : Nat) (col : Color) (m : RBTree α) : RBTree α :=
  let m := hung c (some o) m
  let m := m.upd o (·.setParent (holeParent c))
  let m := m.upd o (·.setChild .left (some lr))
  let m := m.upd lr (·.setParent (some o))
  recolor m o col

theorem takePlace_eq {q : Ptr} {dl : Cell (RBVal α)} (hctx : LinkedCtx m (some a) c)
    (ha : m.cell a = some ⟨holeParent c, some lr, q, v⟩) (ho : m.cell o = some d)
    (hl : m.cell lr = some dl) (hac : a ∉ ctxAddrs c) (hoc : o ∉ ctxAddrs c)
    (hlc : lr ∉ ctxAddrs c) (hao : a ≠ o) (hal : a ≠ lr) (hol : o ≠ lr) :
    takePlace a o m = .ok (placed c o lr v.color m) := by
  have hhang := hang_eq hctx (TreeMem.parent_ok ha) hac (some o)
  set m₁ := hung c (some o) m with hm₁
  have ha₁ := (hung_cell_ne (q := some o) fun he => hac (holeParent_mem he)).trans ha
  have ho₁ := (hung_cell_ne (q := some o) fun he => hoc (holeParent_mem he)).trans ho
  have hl₁ := (hung_cell_ne (q := some o) fun he => hlc (holeParent_mem he)).trans hl
  rw [← hm₁] at ha₁ ho₁ hl₁
  set m₂ := m₁.upd o (·.setParent (holeParent c)) with hm₂
  have ha₂ := (TreeMem.upd_cell_ne m₁ (·.setParent (holeParent c)) hao).trans ha₁
  have ho₂ := TreeMem.upd_cell ho₁ (·.setParent (holeParent c))
  have hl₂ := (TreeMem.upd_cell_ne m₁ (·.setParent (holeParent c)) hol.symm).trans hl₁
  rw [← hm₂] at ha₂ ho₂ hl₂
  set m₃ := m₂.upd o (·.setChild .left (some lr)) with hm₃
  have ha₃ := (TreeMem.upd_cell_ne m₂ (·.setChild .left (some lr)) hao).trans ha₂
  have ho₃ := TreeMem.upd_cell ho₂ (·.setChild .left (some lr))
  have hl₃ := (TreeMem.upd_cell_ne m₂ (·.setChild .left (some lr)) hol.symm).trans hl₂
  rw [← hm₃] at ha₃ ho₃ hl₃
  set m₄ := m₃.upd lr (·.setParent (some o)) with hm₄
  have ha₄ := (TreeMem.upd_cell_ne m₃ (·.setParent (some o)) hal).trans ha₃
  have ho₄ := (TreeMem.upd_cell_ne m₃ (·.setParent (some o)) hol).trans ho₃
  rw [← hm₄] at ha₄ ho₄
  have hleft : m₂.child .left a = .ok (some lr) := TreeMem.child_ok ha₂ _
  have hleft' : m₃.child .left o = .ok (some lr) := TreeMem.child_ok ho₃ _
  simp only [takePlace, transplant, hhang, ok_bind, TreeMem.parent_ok ha₁, TreeMem.setParent_ok ho₁,
    ← hm₂, hleft, TreeMem.setChild_ok ho₂, ← hm₃, hleft', target_some, TreeMem.setParent_ok hl₃,
    ← hm₄, color_ok ha₄, setColor_ok ho₄]
  rfl

/-- The stores that put the detached node `o` in the place of the node in the hole of `c`, whose
    children are `lr` and `rr`. -/
def replaced (c : List (Frame (RBVal α))) (o lr rr : Nat) (col : Color) (m : RBTree α) : RBTree α :=
  placed c o lr col ((m.upd o (·.setChild .right (some rr))).upd rr (·.setParent (some o)))

theorem replaced_cell_ne {col : Color} {b : Nat} (ho : b ≠ o) (hl : b ≠ lr) (hr : b ≠ rr)
    (hp : holeParent c ≠ some b) : (replaced c o lr rr col m).cell b = m.cell b := by
  simp only [replaced, placed, recolor, TreeMem.upd_cell_ne _ _ ho, TreeMem.upd_cell_ne _ _ hl,
    hung_cell_ne hp, TreeMem.upd_cell_ne _ _ hr]

theorem replaced_cell_self {col : Color} (hol : o ≠ lr) (hor : o ≠ rr)
    (hp : holeParent c ≠ some o) (hd : m.cell o = some d) :
    (replaced c o lr rr col m).cell o =
      some ⟨holeParent c, some lr, some rr, { d.val with color := col }⟩ := by
  simp only [replaced, placed, recolor, TreeMem.upd_cell_self, TreeMem.upd_cell_ne _ _ hol,
    TreeMem.upd_cell_ne _ _ hor, hung_cell_ne hp, hd, Option.map_some]
  rfl

theorem replaced_cell_left {col : Color} (hol : lr ≠ o) (hlr : lr ≠ rr)
    (hp : holeParent c ≠ some lr) :
    (replaced c o lr rr col m).cell lr = (m.cell lr).map (·.setParent (some o)) := by
  simp only [replaced, placed, recolor, TreeMem.upd_cell_self, TreeMem.upd_cell_ne _ _ hol,
    TreeMem.upd_cell_ne _ _ hlr, hung_cell_ne hp]

theorem replaced_cell_right {col : Color} (hor : rr ≠ o) (hlr : rr ≠ lr)
    (hp : holeParent c ≠ some rr) :
    (replaced c o lr rr col m).cell rr = (m.cell rr).map (·.setParent (some o)) := by
  simp only [replaced, placed, recolor, TreeMem.upd_cell_self, TreeMem.upd_cell_ne _ _ hor,
    TreeMem.upd_cell_ne _ _ hlr, hung_cell_ne hp]

/-- The addresses around a replacement are apart from each other. -/
theorem replace_apart (h : Holds m (plug c (.node a v l r))) (hl : l.root = some lr)
    (hr : r.root = some rr) (ho : o ∉ (plug c (.node a v l r)).addrs) :
    (a ≠ o ∧ a ≠ lr ∧ a ≠ rr) ∧ (o ≠ lr ∧ o ≠ rr ∧ lr ≠ rr) ∧
      (∀ b, b = a ∨ b ∈ l.addrs ∨ b ∈ r.addrs → b ∉ ctxAddrs c) ∧ o ∉ ctxAddrs c := by
  have hlm := BTree.root_mem_addrs hl
  have hrm := BTree.root_mem_addrs hr
  obtain ⟨hal, har, _, _, hdis⟩ := (BTree.nodup_addrs_join (s := .left)).mp h.focus_nodup
  have hin : ∀ b, b = a ∨ b ∈ l.addrs ∨ b ∈ r.addrs → b ∈ (BTree.node a v l r).addrs :=
    fun b hb => (BTree.mem_addrs_join (s := .left)).mpr hb
  have hoin : ∀ b, b = a ∨ b ∈ l.addrs ∨ b ∈ r.addrs → b ≠ o := fun b hb he =>
    ho (mem_addrs_plug.mpr (Or.inr (he ▸ hin b hb)))
  refine ⟨⟨hoin a (.inl rfl), fun he => hal (he ▸ hlm), fun he => har (he ▸ hrm)⟩,
    ⟨(hoin lr (.inr (.inl hlm))).symm, (hoin rr (.inr (.inr hrm))).symm,
      fun he => hdis hlm (he ▸ hrm)⟩, fun b hb hc => h.disjoint hc (hin b hb),
    fun hc => ho (mem_addrs_plug.mpr (Or.inl hc))⟩

theorem replace_eq (h : Holds m (plug c (.node a v l r))) (hl : l.root = some lr)
    (hr : r.root = some rr) (ho : o ∉ (plug c (.node a v l r)).addrs) (hd : m.cell o = some d) :
    ∃ m₂, (do
      let m ← m.setChild .right o (← m.child .right a)
      m.setParent (← target (← m.child .right o)) (some o)) = .ok m₂ ∧
      takePlace a o m₂ = .ok (replaced c o lr rr v.color m) := by
  obtain ⟨⟨hao, hal, har⟩, ⟨hol, hor, hlr⟩, hctx, hoc⟩ := replace_apart h hl hr ho
  have hlm := BTree.root_mem_addrs hl
  have hrm := BTree.root_mem_addrs hr
  have hca : m.cell a = some ⟨holeParent c, some lr, some rr, v⟩ := by rw [h.focus_cell, hl, hr]
  obtain ⟨dl, hdl⟩ := h.focus.2.1.cell_of_mem hlm
  obtain ⟨dr, hdr⟩ := h.focus.2.2.cell_of_mem hrm
  have ho₁ := TreeMem.upd_cell hd (·.setChild .right (some rr))
  have hr₁ := (TreeMem.upd_cell_ne m (·.setChild .right (some rr)) hor.symm).trans hdr
  set m₁ := m.upd o (·.setChild .right (some rr)) with hm₁
  have ho₂ := (TreeMem.upd_cell_ne m₁ (·.setParent (some o)) hor).trans ho₁
  set m₂ := m₁.upd rr (·.setParent (some o)) with hm₂
  have hcell₂ : ∀ b, b ≠ o → b ≠ rr → m₂.cell b = m.cell b := fun b hbo hbr => by
    rw [hm₂, TreeMem.upd_cell_ne _ _ hbr, hm₁, TreeMem.upd_cell_ne _ _ hbo]
  have hctx₂ : LinkedCtx m₂ (some a) c := h.ctx.frame fun b hb => hcell₂ b
    (fun he => hoc (he ▸ hb)) (fun he => hctx rr (.inr (.inr hrm)) (he ▸ hb))
  have htake := takePlace_eq hctx₂ ((hcell₂ a hao har).trans hca) ho₂
    ((hcell₂ lr hol.symm hlr).trans hdl) (hctx a (.inl rfl)) hoc
      (hctx lr (.inr (.inl hlm))) hao hal hol
  have hright : m₁.child .right o = .ok (some rr) := TreeMem.child_ok ho₁ _
  refine ⟨m₂, ?_, htake⟩
  rw [TreeMem.child_ok hca, ok_bind]
  change (m.setChild .right o (some rr) >>= _) = _
  rw [TreeMem.setChild_ok hd, ok_bind, ← hm₁, hright, ok_bind, target_some, ok_bind,
    TreeMem.setParent_ok hr₁]

/-- After the replacement and the `delete` of `a`, the tree is linked with `o` in its place. -/
theorem replace_holds (h : Holds m (plug c (.node a v l r))) (hl : l.root = some lr)
    (hr : r.root = some rr) (ho : o ∉ (plug c (.node a v l r)).addrs) (hd : m.cell o = some d)
    {m' : RBTree α} (hm' : m' = replaced c o lr rr v.color m) :
    Holds { m' with heap := m'.heap.free a }
      (plug c (.node o { d.val with color := v.color } l r)) := by
  obtain ⟨⟨hao, hal, har⟩, ⟨hol, hor, hlr⟩, hctx, hoc⟩ := replace_apart h hl hr ho
  have hlm := BTree.root_mem_addrs hl
  have hrm := BTree.root_mem_addrs hr
  obtain ⟨hal', har', hlnd, hrnd, hdis⟩ := (BTree.nodup_addrs_join (s := .left)).mp h.focus_nodup
  have hpar : ∀ b, b = a ∨ b ∈ l.addrs ∨ b ∈ r.addrs → holeParent c ≠ some b :=
    fun b hb he => hctx b hb (holeParent_mem he)
  have hin : ∀ b, b ∈ l.addrs ∨ b ∈ r.addrs → b ≠ o := fun b hb he =>
    ho (mem_addrs_plug.mpr (Or.inr (he ▸ (BTree.mem_addrs_join (s := .left)).mpr (Or.inr hb))))
  set m'' : RBTree α := { m' with heap := m'.heap.free a } with hm''
  have hfree : ∀ b, b ≠ a → m''.cell b = (replaced c o lr rr v.color m).cell b := fun b hb => by
    rw [← hm']
    exact Heap.free_cell_ne _ hb
  have hne : ∀ b, b ≠ a → b ≠ o → b ≠ lr → b ≠ rr → holeParent c ≠ some b →
      m''.cell b = m.cell b := fun b ha ho hl hr hp => by
    rw [hfree b ha, replaced_cell_ne ho hl hr hp]
  refine ⟨linked_plug.mpr ⟨⟨?_, ?_, ?_⟩, ?_⟩, ?_, ?_⟩
  · rw [hfree o hao.symm, replaced_cell_self hol hor (fun he => hoc (holeParent_mem he)) hd, hl, hr]
  · refine h.focus.2.1.reparent hlnd (fun b hb => ?_) fun b hb hroot => hne b ?_ ?_ ?_ ?_ ?_
    · cases hl.symm.trans hb
      rw [hfree lr hal.symm, replaced_cell_left hol.symm hlr (hpar lr (.inr (.inl hlm)))]
    · exact fun he => hal' (he ▸ hb)
    · exact hin b (.inl hb)
    · exact fun he => hroot (he ▸ hl)
    · exact fun he => hdis hb (he ▸ hrm)
    · exact hpar b (.inr (.inl hb))
  · refine h.focus.2.2.reparent hrnd (fun b hb => ?_) fun b hb hroot => hne b ?_ ?_ ?_ ?_ ?_
    · cases hr.symm.trans hb
      rw [hfree rr har.symm, replaced_cell_right hor.symm hlr.symm (hpar rr (.inr (.inr hrm)))]
    · exact fun he => har' (he ▸ hb)
    · exact hin b (.inr hb)
    · exact fun he => hdis hlm (he ▸ hb)
    · exact fun he => hroot (he ▸ hr)
    · exact hpar b (.inr (.inr hb))
  · set m₀ := (m.upd o (·.setChild .right (some rr))).upd rr (·.setParent (some o)) with hm₀
    have hctx₀ : LinkedCtx m₀ (some a) c := by
      refine h.ctx.frame fun b hb => ?_
      have hbo : b ≠ o := fun he => hoc (he ▸ hb)
      have hbr : b ≠ rr := fun he => hctx rr (.inr (.inr hrm)) (he ▸ hb)
      rw [hm₀, TreeMem.upd_cell_ne _ _ hbr, TreeMem.upd_cell_ne _ _ hbo]
    refine (linkedCtx_hung (q := some o) hctx₀ h.ctx_nodup).frame fun b hb => ?_
    have hbo : b ≠ o := fun he => hoc (he ▸ hb)
    have hbl : b ≠ lr := fun he => hctx lr (.inr (.inl hlm)) (he ▸ hb)
    rw [hfree b fun he => hctx a (.inl rfl) (he ▸ hb)]
    simp only [replaced, placed, recolor, TreeMem.upd_cell_ne _ _ hbo, TreeMem.upd_cell_ne _ _ hbl,
      ← hm₀]
  · refine nodup_addrs_plug.mpr ⟨h.ctx_nodup, ?_, fun b hb hin' => ?_⟩
    · refine (BTree.nodup_addrs_join (s := .left)).mpr ⟨?_, ?_, hlnd, hrnd, hdis⟩
      · exact fun hm => hin o (.inl hm) rfl
      · exact fun hm => hin o (.inr hm) rfl
    · rcases (BTree.mem_addrs_join (s := .left)).mp hin' with rfl | hb'
      · exact hoc hb
      · exact hctx b (.inr hb') hb
  · have hroot : m''.root = (hung c (some o) ((m.upd o (·.setChild .right (some rr))).upd rr
        (·.setParent (some o)))).root := by rw [hm'', hm']; rfl
    rw [hroot]
    refine hung_root (t := .node a v l r) (u := .node o { d.val with color := v.color } l r) ?_
    exact h.root_eq

end Replace

/-! ## `_delete` -/

section Delete

variable {c : List (Frame (RBVal α))} {a : Nat} {v : RBVal α} {l r : BTree (RBVal α)}

/-- Taking out a node whose successor is red and not its child. -/
theorem unlink_returns (h : Holds m (plug c (.node a v l r)))
    (hrb : IsRedBlack (plug c (.node a v l r))) (hl : l ≠ .nil) {b : Nat} {u : RBVal α}
    {rl rr : BTree (RBVal α)} (hr : r = .node b u rl rr) (hrl : rl ≠ .nil)
    (hred : minColor r = .red) :
    ∃ o m₁ t', Returns (fun fuel => unlink fuel a m) (.red, some o, m₁) ∧
      Holds { m₁ with heap := m₁.heap.free a } t' ∧ IsRedBlack t' ∧
      ∃ pre post, keys (plug c (.node a v l r)) = pre ++ (a, v.comparator) :: post ∧
        keys t' = pre ++ post := by
  obtain ⟨lr, hlr⟩ : ∃ lr, l.root = some lr := by
    cases l with
    | nil => exact absurd rfl hl
    | node lr _ _ _ => exact ⟨lr, rfl⟩
  have hrr : r.root = some b := by rw [hr]; rfl
  obtain ⟨d, o, w, x, he, hside, hcol, hmin⟩ :=
    minimum_returns (c := ⟨.right, a, v, l⟩ :: c) h hrr
  -- the successor is not the right child, so it hangs below some frame
  obtain ⟨f, d, rfl⟩ : ∃ f d', d = f :: d' := by
    cases d with
    | nil =>
      rw [hr, plug_nil] at he
      cases he
      exact absurd rfl hrl
    | cons f d => exact ⟨f, d, rfl⟩
  have hw : w.color = .red := hcol.symm.trans hred
  rw [he] at h hrb
  obtain ⟨rfl, hrb'⟩ := hrb.replace hw
  have h' : Holds m (plug (f :: (d ++ ⟨.right, a, v, l⟩ :: c)) (.node o w .nil .nil)) := by
    rw [← List.cons_append, plug_append]
    exact h
  set C := f :: (d ++ ⟨.right, a, v, l⟩ :: c) with hC
  have hplug : plug C .nil = plug c (.node a v l (plug (f :: d) .nil)) := by
    rw [hC, ← List.cons_append, plug_append]
    rfl
  have hcut : Holds (hung C none m) (plug c (.node a v l (plug (f :: d) .nil))) := hplug ▸ h'.cut
  have hoC : o ∉ ctxAddrs C := fun hm => h'.disjoint hm (by simp)
  have ho : o ∉ (plug c (.node a v l (plug (f :: d) .nil))).addrs := by
    rw [← hplug, mem_addrs_plug]
    simpa using hoC
  have hoc : m.cell o = some ⟨some f.a, none, none, w⟩ := h'.focus_cell
  have hoc' : (hung C none m).cell o = some ⟨some f.a, none, none, w⟩ :=
    (hung_cell_ne fun he => hoC (holeParent_mem he)).trans hoc
  have hroot : (plug (f :: d) (.nil : BTree (RBVal α))).root = some b := by
    rw [root_plug_cons f d .nil (.node o w .nil .nil), ← he, hrr]
  obtain ⟨m₂, hm₂, htake⟩ := replace_eq hcut hlr hroot ho hoc'
  refine ⟨o, _, _, ?_, replace_holds hcut hlr hroot ho hoc' rfl, hrb', ?_⟩
  · have hca := h.focus_cell
    rw [hlr, ← he, hrr] at hca
    have hleft : m.child .left a = .ok (some lr) := TreeMem.child_ok hca _
    have hright : m.child .right a = .ok (some b) := TreeMem.child_ok hca _
    have hfa : ¬ some f.a = some a := by
      intro hfa
      have hr' : f.a ∈ (plug (f :: d) (.node o w .nil .nil)).addrs :=
        mem_addrs_plug.mpr (Or.inl (by simp))
      exact ((BTree.nodup_addrs_join (s := .left)).mp h.focus_nodup).2.1
        (Option.some.inj hfa ▸ hr')
    have hdetach : detachSuccessor a o m = .ok m₂ := by
      have hhang := hang_eq h'.ctx (TreeMem.parent_ok hoc) hoC none
      simp only [detachSuccessor, TreeMem.child_ok hoc, Cell.child, ok_bind, transplant, hhang,
        pure_ok]
      exact hm₂
    unfold unlink
    simp only [hleft, hright, ok_bind]
    refine hmin.bind ?_
    simp only [color_ok hoc, hw, TreeMem.child_ok hoc, TreeMem.parent_ok hoc, ok_bind, if_neg hfa,
      hdetach, htake]
    exact .pure _
  · rw [he]
    exact keys_replace hside

variable [LinearOrder α] {shell : α} {t : BTree (RBVal α)}

/-- When `_delete` works: `shell` is not there, or its node is the only one, or that node has two
    children and its successor is red and not its right child. -/
def DeleteSafe (shell : α) (t : BTree (RBVal α)) : Prop :=
  ∀ c a v l r, seek (dirFind RBVal.comparator shell) t [] = (c, .node a v l r) →
    (c = [] ∧ l = .nil ∧ r = .nil) ∨
    (l ≠ .nil ∧ ∃ b u rl rr, r = .node b u rl rr ∧ rl ≠ .nil ∧ minColor r = .red)

/-- What `_delete` is for: without a node of that comparator nothing changes, and otherwise one
    such node goes and the others keep their order. -/
structure Deleted (shell : α) (m : RBTree α) (t : BTree (RBVal α)) (m' : RBTree α)
    (t' : BTree (RBVal α)) : Prop where
  absent : (∀ x ∈ keys t, x.2 ≠ shell) → m' = m ∧ t' = t
  present : (∃ x ∈ keys t, x.2 = shell) →
    ∃ a pre post, keys t = pre ++ (a, shell) :: post ∧ keys t' = pre ++ post

/-- The states `insert` and `_delete` are meant to keep. -/
structure Valid (m : RBTree α) (t : BTree (RBVal α)) : Prop where
  holds : Holds m t
  redBlack : IsRedBlack t
  sorted : t.Sorted RBVal.comparator

theorem delete_returns (h : Valid m t) (hsafe : DeleteSafe shell t) :
    ∃ m' t', Returns (fun fuel => delete fuel shell m) m' ∧ Valid m' t' ∧
      Deleted shell m t m' t' := by
  have hret := seek_returns (dirFind RBVal.comparator shell) (c := []) h.holds
  rw [← h.holds.root_eq] at hret
  have hplug := plug_seek (dirFind RBVal.comparator shell) t []
  rcases hseek : seek (dirFind RBVal.comparator shell) t [] with ⟨c, s⟩
  rw [hseek] at hret hplug
  rw [plug_nil] at hplug
  cases s with
  | nil =>
    refine ⟨m, t, hret.bind (.pure m), h, fun _ => ⟨rfl, rfl⟩, fun ⟨x, hx, he⟩ => ?_⟩
    obtain ⟨y, hy, rfl⟩ := List.mem_map.mp hx
    exact absurd he ((seek_nil_iff h.sorted).mp (by rw [hseek]) y hy)
  | node a v l r =>
    have hkey : v.comparator = shell := key_of_seek_node hseek
    obtain ⟨hh, hrb, hs⟩ := h
    rw [← hplug] at hh hrb hs
    have hca := hh.focus_cell
    rw [← hplug]
    -- `node` is met, and its comparator is the shell's
    suffices hun : ∃ original old m₁ m' t',
        Returns (fun fuel => unlink fuel a m) (original, old, m₁) ∧
        Returns (fun fuel => if original = .black then
            loop deleteStep fuel (old, { m₁ with heap := m₁.heap.free a })
          else return { m₁ with heap := m₁.heap.free a }) m' ∧
        Holds m' t' ∧ IsRedBlack t' ∧
        ∃ pre post, keys (plug c (.node a v l r)) = pre ++ (a, v.comparator) :: post ∧
          keys t' = pre ++ post by
      obtain ⟨original, old, m₁, m', t', hunl, hfix, hh', hrb', pre, post, hk, hk'⟩ := hun
      rw [hkey] at hk
      refine ⟨m', t', hret.bind ?_, ⟨hh', hrb', ?_⟩, fun hne => ?_,
        fun _ => ⟨a, pre, post, hk, hk'⟩⟩
      · simp only [BTree.root_node, comparator_ok hca, hkey, ok_bind, ne_eq, not_true, if_false]
        exact hunl.bind hfix
      · rw [sorted_iff_keyed] at hs ⊢
        change (keys _).Pairwise _ at hs ⊢
        rw [hk] at hs
        rw [hk']
        exact hs.sublist (List.Sublist.append_left (List.sublist_cons_self _ _) _)
      · exact absurd rfl (hne (a, shell) (by rw [hk]; simp))
    rcases hsafe c a v l r hseek with ⟨rfl, rfl, rfl⟩ | ⟨hl, b, u, rl, rr, hr, hrl, hred⟩
    · -- the only node: `old` and `root` are both null after it
      refine ⟨.black, none, m.setRoot none, _, .nil, ?_, returns_done rfl,
        ⟨trivial, List.nodup_nil, rfl⟩, ⟨rfl, trivial, 0, blackHeight_nil⟩, [], [], rfl, rfl⟩
      have hleft : m.child .left a = .ok none := TreeMem.child_ok hca _
      have hright : m.child .right a = .ok none := TreeMem.child_ok hca _
      have hpar : m.parent a = .ok none := TreeMem.parent_ok hca
      simp only [unlink, hleft, hright, ok_bind, transplant, hang, hpar, pure_ok]
      exact .pure _
    · obtain ⟨o, m₁, t', hunl, hh', hrb', hk⟩ := unlink_returns hh hrb hl hr hrl hred
      exact ⟨.red, some o, m₁, _, t', hunl, .pure _, hh', hrb', hk⟩

end Delete

/-! ## Runs of `insert` and `_delete` -/

section Calls

variable [LinearOrder α] {t : BTree (RBVal α)} {calls : List (Call α)}

theorem Valid.insert (h : Valid m t) (d : Cell (RBVal α)) :
    ∃ m' t', Returns (fun fuel => (Call.insert d).exec fuel m) m' ∧ Valid m' t' := by
  have hbrk : ∀ a ∈ t.addrs, a ≠ m.heap.brk := fun a ha he => by
    obtain ⟨c, hc⟩ := h.holds.cell_of_mem ha
    exact absurd (m.heap.lt_brk hc) (by omega)
  have hh : Holds (⟨m.heap.alloc d, m.root⟩ : RBTree α) t :=
    ⟨h.holds.linked.frame fun a ha => m.heap.alloc_cell_ne d (hbrk a ha), h.holds.nodup,
      h.holds.root_eq⟩
  obtain ⟨m', t', hret, hh', hrb, _, hk⟩ := insert_returns hh h.redBlack
    (fun hm => hbrk _ hm rfl) (m.heap.alloc_cell_self d)
  refine ⟨m', t', hret, hh', hrb, ?_⟩
  have hst : StableSortOf Prod.snd (keys t) (keys t) := ⟨sorted_iff_keyed.mp h.sorted, fun _ => rfl⟩
  have hst' := hst.insert_leaf m.heap.brk ⟨.red, d.val.comparator⟩
  rw [sorted_iff_keyed]
  change (keys t').Pairwise _
  rw [hk]
  exact hst'.sorted

theorem valid_empty : Valid (TreeMem.empty : RBTree α) .nil :=
  ⟨⟨trivial, List.nodup_nil, rfl⟩, ⟨rfl, trivial, 0, blackHeight_nil⟩, List.Pairwise.nil⟩

/-- The calls of a run whose `_delete`s meet `DeleteSafe` in the states they start from. -/
def SafeCalls (calls : List (Call α)) : Prop :=
  ∀ pre shell post m t, calls = pre ++ .delete shell :: post →
    Returns (fun fuel => runCalls fuel pre TreeMem.empty) m → Holds m t → DeleteSafe shell t

theorem SafeCalls.of_append {pre post : List (Call α)} (h : SafeCalls (pre ++ post)) :
    SafeCalls pre := by
  intro pre' shell post' m t he
  exact h pre' shell (post' ++ post) m t (by rw [he]; simp)

theorem runCalls_snoc {pre : List (Call α)} {call : Call α} {m' : RBTree α}
    (h : Returns (fun fuel => runCalls fuel pre TreeMem.empty) m)
    (h' : Returns (fun fuel => call.exec fuel m) m') :
    Returns (fun fuel => runCalls fuel (pre ++ [call]) TreeMem.empty) m' := by
  refine (h.bind h').of_eq fun fuel => ?_
  simp only [runCalls, List.foldlM_append, List.foldlM_cons, List.foldlM_nil, bind_pure]

theorem runCalls_valid (hsafe : SafeCalls calls) :
    ∃ m t, Returns (fun fuel => runCalls fuel calls TreeMem.empty) m ∧ Valid m t := by
  obtain ⟨m, _, hret, t, hv⟩ := foldlM_returns Call.exec calls
    (fun pre m => Returns (fun fuel => runCalls fuel pre TreeMem.empty) m ∧ ∃ t, Valid m t)
    (by
      rintro pre call post m rfl ⟨hret, t, hv⟩
      cases call with
      | insert d =>
        obtain ⟨m', t', hret', hv'⟩ := hv.insert d
        exact ⟨m', hret', runCalls_snoc hret hret', t', hv'⟩
      | delete shell =>
        obtain ⟨m', t', hret', hv', _⟩ :=
          delete_returns hv (hsafe pre shell post m t rfl hret hv.holds)
        exact ⟨m', hret', runCalls_snoc hret hret', t', hv'⟩)
    ⟨.pure _, .nil, valid_empty⟩
  exact ⟨m, t, hret, hv⟩

/-- In a run of `insert` and `_delete` calls from the empty tree whose `_delete`s all meet
    `DeleteSafe`, every state reached is a linked, sorted red-black tree, and every `_delete`
    returns with one node of that comparator gone, or with nothing changed if there is none. -/
theorem safe_run_delete (calls : List (Call α)) (hsafe : SafeCalls calls) :
    ∀ pre post, calls = pre ++ post →
      ∃ m t, Returns (fun fuel => runCalls fuel pre TreeMem.empty) m ∧ Valid m t ∧
        ∀ shell, post.head? = some (.delete shell) →
          ∃ m' t', Returns (fun fuel => delete fuel shell m) m' ∧ Valid m' t' ∧
            Deleted shell m t m' t' := by
  rintro pre post rfl
  obtain ⟨m, t, hret, hv⟩ := runCalls_valid hsafe.of_append
  refine ⟨m, t, hret, hv, fun shell hhead => ?_⟩
  cases post with
  | nil => cases hhead
  | cons call post =>
    cases hhead
    exact delete_returns hv (hsafe pre shell post m t rfl hret hv.holds)

end Calls

/-- A node as `new` leaves it, up to the fields nothing reads. -/
def freshNode (k : Nat) : Cell (RBVal Nat) := ⟨none, none, none, ⟨.red, k⟩⟩

/-- Deleting the root of a three-node tree: its successor is its right child and has no right
    child of its own, and `sub->parent = node` writes through the null `sub`. -/
theorem delete_adjacent_successor :
    Raises (fun fuel => runCalls fuel
      [.insert (freshNode 1), .insert (freshNode 2), .insert (freshNode 3), .delete 2]
      TreeMem.empty) .nullDeref := by
  refine ⟨8, fun fuel hf => ?_⟩
  obtain ⟨k, rfl⟩ := Nat.exists_eq_add_of_le' hf
  rfl

/-- The root has the distant red successor 3. -/
def fourCalls : List (Call Nat) :=
  [.insert (freshNode 2), .insert (freshNode 1), .insert (freshNode 4), .insert (freshNode 3)]

def fourNodes : BTree (RBVal Nat) :=
  .node 0 ⟨.black, 2⟩ (.node 1 ⟨.black, 1⟩ .nil .nil)
    (.node 2 ⟨.black, 4⟩ (.node 3 ⟨.red, 3⟩ .nil .nil) .nil)

theorem fourCalls_holds :
    ∃ m, Returns (fun fuel => runCalls fuel fourCalls TreeMem.empty) m ∧ Holds m fourNodes := by
  refine ⟨match runCalls 8 fourCalls TreeMem.empty with | .ok m => m | .error _ => TreeMem.empty,
    ⟨8, fun fuel hf => ?_⟩, ?_, by decide, rfl⟩
  · obtain ⟨k, rfl⟩ := Nat.exists_eq_add_of_le' hf
    rfl
  · exact ⟨rfl, ⟨rfl, trivial, trivial⟩, rfl, ⟨rfl, trivial, trivial⟩, trivial⟩

theorem safeCalls_four : SafeCalls (fourCalls ++ [.delete 2]) := by
  intro pre shell post m t he hret hh
  obtain ⟨rfl, rfl⟩ : fourCalls = pre ∧ 2 = shell := by
    rcases pre with _ | ⟨x₀, _ | ⟨x₁, _ | ⟨x₂, _ | ⟨x₃, _ | ⟨x₄, pre⟩⟩⟩⟩⟩ <;>
      simp only [fourCalls, List.cons_append, List.nil_append, List.cons.injEq, reduceCtorEq,
        false_and, and_false, Call.delete.injEq, List.nil_eq, List.append_eq_nil_iff] at he
    obtain ⟨rfl, rfl, rfl, rfl, rfl, _⟩ := he
    exact ⟨rfl, rfl⟩
  obtain ⟨m₀, hret₀, hh₀⟩ := fourCalls_holds
  cases hret.unique hret₀
  cases hh.unique hh₀
  intro c a v l r hseek
  have hfour : seek (dirFind RBVal.comparator 2) fourNodes [] = ([], fourNodes) := rfl
  cases hfour.symm.trans hseek
  exact Or.inr ⟨by simp, _, _, _, _, rfl, by simp, rfl⟩

theorem safe_run_delete_four :
    SafeCalls (fourCalls ++ [.delete 2]) ∧
      ∃ m t, Returns (fun fuel => runCalls fuel (fourCalls ++ [.delete 2]) TreeMem.empty) m ∧
        Valid m t := by
  obtain ⟨m, t, hret, hv, _⟩ := safe_run_delete _ safeCalls_four (fourCalls ++ [.delete 2]) [] rfl
  exact ⟨safeCalls_four, m, t, hret, hv⟩

end RBTree

end Monya.Structures
