/-
  The walk of `find_neighbors` (`examples/kdtree.cpp`), over any tree.

  To say how often `query->eval` is called, the walk is run a second time with a list of its calls
  (`findNeighborsLogged`); without the list it is `findNeighbors` (`findNeighbors_eq`).

  `walk_subtree` is the walk over a subtree that has not been visited. `walk_path` is the walk with
  the path of the descent on the stack: when a node of the path is popped, the child on the path is
  completed and the other one has not been visited. Both end with the stack as it was below and with
  the samples of the subtree offered in some order. `walk_exhaustive` puts the descent before it.
-/
import Monya.Examples.KdQuery

namespace Monya.KdTree

open Monya.Lib Monya.Structures KdNode

/-! ## The walk with a log -/

/-- A call of `query->eval`. -/
structure EvalCall (α : Type) where
  id : Nat
  dist : α
  treeId : Nat
  deriving DecidableEq, Repr

/-- The call that offers the entry `e`. -/
def EvalCall.of {α : Type} (treeId : Nat) (e : IndexVal α) : EvalCall α := ⟨e.index, e.val, treeId⟩

structure LoggedWalk (α : Type) extends Walk α where
  calls : List (EvalCall α)

section Logged

variable {α : Type} [LinearOrder α] (env : KdEnv α) (euclidean : List α → List α → α)

def evalSampleLogged (treeId fuel : Nat) (s : ProximityQuery α × List (EvalCall α))
    (iv : IndexVal α) : Except Fault (ProximityQuery α × List (EvalCall α)) := do
  let dist ← distance env euclidean s.1.qsample iv.index
  let query ← s.1.eval fuel iv.index dist treeId
  return (query, s.2 ++ [⟨iv.index, dist, treeId⟩])

def evalLeafLogged (treeId fuel : Nat) (k : KdNode α) (s : ProximityQuery α × List (EvalCall α)) :
    Except Fault (ProximityQuery α × List (EvalCall α)) :=
  k.dataIndex.items.foldlM (evalSampleLogged env euclidean treeId fuel) s

def loggedStep (treeId : Nat) (h : Heap (KdNode α)) (fuel : Nat) (w : LoggedWalk α) :
    Except Fault (Pass (LoggedWalk α) (LoggedWalk α)) :=
  match w.visited with
  | [] => return .done w
  | node :: visited => do
      let k ← h.read node
      if k.hasChild then
        let visited ← pushChild h w.completed k.left visited
        let visited ← pushChild h w.completed k.right visited
        return .next ⟨⟨visited, node :: w.completed, w.query⟩, w.calls⟩
      else
        let s ← evalLeafLogged env euclidean treeId fuel k (w.query, w.calls)
        return .next ⟨⟨visited, node :: w.completed, s.1⟩, s.2⟩

/-- `std::unordered_set::clear`. -/
def clear (_ : List Nat) : List Nat := []

/-- `find_neighbors`, with what an earlier query has left in `completed`. -/
def findNeighborsLogged (treeId : Nat) (h : Heap (KdNode α)) (root : Nat) (completed : List Nat)
    (query : ProximityQuery α) (fuel : Nat) : Except Fault (LoggedWalk α) := do
  let completed := clear completed
  let visited ← descend fuel h query root
  loop (loggedStep env euclidean treeId h fuel) fuel ⟨⟨visited, completed, query⟩, []⟩

/-! ### Without the log -/

variable {env euclidean}

theorem evalLeaf_eq (treeId fuel : Nat) (k : KdNode α) (s : ProximityQuery α × List (EvalCall α)) :
    evalLeaf env euclidean treeId fuel k s.1 =
      (evalLeafLogged env euclidean treeId fuel k s).map Prod.fst := by
  refine foldlM_map (fun s iv => ?_) k.dataIndex.items s
  unfold evalSample evalSampleLogged
  cases distance env euclidean s.1.qsample iv.index with
  | error e => rfl
  | ok dist =>
    simp only [ok_bind]
    cases s.1.eval fuel iv.index dist treeId with
    | error e => rfl
    | ok query => rfl

theorem walkStep_eq (treeId : Nat) (h : Heap (KdNode α)) (fuel : Nat) (w : LoggedWalk α) :
    walkStep env euclidean treeId h fuel w.toWalk =
      (loggedStep env euclidean treeId h fuel w).map
        (Pass.map LoggedWalk.toWalk fun w => w.query) := by
  unfold walkStep loggedStep
  cases w.visited with
  | nil => rfl
  | cons node visited =>
    cases hk : h.read node with
    | error e => simp only [hk]; rfl
    | ok k =>
      simp only [hk, ok_bind]
      split
      · cases h₁ : pushChild h w.completed k.left visited with
        | error e => rfl
        | ok visited₁ =>
          simp only [ok_bind]
          cases h₂ : pushChild h w.completed k.right visited₁ with
          | error e => rfl
          | ok visited₂ => rfl
      · rw [evalLeaf_eq treeId fuel k (w.query, w.calls)]
        cases evalLeafLogged env euclidean treeId fuel k (w.query, w.calls) with
        | error e => rfl
        | ok s => rfl

theorem findNeighbors_eq (treeId : Nat) (h : Heap (KdNode α)) (root : Nat) (completed : List Nat)
    (query : ProximityQuery α) (fuel : Nat) :
    findNeighbors env euclidean treeId h root query fuel =
      (findNeighborsLogged env euclidean treeId h root completed query fuel).map
        fun w => w.query := by
  unfold findNeighbors findNeighborsLogged
  cases descend fuel h query root with
  | error e => rfl
  | ok visited => exact loop_map (walkStep_eq treeId h fuel) fuel ⟨⟨visited, [], query⟩, []⟩

end Logged

/-! ## The walk -/

section Walk

variable {α : Type} [LinearOrder α] {env : KdEnv α} {euclidean : List α → List α → α}
  {M : Nat → Nat → α} {n f : Nat} {colwise : Bool} {h : Heap (KdNode α)} {treeId k : Nat}
  {qsample : List α}

/-- What sample `i` is offered as. -/
def entry (euclidean : List α → List α → α) (M : Nat → Nat → α) (f : Nat) (qsample : List α)
    (i : Nat) : IndexVal α :=
  ⟨i, euclidean qsample (row M f i)⟩

theorem distance_ok (henv : env.io = .ofMatrix M n f colwise) (hq : qsample.length = f) {i : Nat}
    (hi : i < n) :
    distance env euclidean qsample i = .ok (entry euclidean M f qsample i).val := by
  obtain ⟨p, hp, hpj⟩ := MemoryIO.getRow_ofMatrix (M := M) (f := f) colwise hi
  unfold distance
  rw [henv, hp, ok_bind, hq, Buf.copy_ok hpj]
  rfl

theorem evalLeafLogged_returns (henv : env.io = .ofMatrix M n f colwise) (hq : qsample.length = f)
    {kd : KdNode α} (hids : ∀ i ∈ kd.ids, i < n ∧ i < 2 ^ 32) {query : ProximityQuery α}
    (hqs : query.qsample = qsample) {es : List (IndexVal α)} (hseen : query.Seen treeId k es)
    (calls : List (EvalCall α)) :
    ∃ query', Returns (fun fuel => evalLeafLogged env euclidean treeId fuel kd (query, calls))
        (query', calls ++ kd.ids.map fun i => .of treeId (entry euclidean M f qsample i)) ∧
      query'.qsample = qsample ∧
      query'.Seen treeId k (es ++ kd.ids.map (entry euclidean M f qsample)) := by
  obtain ⟨s, hret, hqs', hseen', hcalls⟩ := foldlM_returns
    (fun fuel iv s => evalSampleLogged env euclidean treeId fuel s iv) kd.dataIndex.items
    (fun pre s => s.1.qsample = qsample ∧
      s.1.Seen treeId k (es ++ pre.map fun iv => entry euclidean M f qsample iv.index) ∧
      s.2 = calls ++ pre.map fun iv => .of treeId (entry euclidean M f qsample iv.index))
    (by
      rintro pre iv post s hitems ⟨hqs, hseen, hcalls⟩
      obtain ⟨hi, hi'⟩ := hids iv.index (List.mem_map_of_mem (by rw [hitems]; simp))
      obtain ⟨query', hret, hqs', hseen'⟩ :=
        hseen.eval hi' (entry euclidean M f qsample iv.index).val
      refine ⟨(query', s.2 ++ [.of treeId (entry euclidean M f qsample iv.index)]), ?_,
        hqs'.trans hqs, ?_, ?_⟩
      · refine (hret.map fun query' =>
          (query', s.2 ++ [.of treeId (entry euclidean M f qsample iv.index)])).of_eq fun fuel => ?_
        rw [evalSampleLogged, hqs, distance_ok henv hq hi, ok_bind]
        cases s.1.eval fuel iv.index (entry euclidean M f qsample iv.index).val treeId with
        | error e => rfl
        | ok query' => rfl
      · rw [List.map_append, ← List.append_assoc]
        exact hseen'
      · rw [hcalls, List.map_append, ← List.append_assoc]
        rfl)
    (s := (query, calls)) ⟨hqs, by simpa using hseen, by simp⟩
  obtain ⟨query', calls'⟩ := s
  dsimp only at hcalls
  subst hcalls
  refine ⟨query', ?_, hqs', ?_⟩
  · rw [KdNode.ids, IndexVector.ids, List.map_map]
    exact hret
  · rw [KdNode.ids, IndexVector.ids, List.map_map]
    exact hseen'

/-- Between `w` and `w'` the walk has completed the nodes `addrs` and offered the samples `ids`. -/
structure Walked (e : Nat → IndexVal α) (treeId k : Nat) (addrs ids : List Nat)
    (es : List (IndexVal α)) (w w' : LoggedWalk α) : Prop where
  completed : ∀ y, y ∈ w'.completed ↔ y ∈ addrs ∨ y ∈ w.completed
  sample : w'.query.qsample = w.query.qsample
  seen : w'.query.Seen treeId k (es ++ ids.map e)
  calls : w'.calls = w.calls ++ ids.map fun i => .of treeId (e i)

theorem Walked.trans {e : Nat → IndexVal α} {addrs ids addrs' ids' : List Nat}
    {es : List (IndexVal α)} {w w₁ w₂ : LoggedWalk α} (h₁ : Walked e treeId k addrs ids es w w₁)
    (h₂ : Walked e treeId k addrs' ids' (es ++ ids.map e) w₁ w₂) :
    Walked e treeId k (addrs ++ addrs') (ids ++ ids') es w w₂ := by
  refine ⟨fun y => ?_, h₂.sample.trans h₁.sample, ?_, ?_⟩
  · rw [h₂.completed, h₁.completed, List.mem_append]
    tauto
  · rw [List.map_append, ← List.append_assoc]
    exact h₂.seen
  · rw [h₂.calls, h₁.calls, List.map_append, List.append_assoc]

/-- From `w`, with `rest` left on the stack, the walk goes over the tree `t`. -/
def WalksOver (env : KdEnv α) (euclidean : List α → List α → α) (h : Heap (KdNode α))
    (e : Nat → IndexVal α) (treeId k : Nat) (t : Tree α) (rest : List Nat)
    (es : List (IndexVal α)) (w : LoggedWalk α) : Prop :=
  ∃ w' addrs ids, w'.visited = rest ∧ (∀ y, y ∈ addrs ↔ y ∈ t.addrs) ∧ ids.Perm t.ids ∧
    Walked e treeId k addrs ids es w w' ∧ Reaches (loggedStep env euclidean treeId h) w w'

omit [LinearOrder α] in
theorem pushChild_new {a : Nat} {c : KdNode α} {completed visited : List Nat}
    (hc : h.cell a = some c) (ha : a ∉ completed) :
    pushChild h completed (some a) visited = .ok (a :: visited) := by
  rw [pushChild, if_neg ha, Heap.read_ok hc]
  rfl

omit [LinearOrder α] in
theorem pushChild_completed {a : Nat} {completed visited : List Nat} (ha : a ∈ completed) :
    pushChild h completed (some a) visited = .ok visited := by
  rw [pushChild, if_pos ha]
  rfl

omit [LinearOrder α] in
theorem IsTree.cell {x : Nat} {t : Tree α} (ht : IsTree h x t) :
    x ∈ t.addrs ∧ ∃ kd, h.cell x = some kd := by
  cases ht with
  | leaf hk _ => exact ⟨List.mem_singleton_self _, _, hk⟩
  | node hk _ _ _ _ => exact ⟨List.mem_cons_self, _, hk⟩

/-- An inner node on top of the stack. -/
theorem walk_inner (env : KdEnv α) (euclidean : List α → List α → α) (e : Nat → IndexVal α)
    {es : List (IndexVal α)} {w : LoggedWalk α} {x l r : Nat} {rest visited visited' : List Nat}
    {kd : KdNode α} (hk : h.cell x = some kd)
    (hl : kd.left = some l) (hr : kd.right = some r) (hw : w.visited = x :: rest)
    (hpl : pushChild h w.completed (some l) rest = .ok visited)
    (hpr : pushChild h w.completed (some r) visited = .ok visited')
    (hseen : w.query.Seen treeId k es) :
    ∃ w', w'.visited = visited' ∧ Walked e treeId k [x] [] es w w' ∧
      Reaches (loggedStep env euclidean treeId h) w w' := by
  refine ⟨⟨⟨visited', x :: w.completed, w.query⟩, w.calls⟩, rfl,
    ⟨fun y => by simp, rfl, by simpa using hseen, by simp⟩, .next ⟨0, fun fuel _ => ?_⟩⟩
  have hc : kd.hasChild = true := by rw [KdNode.hasChild, hl]; rfl
  unfold loggedStep
  rw [hw]
  simp only [Heap.read_ok hk, ok_bind, hc, if_true, hl, hr, hpl, hpr]
  rfl

variable (henv : env.io = .ofMatrix M n f colwise) (hq : qsample.length = f)

include henv hq

/-- A leaf on top of the stack. -/
theorem walk_leaf {es : List (IndexVal α)} {w : LoggedWalk α} {x : Nat} {rest : List Nat}
    {kd : KdNode α}
    (hk : h.cell x = some kd) (hc : Childless kd) (hids : ∀ i ∈ kd.ids, i < n ∧ i < 2 ^ 32)
    (hw : w.visited = x :: rest) (hqs : w.query.qsample = qsample)
    (hseen : w.query.Seen treeId k es) :
    WalksOver env euclidean h (entry euclidean M f qsample) treeId k (.leaf x kd) rest es w := by
  obtain ⟨query', hret, hqs', hseen'⟩ := evalLeafLogged_returns henv hq hids hqs hseen w.calls
  refine ⟨⟨⟨rest, x :: w.completed, query'⟩, _⟩, [x], kd.ids, rfl, fun y => Iff.rfl, ?_,
    ⟨fun y => by simp, hqs'.trans hqs.symm, hseen', rfl⟩, .next ?_⟩
  · simp [Tree.ids, Tree.leaves]
  · refine (hret.bind (g := fun _ s => .ok (.next ⟨⟨rest, x :: w.completed, s.1⟩, s.2⟩))
      (.pure _)).of_eq fun fuel => ?_
    unfold loggedStep
    rw [hw]
    simp only [Heap.read_ok hk, ok_bind, hc.hasChild, Bool.false_eq_true, if_false]
    rfl

/-- A subtree that has not been visited. -/
theorem walk_subtree {t : Tree α} {x : Nat} (ht : IsTree h x t) :
    ∀ {es : List (IndexVal α)} {w : LoggedWalk α} {rest : List Nat}, t.addrs.Nodup →
      (∀ i ∈ t.ids, i < n ∧ i < 2 ^ 32) → w.visited = x :: rest → (∀ y ∈ t.addrs, y ∉ w.completed) →
      w.query.qsample = qsample → w.query.Seen treeId k es →
      WalksOver env euclidean h (entry euclidean M f qsample) treeId k t rest es w := by
  induction ht with
  | leaf hk hc =>
    intro es w rest _ hids hw _ hqs hseen
    exact walk_leaf henv hq hk hc (by simpa [Tree.ids, Tree.leaves] using hids) hw hqs hseen
  | @node x l r kd tl tr hk hl hr htl htr ihl ihr =>
    intro es w rest hnodup hids hw hnew hqs hseen
    simp only [Tree.addrs, Tree.ids_node, List.mem_cons, List.mem_append] at hnew hids
    obtain ⟨hx, hnodup⟩ := List.nodup_cons.mp hnodup
    obtain ⟨hnl, hnr, hdisj⟩ := List.nodup_append.mp hnodup
    obtain ⟨hlm, cl, hcl⟩ := htl.cell
    obtain ⟨hrm, cr, hcr⟩ := htr.cell
    obtain ⟨w₁, hv₁, hwk₁, hr₁⟩ := walk_inner env euclidean (entry euclidean M f qsample) hk hl hr
      hw (pushChild_new hcl (hnew l (by simp [hlm]))) (pushChild_new hcr (hnew r (by simp [hrm])))
      hseen
    -- the right child was pushed last and comes first
    obtain ⟨w₂, as₂, ids₂, hv₂, has₂, hp₂, hwk₂, hr₂⟩ :=
      ihr hnr (fun i hi => hids i (Or.inr hi)) hv₁
      (fun y hy hm => by
        rcases (hwk₁.completed y).mp hm with hm | hm
        · rw [List.mem_singleton.mp hm] at hy
          exact hx (List.mem_append_right _ hy)
        · exact hnew y (by simp [hy]) hm)
      (hwk₁.sample.trans hqs) hwk₁.seen
    obtain ⟨w₃, as₃, ids₃, hv₃, has₃, hp₃, hwk₃, hr₃⟩ :=
      ihl hnl (fun i hi => hids i (Or.inl hi)) hv₂
      (fun y hy hm => by
        rcases (hwk₂.completed y).mp hm with hm | hm
        · exact hdisj y hy y ((has₂ y).mp hm) rfl
        rcases (hwk₁.completed y).mp hm with hm | hm
        · rw [List.mem_singleton.mp hm] at hy
          exact hx (List.mem_append_left _ hy)
        · exact hnew y (by simp [hy]) hm)
      (hwk₂.sample.trans (hwk₁.sample.trans hqs)) hwk₂.seen
    refine ⟨w₃, _, _, hv₃, fun y => ?_, ?_, hwk₁.trans (hwk₂.trans hwk₃), hr₁.trans (hr₂.trans hr₃)⟩
    · simp only [List.mem_append, has₂, has₃, Tree.addrs, List.mem_cons]
      tauto
    · rw [List.nil_append, Tree.ids_node]
      exact (hp₂.append hp₃).trans List.perm_append_comm

/-- A node of the path, `x`, with its subtree `tn` on the path walked over: it pushes its other
    child, and the walk goes over that one. -/
theorem walk_other {tn tf : Tree α} {x l r cf : Nat} {kd : KdNode α} {es : List (IndexVal α)}
    {w : LoggedWalk α} {rest : List Nat} (hk : h.cell x = some kd) (hl : kd.left = some l)
    (hr : kd.right = some r) (hfar : IsTree h cf tf) (hnodup : tf.addrs.Nodup)
    (hids : ∀ i ∈ tf.ids, i < n ∧ i < 2 ^ 32) (hdisj : ∀ y ∈ tf.addrs, y ∉ tn.addrs ∧ y ≠ x)
    (hnew : ∀ y ∈ tf.addrs, y ∉ w.completed) (hqs : w.query.qsample = qsample)
    (hnear : WalksOver env euclidean h (entry euclidean M f qsample) treeId k tn (x :: rest) es w)
    (hpush : ∀ completed, (∀ y ∈ tn.addrs, y ∈ completed) → cf ∉ completed →
      ∃ visited, pushChild h completed (some l) rest = .ok visited ∧
        pushChild h completed (some r) visited = .ok (cf :: rest)) :
    ∃ w' addrs ids, w'.visited = rest ∧
      (∀ y, y ∈ addrs ↔ y = x ∨ y ∈ tn.addrs ∨ y ∈ tf.addrs) ∧ ids.Perm (tn.ids ++ tf.ids) ∧
      Walked (entry euclidean M f qsample) treeId k addrs ids es w w' ∧
      Reaches (loggedStep env euclidean treeId h) w w' := by
  obtain ⟨w₁, as₁, ids₁, hv₁, has₁, hp₁, hwk₁, hr₁⟩ := hnear
  have hdone : ∀ y ∈ tn.addrs, y ∈ w₁.completed := fun y hy =>
    (hwk₁.completed y).mpr (Or.inl ((has₁ y).mpr hy))
  have hnew₁ : ∀ y ∈ tf.addrs, y ∉ w₁.completed := fun y hy hm => by
    rcases (hwk₁.completed y).mp hm with hm | hm
    · exact (hdisj y hy).1 ((has₁ y).mp hm)
    · exact hnew y hy hm
  obtain ⟨visited, hpl, hpr⟩ := hpush w₁.completed hdone (hnew₁ cf hfar.cell.1)
  obtain ⟨w₂, hv₂, hwk₂, hr₂⟩ := walk_inner env euclidean (entry euclidean M f qsample) hk hl hr
    hv₁ hpl hpr hwk₁.seen
  obtain ⟨w₃, as₃, ids₃, hv₃, has₃, hp₃, hwk₃, hr₃⟩ := walk_subtree henv hq hfar hnodup hids hv₂
    (fun y hy hm => by
      rcases (hwk₂.completed y).mp hm with hm | hm
      · exact (hdisj y hy).2 (List.mem_singleton.mp hm)
      · exact hnew₁ y hy hm)
    (hwk₂.sample.trans (hwk₁.sample.trans hqs)) hwk₂.seen
  refine ⟨w₃, _, _, hv₃, fun y => ?_, ?_, hwk₁.trans (hwk₂.trans hwk₃),
    hr₁.trans (hr₂.trans hr₃)⟩
  · simp only [List.mem_append, has₁, has₃, List.mem_singleton]
    tauto
  · rw [List.nil_append]
    exact hp₁.append hp₃

/-- The walk from the path of a descent. -/
theorem walk_path (q : Nat → α) {t : Tree α} {x : Nat} (ht : IsTree h x t) :
    ∀ {es : List (IndexVal α)} {w : LoggedWalk α} {rest : List Nat}, t.addrs.Nodup →
      (∀ i ∈ t.ids, i < n ∧ i < 2 ^ 32) → w.visited = t.path q ++ rest →
      (∀ y ∈ t.addrs, y ∉ w.completed) →
      w.query.qsample = qsample → w.query.Seen treeId k es →
      WalksOver env euclidean h (entry euclidean M f qsample) treeId k t rest es w := by
  induction ht with
  | leaf hk hc =>
    intro es w rest _ hids hw _ hqs hseen
    exact walk_leaf henv hq hk hc (by simpa [Tree.ids, Tree.leaves] using hids) hw hqs hseen
  | @node x l r kd tl tr hk hl hr htl htr ihl ihr =>
    intro es w rest hnodup hids hw hnew hqs hseen
    simp only [Tree.addrs, Tree.ids_node, List.mem_cons, List.mem_append] at hnew hids
    obtain ⟨hx, hnodup⟩ := List.nodup_cons.mp hnodup
    rw [List.mem_append, not_or] at hx
    obtain ⟨hnl, hnr, hdisj⟩ := List.nodup_append.mp hnodup
    obtain ⟨hlm, cl, hcl⟩ := htl.cell
    obtain ⟨hrm, cr, hcr⟩ := htr.cell
    rw [Tree.path, List.append_assoc, List.singleton_append] at hw
    split_ifs at hw with hgo
    · have hnear := ihr hnr (fun i hi => hids i (Or.inr hi)) hw (fun y hy => hnew y (by simp [hy]))
        hqs hseen
      obtain ⟨w', addrs, ids, hv, has, hp, hwk, hreach⟩ := walk_other henv hq hk hl hr htl hnl
        (fun i hi => hids i (Or.inl hi))
        (fun y hy => ⟨fun hy' => hdisj y hy y hy' rfl, fun he => hx.1 (he ▸ hy)⟩)
        (fun y hy => hnew y (by simp [hy])) hqs hnear
        (fun completed hdone hcf => ⟨_, pushChild_new hcl hcf, pushChild_completed (hdone r hrm)⟩)
      refine ⟨w', addrs, ids, hv, fun y => ?_, ?_, hwk, hreach⟩
      · rw [has, Tree.addrs, List.mem_cons, List.mem_append]
        tauto
      · rw [Tree.ids_node]
        exact hp.trans List.perm_append_comm
    · have hnear := ihl hnl (fun i hi => hids i (Or.inl hi)) hw (fun y hy => hnew y (by simp [hy]))
        hqs hseen
      obtain ⟨w', addrs, ids, hv, has, hp, hwk, hreach⟩ := walk_other henv hq hk hl hr htr hnr
        (fun i hi => hids i (Or.inr hi))
        (fun y hy => ⟨fun hy' => hdisj y hy' y hy rfl, fun he => hx.2 (he ▸ hy)⟩)
        (fun y hy => hnew y (by simp [hy])) hqs hnear
        (fun completed hdone hcf => ⟨_, pushChild_completed (hdone l hlm), pushChild_new hcr hcf⟩)
      refine ⟨w', addrs, ids, hv, fun y => ?_, ?_, hwk, hreach⟩
      · rw [has, Tree.addrs, List.mem_cons, List.mem_append]
      · rw [Tree.ids_node]
        exact hp

/-- `find_neighbors` over any tree of distinct nodes: it returns, and its calls of `query->eval` are
    the entries of the leaves, each offered once. -/
theorem findNeighborsLogged_returns (euclidean : List α → List α → α) {root : Nat} {t : Tree α}
    (ht : IsTree h root t) (hnodup : t.addrs.Nodup)
    (hdim : ∀ y ∈ t.addrs, ∀ kd, h.cell y = some kd → kd.splitDim < f)
    (hids : ∀ i ∈ t.ids, i < n ∧ i < 2 ^ 32) (completed : List Nat) {query : ProximityQuery α}
    (hqs : query.qsample = qsample) {es : List (IndexVal α)} (hseen : query.Seen treeId k es) :
    ∃ w, ∃ ids : List Nat,
      Returns (findNeighborsLogged env euclidean treeId h root completed query) w ∧
      ids.Perm t.ids ∧ w.query.Seen treeId k (es ++ ids.map (entry euclidean M f qsample)) ∧
      w.calls = ids.map fun i => .of treeId (entry euclidean M f qsample i) := by
  -- the query's values, beyond its length by anything
  set q : Nat → α := fun j => qsample.getD j (M 0 0) with hqdef
  have hget : ∀ y ∈ t.addrs, ∀ kd, h.cell y = some kd →
      query.get kd.splitDim = .ok (q kd.splitDim) := by
    intro y hy kd hkd
    have hlt : kd.splitDim < qsample.length := hq ▸ hdim y hy kd hkd
    refine Buf.get_ok ?_
    simp [Buf.ofList, hqs, hqdef, hlt]
  obtain ⟨w', addrs, ids, hv, -, hp, hwk, hreach⟩ := walk_path henv hq q ht
    (w := ⟨⟨t.path q, [], query⟩, []⟩) hnodup hids (List.append_nil _).symm
    (fun _ _ => List.not_mem_nil) hqs hseen
  refine ⟨w', ids, ?_, hp, hwk.seen, by simpa using hwk.calls⟩
  have hdone : LoopReturns (loggedStep env euclidean treeId h) w' w' := by
    refine .done ⟨0, fun fuel _ => ?_⟩
    unfold loggedStep
    rw [hv]
    rfl
  exact (descend_returns ht hget).bind (hreach _ hdone).returns

/-- The calls that offer the entries of the leaves. -/
def leafCalls (euclidean : List α → List α → α) (M : Nat → Nat → α) (f treeId : Nat)
    (qsample : List α) (t : Tree α) : List (EvalCall α) :=
  t.leaves.flatMap fun kd => kd.dataIndex.items.map fun iv =>
    .of treeId (entry euclidean M f qsample iv.index)

omit henv hq [LinearOrder α] in
theorem leafCalls_eq (euclidean : List α → List α → α) (t : Tree α) :
    leafCalls euclidean M f treeId qsample t =
      t.ids.map fun i => .of treeId (entry euclidean M f qsample i) := by
  rw [Tree.ids, List.map_flatMap]
  refine List.flatMap_congr fun kd _ => ?_
  rw [KdNode.ids, IndexVector.ids, List.map_map]
  rfl

omit henv hq in
/-- Over any tree of distinct nodes with two children or none, whatever is in `completed`,
    `find_neighbors` returns and calls `query->eval` once for each entry of each leaf, and for
    nothing else. -/
theorem walk_exhaustive (euclidean : List α → List α → α)
    (henv : env.io = .ofMatrix M n f colwise) {root : Nat} {t : Tree α} (ht : IsTree h root t)
    (hnodup : t.addrs.Nodup) (hdim : ∀ y ∈ t.addrs, ∀ kd, h.cell y = some kd → kd.splitDim < f)
    (hids : ∀ i ∈ t.ids, i < n ∧ i < 2 ^ 32) (completed : List Nat) {query : ProximityQuery α}
    (hq : query.qsample.length = f) {es : List (IndexVal α)} (hseen : query.Seen treeId k es) :
    ∃ w, Returns (findNeighborsLogged env euclidean treeId h root completed query) w ∧
      Returns (findNeighbors env euclidean treeId h root query) w.query ∧
      w.calls.Perm (leafCalls euclidean M f treeId query.qsample t) := by
  obtain ⟨w, ids, hret, hp, -, hcalls⟩ := findNeighborsLogged_returns henv hq euclidean ht hnodup
    hdim hids completed rfl hseen
  refine ⟨w, hret, (hret.map fun w => w.query).of_eq fun fuel =>
    findNeighbors_eq treeId h root completed query fuel, ?_⟩
  rw [hcalls, leafCalls_eq]
  exact hp.map _

end Walk

/-- A tree that no build makes: the root has an entry of its own, and sample 1 is in both leaves. -/
def oddHeap : Heap (KdNode Nat) :=
  ((Heap.empty.alloc { KdNode.new 7 with
      left := some 1
      right := some 2
      dataIndex := ⟨[⟨0, 0⟩], false⟩ }).alloc
    { KdNode.new 0 with dataIndex := ⟨[⟨1, 0⟩], false⟩ }).alloc
    { KdNode.new 0 with dataIndex := ⟨[⟨2, 0⟩, ⟨1, 0⟩], false⟩ }

/-- Sample 1 is offered twice, sample 2 once and sample 0 not at all. -/
theorem walk_exhaustive_odd :
    ∃ w, Returns (findNeighborsLogged (rampEnv 3 1) (fun _ _ => 5) 0 oddHeap 0 [1, 2]
        (.new 9 [1] 2 1)) w ∧
      w.calls.Perm [⟨1, 5, 0⟩, ⟨2, 5, 0⟩, ⟨1, 5, 0⟩] := by
  have ht : IsTree oddHeap 0 (.node 0 _ (.leaf 1 _) (.leaf 2 _)) :=
    .node rfl rfl rfl (.leaf rfl ⟨rfl, rfl⟩) (.leaf rfl ⟨rfl, rfl⟩)
  have hseen : (ProximityQuery.new 9 [1] (2 : Nat) 1).Seen 0 2 [] :=
    ProximityQuery.seen_new 9 [1] (by decide) (by decide)
  have henv : (rampEnv 3 1).io = .ofMatrix (fun i _ => i) 3 1 false := rfl
  obtain ⟨w, hret, -, hcalls⟩ := walk_exhaustive (fun _ _ => 5) henv ht (by decide)
    (fun y hy kd hkd => by
      have hy' : y = 0 ∨ y = 1 ∨ y = 2 := by simpa [Tree.addrs] using hy
      rcases hy' with rfl | rfl | rfl <;> cases hkd <;> decide)
    (by decide) [1, 2] rfl hseen
  exact ⟨w, hret, hcalls⟩

end Monya.KdTree
