/-
  What it means that the workers have done a level.

  `LevelDone T nodes log`: each entry of `nodes` was given to one of `T` workers, and what each
  worker did, in its own order, is `prep` and `run` of each node it was given. A node that may be
  scheduled more than once is an entry for each time. `LevelDone.once` reads this for a node with
  one entry: `log` has two entries for it, its `prep` and then its `run`, by one worker.
-/
import Monya.Structures.ThreadPool

namespace Monya.Structures

/-- The nodes that go to worker `t`, where `owner` lists the worker of each node handed out. -/
def share (nodes owner : List Nat) (t : Nat) : List Nat :=
  ((nodes.zip owner).filter fun p => p.2 = t).map Prod.fst

/-- What worker `t` did. -/
def tasksOf (log : List Entry) (t : Nat) : List Task :=
  (log.filter fun e => e.tid = t).map Entry.task

def LevelDone (T : Nat) (nodes : List Nat) (log : List Entry) : Prop :=
  ∃ owner : List Nat, owner.length = nodes.length ∧ (∀ t ∈ owner, t < T) ∧
    ∀ t, tasksOf log t = trained (share nodes owner t)

/-! ## Shares -/

theorem share_nil (nodes : List Nat) (t : Nat) : share nodes [] t = [] := by
  rw [share, List.zip_nil_right]
  rfl

theorem share_cons (x o : Nat) (nodes owner : List Nat) (t : Nat) :
    share (x :: nodes) (o :: owner) t = (if o = t then [x] else []) ++ share nodes owner t := by
  unfold share
  by_cases ho : o = t <;> simp [ho]

/-- One more node is handed out. -/
theorem share_snoc {nodes owner : List Nat} {x : Nat} (hx : nodes[owner.length]? = some x)
    (t u : Nat) :
    share nodes (owner ++ [t]) u = share nodes owner u ++ if t = u then [x] else [] := by
  induction owner generalizing nodes with
  | nil =>
    cases nodes with
    | nil => cases hx
    | cons y ys =>
      obtain rfl : y = x := by simpa using hx
      rw [List.nil_append, share_cons, share_nil, share_nil, List.append_nil, List.nil_append]
  | cons o os ih =>
    cases nodes with
    | nil => cases hx
    | cons y ys =>
      have hx' : ys[os.length]? = some x := by simpa using hx
      rw [List.cons_append, share_cons, share_cons, ih hx', List.append_assoc]

/-! ## A node with one entry -/

theorem node_mem_of_mem_trained {xs : List Nat} {t : Task} (h : t ∈ trained xs) : t.node ∈ xs := by
  obtain ⟨x, hx, ht⟩ := List.mem_flatMap.mp h
  rcases List.mem_pair.mp ht with rfl | rfl <;> exact hx

theorem filter_trained (xs : List Nat) (x : Nat) :
    (trained xs).filter (fun t => t.node = x) = trained (xs.filter fun y => y = x) := by
  induction xs with
  | nil => rfl
  | cons y ys ih =>
    have hcons : trained (y :: ys) = [.prep y, .run y] ++ trained ys := rfl
    rw [hcons, List.filter_append, ih]
    by_cases hy : y = x <;> simp [trained, Task.node, hy]

/-- The one worker of a node with one entry. -/
theorem share_count_one {nodes owner : List Nat} {x : Nat} (hlen : owner.length = nodes.length)
    (hx : nodes.count x = 1) :
    ∃ t ∈ owner, ∀ u,
      (share nodes owner u).filter (fun y => y = x) = if u = t then [x] else [] := by
  induction nodes generalizing owner with
  | nil => cases hx
  | cons y ys ih =>
    obtain ⟨o, os, rfl⟩ : ∃ o os, owner = o :: os := List.exists_cons_of_length_eq_add_one hlen
    have hlen' : os.length = ys.length := by simpa using hlen
    by_cases hy : y = x
    · have hnot : x ∉ ys := by
        rw [List.count_cons, if_pos (by simpa using hy)] at hx
        exact List.count_eq_zero.mp (by omega)
      refine ⟨o, List.mem_cons_self, fun u => ?_⟩
      have hrest : (share ys os u).filter (fun y => y = x) = [] := by
        rw [List.filter_eq_nil_iff]
        intro z hz hzx
        have hzx' : z = x := by simpa using hzx
        obtain ⟨p, hp, rfl⟩ := List.mem_map.mp hz
        exact hnot (hzx' ▸ (List.of_mem_zip (List.mem_of_mem_filter hp)).1)
      rw [share_cons, List.filter_append, hrest, List.append_nil]
      by_cases hou : o = u
      · simp [hou, hy]
      · simp [hou, Ne.symm hou]
    · have hx' : ys.count x = 1 := by
        rwa [List.count_cons, if_neg (by simpa using hy), Nat.add_zero] at hx
      obtain ⟨t, ht, hshare⟩ := ih hlen' hx'
      refine ⟨t, List.mem_cons_of_mem _ ht, fun u => ?_⟩
      rw [share_cons, List.filter_append, hshare]
      by_cases hou : o = u <;> simp [hou, hy]

/-- A node with one entry is prepped and then run by one worker, and nothing else is done to it. -/
theorem LevelDone.once {T : Nat} {nodes : List Nat} {log : List Entry} (h : LevelDone T nodes log)
    {x : Nat} (hx : nodes.count x = 1) :
    ∃ t < T, (log.filter fun e => e.task.node = x).map (fun e => (e.tid, e.task)) =
      [(t, .prep x), (t, .run x)] := by
  obtain ⟨owner, hlen, hlt, htasks⟩ := h
  obtain ⟨t, ht, hshare⟩ := share_count_one hlen hx
  refine ⟨t, hlt t ht, ?_⟩
  have hwho : ∀ e ∈ log, e.task.node = x → e.tid = t := by
    intro e he hex
    by_contra hne
    have hmem : e.task ∈ tasksOf log e.tid :=
      List.mem_map_of_mem (List.mem_filter.mpr ⟨he, by simp⟩)
    rw [htasks] at hmem
    have hx' : x ∈ (share nodes owner e.tid).filter (fun y => y = x) :=
      List.mem_filter.mpr ⟨hex ▸ node_mem_of_mem_trained hmem, by simp⟩
    rw [hshare, if_neg hne] at hx'
    cases hx'
  have hboth : (log.filter fun e => e.task.node = x) =
      (log.filter fun e => e.tid = t).filter fun e => e.task.node = x := by
    rw [List.filter_filter]
    refine List.filter_congr fun e he => ?_
    by_cases hex : e.task.node = x
    · simp [hex, hwho e he hex]
    · simp [hex]
  have hmine : (tasksOf log t).filter (fun k => k.node = x) = [.prep x, .run x] := by
    rw [htasks, filter_trained, hshare, if_pos rfl]
    rfl
  rw [tasksOf, List.filter_map] at hmine
  have htid : ∀ e ∈ (log.filter fun e => e.task.node = x),
      (e.tid, e.task) = ((fun k => (t, k)) ∘ Entry.task) e := by
    intro e he
    obtain ⟨he, hex⟩ := List.mem_filter.mp he
    rw [hwho e he (by simpa using hex)]
    rfl
  rw [List.map_congr_left htid, hboth, ← List.map_map]
  exact congrArg (List.map fun k => (t, k)) hmine

end Monya.Structures
