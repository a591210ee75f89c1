/-
  The rounds of a build, and the nodes that they allocate.

  `Rounds` is the history of a build between two rounds: what the first call of `schedule` leaves,
  and then one `Round` after the other. The nodes that are allocated are those of the levels and
  those that wait (`Rounds.live`). Each level is full, so their number is known but for the waiting
  ones, and a round of level `log n` makes two of them for each node with two samples
  (`Rounds.waiting`, `Rounds.beyond`).

  `Rounds.card_live` puts it together: `2 ^ (D + 1) - 1` nodes if the depth limit `D` is reached
  before the samples run out, and otherwise the `2 * n - 1` nodes of a tree with one sample at each
  leaf, and `leaked` more. Those were children once, until their parent was spawned again.
-/
import Monya.Lib.Owned
import Monya.Examples.KdHistory

namespace Monya.KdTree

open Monya.Lib Monya.Structures KdNode

section Rounds

variable {α : Type} [LinearOrder α]

/-- A build has come to this state by rounds that each spawned a node. -/
inductive Rounds (D : Nat) (M : Nat → Nat → α) (n f : Nat) :
    Scheduler → TreeState α → List (List Nat) → List Nat → List Nat → Prop
  | start {s : Scheduler} {st : TreeState α} (b : Building D M n f s st [] [0] [])
      (hlive : st.heap.live = {0}) : Rounds D M n f s st [] [0] []
  | next {s s' : Scheduler} {st st' : TreeState α} {full full' : List (List Nat)}
      {P pend P' pend' : List Nat} (h : Rounds D M n f s st full P pend)
      (hany : P.any (canSpawn D st.heap) = true)
      (r : Round D M n f st full P pend st' full' P' pend')
      (b : Building D M n f s' st' full' P' pend') : Rounds D M n f s' st' full' P' pend'

variable {D : Nat} {M : Nat → Nat → α} {n f : Nat} {s : Scheduler} {st st' : TreeState α}
  {full : List (List Nat)} {P pend : List Nat}

theorem Rounds.building (h : Rounds D M n f s st full P pend) :
    Building D M n f s st full P pend := by
  cases h with
  | start b _ => exact b
  | next _ _ _ b => exact b

/-- The first call of `schedule` trains the root, which is all there is. -/
theorem rounds_start {env : KdEnv α} {colwise : Bool} {splitDim : Nat}
    (henv : env.io = .ofMatrix M n f colwise) (hn : 1 ≤ n) (hn' : n < 2 ^ 32)
    (hsplit : splitDim < f) :
    ∃ s st, Scheduler.schedule (train env) 0 (init env splitDim) = .ok (s, st) ∧
      Root n splitDim st.heap ∧ Rounds env.maxDepth M n f s st [] [0] [] := by
  obtain ⟨s, st, hseq, -, -, hr, hb⟩ := start_ok henv hn hn' hsplit
  refine ⟨s, st, hseq, hr, .start hb ?_⟩
  refine schedule_keeps (P := fun st => st.heap.live = {0}) (fun x st st' h hlive => ?_) hseq ?_
  · obtain ⟨k, k', -, hheap, -⟩ := train_same h
    rw [hheap, Heap.live_update, hlive]
  · change (Heap.empty.alloc _).live = {0}
    rw [Heap.live_alloc, Heap.live_empty]
    rfl

/-! ## What is allocated -/

theorem SpawnedAll.live (h : SpawnedAll M n f D P st st') :
    st'.heap.live = st.heap.live ∪ (P.flatMap (kids st'.heap)).toFinset := by
  ext a
  simp only [Finset.mem_union, Heap.mem_live, List.mem_toFinset, List.mem_flatMap]
  constructor
  · rintro ⟨c, hc⟩
    by_cases ha : a < st.heap.brk
    · by_cases hP : a ∈ P.filter (canSpawn D st.heap)
      · obtain ⟨-, hcan⟩ := List.mem_filter.mp hP
        refine Or.inl ?_
        cases hk : st.heap.cell a with
        | none => simp [canSpawn, hk] at hcan
        | some k => exact ⟨k, rfl⟩
      · exact Or.inl ⟨c, (h.same a ha hP).symm.trans hc⟩
    · obtain ⟨-, -, y, hy, hay⟩ := h.new a c (Nat.le_of_not_lt ha) hc
      exact Or.inr ⟨y, (List.mem_filter.mp hy).1, hay⟩
  · rintro (⟨c, hc⟩ | ⟨y, -, hay⟩)
    · obtain ⟨c', hc', -⟩ := h.keeps a c hc
      exact ⟨c', hc'⟩
    · obtain ⟨-, c, -, hc, -⟩ := h.heapOk.child hay
      exact ⟨c, hc⟩

theorem TrainedAll.live {Q : List Nat} (h : TrainedAll M n f D Q st st') :
    st'.heap.live = st.heap.live := by
  ext a
  rw [Heap.mem_live, Heap.mem_live]
  by_cases ha : a ∈ Q
  · obtain ⟨k, k', hk, hk', -⟩ := h.trained a ha
    exact iff_of_true ⟨k', hk'⟩ ⟨k, hk⟩
  · rw [h.same a ha]

/-- Every node that is allocated is on one of the scheduler's lists. -/
theorem Rounds.live (h : Rounds D M n f s st full P pend) :
    st.heap.live = ((full ++ [P]).flatten ++ pend).toFinset := by
  induction h with
  | start _ hlive => rw [hlive]; rfl
  | next _ _ r _ ih =>
    cases r with
    | wait hs _ =>
      rw [hs.live, ih, ← List.toFinset_append, List.append_assoc]
    | fill hs hC ht _ _ =>
      rw [ht.live, hs.live, ih, hC, ← List.toFinset_append]
      simp

/-- The levels before the last one are full. -/
theorem Rounds.length_flatten (h : Rounds D M n f s st full P pend) :
    full.flatten.length + 1 = 2 ^ full.length := by
  induction h with
  | start _ _ => rfl
  | next h _ r _ ih =>
    cases r with
    | wait _ _ => exact ih
    | fill _ _ _ _ _ =>
      have hP := h.building.width
      rw [List.flatten_append, List.flatten_singleton, List.length_append, List.length_append,
        List.length_singleton, pow_succ]
      omega

theorem Rounds.card_live_eq (h : Rounds D M n f s st full P pend) :
    st.heap.live.card + 1 = 2 ^ (full.length + 1) + pend.length := by
  have hfull := h.length_flatten
  have hP := h.building.width
  rw [h.live, List.toFinset_card_of_nodup h.building.levels.nodup, List.length_append,
    List.flatten_append, List.flatten_singleton, List.length_append, pow_succ]
  omega

/-! ## What waits -/

/-- With one sample or two at each node, those with two are counted by the samples. -/
theorem sum_eq_length_add_countP (size : Nat → Nat) (can : Nat → Bool) {Q : List Nat}
    (hQ : ∀ x ∈ Q, 1 ≤ size x ∧ size x ≤ 2) (hcan : ∀ x ∈ Q, can x = true ↔ 1 < size x) :
    (Q.map size).sum = Q.length + Q.countP can := by
  induction Q with
  | nil => rfl
  | cons x Q ih =>
    have hx := hQ x List.mem_cons_self
    have hc := hcan x List.mem_cons_self
    have ih := ih (fun y hy => hQ y (List.mem_cons_of_mem x hy))
      fun y hy => hcan y (List.mem_cons_of_mem x hy)
    rw [List.map_cons, List.sum_cons, ih, List.length_cons, List.countP_cons]
    by_cases h : can x = true
    · rw [if_pos h]
      have := hc.mp h
      omega
    · rw [if_neg h]
      have := mt hc.mpr h
      omega

/-- The nodes of level `log n` that are spawned. -/
theorem Building.countP_spawn (b : Building D M n f s st full P pend) (hn : 1 ≤ n)
    (hp : full.length = Nat.log 2 n) (hD : full.length < D) :
    P.countP (canSpawn D st.heap) = n - 2 ^ Nat.log 2 n := by
  have hlt : n / 2 ^ Nat.log 2 n ≤ 1 := by
    have hdiv := Nat.div_lt_of_lt_mul
      ((pow_succ 2 (Nat.log 2 n)) ▸ Nat.lt_pow_succ_log_self (by omega) n)
    omega
  have hsum := sum_eq_length_add_countP (sizeAt st.heap) (canSpawn D st.heap) (Q := P)
    (fun x hx => ?_) fun x hx => ?_
  · rw [b.sum hp.le, b.width, hp] at hsum
    omega
  · obtain ⟨k, hk, -, hh⟩ := b.nodes x hx
    rw [sizeAt_eq hk]
    refine ⟨hh.one_le hn hp.le, hh.2.trans ?_⟩
    rw [hp]
    omega
  · obtain ⟨k, hk, hd, -⟩ := b.nodes x hx
    rw [canSpawn_cell hk, sizeAt_eq hk, hd]
    exact and_iff_right hD

/-- What waits at level `log n` comes from rounds that spawned the same nodes. -/
theorem Rounds.waiting (h : Rounds D M n f s st full P pend) (hp : full.length = Nat.log 2 n) :
    ∃ j, pend.length = j * (2 * P.countP (canSpawn D st.heap)) := by
  induction h with
  | start _ _ => exact ⟨0, by simp⟩
  | @next s s' st st' full full' P pend P' pend' h _ r _ ih =>
    cases r with
    | wait hs _ =>
      obtain ⟨j, hj⟩ := ih hp
      have hcan : P.countP (canSpawn D st'.heap) = P.countP (canSpawn D st.heap) :=
        List.countP_congr fun x hx => by
          obtain ⟨k, hk⟩ := h.building.cell x hx
          rw [hs.keeps.canSpawn hk]
      refine ⟨j + 1, ?_⟩
      rw [List.length_append, hj, hs.length_kids h.building.cell, hcan, Nat.succ_mul j]
    | fill _ _ _ _ hearly =>
      rw [List.length_append, List.length_singleton] at hp
      exact ⟨0, by rw [(hearly (by omega)).2]; simp⟩

/-- Level `log n + 1` was filled by the last of these rounds, and what it has too many waits. -/
theorem Rounds.beyond (hn : 1 ≤ n) (h : Rounds D M n f s st full P pend)
    (hp : full.length = Nat.log 2 n + 1) :
    ∃ j, j * (n - 2 ^ Nat.log 2 n) < 2 ^ Nat.log 2 n ∧
      pend.length + 2 ^ (Nat.log 2 n + 1) = (j + 1) * (2 * (n - 2 ^ Nat.log 2 n)) := by
  cases h with
  | start _ _ => cases hp
  | @next s _ st _ full _ P pend _ _ h hany r _ =>
    obtain ⟨hD, hle⟩ := h.building.level_of_spawn hany
    cases r with
    | wait _ _ => omega
    | @fill st₁ _ ys zs hs hC _ hwidth _ =>
      rw [List.length_append, List.length_singleton] at hp
      have hp' : full.length = Nat.log 2 n := by omega
      obtain ⟨j, hj⟩ := h.waiting hp'
      have hroom := h.building.room
      have hlen := hs.length_kids h.building.cell
      rw [h.building.countP_spawn hn hp' hD] at hj hlen
      rw [hC, List.length_append] at hlen
      rw [hp'] at hwidth hroom
      refine ⟨j, ?_, ?_⟩
      · rw [hj, pow_succ, Nat.mul_left_comm] at hroom
        omega
      · rw [Nat.succ_mul]
        omega

/-! ## How many there are -/

/-- The nodes of a tree over `n` samples with depth at most `D`. -/
def treeSize (n D : Nat) : Nat :=
  if D ≤ Nat.log 2 n then 2 ^ (D + 1) - 1 else 2 * n - 1

/-- The nodes that are allocated besides: the `n - 2 ^ log n` nodes with two samples at level
    `log n` are spawned until they have had `2 ^ (log n + 1)` children, and keep the last two. -/
def leaked (n D : Nat) : Nat :=
  if D ≤ Nat.log 2 n then 0
  else 2 * ((n - 2 ^ Nat.log 2 n) * ((2 ^ Nat.log 2 n - 1) / (n - 2 ^ Nat.log 2 n)))

/-- The number of rounds before the last one. -/
theorem div_eq_of_rounds {j q N : Nat} (hlt : j * q < N) (hle : N ≤ (j + 1) * q) :
    (N - 1) / q = j := by
  have hq : 0 < q := by
    rcases Nat.eq_zero_or_pos q with rfl | hq
    · omega
    · exact hq
  refine Nat.div_eq_of_lt_le ?_ ?_ <;> omega

theorem Rounds.card_live (hn : 1 ≤ n) (h : Rounds D M n f s st full P pend)
    (hend : P.any (canSpawn D st.heap) = false) :
    st.heap.live.card = treeSize n D + leaked n D := by
  have hcard := h.card_live_eq
  have hDle := h.building.depthLe
  have hpow : 2 ^ Nat.log 2 n ≤ n := Nat.pow_log_le_self 2 (by omega)
  have hzero : P.countP (canSpawn D st.heap) = 0 :=
    List.countP_eq_zero.mpr (List.any_eq_false.mp hend)
  -- above level `log n`, only the depth limit ends a build
  have hlast : ¬ (full.length < D ∧ full.length < Nat.log 2 n) := fun ⟨hD, hp⟩ => by
    have hall := List.countP_eq_length.mpr (h.building.all_spawn hn hD hp)
    rw [hzero, h.building.width] at hall
    exact absurd hall (Nat.two_pow_pos _).ne
  have hnone : full.length ≤ Nat.log 2 n → pend.length = 0 := fun hle => by
    rcases Nat.lt_or_ge full.length (Nat.log 2 n) with hlt | hge
    · rw [h.building.early hlt, List.length_nil]
    · obtain ⟨j, hj⟩ := h.waiting (le_antisymm hle hge)
      rw [hj, hzero, Nat.mul_zero]
  unfold treeSize leaked
  by_cases hD : D ≤ Nat.log 2 n
  · have hfull : full.length = D := by omega
    rw [if_pos hD, if_pos hD]
    rw [hnone (by omega), hfull] at hcard
    omega
  · rw [if_neg hD, if_neg hD]
    rcases Nat.lt_or_ge (Nat.log 2 n) full.length with hlt | hle
    · have hfull : full.length = Nat.log 2 n + 1 := le_antisymm h.building.levelLe hlt
      obtain ⟨j, hj, hpend⟩ := h.beyond hn hfull
      rw [div_eq_of_rounds hj (by rw [pow_succ] at hpend; nlinarith)]
      rw [hfull, pow_succ 2 (Nat.log 2 n + 1)] at hcard
      rw [Nat.succ_mul, ← Nat.mul_assoc, Nat.mul_comm j 2, Nat.mul_assoc, Nat.mul_comm j] at hpend
      rw [pow_succ] at hpend hcard
      omega
    · have hfull : full.length = Nat.log 2 n := by omega
      have hq := h.building.countP_spawn hn hfull (by omega)
      rw [hzero] at hq
      rw [hnone hle, hfull, pow_succ] at hcard
      rw [← hq, Nat.zero_mul]
      omega

end Rounds

end Monya.KdTree
