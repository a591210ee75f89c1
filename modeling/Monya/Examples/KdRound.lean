/-
  One round of `build`, from a state where the levels `full` have been run and `pend` waits for its
  level to fill up (`Levels`).

  The first loop spawns the nodes of the last full level that are not leaves (`SpawnedAll`), and
  the second schedules their children. Either the level being filled stays short of its
  `2 ^ full.length` nodes (`scheduleRound_pend`) or it is run and the children left over start the
  next one (`scheduleRound_full`).
-/
import Monya.Examples.KdInvariant

namespace Monya.KdTree

open Monya.Lib Monya.Structures KdNode

section Children

variable {α : Type} [LinearOrder α] {M : Nat → Nat → α} {n f D : Nat} {h : Heap (KdNode α)}

/-- The number of samples of a node. -/
def sizeAt (h : Heap (KdNode α)) (x : Nat) : Nat :=
  match h.cell x with
  | some k => k.size
  | none => 0

omit [LinearOrder α] in
theorem sizeAt_eq {x : Nat} {k : KdNode α} (hk : h.cell x = some k) : sizeAt h x = k.size := by
  simp only [sizeAt, hk]

omit [LinearOrder α] in
theorem Keeps.sizeAt {h' : Heap (KdNode α)} (hkeep : Keeps h h') {x : Nat} {k : KdNode α}
    (hk : h.cell x = some k) : sizeAt h' x = sizeAt h x := by
  obtain ⟨k', hk', hs⟩ := hkeep x k hk
  rw [sizeAt_eq hk, sizeAt_eq hk', hs.size]

omit [LinearOrder α] in
theorem Childless.kids {x : Nat} {k : KdNode α} (hc : Childless k) (hk : h.cell x = some k) :
    kids h x = [] := by
  rw [kids_eq hk, hc.1, hc.2]
  rfl

theorem Parent.kids {x l r : Nat} {k : KdNode α} (hp : Parent M f D x h k l r)
    (hk : h.cell x = some k) : kids h x = [l, r] := by
  rw [kids_eq hk, hp.left, hp.right]
  rfl

/-- A child and its parent. -/
theorem HeapOk.child (h₀ : HeapOk M n f D h) {x a : Nat} (ha : a ∈ kids h x) :
    ∃ k c, h.cell x = some k ∧ h.cell a = some c ∧ 1 < k.size ∧ k.depth < D ∧ Trained M k ∧
      ∃ ids, ChildOk f x k ids a c ∧
        (ids = k.ids.take (k.size / 2) ∨ ids = k.ids.drop (k.size / 2)) := by
  cases hk : h.cell x with
  | none => simp [KdTree.kids, hk] at ha
  | some k =>
    rcases h₀.links x k hk with hc | ⟨l, r, hp⟩
    · rw [hc.kids hk] at ha
      cases ha
    · rw [hp.kids hk] at ha
      obtain ⟨cl, hcl, hl⟩ := hp.leftOk
      obtain ⟨cr, hcr, hr⟩ := hp.rightOk
      rcases List.mem_pair.mp ha with rfl | rfl
      · exact ⟨k, cl, rfl, hcl, hp.size, hp.depth, hp.trained, _, hl, Or.inl rfl⟩
      · exact ⟨k, cr, rfl, hcr, hp.size, hp.depth, hp.trained, _, hr, Or.inr rfl⟩

theorem HeapOk.child_size (h₀ : HeapOk M n f D h) {x a : Nat} (ha : a ∈ kids h x) :
    sizeAt h a = sizeAt h x / 2 ∨ sizeAt h a = sizeAt h x - sizeAt h x / 2 := by
  obtain ⟨k, c, hk, hc, -, -, -, ids, hco, hids⟩ := h₀.child ha
  have hlen : c.size = ids.length := by rw [← length_ids, hco.ids.length_eq]
  rw [sizeAt_eq hk, sizeAt_eq hc, hlen]
  rcases hids with rfl | rfl
  · left
    rw [List.length_take, length_ids]
    omega
  · right
    rw [List.length_drop, length_ids]

/-- Two nodes have no child in common. -/
theorem HeapOk.kids_disjoint (h₀ : HeapOk M n f D h) {x y a : Nat} (hx : a ∈ kids h x)
    (hy : a ∈ kids h y) : x = y := by
  obtain ⟨_, c, _, hc, _, _, _, _, hco, _⟩ := h₀.child hx
  obtain ⟨_, c', _, hc', _, _, _, _, hco', _⟩ := h₀.child hy
  cases hc.symm.trans hc'
  exact Option.some.inj (hco.viewParent.symm.trans hco'.viewParent)

theorem HeapOk.kids_nodup (h₀ : HeapOk M n f D h) (x : Nat) : (kids h x).Nodup := by
  cases hk : h.cell x with
  | none => simp [KdTree.kids, hk]
  | some k =>
    rcases h₀.links x k hk with hc | ⟨l, r, hp⟩
    · rw [hc.kids hk]
      exact List.nodup_nil
    · rw [hp.kids hk]
      simpa using hp.ne

theorem HeapOk.flatMap_kids_nodup (h₀ : HeapOk M n f D h) {P : List Nat} (hP : P.Nodup) :
    (P.flatMap (kids h)).Nodup := by
  rw [List.nodup_flatMap]
  refine ⟨fun x _ => h₀.kids_nodup x, hP.imp fun {x y} hne a hx hy => ?_⟩
  exact hne (h₀.kids_disjoint hx hy)

/-- The samples of a node that has children go to the children. -/
theorem HeapOk.sum_kids (h₀ : HeapOk M n f D h) {x : Nat} (hx : kids h x ≠ []) :
    ((kids h x).map (sizeAt h)).sum = sizeAt h x := by
  cases hk : h.cell x with
  | none => simp [KdTree.kids, hk] at hx
  | some k =>
    rcases h₀.links x k hk with hc | ⟨l, r, hp⟩
    · exact absurd (hc.kids hk) hx
    · obtain ⟨cl, hcl, hl⟩ := hp.leftOk
      obtain ⟨cr, hcr, hr⟩ := hp.rightOk
      have hsl : cl.size = k.size / 2 := by
        rw [← length_ids, hl.ids.length_eq, List.length_take, length_ids]
        omega
      have hsr : cr.size = k.size - k.size / 2 := by
        rw [← length_ids, hr.ids.length_eq, List.length_drop, length_ids]
      rw [hp.kids hk, sizeAt_eq hk]
      simp only [List.map_cons, List.map_nil, List.sum_cons, List.sum_nil, sizeAt_eq hcl,
        sizeAt_eq hcr]
      omega

end Children

/-! ## After the first loop -/

section Spawned

variable {α : Type} [LinearOrder α] {M : Nat → Nat → α} {n f D : Nat} {P : List Nat}
  {st st₁ : TreeState α}

/-- A node that was spawned has two new children. -/
theorem SpawnedAll.kids_spawned (h : SpawnedAll M n f D P st st₁) {x : Nat} (hx : x ∈ P)
    (hs : canSpawn D st.heap x = true) :
    ∃ l r, kids st₁.heap x = [l, r] ∧ st.heap.brk ≤ l ∧ st.heap.brk ≤ r := by
  cases hk : st.heap.cell x with
  | none => simp [canSpawn, hk] at hs
  | some k =>
    obtain ⟨l, r, hc, hl, hr⟩ := h.spawned x (List.mem_filter.mpr ⟨hx, hs⟩) k hk
    exact ⟨l, r, kids_eq hc, hl, hr⟩

/-- A node that was not spawned has no children: it would have been spawned otherwise. -/
theorem SpawnedAll.kids_idle (h : SpawnedAll M n f D P st st₁) {x : Nat} {k : KdNode α}
    (hk : st.heap.cell x = some k) (hs : canSpawn D st.heap x = false) :
    kids st₁.heap x = [] := by
  have hc : st₁.heap.cell x = some k :=
    (h.same x (st.heap.lt_brk hk) fun hm => by simp [hs] at hm).trans hk
  rcases h.heapOk.links x k hc with hcl | ⟨l, r, hp⟩
  · exact hcl.kids hc
  · rw [(canSpawn_cell hk).mpr ⟨hp.depth, hp.size⟩] at hs
    cases hs

theorem SpawnedAll.new_of_kid (h : SpawnedAll M n f D P st st₁)
    (hP : ∀ x ∈ P, ∃ k, st.heap.cell x = some k) {a : Nat} (ha : a ∈ P.flatMap (kids st₁.heap)) :
    st.heap.brk ≤ a ∧ ∃ c, st₁.heap.cell a = some c ∧ c.depth ≠ 0 ∧ Childless c := by
  obtain ⟨x, hx, hax⟩ := List.mem_flatMap.mp ha
  have hge : st.heap.brk ≤ a := by
    by_cases hs : canSpawn D st.heap x = true
    · obtain ⟨l, r, hkids, hl, hr⟩ := h.kids_spawned hx hs
      rw [hkids] at hax
      rcases List.mem_pair.mp hax with rfl | rfl
      · exact hl
      · exact hr
    · obtain ⟨k, hk⟩ := hP x hx
      rw [h.kids_idle hk (Bool.eq_false_iff.mpr hs)] at hax
      cases hax
  obtain ⟨_, c, _, hc, _⟩ := h.heapOk.child hax
  obtain ⟨hcl, hd, -⟩ := h.new a c hge hc
  exact ⟨hge, c, hc, hd, hcl⟩

theorem SpawnedAll.length_kids (h : SpawnedAll M n f D P st st₁)
    (hP : ∀ x ∈ P, ∃ k, st.heap.cell x = some k) :
    (P.flatMap (kids st₁.heap)).length = 2 * P.countP (canSpawn D st.heap) := by
  suffices hs : ∀ Q, Q ⊆ P → (Q.flatMap (kids st₁.heap)).length = 2 * Q.countP (canSpawn D st.heap)
    from hs P (List.Subset.refl P)
  intro Q hQ
  induction Q with
  | nil => rfl
  | cons x Q ih =>
    have ih := ih fun y hy => hQ (List.mem_cons_of_mem _ hy)
    have hx := hQ List.mem_cons_self
    rw [List.flatMap_cons, List.length_append, ih, List.countP_cons]
    by_cases hs : canSpawn D st.heap x = true
    · obtain ⟨l, r, hkids, -⟩ := h.kids_spawned hx hs
      rw [hkids, if_pos hs]
      simp only [List.length_cons, List.length_nil]
      omega
    · obtain ⟨k, hk⟩ := hP x hx
      rw [h.kids_idle hk (Bool.eq_false_iff.mpr hs), if_neg hs]
      simp

end Spawned

/-! ## The levels -/

/-- The levels in `full` have been run, and the nodes in `pend` are waiting. -/
structure Levels {α : Type} [LinearOrder α] (M : Nat → Nat → α) (n f D : Nat) (st : TreeState α)
    (full : List (List Nat)) (pend : List Nat) : Prop where
  heapOk : HeapOk M n f D st.heap
  nodup : (full.flatten ++ pend).Nodup
  trained : ∀ x ∈ full.flatten, ∃ k, st.heap.cell x = some k ∧ Trained M k
  pending : ∀ x ∈ pend, ∃ k, st.heap.cell x = some k ∧ k.depth ≠ 0 ∧ Childless k

section Levels

variable {α : Type} [LinearOrder α] {env : KdEnv α} {M : Nat → Nat → α} {n f D : Nat}
  {colwise : Bool} {P : List Nat} {st st₁ : TreeState α} {full : List (List Nat)} {pend : List Nat}

theorem Levels.cell (h : Levels M n f D st full pend) (hP : P ∈ full) {x : Nat} (hx : x ∈ P) :
    ∃ k, st.heap.cell x = some k ∧ Trained M k :=
  h.trained x (List.mem_flatten_of_mem hP hx)

theorem Levels.lt_brk (h : Levels M n f D st full pend) {x : Nat} (hx : x ∈ full.flatten ++ pend) :
    x < st.heap.brk := by
  rcases List.mem_append.mp hx with hx | hx
  · obtain ⟨k, hk, -⟩ := h.trained x hx
    exact st.heap.lt_brk hk
  · obtain ⟨k, hk, -⟩ := h.pending x hx
    exact st.heap.lt_brk hk

/-- After the first loop, the new children can join the waiting nodes. -/
theorem Levels.spawnedAll (h : Levels M n f D st full pend) (hP : P ∈ full)
    (hs : SpawnedAll M n f D P st st₁) (hPn : P.Nodup) :
    Levels M n f D st₁ full (pend ++ P.flatMap (kids st₁.heap)) := by
  have hcell : ∀ x ∈ P, ∃ k, st.heap.cell x = some k := fun x hx => by
    obtain ⟨k, hk, -⟩ := h.cell hP hx
    exact ⟨k, hk⟩
  refine ⟨hs.heapOk, ?_, fun x hx => ?_, fun x hx => ?_⟩
  · rw [← List.append_assoc]
    refine List.nodup_append.mpr ⟨h.nodup, hs.heapOk.flatMap_kids_nodup hPn, ?_⟩
    rintro a ha b hb rfl
    have := h.lt_brk ha
    have := (hs.new_of_kid hcell hb).1
    omega
  · obtain ⟨k, hk, ht⟩ := h.trained x hx
    by_cases hm : x ∈ P.filter (canSpawn D st.heap)
    · obtain ⟨l, r, hc, -⟩ := hs.spawned x hm k hk
      exact ⟨_, hc, ht.vals, ht.sorted, ht.median⟩
    · exact ⟨k, (hs.same x (st.heap.lt_brk hk) hm).trans hk, ht⟩
  · rcases List.mem_append.mp hx with hx | hx
    · obtain ⟨k, hk, hd, hc⟩ := h.pending x hx
      refine ⟨k, (hs.same x (st.heap.lt_brk hk) fun hm => ?_).trans hk, hd, hc⟩
      -- a waiting node is not in a full level
      exact (List.nodup_append.mp h.nodup).2.2 x
        (List.mem_flatten_of_mem hP (List.mem_filter.mp hm).1) x hx rfl
    · exact (hs.new_of_kid hcell hx).2

/-- After a level has been run. -/
theorem Levels.trainedAll {ys zs : List Nat} (h : Levels M n f D st full (ys ++ zs))
    (ht : TrainedAll M n f D ys st st₁) : Levels M n f D st₁ (full ++ [ys]) zs := by
  have hnodup : (full.flatten ++ (ys ++ zs)).Nodup := h.nodup
  have hys : ∀ x ∈ full.flatten ++ zs, x ∉ ys := by
    intro x hx hy
    rcases List.mem_append.mp hx with hx | hx
    · exact (List.nodup_append.mp hnodup).2.2 x hx x (List.mem_append_left _ hy) rfl
    · exact (List.nodup_append.mp (List.nodup_append.mp hnodup).2.1).2.2 x hy x hx rfl
  refine ⟨ht.heapOk, ?_, fun x hx => ?_, fun x hx => ?_⟩
  · simpa using hnodup
  · rw [List.flatten_append, List.flatten_singleton, List.mem_append] at hx
    rcases hx with hx | hx
    · rw [ht.same x (hys x (List.mem_append_left _ hx))]
      exact h.trained x hx
    · obtain ⟨_, k', _, hk', _, htr⟩ := ht.trained x hx
      exact ⟨k', hk', htr⟩
  · rw [ht.same x (hys x (List.mem_append_right _ hx))]
    exact h.pending x (List.mem_append_right _ hx)

end Levels

/-! ## A round -/

section Round

variable {α : Type} [LinearOrder α] [Zero α] {env : KdEnv α} {M : Nat → Nat → α} {n f : Nat}
  {colwise : Bool} {P : List Nat} {st : TreeState α} {full : List (List Nat)} {pend : List Nat}
  {s : Scheduler}

theorem buildStep_eq (hat : s.At (full ++ [P]) pend) (hp : full.length ≤ env.maxDepth)
    {st₁ : TreeState α} {b : Bool}
    (hspawn : P.foldlM (spawnStep env) (st, false) = .ok (st₁, b)) :
    buildStep env (s, st) =
      if full.length = env.maxDepth ∨ b = false then .ok (.done (s, st₁))
      else P.foldlM (scheduleChildren env) (s, st₁) >>= fun s => .ok (.next s) := by
  have hlevel : s.currentLevel - 1 = full.length := by
    rw [hat.level, List.length_append, List.length_singleton, Nat.add_sub_cancel]
  have hnodes : s.getNodes full.length = .ok P := by
    rw [hat.getNodes (by simp)]
    simp
  simp only [buildStep, hlevel]
  rw [if_neg (not_not.mpr hp), hnodes, ok_bind, hspawn, ok_bind]
  rfl

variable {st₁ : TreeState α}

omit [Zero α] in
/-- The children fit into the level being filled and do not fill it. -/
theorem scheduleRound_pend (hat : s.At (full ++ [P]) pend) (hfan : s.fanout = 2)
    (hl : Levels M n f env.maxDepth st₁ (full ++ [P]) (pend ++ P.flatMap (kids st₁.heap)))
    (hlt : pend.length + (P.flatMap (kids st₁.heap)).length < 2 ^ (full.length + 1)) :
    ∃ s', P.foldlM (scheduleChildren env) (s, st₁) = .ok (s', st₁) ∧ s'.fanout = 2 ∧
      s'.At (full ++ [P]) (pend ++ P.flatMap (kids st₁.heap)) := by
  have hcell : ∀ x ∈ P, ∃ k, st₁.heap.cell x = some k := fun x hx => by
    obtain ⟨k, hk, -⟩ := hl.cell (P := P) (by simp) hx
    exact ⟨k, hk⟩
  obtain ⟨s', hrun, hf', hat'⟩ := Scheduler.scheduleAll_pend (train env) hat
    (P.flatMap (kids st₁.heap)) (by rw [hfan]; simpa using hlt) st₁
  refine ⟨s', ?_, hf'.trans hfan, hat'⟩
  rw [scheduleAllChildren_eq hcell]
  exact hrun

omit [Zero α] in
/-- The children `ys` fill the level, which is run, and `zs` is left for the next one. -/
theorem scheduleRound_full (henv : env.io = .ofMatrix M n f colwise) (hn : 1 ≤ n)
    (hn' : n < 2 ^ 32) (hat : s.At (full ++ [P]) pend) (hfan : s.fanout = 2)
    (hl : Levels M n f env.maxDepth st₁ (full ++ [P]) (pend ++ P.flatMap (kids st₁.heap)))
    {ys zs : List Nat} (hC : P.flatMap (kids st₁.heap) = ys ++ zs) (hys : ys ≠ [])
    (heq : pend.length + ys.length = 2 ^ (full.length + 1))
    (hzs : zs.length < 2 ^ (full.length + 2)) :
    ∃ s' st₂, P.foldlM (scheduleChildren env) (s, st₁) = .ok (s', st₂) ∧ s'.fanout = 2 ∧
      s'.At (full ++ [P] ++ [pend ++ ys]) zs ∧
      TrainedAll M n f env.maxDepth (pend ++ ys) st₁ st₂ ∧
      Levels M n f env.maxDepth st₂ (full ++ [P] ++ [pend ++ ys]) zs := by
  have hcell : ∀ x ∈ P, ∃ k, st₁.heap.cell x = some k := fun x hx => by
    obtain ⟨k, hk, -⟩ := hl.cell (P := P) (by simp) hx
    exact ⟨k, hk⟩
  rw [hC, ← List.append_assoc] at hl
  have hnodup := (List.nodup_append.mp (List.nodup_append.mp hl.nodup).2.1).1
  obtain ⟨st₂, hrun, htr⟩ := trainAll_ok henv hn hn' hnodup hl.heapOk fun x hx =>
    hl.pending x (List.mem_append_left _ hx)
  obtain ⟨s', hsch, hf', hat'⟩ := Scheduler.scheduleAll_full (train env) hat ys zs hys
    (by rw [hfan]; simpa using heq) (by rw [hfan]; simpa using hzs) hrun
  refine ⟨s', st₂, ?_, hf'.trans hfan, hat', htr, hl.trainedAll htr⟩
  rw [scheduleAllChildren_eq hcell, hC]
  exact hsch

end Round

end Monya.KdTree
