/-
  When `Scheduler::schedule` runs a level (`structures/Scheduler.cpp`).

  `scheduleWith` leaves open what `run_level` does: it is given the number of the level and the
  scheduler as it is by then, with `current_level` already advanced. `schedule` is the case in which
  it trains the nodes (`schedule_eq`). With `record`, which only writes the call down, the calls can
  be counted: `levels_in_order` has the sizes of the levels and the order of the calls after any
  number of nodes, for every fanout. What `run_level` does makes no difference to either
  (`lists_of_any_run`).
-/
import Monya.Structures.Scheduler

namespace Monya.Structures

open Monya.Lib

namespace Scheduler

variable {σ : Type}

/-- `schedule`, for any `run_level`. -/
def scheduleWith (run : Nat → Scheduler → σ → Except Fault σ) (node : Nat) (s : Scheduler × σ) :
    Except Fault (Scheduler × σ) := do
  let sched := s.1.push node
  let level ← sched.getNodes sched.currentLevel
  if sched.fanout ^ sched.currentLevel = level.length then
    let sched := { sched with currentLevel := sched.currentLevel + 1 }
    return (sched, ← run (sched.currentLevel - 1) sched s.2)
  else return (sched, s.2)

/-- The calls of `run_level`, each with the scheduler at that time. -/
def record (level : Nat) (s : Scheduler) (calls : List (Nat × Scheduler)) :
    Except Fault (List (Nat × Scheduler)) := .ok (calls ++ [(level, s)])

theorem schedule_eq (train : Nat → σ → Except Fault σ) :
    schedule train =
      scheduleWith (fun level s st => s.getNodes level >>= fun xs => runLevel train xs st) := by
  funext node s
  simp only [schedule, scheduleWith, Nat.add_sub_cancel]
  -- `current_level` is not among what `get_nodes` reads
  have hget : ({ s.1.push node with currentLevel := (s.1.push node).currentLevel + 1 } :
      Scheduler).getNodes (s.1.push node).currentLevel =
        (s.1.push node).getNodes (s.1.push node).currentLevel := rfl
  rw [hget]
  cases (s.1.push node).getNodes (s.1.push node).currentLevel with
  | error e => rfl
  | ok level => rfl

/-- The level lists and the calls do not depend on what `run_level` does. -/
theorem lists_of_any_run (run : Nat → Scheduler → σ → Except Fault σ) {xs : List Nat}
    {s s' : Scheduler} {st st' : σ}
    (h : xs.foldlM (fun s x => scheduleWith run x s) (s, st) = .ok (s', st'))
    (calls : List (Nat × Scheduler)) :
    ∃ calls', xs.foldlM (fun s x => scheduleWith record x s) (s, calls) = .ok (s', calls') := by
  induction xs generalizing s st calls with
  | nil =>
    cases h
    exact ⟨calls, rfl⟩
  | cons x xs ih =>
    rw [List.foldlM_cons] at h
    obtain ⟨⟨s₁, st₁⟩, h₁, h₂⟩ := bind_ok h
    unfold scheduleWith at h₁
    obtain ⟨level, hlevel, h₁⟩ := bind_ok h₁
    have hstep : ∃ calls₁, scheduleWith record x (s, calls) = .ok (s₁, calls₁) := by
      unfold scheduleWith
      simp only [hlevel, ok_bind]
      split at h₁
      · next hfull =>
        obtain ⟨st₂, -, h₁⟩ := bind_ok h₁
        cases h₁
        exact ⟨_, by rw [if_pos hfull]; rfl⟩
      · next hfull =>
        cases h₁
        exact ⟨calls, by rw [if_neg hfull]; rfl⟩
    obtain ⟨calls₁, hcalls⟩ := hstep
    obtain ⟨calls', h'⟩ := ih h₂ calls₁
    exact ⟨calls', by rw [List.foldlM_cons, hcalls, ok_bind, h']⟩

/-! ## After any number of nodes -/

/-- The nodes `xs` have been scheduled and `calls` made. -/
structure Filled (f : Nat) (xs : List Nat) (full : List (List Nat)) (pend : List Nat)
    (s : Scheduler) (calls : List (Nat × Scheduler)) : Prop where
  at_ : At s full pend
  fanout : s.fanout = f
  sizes : ∀ l, (h : l < full.length) → full[l].length = f ^ l
  room : pend.length < f ^ full.length
  order : full.flatten ++ pend = xs
  made : calls.map Prod.fst = List.range full.length
  ready : ∀ p ∈ calls, ∃ nodes, p.2.nodes[p.1]? = some nodes ∧ nodes.length = f ^ p.1

variable {f : Nat} {xs : List Nat} {full : List (List Nat)} {pend : List Nat} {s : Scheduler}
variable {calls : List (Nat × Scheduler)}

/-- One more node. -/
theorem Filled.schedule (hf : 1 ≤ f) (h : Filled f xs full pend s calls) (x : Nat) :
    ∃ full' pend' s' calls', scheduleWith record x (s, calls) = .ok (s', calls') ∧
      Filled f (xs ++ [x]) full' pend' s' calls' := by
  have hp := h.at_.push x
  have hlevel := hp.getNodes_pend (by simp)
  have hlen : (pend ++ [x]).length = pend.length + 1 := by simp
  have hpow : (s.push x).fanout ^ (s.push x).currentLevel = f ^ full.length := by
    rw [push_fanout, h.fanout, hp.level]
  have hroom := h.room
  by_cases hfull : f ^ full.length = pend.length + 1
  · -- the node fills the level, which is then run
    let s' : Scheduler := { s.push x with currentLevel := full.length + 1 }
    have hat : At s' (full ++ [pend ++ [x]]) [] := by
      refine ⟨?_, ?_⟩
      · simp [s']
      · simp [s', hp.nodes]
    have hnode : s'.nodes[full.length]? = some (pend ++ [x]) := by
      rw [hat.nodes]
      simp
    have hlength : (full ++ [pend ++ [x]]).length = full.length + 1 := by simp
    refine ⟨full ++ [pend ++ [x]], [], s', calls ++ [(full.length, s')], ?_, hat,
      (push_fanout s x).trans h.fanout, ?_, ?_, ?_, ?_, ?_⟩
    · unfold scheduleWith
      simp only [hlevel, ok_bind]
      rw [if_pos (by rw [hpow, hlen, hfull]), Nat.add_sub_cancel, hp.level]
      rfl
    · intro l hl
      rcases Nat.lt_or_ge l full.length with hlt | hge
      · rw [List.getElem_append_left hlt]
        exact h.sizes l hlt
      · have heq : l = full.length := by omega
        subst heq
        simp [hfull]
    · rw [hlength]
      exact Nat.pow_pos hf
    · rw [← h.order]
      simp
    · rw [List.map_append, h.made, hlength, List.range_succ]
      rfl
    · intro p hmem
      rcases List.mem_append.mp hmem with hmem | hmem
      · exact h.ready p hmem
      · rw [List.mem_singleton.mp hmem]
        exact ⟨pend ++ [x], hnode, by rw [hlen, hfull]⟩
  · refine ⟨full, pend ++ [x], s.push x, calls, ?_, hp, (push_fanout s x).trans h.fanout,
      h.sizes, ?_, ?_, h.made, h.ready⟩
    · unfold scheduleWith
      simp only [hlevel, ok_bind]
      rw [if_neg (by rw [hpow, hlen]; exact hfull)]
      rfl
    · rw [hlen]
      omega
    · rw [← List.append_assoc, h.order]

theorem filled_new (hf : 1 ≤ f) : Filled f [] [] [] (new f) [] where
  at_ := at_new f
  fanout := rfl
  sizes l hl := absurd hl (Nat.not_lt_zero l)
  room := Nat.pow_pos hf
  order := rfl
  made := rfl
  ready _ hp := absurd hp List.not_mem_nil

/-- Any number of nodes. -/
theorem filled_all (hf : 1 ≤ f) (xs : List Nat) :
    ∃ full pend s calls,
      xs.foldlM (fun s x => scheduleWith record x s) (new f, []) = .ok (s, calls) ∧
      Filled f xs full pend s calls := by
  induction xs using List.reverseRecOn with
  | nil => exact ⟨[], [], new f, [], rfl, filled_new hf⟩
  | append_singleton xs x ih =>
    obtain ⟨full, pend, s, calls, hrun, h⟩ := ih
    obtain ⟨full', pend', s', calls', hstep, h'⟩ := h.schedule hf x
    refine ⟨full', pend', s', calls', ?_, h'⟩
    rw [List.foldlM_append, hrun, ok_bind, List.foldlM_cons, hstep]
    rfl

/-- After any calls of `schedule`, with any fanout: the levels before the current one are full, the
    current one is not, there are no others, together they are the scheduled nodes in order, and
    `run_level` has been called once for each full level, in order, when the level was full. -/
theorem levels_in_order (f : Nat) (hf : 1 ≤ f) (xs : List Nat) :
    ∃ s calls, xs.foldlM (fun s x => scheduleWith record x s) (new f, []) = .ok (s, calls) ∧
      (∀ l, l < s.currentLevel → ∃ nodes, s.nodes[l]? = some nodes ∧ nodes.length = f ^ l) ∧
      (∀ nodes, s.nodes[s.currentLevel]? = some nodes → nodes.length < f ^ s.currentLevel) ∧
      s.nodes.length ≤ s.currentLevel + 1 ∧
      s.nodes.flatten = xs ∧
      calls.map Prod.fst = List.range s.currentLevel ∧
      ∀ p ∈ calls, ∃ nodes, p.2.nodes[p.1]? = some nodes ∧ nodes.length = f ^ p.1 := by
  obtain ⟨full, pend, s, calls, hrun, h⟩ := filled_all hf xs
  have hnodes := h.at_.nodes
  refine ⟨s, calls, hrun, ?_, ?_, ?_, ?_, ?_, h.ready⟩
  · intro l hl
    rw [h.at_.level] at hl
    refine ⟨full[l], ?_, h.sizes l hl⟩
    rw [hnodes, List.getElem?_append_left hl, List.getElem?_eq_getElem hl]
  · intro nodes hn
    rw [hnodes, h.at_.level, List.getElem?_append_right (le_refl _), Nat.sub_self] at hn
    split at hn
    · cases hn
    · cases hn
      rw [h.at_.level]
      exact h.room
  · rw [hnodes, h.at_.level, List.length_append]
    split <;> simp
  · rw [hnodes, ← h.order, List.flatten_append]
    split
    · next hp => rw [hp]; rfl
    · simp
  · rw [h.made, h.at_.level]

/-- Four nodes with fanout two: the second level is full, and was run after the first. -/
theorem levels_in_order_four : 1 ≤ 2 ∧
    ∃ s calls, [7, 8, 9, 10].foldlM (fun s x => scheduleWith record x s) (new 2, []) =
        .ok (s, calls) ∧
      (∀ l, l < s.currentLevel → ∃ nodes, s.nodes[l]? = some nodes ∧ nodes.length = 2 ^ l) ∧
      (∀ nodes, s.nodes[s.currentLevel]? = some nodes → nodes.length < 2 ^ s.currentLevel) ∧
      s.nodes.length ≤ s.currentLevel + 1 ∧
      s.nodes.flatten = [7, 8, 9, 10] ∧
      calls.map Prod.fst = List.range s.currentLevel ∧
      ∀ p ∈ calls, ∃ nodes, p.2.nodes[p.1]? = some nodes ∧ nodes.length = 2 ^ p.1 :=
  ⟨by decide, levels_in_order 2 (by decide) [7, 8, 9, 10]⟩

end Scheduler

end Monya.Structures
