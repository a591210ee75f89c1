/-
  The nodes of an `NNVector` (`common/NNVector.hpp`) from the constructor to the destructor.

  Every call that takes a node off the list deletes it, and every node that is allocated goes on the
  list, so the vector has one live node per entry besides its sentinel (`Balanced`). A ring of as
  many different nodes is then all that is live, and the destructor's way round it meets every node
  once (`destroyLoop_returns`). `nodes_freed_once` says what that comes to over a history of calls.
-/
import Monya.Common.NNCache
import Monya.Lib.Owned

namespace Monya.NNVector

open Monya.Lib Monya.Lib.Ring

variable {α : Type}

/-- `delete` of a pointer; for a null pointer it does nothing. -/
def deletePtr (h : Heap (Link (IndexVal α))) : Ptr → Except Fault (Heap (Link (IndexVal α)))
  | none => .ok h
  | some a => h.delete a

/-- One pass of the destructor's loop, with `curr` and `curr_next`. -/
def destroyStep (sentinel : Nat) : Heap (Link (IndexVal α)) × Ptr × Ptr →
    Except Fault (Pass (Heap (Link (IndexVal α)) × Ptr × Ptr) (Heap (Link (IndexVal α))))
  | (h, curr, currNext) => do
      let h ← deletePtr h curr
      if currNext = some sentinel then return .done h
      else return .next (h, currNext, (← h.read (← target currNext)).next)

/-- `~NNVector`; the result is the memory that is left. -/
def destroy (fuel : Nat) (v : NNVector α) : Except Fault (Heap (Link (IndexVal α))) :=
  if v.size = 0 then v.heap.delete v.sentinel
  else do
    let curr := (← v.heap.read v.sentinel).next
    let currNext := (← v.heap.read (← target curr)).next
    let h ← loop (destroyStep v.sentinel) fuel (v.heap, curr, currNext)
    h.delete v.sentinel

/-! ## One live node per entry -/

/-- Besides the sentinel there are as many live nodes as the vector has entries. -/
def Balanced (v : NNVector α) : Prop := v.heap.live.card = v.size + 1

variable {v v' : NNVector α}

theorem balanced_new (dataMax : α) (k : Nat) : Balanced (new dataMax k) := by
  change (Heap.empty.alloc _).live.card = 0 + 1
  rw [Heap.card_live_alloc, Heap.live_empty, Finset.card_empty]

theorem Balanced.pushBack {iv : IndexVal α} {node : Nat} (hb : Balanced v)
    (h : (v.newNode iv).pushBack node = .ok v') : Balanced v' := by
  have hnew : (v.newNode iv).heap.live.card = v.size + 1 + 1 := by
    rw [← hb]
    exact Heap.card_live_alloc _ _
  unfold NNVector.pushBack at h
  split at h
  · obtain ⟨h₁, e₁, h⟩ := bind_ok h
    obtain ⟨h₂, e₂, h⟩ := bind_ok h
    obtain ⟨h₃, e₃, h⟩ := bind_ok h
    obtain ⟨h₄, e₄, h⟩ := bind_ok h
    cases h
    change h₄.live.card = v.size + 1 + 1
    rw [Heap.live_modify e₄, Heap.live_modify e₃, Heap.live_modify e₂, Heap.live_modify e₁, hnew]
  · obtain ⟨l, -, h⟩ := bind_ok h
    obtain ⟨back, -, h⟩ := bind_ok h
    obtain ⟨h₁, e₁, h⟩ := bind_ok h
    obtain ⟨h₂, e₂, h⟩ := bind_ok h
    obtain ⟨h₃, e₃, h⟩ := bind_ok h
    obtain ⟨h₄, e₄, h⟩ := bind_ok h
    cases h
    change h₄.live.card = v.size + 1 + 1
    rw [Heap.live_modify e₄, Heap.live_modify e₃, Heap.live_modify e₂, Heap.live_modify e₁, hnew]

theorem Balanced.addFirst {iv : IndexVal α} (hb : Balanced v) (h : v.addFirst iv = .ok v') :
    Balanced v' := by
  obtain ⟨h₁, e₁, h⟩ := bind_ok h
  obtain ⟨h₂, e₂, h⟩ := bind_ok h
  obtain ⟨h₃, e₃, h⟩ := bind_ok h
  obtain ⟨h₄, e₄, h⟩ := bind_ok h
  cases h
  change h₄.live.card = v.size + 1 + 1
  rw [Heap.live_modify e₄, Heap.live_modify e₃, Heap.live_modify e₂, Heap.live_modify e₁, ← hb]
  exact Heap.card_live_alloc _ _

theorem Balanced.insertBefore {curr : Nat} {iv : IndexVal α} (hb : Balanced v)
    (h : v.insertBefore curr iv = .ok v') : Balanced v' := by
  obtain ⟨l, -, h⟩ := bind_ok h
  obtain ⟨p, -, h⟩ := bind_ok h
  obtain ⟨h₁, e₁, h⟩ := bind_ok h
  obtain ⟨l', -, h⟩ := bind_ok h
  obtain ⟨h₂, e₂, h⟩ := bind_ok h
  obtain ⟨h₃, e₃, h⟩ := bind_ok h
  obtain ⟨h₄, e₄, h⟩ := bind_ok h
  cases h
  change h₄.live.card = v.size + 1 + 1
  rw [Heap.live_modify e₄, Heap.live_modify e₃, Heap.live_modify e₂, Heap.live_modify e₁, ← hb]
  exact Heap.card_live_alloc _ _

theorem Balanced.popBack (hb : Balanced v) (h : v.popBack = .ok v') : Balanced v' := by
  unfold NNVector.popBack at h
  split at h
  · cases h
    exact hb
  next hsize =>
    obtain ⟨l, -, h⟩ := bind_ok h
    obtain ⟨delnode, -, h⟩ := bind_ok h
    split at h
    · cases h
      exact hb
    · obtain ⟨l', -, h⟩ := bind_ok h
      obtain ⟨p, -, h⟩ := bind_ok h
      obtain ⟨h₁, e₁, h⟩ := bind_ok h
      obtain ⟨l₁, -, h⟩ := bind_ok h
      obtain ⟨h₂, e₂, h⟩ := bind_ok h
      obtain ⟨l₂, hread, h⟩ := bind_ok h
      cases h
      have hlive : delnode ∈ h₂.live := Heap.mem_live.mpr ⟨l₂, Heap.cell_of_read hread⟩
      change (h₂.free delnode).live.card = v.size - 1 + 1
      rw [Heap.live_free, Finset.card_erase_of_mem hlive, Heap.live_modify e₂, Heap.live_modify e₁,
        hb]
      omega

theorem Balanced.get {index : Nat} {x : IndexVal α} (hb : Balanced v)
    (h : v.get index = .ok (x, v')) : Balanced v' := by
  unfold NNVector.get at h
  split at h
  · cases h
  · obtain ⟨p, -, h⟩ := bind_ok h
    cases p with
    | none => cases h
    | some curr =>
      obtain ⟨l, -, h⟩ := bind_ok h
      cases h
      exact hb

section Calls

variable [LinearOrder α] {fuel : Nat}

theorem Balanced.eval {iv : IndexVal α} (hb : Balanced v) (h : v.eval fuel iv = .ok v') :
    Balanced v' := by
  obtain ⟨v₁, hplace, h⟩ := bind_ok h
  obtain ⟨v₂, htrim, h⟩ := bind_ok h
  cases h
  have h₁ : Balanced v₁ := by
    unfold place at hplace
    split at hplace
    · exact hb.addFirst hplace
    · obtain ⟨l, -, hplace⟩ := bind_ok hplace
      obtain ⟨p, -, hplace⟩ := bind_ok hplace
      cases p with
      | some curr => exact hb.insertBefore hplace
      | none =>
        dsimp only at hplace
        split at hplace
        · exact hb.pushBack hplace
        · cases hplace
          exact hb
  have h₂ : Balanced v₂ := by
    unfold trim at htrim
    split at htrim
    · exact h₁.popBack htrim
    · cases htrim
      exact h₁
  exact h₂

theorem Balanced.perform {call : Call α} (hb : Balanced v) (h : perform fuel v call = .ok v') :
    Balanced v' := by
  cases call with
  | eval iv => exact hb.eval h
  | popBack => exact hb.popBack h
  | get index =>
    obtain ⟨r, hget, h⟩ := bind_ok h
    cases h
    exact hb.get hget

theorem Balanced.performAll {calls : List (Call α)} (hb : Balanced v)
    (h : performAll fuel v calls = .ok v') : Balanced v' :=
  foldlM_rel (R := fun v v' => Balanced v → Balanced v') (fun _ => id)
    (fun _ _ _ h₁ h₂ hb => h₂ (h₁ hb)) (fun _ _ _ h hb => hb.perform h) h hb

end Calls

/-! ## The destructor -/

variable {as : List Nat} {xs : List (IndexVal α)}

/-- The live nodes are the sentinel and the ring. -/
theorem Accessible.live_eq (h : Accessible v as xs) (hb : Balanced v) :
    v.heap.live = (v.sentinel :: as).toFinset := by
  symm
  refine Finset.eq_of_subset_of_card_le (fun a ha => ?_) ?_
  · exact Heap.mem_live.mpr (h.ring.live (List.mem_toFinset.mp ha))
  · rw [hb, List.toFinset_card_of_nodup h.ring.nodup, List.length_cons, h.length_eq, h.size]

/-- The loop deletes the nodes in front of it, and reads no link of a node it has deleted. -/
theorem destroyLoop_returns {s : Nat} (rest : List Nat) :
    ∀ (h : Heap (Link (IndexVal α))) (a : Nat),
    (a :: rest ++ [s]).IsChain (Leads h Link.next) → (s :: a :: rest).Nodup →
    ∃ h', Returns (fun fuel => loop (destroyStep s) fuel (h, some a, (rest ++ [s]).head?)) h' ∧
      h'.cell s = h.cell s ∧ h'.live = h.live \ (a :: rest).toFinset := by
  induction rest with
  | nil =>
    intro h a hc hnd
    obtain ⟨l, hl, -⟩ := leads_head hc
    have hne : s ≠ a := fun he => by simp [he] at hnd
    refine ⟨h.free a, returns_done ?_, h.free_cell_ne hne, ?_⟩
    · simp [destroyStep, deletePtr, Heap.delete_ok hl, ok_bind, pure_ok]
    · rw [Heap.live_free, List.toFinset_cons, List.toFinset_nil, Finset.sdiff_insert,
        Finset.sdiff_empty]
  | cons b rest ih =>
    intro h a hc hnd
    obtain ⟨l, hl, -⟩ := leads_head hc
    obtain ⟨hsa, hnd'⟩ := List.nodup_cons.mp hnd
    obtain ⟨ha, hnd'⟩ := List.nodup_cons.mp hnd'
    have hne : s ≠ a := fun he => hsa (he ▸ List.mem_cons_self)
    have hsb : b ≠ s := fun he => hsa (he ▸ by simp)
    -- the nodes still to come keep their links
    have hc₁ : (b :: rest ++ [s]).IsChain (Leads (h.free a) Link.next) := by
      refine hc.tail.imp_of_mem_imp fun c d hmem _ hcd => ?_
      obtain ⟨l', hl', hnext⟩ := hcd
      have hca : c ≠ a := by
        rcases List.mem_append.mp hmem with hm | hm
        · exact fun he => ha (he ▸ hm)
        · exact fun he => hne (List.mem_singleton.mp hm ▸ he)
      refine ⟨l', Heap.read_ok ?_, hnext⟩
      rw [h.free_cell_ne hca, Heap.cell_of_read hl']
    obtain ⟨lb, hlb, hnext⟩ := leads_head hc₁
    obtain ⟨h', hret, hs, hlive⟩ := ih (h.free a) b hc₁
      (List.nodup_cons.mpr ⟨fun hm => hsa (List.mem_cons_of_mem a hm), hnd'⟩)
    refine ⟨h', returns_next ?_ hret, hs.trans (h.free_cell_ne hne), ?_⟩
    · simp only [destroyStep, deletePtr, Heap.delete_ok hl, ok_bind,
        List.cons_append, List.head?_cons, Option.some.injEq, hsb, if_false, target_some,
        Heap.read_ok hlb, hnext, pure_ok]
    · rw [hlive, Heap.live_free, List.toFinset_cons (a := a), Finset.sdiff_insert,
        Finset.erase_sdiff_comm]

/-- The destructor of a vector with one live node per entry deletes every node. -/
theorem Accessible.destroy_returns (h : Accessible v as xs) (hb : Balanced v) :
    ∃ h', Returns (fun fuel => destroy fuel v) h' ∧ h'.live = ∅ := by
  have hlive := h.live_eq hb
  obtain ⟨ls, hls⟩ := h.ring.live (List.mem_cons_self (a := v.sentinel) (l := as))
  cases as with
  | nil =>
    have hsize : v.size = 0 := by rw [h.size, ← h.length_eq, List.length_nil]
    refine ⟨v.heap.free v.sentinel, ⟨0, fun fuel _ => ?_⟩, ?_⟩
    · simp only [destroy, hsize, if_true, Heap.delete_ok hls]
    · rw [Heap.live_free, hlive, List.toFinset_cons, List.toFinset_nil, Finset.erase_insert]
      exact Finset.notMem_empty _
  | cons a as =>
    have hsize : v.size ≠ 0 := by
      rw [h.size, ← h.length_eq, List.length_cons]
      exact Nat.succ_ne_zero _
    have hc : (v.sentinel :: a :: as ++ [v.sentinel]).IsChain (Leads v.heap Link.next) :=
      h.ring.chain.imp fun _ _ hab => read_next hab.1
    have hc₁ : (a :: as ++ [v.sentinel]).IsChain (Leads v.heap Link.next) := hc.tail
    obtain ⟨l, hl, hnext⟩ := leads_head hc
    obtain ⟨la, hla, hnexta⟩ := leads_head hc₁
    obtain ⟨h₁, hret, hs, hlive₁⟩ := destroyLoop_returns as v.heap a hc₁ h.ring.nodup
    refine ⟨h₁.free v.sentinel, ?_, ?_⟩
    · refine (hret.bind (g := fun _ h => h.delete v.sentinel) (c := h₁.free v.sentinel) ?_).of_eq
        fun fuel => ?_
      · rw [Heap.delete_ok (hs.trans hls)]
        exact .pure _
      · simp only [destroy, hsize, if_false, Heap.read_ok hl, ok_bind, hnext, List.cons_append,
          List.head?_cons, target_some, Heap.read_ok hla, hnexta]
    · rw [Heap.live_free, hlive₁, hlive, List.toFinset_cons (a := v.sentinel)]
      ext b
      simp only [Finset.mem_erase, Finset.mem_sdiff, Finset.mem_insert, Finset.notMem_empty,
        iff_false]
      tauto

/-- From the constructor over any history of `eval`, `pop_back` and `operator[]` with indexes in
    range to the destructor, no call reads or deletes a node that has been deleted, and at the end
    every node that was allocated has been deleted. -/
theorem nodes_freed_once [LinearOrder α] (dataMax : α) (k : Nat) (calls : List (Call α))
    (hin : InRange dataMax k calls) :
    ∃ v h, Returns (fun fuel => performAll fuel (new dataMax k) calls) v ∧
      Returns (fun fuel => destroy fuel v) h ∧ ∀ a, h.cell a = none := by
  obtain ⟨v, as, hret, -, hacc⟩ := performAll_returns hin
  obtain ⟨N, hN⟩ := hret
  have hb : Balanced v := (balanced_new dataMax k).performAll (hN N le_rfl)
  obtain ⟨h, hdel, hlive⟩ := hacc.destroy_returns hb
  exact ⟨v, h, ⟨N, hN⟩, hdel, Heap.live_eq_empty.mp hlive⟩

/-- Room for two: a new entry pushes one out, and a `pop_back` leaves one for the destructor. -/
theorem nodes_freed_once_mixed :
    ∃ v h, Returns (fun fuel => performAll fuel (new 9 2)
        [.eval ⟨0, 4⟩, .eval ⟨1, 2⟩, .eval ⟨2, 3⟩, .get 1, .popBack]) v ∧
      Returns (fun fuel => destroy fuel v) h ∧ ∀ a, h.cell a = none := by
  refine nodes_freed_once 9 2 _ (inRange_of_entries 9 fun pre i post h => ?_)
  rcases pre with _ | ⟨a, _ | ⟨b, _ | ⟨c, _ | ⟨d, _ | ⟨e, pre⟩⟩⟩⟩⟩ <;> simp at h
  obtain ⟨rfl, rfl, rfl, rfl, -⟩ := h
  decide

end Monya.NNVector
