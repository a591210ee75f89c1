/-
  Circular doubly linked lists with a sentinel.

  A ring is described by the addresses of its nodes in order, from the sentinel on: `IsRing h s as`
  says that going round from the sentinel `s` over the nodes `as` and back to `s`, every node's
  `next` and its successor's `prev` name each other.

  A program changes a ring by single writes (`setNext`, `setPrev`), in an order of its own; what
  they come to is `Inserted` or `Removed`, and `IsRing.insert` and `IsRing.removeLast` go from
  there to the ring of the new heap. `IsRing.walk_next` and `IsRing.walk_prev` say what a program
  reads that goes round, and `IsRing.advance_ok` where it is after a number of steps.
-/
import Mathlib.Data.List.Chain
import Monya.Lib.Heap

namespace Monya.Lib

structure Link (β : Type) where
  prev : Ptr
  next : Ptr
  data : β

namespace Ring

variable {β : Type}

def next (h : Heap (Link β)) (a : Nat) : Ptr := (h.cell a).bind Link.next

def prev (h : Heap (Link β)) (a : Nat) : Ptr := (h.cell a).bind Link.prev

def data (h : Heap (Link β)) (a : Nat) : Option β := (h.cell a).map Link.data

/-- `a->next = p`. -/
def setNext (h : Heap (Link β)) (a : Nat) (p : Ptr) : Except Fault (Heap (Link β)) :=
  h.modify a fun l => { l with next := p }

/-- `a->prev = p`. -/
def setPrev (h : Heap (Link β)) (a : Nat) (p : Ptr) : Except Fault (Heap (Link β)) :=
  h.modify a fun l => { l with prev := p }

/-- `b` follows `a`, in both directions. -/
def Adjacent (h : Heap (Link β)) (a b : Nat) : Prop := next h a = some b ∧ prev h b = some a

structure IsRing (h : Heap (Link β)) (s : Nat) (as : List Nat) : Prop where
  chain : (s :: as ++ [s]).IsChain (Adjacent h)
  nodup : (s :: as).Nodup

variable {h h' : Heap (Link β)} {s p q c d : Nat} {as as₁ as₂ : List Nat}

/-- `c`, which holds `v`, has been put between `p` and `q`. -/
structure Inserted (h h' : Heap (Link β)) (p q c : Nat) (v : β) : Prop where
  next : ∀ a, next h' a = if a = c then some q else if a = p then some c else next h a
  prev : ∀ a, prev h' a = if a = c then some p else if a = q then some c else prev h a
  data : ∀ a, data h' a = if a = c then some v else data h a

/-- `d`, which stood between `p` and `q`, has been taken out. -/
structure Removed (h h' : Heap (Link β)) (p q d : Nat) : Prop where
  next : ∀ a, a ≠ d → Ring.next h' a = if a = p then some q else Ring.next h a
  prev : ∀ a, a ≠ d → Ring.prev h' a = if a = q then some p else Ring.prev h a
  data : ∀ a, a ≠ d → Ring.data h' a = Ring.data h a

theorem read_next {a : Nat} {p : Nat} (hn : next h a = some p) :
    ∃ l, h.read a = .ok l ∧ l.next = some p := by
  cases hc : h.cell a with
  | none => simp [next, hc] at hn
  | some l => exact ⟨l, Heap.read_ok hc, by simpa [next, hc] using hn⟩

theorem read_prev {a : Nat} {p : Nat} (hn : prev h a = some p) :
    ∃ l, h.read a = .ok l ∧ l.prev = some p := by
  cases hc : h.cell a with
  | none => simp [prev, hc] at hn
  | some l => exact ⟨l, Heap.read_ok hc, by simpa [prev, hc] using hn⟩

theorem read_data {a : Nat} {v : β} (hd : data h a = some v) :
    ∃ l, h.read a = .ok l ∧ l.data = v := by
  cases hc : h.cell a with
  | none => simp [data, hc] at hd
  | some l => exact ⟨l, Heap.read_ok hc, by simpa [data, hc] using hd⟩

/-! ## Writes -/

/-- The node at `a` is allocated. -/
def Live (h : Heap (Link β)) (a : Nat) : Prop := ∃ l, h.cell a = some l

theorem live_of_next {a b : Nat} (hn : next h a = some b) : Live h a := by
  obtain ⟨l, hl, -⟩ := read_next hn
  exact ⟨l, Heap.cell_of_read hl⟩

theorem Live.ne_brk {a : Nat} (ha : Live h a) : a ≠ h.brk := by
  obtain ⟨l, hl⟩ := ha
  exact Nat.ne_of_lt (h.lt_brk hl)

theorem live_alloc {a : Nat} (l : Link β) : Live (h.alloc l) a ↔ a = h.brk ∨ Live h a := by
  unfold Live
  rw [Heap.alloc_cell]
  by_cases ha : a = h.brk
  · simp [ha]
  · simp [ha]

theorem next_alloc (l : Link β) (a : Nat) :
    next (h.alloc l) a = if a = h.brk then l.next else next h a := by
  unfold next
  rw [Heap.alloc_cell]
  split <;> rfl

theorem prev_alloc (l : Link β) (a : Nat) :
    prev (h.alloc l) a = if a = h.brk then l.prev else prev h a := by
  unfold prev
  rw [Heap.alloc_cell]
  split <;> rfl

theorem data_alloc (l : Link β) (a : Nat) :
    data (h.alloc l) a = if a = h.brk then some l.data else data h a := by
  unfold data
  rw [Heap.alloc_cell]
  split <;> rfl

theorem setNext_ok {a : Nat} (ha : Live h a) (p : Ptr) :
    ∃ h', setNext h a p = .ok h' ∧ (∀ b, next h' b = if b = a then p else next h b) ∧
      (∀ b, prev h' b = prev h b) ∧ (∀ b, data h' b = data h b) ∧ ∀ b, Live h' b ↔ Live h b := by
  obtain ⟨l, hl⟩ := ha
  refine ⟨_, Heap.modify_ok hl _, fun b => ?_, fun b => ?_, fun b => ?_, fun b => ?_⟩ <;>
    by_cases hb : b = a <;> simp [next, prev, data, Live, Heap.update_cell, hb, hl]

theorem setPrev_ok {a : Nat} (ha : Live h a) (p : Ptr) :
    ∃ h', setPrev h a p = .ok h' ∧ (∀ b, next h' b = next h b) ∧
      (∀ b, prev h' b = if b = a then p else prev h b) ∧ (∀ b, data h' b = data h b) ∧
      ∀ b, Live h' b ↔ Live h b := by
  obtain ⟨l, hl⟩ := ha
  refine ⟨_, Heap.modify_ok hl _, fun b => ?_, fun b => ?_, fun b => ?_, fun b => ?_⟩ <;>
    by_cases hb : b = a <;> simp [next, prev, data, Live, Heap.update_cell, hb, hl]

/-- The four writes that link a new node in between `p` and `q`, in the order "`next` of `p`, `prev`
    of the node, `prev` of `q`, `next` of the node". -/
theorem link_ok (hp : Live h p) (hq : Live h q) (v : β) :
    ∃ h₁ h₂ h₃ h₄, setNext (h.alloc ⟨none, none, v⟩) p (some h.brk) = .ok h₁ ∧
      prev h₁ q = prev h q ∧ setPrev h₁ h.brk (some p) = .ok h₂ ∧
      setPrev h₂ q (some h.brk) = .ok h₃ ∧ setNext h₃ h.brk (some q) = .ok h₄ ∧
      Inserted h h₄ p q h.brk v := by
  have hpb := hp.ne_brk
  have hqb := hq.ne_brk
  have hlive : ∀ a, a = h.brk ∨ Live h a → Live (h.alloc ⟨none, none, v⟩) a := fun a =>
    (live_alloc _).mpr
  obtain ⟨h₁, e₁, n₁, p₁, d₁, l₁⟩ := setNext_ok (hlive p (Or.inr hp)) (some h.brk)
  obtain ⟨h₂, e₂, n₂, p₂, d₂, l₂⟩ := setPrev_ok ((l₁ _).mpr (hlive h.brk (Or.inl rfl))) (some p)
  obtain ⟨h₃, e₃, n₃, p₃, d₃, l₃⟩ :=
    setPrev_ok ((l₂ _).mpr ((l₁ _).mpr (hlive q (Or.inr hq)))) (some h.brk)
  obtain ⟨h₄, e₄, n₄, p₄, d₄, l₄⟩ :=
    setNext_ok ((l₃ _).mpr ((l₂ _).mpr ((l₁ _).mpr (hlive h.brk (Or.inl rfl))))) (some q)
  refine ⟨h₁, h₂, h₃, h₄, e₁, ?_, e₂, e₃, e₄, fun a => ?_, fun a => ?_, fun a => ?_⟩
  · rw [p₁, prev_alloc, if_neg hqb]
  · rw [n₄, n₃, n₂, n₁, next_alloc]
    split_ifs <;> rfl
  · rw [p₄, p₃, p₂, p₁, prev_alloc]
    split_ifs <;> simp_all
  · rw [d₄, d₃, d₂, d₁, data_alloc]

/-- The same in the order "both of the node, `next` of `p`, `prev` of `q`". -/
theorem link_ok' (hp : Live h p) (hq : Live h q) (v : β) :
    ∃ h₁ h₂ h₃ h₄, setNext (h.alloc ⟨none, none, v⟩) h.brk (some q) = .ok h₁ ∧
      setPrev h₁ h.brk (some p) = .ok h₂ ∧ setNext h₂ p (some h.brk) = .ok h₃ ∧
      setPrev h₃ q (some h.brk) = .ok h₄ ∧ Inserted h h₄ p q h.brk v := by
  have hpb := hp.ne_brk
  have hqb := hq.ne_brk
  have hlive : ∀ a, a = h.brk ∨ Live h a → Live (h.alloc ⟨none, none, v⟩) a := fun a =>
    (live_alloc _).mpr
  obtain ⟨h₁, e₁, n₁, p₁, d₁, l₁⟩ := setNext_ok (hlive h.brk (Or.inl rfl)) (some q)
  obtain ⟨h₂, e₂, n₂, p₂, d₂, l₂⟩ := setPrev_ok ((l₁ _).mpr (hlive h.brk (Or.inl rfl))) (some p)
  obtain ⟨h₃, e₃, n₃, p₃, d₃, l₃⟩ :=
    setNext_ok ((l₂ _).mpr ((l₁ _).mpr (hlive p (Or.inr hp)))) (some h.brk)
  obtain ⟨h₄, e₄, n₄, p₄, d₄, l₄⟩ :=
    setPrev_ok ((l₃ _).mpr ((l₂ _).mpr ((l₁ _).mpr (hlive q (Or.inr hq))))) (some h.brk)
  refine ⟨h₁, h₂, h₃, h₄, e₁, e₂, e₃, e₄, fun a => ?_, fun a => ?_, fun a => ?_⟩
  · rw [n₄, n₃, n₂, n₁, next_alloc]
    split_ifs <;> simp_all
  · rw [p₄, p₃, p₂, p₁, prev_alloc]
    split_ifs <;> simp_all
  · rw [d₄, d₃, d₂, d₁, data_alloc]

/-- The two writes and the `delete` that take `d` out from between `p` and `q`. -/
theorem unlink_ok (hp : Live h p) (hq : Live h q) (d : Nat) :
    ∃ h₁ h₂, setNext h p (some q) = .ok h₁ ∧ prev h₁ d = prev h d ∧
      setPrev h₁ q (some p) = .ok h₂ ∧ (Live h d → Live h₂ d) ∧ Removed h (h₂.free d) p q d := by
  obtain ⟨h₁, e₁, n₁, p₁, d₁, l₁⟩ := setNext_ok hp (some q)
  obtain ⟨h₂, e₂, n₂, p₂, d₂, l₂⟩ := setPrev_ok ((l₁ _).mpr hq) (some p)
  refine ⟨h₁, h₂, e₁, p₁ d, e₂, fun hd => (l₂ d).mpr ((l₁ d).mpr hd), fun a ha => ?_,
    fun a ha => ?_, fun a ha => ?_⟩
  · rw [next, Heap.free_cell_ne _ ha, ← next, n₂, n₁]
  · rw [prev, Heap.free_cell_ne _ ha, ← prev, p₂, p₁]
  · rw [data, Heap.free_cell_ne _ ha, ← data, d₂, d₁]

/-! ## Rings -/

/-- A stretch of the ring is kept if no `next` before its end and no `prev` after its start is
    written. -/
theorem chain_frame {l : List Nat} (hc : l.IsChain (Adjacent h))
    (hn : ∀ a ∈ l.dropLast, next h' a = next h a) (hp : ∀ a ∈ l.tail, prev h' a = prev h a) :
    l.IsChain (Adjacent h') := by
  induction l with
  | nil => exact .nil
  | cons a l ih =>
    cases l with
    | nil => exact .singleton a
    | cons b l =>
      rw [List.isChain_cons_cons] at hc ⊢
      obtain ⟨⟨hab, hba⟩, hc⟩ := hc
      refine ⟨⟨?_, ?_⟩, ih hc (fun x hx => hn x ?_) fun x hx => hp x ?_⟩
      · rw [hn a (by simp), hab]
      · rw [hp b (by simp), hba]
      · simp only [List.dropLast_cons_cons]
        exact List.mem_cons_of_mem a hx
      · exact List.mem_cons_of_mem b hx

theorem exists_last (s : Nat) (as : List Nat) : ∃ p, (s :: as).getLast? = some p :=
  ⟨_, List.getLast?_eq_some_getLast (List.cons_ne_nil s as)⟩

/-- Where a node can be put in: the ring, cut between two neighbours. -/
theorem IsRing.cut (hr : IsRing h s (as₁ ++ as₂)) (hp : (s :: as₁).getLast? = some p)
    (hq : (as₂ ++ [s]).head? = some q) :
    ∃ L R, s :: as₁ = L ++ [p] ∧ as₂ ++ [s] = q :: R ∧ (L ++ [p]).IsChain (Adjacent h) ∧
      Adjacent h p q ∧ (q :: R).IsChain (Adjacent h) ∧ p ∉ L ∧ p ∉ (q :: R).dropLast ∧
      q ∉ (L ++ [p]).tail ∧ q ∉ R := by
  obtain ⟨L, hL⟩ := List.getLast?_eq_some_iff.mp hp
  obtain ⟨R, hR⟩ := List.head?_eq_some_iff.mp hq
  have hsplit : s :: (as₁ ++ as₂) ++ [s] = L ++ p :: q :: R := by
    rw [List.cons_append, List.append_assoc, hR, ← List.cons_append, hL, List.append_assoc]
    rfl
  have hchain := hr.chain
  rw [hsplit, List.isChain_append_cons_cons] at hchain
  -- both the nodes and their successors are without repetition
  have hfst : (L ++ p :: (q :: R).dropLast).Nodup := by
    have h := congrArg List.dropLast hsplit
    rw [List.dropLast_concat, List.dropLast_append_of_ne_nil (by simp),
      List.dropLast_cons_of_ne_nil (by simp)] at h
    exact h ▸ hr.nodup
  have hsnd : ((L ++ [p]).tail ++ q :: R).Nodup := by
    have h : as₁ ++ as₂ ++ [s] = (L ++ [p]).tail ++ q :: R := by
      rw [← hL, List.tail_cons, List.append_assoc, hR]
    have hperm : (as₁ ++ as₂ ++ [s]).Perm (s :: (as₁ ++ as₂)) := List.perm_append_singleton s _
    exact h ▸ hperm.nodup_iff.mpr hr.nodup
  obtain ⟨_, hp₂, hp₃⟩ := List.nodup_append.mp hfst
  obtain ⟨_, hq₂, hq₃⟩ := List.nodup_append.mp hsnd
  exact ⟨L, R, hL, hR, hchain.1, hchain.2.1, hchain.2.2,
    fun hm => hp₃ p hm p List.mem_cons_self rfl, (List.nodup_cons.mp hp₂).1,
    fun hm => hq₃ q hm q List.mem_cons_self rfl, (List.nodup_cons.mp hq₂).1⟩

theorem IsRing.live (hr : IsRing h s as) {a : Nat} (ha : a ∈ s :: as) : Live h a := by
  obtain ⟨L, R, hLR⟩ := List.append_of_mem ha
  -- every node of the ring has a successor
  obtain ⟨b, hb⟩ : ∃ b, (R ++ [s]).head? = some b := by cases R <;> simp
  have hring := hr.chain
  obtain ⟨R', hR'⟩ := List.head?_eq_some_iff.mp hb
  rw [hLR, List.append_assoc, List.cons_append, hR', List.isChain_append_cons_cons] at hring
  exact live_of_next hring.2.1.1

/-- The neighbours of a place in the ring know each other. -/
theorem IsRing.adjacent (hr : IsRing h s (as₁ ++ as₂)) (hp : (s :: as₁).getLast? = some p)
    (hq : (as₂ ++ [s]).head? = some q) : Adjacent h p q := by
  obtain ⟨_, _, _, _, _, hadj, _⟩ := hr.cut hp hq
  exact hadj

/-- A new node `c` between `p` and `q`. -/
theorem IsRing.insert (hr : IsRing h s (as₁ ++ as₂)) (hp : (s :: as₁).getLast? = some p)
    (hq : (as₂ ++ [s]).head? = some q) (hc : c ∉ s :: (as₁ ++ as₂)) {v : β}
    (hi : Inserted h h' p q c v) : IsRing h' s (as₁ ++ c :: as₂) := by
  have hnext := hi.next
  have hprev := hi.prev
  obtain ⟨L, R, hL, hR, hcL, -, hcR, hpL, hpR, hqL, hqR⟩ := hr.cut hp hq
  have hcp : c ≠ p := fun he => hc (by
    rw [← List.cons_append, hL]
    simp [he])
  have hcq : c ≠ q := fun he => hc (by
    have : q ∈ as₂ ++ [s] := by rw [hR]; exact List.mem_cons_self
    rw [List.mem_append, List.mem_singleton] at this
    rcases this with h | h <;> simp [he, h])
  have hsplit : s :: (as₁ ++ c :: as₂) ++ [s] = L ++ p :: c :: q :: R := by
    rw [List.cons_append, List.append_assoc, List.cons_append, hR, ← List.cons_append, hL,
      List.append_assoc]
    rfl
  have hmem : ∀ a, a ∈ L ++ [p] ∨ a ∈ q :: R → a ≠ c := by
    rintro a ha rfl
    rw [← hL, ← hR] at ha
    apply hc
    rcases ha with ha | ha
    · rcases List.mem_cons.mp ha with rfl | ha <;> simp_all
    · rcases List.mem_append.mp ha with ha | ha <;> simp_all
  refine ⟨?_, ?_⟩
  · rw [hsplit, List.isChain_append_cons_cons, List.isChain_cons_cons]
    refine ⟨chain_frame hcL (fun a ha => ?_) (fun a ha => ?_), ⟨?_, ?_⟩, ⟨?_, ?_⟩,
      chain_frame hcR (fun a ha => ?_) (fun a ha => ?_)⟩
    · rw [List.dropLast_concat] at ha
      rw [hnext, if_neg (hmem a (Or.inl (List.mem_append_left _ ha))),
        if_neg (ne_of_mem_of_not_mem ha hpL)]
    · rw [hprev, if_neg (hmem a (Or.inl (List.mem_of_mem_tail ha))),
        if_neg (ne_of_mem_of_not_mem ha hqL)]
    · rw [hnext, if_neg hcp.symm, if_pos rfl]
    · rw [hprev, if_pos rfl]
    · rw [hnext, if_pos rfl]
    · rw [hprev, if_neg hcq.symm, if_pos rfl]
    · rw [hnext, if_neg (hmem a (Or.inr (List.mem_of_mem_dropLast ha))),
        if_neg (ne_of_mem_of_not_mem ha hpR)]
    · rw [List.tail_cons] at ha
      rw [hprev, if_neg (hmem a (Or.inr (List.mem_cons_of_mem _ ha))),
        if_neg (ne_of_mem_of_not_mem ha hqR)]
  · have hperm : (s :: (as₁ ++ c :: as₂)).Perm (c :: s :: (as₁ ++ as₂)) :=
      (List.perm_middle.cons s).trans (List.Perm.swap c s _)
    exact hperm.nodup_iff.mpr (List.nodup_cons.mpr ⟨hc, hr.nodup⟩)

/-- The last node taken out. -/
theorem IsRing.removeLast (hr : IsRing h s (as ++ [d])) (hp : (s :: as).getLast? = some p)
    (hm : Removed h h' p s d) : IsRing h' s as := by
  have hnext := hm.next
  have hprev := hm.prev
  obtain ⟨L, R, hL, hR, hcL, -, -, hpL, -, hdL, -⟩ := hr.cut hp (q := d) rfl
  have hds : d ≠ s ∧ d ∉ as := by
    have h := List.nodup_cons.mp hr.nodup
    refine ⟨fun he => h.1 (by simp [he]), fun hm => ?_⟩
    exact (List.nodup_append.mp h.2).2.2 d hm d (List.mem_singleton_self d) rfl
  have hsp : s ∉ as := fun hm => (List.nodup_cons.mp hr.nodup).1 (List.mem_append_left _ hm)
  have hmem : ∀ a ∈ L ++ [p], a ≠ d := by
    rintro a ha rfl
    rw [← hL] at ha
    rcases List.mem_cons.mp ha with he | ha
    · exact hds.1 he
    · exact hds.2 ha
  refine ⟨?_, ?_⟩
  · have hsplit : s :: as ++ [s] = L ++ p :: s :: [] := by rw [hL]; simp
    rw [hsplit, List.isChain_append_cons_cons]
    refine ⟨chain_frame hcL (fun a ha => ?_) (fun a ha => ?_), ⟨?_, ?_⟩, .singleton s⟩
    · rw [List.dropLast_concat] at ha
      rw [hnext a (hmem a (List.mem_append_left _ ha)), if_neg (ne_of_mem_of_not_mem ha hpL)]
    · rw [hprev a (hmem a (List.mem_of_mem_tail ha)), if_neg]
      rw [← hL, List.tail_cons] at ha
      exact fun he => hsp (he ▸ ha)
    · rw [hnext p (hmem p (by simp)), if_pos rfl]
    · rw [hprev s hds.1.symm, if_pos rfl]
  · have := hr.nodup
    rw [← List.cons_append] at this
    exact (List.nodup_append.mp this).1

/-! ## Going round -/

/-- One pass of a walk that follows `dir` from node to node; `seen` has the data so far. -/
def walkStep (h : Heap (Link β)) (s : Nat) (dir : Link β → Ptr) :
    Ptr × List β → Except Fault (Pass (Ptr × List β) (List β))
  | (p, seen) => do
      let curr ← target p
      if curr = s then return .done seen
      else
        let l ← h.read curr
        return .next (dir l, seen ++ [l.data])

/-- The data met on the way from the sentinel back to it. -/
def walk (h : Heap (Link β)) (s : Nat) (dir : Link β → Ptr) (fuel : Nat) :
    Except Fault (List β) := do
  let l ← h.read s
  loop (walkStep h s dir) fuel (dir l, [])

/-- `dir` leads from `a` to `b`. -/
def Leads (h : Heap (Link β)) (dir : Link β → Ptr) (a b : Nat) : Prop :=
  ∃ l, h.read a = .ok l ∧ dir l = some b

theorem leads_head {dir : Link β → Ptr} {a : Nat} (hc : (a :: as ++ [s]).IsChain (Leads h dir)) :
    ∃ l, h.cell a = some l ∧ dir l = (as ++ [s]).head? := by
  obtain ⟨b, hb⟩ : ∃ b, (as ++ [s]).head? = some b := by cases as <;> simp
  obtain ⟨R, hR⟩ := List.head?_eq_some_iff.mp hb
  rw [List.cons_append, hR, List.isChain_cons_cons] at hc
  obtain ⟨⟨l, hl, hdir⟩, -⟩ := hc
  exact ⟨l, Heap.cell_of_read hl, hdir.trans hb.symm⟩

theorem walk_from {dir : Link β → Ptr} {as : List Nat} {xs : List β} (hs : s ∉ as)
    (hc : (as ++ [s]).IsChain (Leads h dir)) (hd : as.map (data h) = xs.map some) (seen : List β) :
    Returns (fun fuel => loop (walkStep h s dir) fuel ((as ++ [s]).head?, seen)) (seen ++ xs) := by
  induction as generalizing xs seen with
  | nil =>
    obtain rfl : xs = [] := List.map_eq_nil_iff.mp hd.symm
    rw [List.append_nil]
    refine returns_done ?_
    simp [walkStep, ok_bind, pure_ok]
  | cons a as ih =>
    obtain ⟨x, xs, rfl, hx, hxs⟩ := List.map_eq_cons_iff.mp hd.symm
    obtain ⟨b, hb⟩ : ∃ b, (as ++ [s]).head? = some b := by cases as <;> simp
    obtain ⟨R, hR⟩ := List.head?_eq_some_iff.mp hb
    have hcons : a :: as ++ [s] = a :: b :: R := by rw [List.cons_append, hR]
    rw [hcons, List.isChain_cons_cons, ← hR] at hc
    obtain ⟨⟨l, hl, hdir⟩, hc⟩ := hc
    obtain ⟨l', hl', hdata⟩ := read_data hx.symm
    cases hl.symm.trans hl'
    have hne : a ≠ s := fun he => hs (he ▸ List.mem_cons_self)
    have hstep : walkStep h s dir ((a :: as ++ [s]).head?, seen) =
        .ok (.next ((as ++ [s]).head?, seen ++ [x])) := by
      simp [walkStep, ok_bind, pure_ok, hne, hl, hdir, hb, hdata]
    have hrec := ih (fun hm => hs (List.mem_cons_of_mem a hm)) hc hxs.symm (seen ++ [x])
    rw [List.append_assoc] at hrec
    exact returns_next hstep hrec

/-- A walk round a chain of nodes from the sentinel back to it. -/
theorem walk_returns {dir : Link β → Ptr} {as : List Nat} {xs : List β} (hs : (s :: as).Nodup)
    (hc : (s :: as ++ [s]).IsChain (Leads h dir)) (hd : as.map (data h) = xs.map some) :
    Returns (walk h s dir) xs := by
  obtain ⟨b, hb⟩ : ∃ b, (as ++ [s]).head? = some b := by cases as <;> simp
  obtain ⟨R, hR⟩ := List.head?_eq_some_iff.mp hb
  rw [List.cons_append, hR, List.isChain_cons_cons, ← hR] at hc
  obtain ⟨⟨l, hl, hdir⟩, hc⟩ := hc
  have hloop := walk_from (List.nodup_cons.mp hs).1 hc hd []
  refine hloop.of_eq fun fuel => ?_
  unfold walk
  rw [hl, ok_bind, hdir, hb]

theorem IsRing.walk_next (hr : IsRing h s as) {xs : List β} (hd : as.map (data h) = xs.map some) :
    Returns (walk h s Link.next) xs := by
  refine walk_returns hr.nodup (hr.chain.imp fun a b hab => ?_) hd
  exact read_next hab.1

/-- Backwards the ring is the same nodes in reverse. -/
theorem IsRing.walk_prev (hr : IsRing h s as) {xs : List β} (hd : as.map (data h) = xs.map some) :
    Returns (walk h s Link.prev) xs.reverse := by
  have hnodup : (s :: as.reverse).Nodup := by
    have hperm : (s :: as.reverse).Perm (s :: as) := (List.reverse_perm as).cons s
    exact hperm.nodup_iff.mpr hr.nodup
  have hchain : (s :: as.reverse ++ [s]).IsChain (Leads h Link.prev) := by
    have hrev : s :: as.reverse ++ [s] = (s :: as ++ [s]).reverse := by simp
    rw [hrev, List.isChain_reverse]
    exact hr.chain.imp fun a b hab => read_prev hab.2
  refine walk_returns hnodup hchain ?_
  rw [List.map_reverse, hd, List.map_reverse]

/-- `p = p->next`, `n` times. -/
def advance (h : Heap (Link β)) : Nat → Ptr → Except Fault Ptr
  | 0, p => .ok p
  | n + 1, p => do
      let l ← h.read (← target p)
      advance h n l.next

/-- From one node of the ring to one further on, without passing the sentinel. -/
theorem IsRing.advance_ok (hr : IsRing h s as) {n i : Nat} (hn : i + n ≤ as.length) :
    advance h n (s :: as)[i]? = .ok (s :: as)[i + n]? := by
  induction n generalizing i with
  | zero => rfl
  | succ n ih =>
    have hi : i < (s :: as).length := by rw [List.length_cons]; omega
    have hi' : i + 1 < (s :: as).length := by rw [List.length_cons]; omega
    have hadj := List.isChain_iff_getElem.mp hr.chain.left_of_append i hi'
    obtain ⟨l, hl, hnext⟩ := read_next hadj.1
    have hstep : advance h (n + 1) (s :: as)[i]? = advance h n (s :: as)[i + 1]? := by
      rw [advance, List.getElem?_eq_getElem hi, target_some, ok_bind, hl, ok_bind, hnext,
        List.getElem?_eq_getElem hi']
    rw [hstep, ih (by omega), Nat.add_right_comm i 1 n, Nat.add_assoc]

end Ring

end Monya.Lib
