/-
  Actions on single cells of a heap, taken one after the other.

  An action `i` reads the cell at `cell i`, changes it by `act i` and writes it back. Two actions on
  different cells do not see each other, so what a sequence of actions does is what it does to each
  cell: `play_ok_iff`. Two sequences with the same actions on each cell, in the same order, do the
  same, however the actions on different cells are interleaved (`play_congr`), and a sequence with
  only the first actions on each cell does not fault if the whole one does not (`play_of_isPrefix`).
-/
import Monya.Lib.Heap

namespace Monya.Lib

section Cells

variable {ι V : Type} (cell : ι → Nat) (act : ι → V → Except Fault V)

def playOne (h : Heap V) (i : ι) : Except Fault (Heap V) := do
  let v ← act i (← h.read (cell i))
  h.modify (cell i) fun _ => v

def play (is : List ι) (h : Heap V) : Except Fault (Heap V) := is.foldlM (playOne cell act) h

/-- The actions `is`, all on one cell. -/
def playCell (is : List ι) (v : V) : Except Fault V := is.foldlM (fun v i => act i v) v

/-- The actions of `is` on the cell at `a`. -/
def actionsAt (is : List ι) (a : Nat) : List ι := is.filter fun i => cell i = a

variable {cell act} {i : ι} {is js : List ι} {h h' : Heap V}

theorem Heap.ext_cell (hb : h'.brk = h.brk) (hc : ∀ a, h'.cell a = h.cell a) : h' = h := by
  obtain ⟨c, b, f⟩ := h
  obtain ⟨c', b', f'⟩ := h'
  obtain rfl : b' = b := hb
  obtain rfl : c' = c := funext hc
  rfl

theorem playOne_ok : playOne cell act h i = .ok h' ↔
    ∃ v v', h.cell (cell i) = some v ∧ act i v = .ok v' ∧ h' = h.update (cell i) fun _ => v' := by
  constructor
  · intro hp
    obtain ⟨v, hr, hp⟩ := bind_ok hp
    obtain ⟨v', ha, hp⟩ := bind_ok hp
    exact ⟨v, v', Heap.cell_of_read hr, ha, (Heap.of_modify hp).1⟩
  · rintro ⟨v, v', hc, ha, rfl⟩
    rw [playOne, Heap.read_ok hc, ok_bind, ha, ok_bind, Heap.modify_ok hc]

theorem play_cons (i : ι) (is : List ι) (h : Heap V) :
    play cell act (i :: is) h = playOne cell act h i >>= play cell act is := List.foldlM_cons ..

theorem play_append (is js : List ι) (h : Heap V) :
    play cell act (is ++ js) h = play cell act is h >>= play cell act js := List.foldlM_append ..

theorem actionsAt_cons_self (i : ι) (is : List ι) :
    actionsAt cell (i :: is) (cell i) = i :: actionsAt cell is (cell i) := by
  simp [actionsAt]

theorem actionsAt_cons_ne {a : Nat} (ha : a ≠ cell i) (is : List ι) :
    actionsAt cell (i :: is) a = actionsAt cell is a := by
  simp [actionsAt, Ne.symm ha]

theorem playCell_cons (i : ι) (is : List ι) (v : V) :
    playCell act (i :: is) v = act i v >>= playCell act is := List.foldlM_cons ..

/-- What a sequence of actions has done to each cell. -/
structure Played (cell : ι → Nat) (act : ι → V → Except Fault V) (is : List ι) (h h' : Heap V) :
    Prop where
  brk : h'.brk = h.brk
  alive : ∀ i ∈ is, ∃ v, h.cell (cell i) = some v
  none : ∀ a, h.cell a = none → h'.cell a = none
  some : ∀ a v, h.cell a = some v →
    ∃ v', playCell act (actionsAt cell is a) v = .ok v' ∧ h'.cell a = some v'

theorem Played.nil (h : Heap V) : Played cell act [] h h where
  brk := rfl
  alive _ hi := absurd hi List.not_mem_nil
  none _ ha := ha
  some _ v ha := ⟨v, rfl, ha⟩

theorem Played.eq_of_nil (hp : Played cell act [] h h') : h' = h := by
  refine Heap.ext_cell hp.brk fun a => ?_
  cases ha : h.cell a with
  | none => exact hp.none a ha
  | some v =>
    obtain ⟨v', hv, hc⟩ := hp.some a v ha
    rw [hc, Except.ok.inj hv]

/-- The first action, then the others. -/
theorem played_cons {v v' : V} (hc : h.cell (cell i) = .some v) (ha : act i v = .ok v') :
    Played cell act (i :: is) h h' ↔
      Played cell act is (h.update (cell i) fun _ => v') h' := by
  have hself : (h.update (cell i) fun _ => v').cell (cell i) = .some v' := by
    rw [Heap.update_cell_self, hc]
    rfl
  have hnone : ∀ a, (h.update (cell i) fun _ => v').cell a = .none ↔ h.cell a = .none := by
    intro a
    by_cases hai : a = cell i
    · rw [hai, hself, hc]
      simp
    · rw [Heap.update_cell_ne _ _ hai]
  have halive : ∀ a, (∃ v, (h.update (cell i) fun _ => v').cell a = .some v) ↔
      ∃ v, h.cell a = .some v := by
    intro a
    rw [← Option.ne_none_iff_exists', ← Option.ne_none_iff_exists', ne_eq, hnone]
  constructor
  · intro hp
    refine ⟨hp.brk, fun j hj => (halive _).mpr (hp.alive j (List.mem_cons_of_mem _ hj)),
      fun a hn => hp.none a ((hnone a).mp hn), fun a w hw => ?_⟩
    by_cases hai : a = cell i
    · subst hai
      rw [hself] at hw
      cases hw
      obtain ⟨w, hplay, hw⟩ := hp.some (cell i) v hc
      rw [actionsAt_cons_self, playCell_cons, ha, ok_bind] at hplay
      exact ⟨w, hplay, hw⟩
    · rw [Heap.update_cell_ne _ _ hai] at hw
      obtain ⟨w', hplay, hw'⟩ := hp.some a w hw
      rw [actionsAt_cons_ne hai] at hplay
      exact ⟨w', hplay, hw'⟩
  · intro hp
    refine ⟨hp.brk, fun j hj => ?_, fun a hn => hp.none a ((hnone a).mpr hn), fun a w hw => ?_⟩
    · rcases List.mem_cons.mp hj with rfl | hj
      · exact ⟨v, hc⟩
      · exact (halive _).mp (hp.alive j hj)
    · by_cases hai : a = cell i
      · subst hai
        cases hc.symm.trans hw
        obtain ⟨w, hplay, hw⟩ := hp.some (cell i) v' hself
        exact ⟨w, by rw [actionsAt_cons_self, playCell_cons, ha, ok_bind, hplay], hw⟩
      · obtain ⟨w', hplay, hw'⟩ := hp.some a w (by rw [Heap.update_cell_ne _ _ hai, hw])
        exact ⟨w', by rw [actionsAt_cons_ne hai, hplay], hw'⟩

/-- What a sequence of actions does is what it does to each cell. -/
theorem play_ok_iff : play cell act is h = .ok h' ↔ Played cell act is h h' := by
  induction is generalizing h with
  | nil =>
    constructor
    · intro hp
      cases hp
      exact .nil _
    · intro hp
      rw [hp.eq_of_nil]
      rfl
  | cons i is ih =>
    rw [play_cons]
    constructor
    · intro hp
      obtain ⟨h₁, hone, hp⟩ := bind_ok hp
      obtain ⟨v, v', hc, ha, rfl⟩ := playOne_ok.mp hone
      exact (played_cons hc ha).mpr (ih.mp hp)
    · intro hp
      obtain ⟨v, hc⟩ := hp.alive i List.mem_cons_self
      obtain ⟨w, hplay, -⟩ := hp.some (cell i) v hc
      rw [actionsAt_cons_self, playCell_cons] at hplay
      obtain ⟨v', ha, -⟩ := bind_ok hplay
      rw [playOne_ok.mpr ⟨v, v', hc, ha, rfl⟩, ok_bind]
      exact ih.mpr ((played_cons hc ha).mp hp)

/-- A sequence of actions does not fault if it does not on any cell. -/
theorem exists_play (halive : ∀ i ∈ is, ∃ v, h.cell (cell i) = .some v)
    (hcell : ∀ a v, h.cell a = .some v → ∃ v', playCell act (actionsAt cell is a) v = .ok v') :
    ∃ h', play cell act is h = .ok h' := by
  induction is generalizing h with
  | nil => exact ⟨h, rfl⟩
  | cons i is ih =>
    obtain ⟨v, hc⟩ := halive i List.mem_cons_self
    obtain ⟨w, hplay⟩ := hcell (cell i) v hc
    rw [actionsAt_cons_self, playCell_cons] at hplay
    obtain ⟨v', ha, hplay⟩ := bind_ok hplay
    have hself : (h.update (cell i) fun _ => v').cell (cell i) = .some v' := by
      rw [Heap.update_cell_self, hc]
      rfl
    have halive' : ∀ j ∈ is, ∃ u, (h.update (cell i) fun _ => v').cell (cell j) = .some u := by
      intro j hj
      by_cases hji : cell j = cell i
      · exact ⟨v', hji ▸ hself⟩
      · rw [Heap.update_cell_ne _ _ hji]
        exact halive j (List.mem_cons_of_mem _ hj)
    obtain ⟨h', hp⟩ := ih halive' fun a u hu => by
      by_cases hai : a = cell i
      · subst hai
        cases hself.symm.trans hu
        exact ⟨w, hplay⟩
      · rw [Heap.update_cell_ne _ _ hai] at hu
        obtain ⟨u', hu'⟩ := hcell a u hu
        exact ⟨u', by rwa [actionsAt_cons_ne hai] at hu'⟩
    exact ⟨h', by rw [play_cons, playOne_ok.mpr ⟨v, v', hc, ha, rfl⟩, ok_bind, hp]⟩

theorem mem_actionsAt {a : Nat} : i ∈ actionsAt cell is a ↔ i ∈ is ∧ cell i = a := by
  simp [actionsAt]

/-- The interleaving of actions on different cells does not matter. -/
theorem play_congr (heq : ∀ a, actionsAt cell is a = actionsAt cell js a) :
    play cell act is h = .ok h' ↔ play cell act js h = .ok h' := by
  have hmem : ∀ i, i ∈ is ↔ i ∈ js := fun i => by
    have hi : i ∈ actionsAt cell is (cell i) ↔ i ∈ actionsAt cell js (cell i) := by rw [heq]
    simpa [mem_actionsAt] using hi
  rw [play_ok_iff, play_ok_iff]
  constructor
  · rintro ⟨hb, ha, hn, hs⟩
    exact ⟨hb, fun i hi => ha i ((hmem i).mpr hi), hn, fun a v hv => heq a ▸ hs a v hv⟩
  · rintro ⟨hb, ha, hn, hs⟩
    exact ⟨hb, fun i hi => ha i ((hmem i).mp hi), hn, fun a v hv => (heq a).symm ▸ hs a v hv⟩

/-- A part of the actions, with the first ones on each cell. -/
theorem play_of_isPrefix (hpre : ∀ a, actionsAt cell is a <+: actionsAt cell js a)
    (hp : play cell act js h = .ok h') : ∃ h'', play cell act is h = .ok h'' := by
  obtain ⟨-, halive, -, hcell⟩ := play_ok_iff.mp hp
  refine exists_play (fun i hi => halive i ?_) fun a v hv => ?_
  · have hi' : i ∈ actionsAt cell is (cell i) := mem_actionsAt.mpr ⟨hi, rfl⟩
    exact (mem_actionsAt.mp ((hpre (cell i)).subset hi')).1
  · obtain ⟨rest, hrest⟩ := hpre a
    obtain ⟨v', hplay, -⟩ := hcell a v hv
    rw [← hrest, playCell, List.foldlM_append] at hplay
    obtain ⟨w, hw, -⟩ := bind_ok hplay
    exact ⟨w, hw⟩

end Cells

end Monya.Lib
