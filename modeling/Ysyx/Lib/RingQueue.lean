import Mathlib.Tactic

/-! First-in first-out queues in an array of `c` cells, with the indices of the first item and of the
cell after the last. One cell stays free, so that the indices meet only when the queue is empty. -/

namespace Ysyx

structure RingQueue (α : Type) (c : ℕ) where
  buf : ℕ → α
  front : ℕ
  rear : ℕ

namespace RingQueue

variable {α : Type} {c : ℕ}

def init (c : ℕ) (d : α) : RingQueue α c := ⟨fun _ => d, 0, 0⟩

def enqueue (q : RingQueue α c) (x : α) : RingQueue α c :=
  { q with buf := Function.update q.buf q.rear x, rear := (q.rear + 1) % c }

def dequeue (q : RingQueue α c) : RingQueue α c := { q with front := (q.front + 1) % c }

/-- The cells from `front` to `rear`. -/
def items (q : RingQueue α c) : List α :=
  (List.range ((q.rear + c - q.front) % c)).map fun i => q.buf ((q.front + i) % c)

/-- The queue holds `xs`, first item first. -/
structure Holds (q : RingQueue α c) (xs : List α) : Prop where
  room : xs.length < c
  front_lt : q.front < c
  rear_eq : q.rear = (q.front + xs.length) % c
  cell : ∀ i (h : i < xs.length), q.buf ((q.front + i) % c) = xs[i]

theorem add_mod_eq {f i : ℕ} (hf : f < c) (hi : i < c) :
    (f + i) % c = if f + i < c then f + i else f + i - c := by
  split_ifs with h
  · exact Nat.mod_eq_of_lt h
  · rw [Nat.mod_eq_sub_mod (by omega), Nat.mod_eq_of_lt (by omega)]

theorem add_mod_inj {f i j : ℕ} (hf : f < c) (hi : i < c) (hj : j < c)
    (h : (f + i) % c = (f + j) % c) : i = j := by
  rw [add_mod_eq hf hi, add_mod_eq hf hj] at h
  split_ifs at h <;> omega

theorem sub_mod_eq {f n : ℕ} (hf : f < c) (hn : n < c) : ((f + n) % c + c - f) % c = n := by
  rw [add_mod_eq hf hn]
  split_ifs with h
  · rw [show f + n + c - f = n + c by omega, Nat.add_mod_right, Nat.mod_eq_of_lt hn]
  · rw [show f + n - c + c - f = n by omega, Nat.mod_eq_of_lt hn]

theorem holds_init (hc : 0 < c) (d : α) : (init c d).Holds [] :=
  ⟨hc, hc, (Nat.zero_mod c).symm, fun _ h => absurd h (Nat.not_lt_zero _)⟩

variable {q : RingQueue α c} {xs : List α}

theorem Holds.items_eq (h : q.Holds xs) : q.items = xs := by
  rw [items, h.rear_eq, sub_mod_eq h.front_lt h.room]
  refine List.ext_getElem (by simp) fun i hi hi' => ?_
  rw [List.getElem_map, List.getElem_range, h.cell i hi']

theorem Holds.isEmpty_iff (h : q.Holds xs) : q.front = q.rear ↔ xs = [] := by
  rw [h.rear_eq]
  constructor
  · intro he
    have hzero : (q.front + 0) % c = (q.front + xs.length) % c :=
      (Nat.mod_eq_of_lt h.front_lt).trans he
    have hlen := add_mod_inj h.front_lt (Nat.zero_lt_of_lt h.room) h.room hzero
    exact List.length_eq_zero_iff.1 hlen.symm
  · rintro rfl
    exact (Nat.mod_eq_of_lt h.front_lt).symm

theorem Holds.enqueue (h : q.Holds xs) (x : α) (hroom : xs.length + 1 < c) :
    (q.enqueue x).Holds (xs ++ [x]) := by
  have hlen : (xs ++ [x]).length = xs.length + 1 := by simp
  refine ⟨by omega, h.front_lt, ?_, fun i hi => ?_⟩
  · change (q.rear + 1) % c = (q.front + (xs ++ [x]).length) % c
    rw [h.rear_eq, Nat.mod_add_mod, hlen, Nat.add_assoc]
  · change Function.update q.buf q.rear x ((q.front + i) % c) = _
    rw [hlen] at hi
    by_cases hx : i = xs.length
    · subst hx
      rw [← h.rear_eq, Function.update_self, List.getElem_concat_length rfl]
    · have hne : (q.front + i) % c ≠ q.rear := by
        rw [h.rear_eq]
        exact fun he => hx (add_mod_inj h.front_lt (by omega) h.room he)
      rw [Function.update_of_ne hne, h.cell i (by omega), List.getElem_append_left (by omega)]

theorem Holds.rear_ne_front (h : q.Holds xs) (hne : xs ≠ []) : q.rear ≠ q.front :=
  fun he => hne (h.isEmpty_iff.1 he.symm)

theorem Holds.first {x : α} (h : q.Holds (x :: xs)) : q.buf q.front = x := by
  have h0 := h.cell 0 (by simp)
  rwa [Nat.add_zero, Nat.mod_eq_of_lt h.front_lt] at h0

theorem Holds.dequeue {x : α} (h : q.Holds (x :: xs)) : q.dequeue.Holds xs := by
  have hroom := h.room
  rw [List.length_cons] at hroom
  refine ⟨by omega, Nat.mod_lt _ (by omega), ?_, fun i hi => ?_⟩
  · change q.rear = ((q.front + 1) % c + xs.length) % c
    rw [h.rear_eq, Nat.mod_add_mod, List.length_cons, Nat.add_right_comm, Nat.add_assoc]
  · change q.buf (((q.front + 1) % c + i) % c) = xs[i]
    have hcell := h.cell (i + 1) (by simpa using hi)
    rw [Nat.mod_add_mod, Nat.add_assoc, Nat.add_comm 1 i, hcell, List.getElem_cons_succ]

end RingQueue
end Ysyx
