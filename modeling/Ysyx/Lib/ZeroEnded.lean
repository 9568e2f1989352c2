import Mathlib.Tactic

/-! Strings that end with their first zero, and their copies in fields of a fixed length. -/

namespace Ysyx.ZeroEnded

variable {α : Type} [Zero α] [DecidableEq α] {n : ℕ}

/-- What copying the string in `src` makes of a field: cells behind the zero stay. -/
def strcpy (dst src : Fin n → α) : Fin n → α :=
  fun i => if ∀ j < i, src j ≠ 0 then src i else dst i

/-- The string at `p`, cut to the field when it is longer, with zeros behind it. -/
def field (n : ℕ) (b : ℕ → α) (p : ℕ) : Fin n → α :=
  fun i => if (∀ j < i.val, b (p + j) ≠ 0) ∧ i + 1 < n then b (p + i) else 0

/-- A buffer that holds the string and its zero. -/
structure Holds (b : ℕ → α) (p : ℕ) (buff : Fin n → α) (m : ℕ) : Prop where
  room : m < n
  zero : b (p + m) = 0
  cells : ∀ i : Fin n, i.val ≤ m → buff i = b (p + i)

theorem field_of_zero (b : ℕ → α) {p : ℕ} (h : b p = 0) : field n b p = fun _ => 0 := by
  funext i
  unfold field
  split_ifs with hi
  · by_cases h0 : i.val = 0
    · rw [h0]
      exact h
    · exact absurd h (hi.1 0 (by omega))
  · rfl

theorem field_eq_zero_iff (b : ℕ → α) {p : ℕ} (hn : 1 < n) :
    field n b p = (fun _ => 0) ↔ b p = 0 := by
  constructor
  · intro h
    have hfirst : field n b p ⟨0, by omega⟩ = 0 := congrFun h _
    unfold field at hfirst
    rwa [if_pos ⟨fun j hj => absurd hj (Nat.not_lt_zero j), hn⟩] at hfirst
  · exact field_of_zero b

theorem Holds.strcpy_eq {b : ℕ → α} {p m : ℕ} {buff : Fin n → α} (h : Holds b p buff m) :
    strcpy (fun _ => 0) buff = field n b p := by
  have hroom := h.room
  have hstop : ∀ i : Fin n, (∀ j < i.val, b (p + j) ≠ 0) → i.val ≤ m := by
    intro i hi
    by_contra hlt
    exact hi m (by omega) h.zero
  have hall : ∀ i : Fin n, (∀ j < i, buff j ≠ 0) ↔ ∀ j < i.val, b (p + j) ≠ 0 := by
    intro i
    constructor
    · intro hb
      -- a zero before `i` would lie at or behind the one at `m`
      have him : i.val ≤ m := by
        by_contra hlt
        have hz := h.cells ⟨m, hroom⟩ le_rfl
        exact hb ⟨m, hroom⟩ (Nat.lt_of_not_le hlt) (hz.trans h.zero)
      intro j hj
      have hc := h.cells ⟨j, by omega⟩ (by change j ≤ m; omega)
      exact fun hz => hb ⟨j, by omega⟩ hj (hc.trans hz)
    · intro hb j hj
      have him := hstop i hb
      rw [h.cells j (by have := Fin.lt_def.1 hj; omega)]
      exact hb j hj
  funext i
  unfold strcpy field
  by_cases hi : ∀ j < i.val, b (p + j) ≠ 0
  · rw [if_pos ((hall i).2 hi), h.cells i (hstop i hi)]
    by_cases hlast : i.val + 1 < n
    · rw [if_pos ⟨hi, hlast⟩]
    · have him : i.val = m := by have := hstop i hi; omega
      rw [if_neg fun hc => hlast hc.2, him]
      exact h.zero
  · rw [if_neg fun hc => hi ((hall i).1 hc), if_neg fun hc => hi hc.1]

end Ysyx.ZeroEnded
