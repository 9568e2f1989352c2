import Ysyx.Lib.Outcome
import Mathlib.Tactic

/-! Counting loops that may fail. -/

namespace Ysyx

variable {ε σ : Type}

/-- `for (i = 0; i < n; i ++) f(i);` -/
def times : ℕ → (ℕ → σ → Except ε σ) → σ → Except ε σ
  | 0, _, s => .ok s
  | n + 1, f, s => times n f s >>= f n

variable {n : ℕ} {f : ℕ → σ → Except ε σ} {s s' : σ}

theorem times_succ : times (n + 1) f s = times n f s >>= f n := rfl

theorem times_ok (P : ℕ → σ → Prop) (h0 : P 0 s)
    (hstep : ∀ i < n, ∀ a, P i a → ∃ b, f i a = .ok b ∧ P (i + 1) b) :
    ∃ s', times n f s = .ok s' ∧ P n s' := by
  induction n with
  | zero => exact ⟨s, rfl, h0⟩
  | succ n ih =>
    obtain ⟨a, ha, hPa⟩ := ih fun i hi => hstep i (by omega)
    obtain ⟨b, hb, hPb⟩ := hstep n (Nat.lt_succ_self n) a hPa
    exact ⟨b, by rw [times_succ, ha]; exact hb, hPb⟩

theorem times_turn (h : times n f s = .ok s') {i : ℕ} (hi : i < n) : ∃ a b, f i a = .ok b := by
  induction n generalizing s' with
  | zero => exact absurd hi (Nat.not_lt_zero i)
  | succ n ih =>
    obtain ⟨a, ha, hb⟩ := bind_eq_ok.1 h
    by_cases hin : i = n
    · exact ⟨a, s', hin ▸ hb⟩
    · exact ih ha (by omega)

theorem times_last (h : times (n + 1) f s = .ok s') : ∃ a, f n a = .ok s' := by
  obtain ⟨a, -, hb⟩ := bind_eq_ok.1 h
  exact ⟨a, hb⟩

end Ysyx
