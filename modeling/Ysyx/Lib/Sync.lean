import Mathlib.Tactic

/-! Runs of clocked designs. A run gives the registers at every cycle; what
happens between two cycles of a run is counted by the thresholds that a
quantity growing along the run crosses. -/

namespace Ysyx.Sync

variable {I S : Type}

/-- `s` is the run of the design `next` on the inputs `i`. -/
def Trace (next : I → S → S) (i : ℕ → I) (s : ℕ → S) : Prop := ∀ t, s (t + 1) = next (i t) (s t)

def traceFrom (next : I → S → S) (i : ℕ → I) (s₀ : S) : ℕ → S
  | 0 => s₀
  | t + 1 => next (i t) (traceFrom next i s₀ t)

theorem traceFrom_trace (next : I → S → S) (i : ℕ → I) (s₀ : S) :
    Trace next i (traceFrom next i s₀) := fun _ => rfl

/-- What holds at `t₀` and is kept by every later edge holds from `t₀` on. -/
theorem Trace.invariant {next : I → S → S} {i : ℕ → I} {s : ℕ → S} (h : Trace next i s)
    {P : S → Prop} {t₀ : ℕ} (h₀ : P (s t₀)) (hstep : ∀ t ≥ t₀, P (s t) → P (next (i t) (s t))) :
    ∀ t ≥ t₀, P (s t) := by
  intro t ht
  induction t, ht using Nat.le_induction with
  | base => exact h₀
  | succ t ht ih =>
    rw [h t]
    exact hstep t ht ih

/-- `f` does not decrease from `a` to `b`. -/
def Grows (f : ℕ → ℕ) (a b : ℕ) : Prop := ∀ t, a ≤ t → t < b → f t ≤ f (t + 1)

theorem Grows.le {f : ℕ → ℕ} {a b : ℕ} (h : Grows f a b) {t u : ℕ} (ht : a ≤ t) (htu : t ≤ u)
    (hu : u ≤ b) : f t ≤ f u := by
  induction u, htu using Nat.le_induction with
  | base => exact le_refl _
  | succ u htu ih => exact (ih (by omega)).trans (h u (by omega) (by omega))

theorem Grows.existsUnique_cross {f : ℕ → ℕ} {a b k : ℕ} (h : Grows f a b) (hab : a ≤ b)
    (ha : f a < k) (hb : k ≤ f b) :
    ∃! t, (a ≤ t ∧ t < b) ∧ f t < k ∧ k ≤ f (t + 1) := by
  have hex : ∃ u, a ≤ u ∧ k ≤ f u := ⟨b, hab, hb⟩
  classical
  obtain ⟨hau, hku⟩ := Nat.find_spec hex
  have hub : Nat.find hex ≤ b := Nat.find_min' hex ⟨hab, hb⟩
  have hne : a ≠ Nat.find hex := by
    intro heq
    rw [← heq] at hku
    omega
  obtain ⟨t, ht⟩ : ∃ t, Nat.find hex = t + 1 := Nat.exists_eq_succ_of_ne_zero (by omega)
  have hlt : ¬ (a ≤ t ∧ k ≤ f t) := Nat.find_min hex (by omega)
  refine ⟨t, ⟨⟨by omega, by omega⟩, by omega, ht ▸ hku⟩, ?_⟩
  rintro u ⟨⟨hau', hub'⟩, hfu, hfu'⟩
  -- before `t + 1` the threshold is not reached, and after it `f` has stayed above it
  rcases lt_trichotomy u t with hlt' | heq | hgt
  · have := h.le (show a ≤ u + 1 by omega) (show u + 1 ≤ t by omega) (by omega)
    omega
  · exact heq
  · have := h.le (show a ≤ t + 1 by omega) (show t + 1 ≤ u by omega) (by omega)
    rw [ht] at hku
    omega

end Ysyx.Sync
