import Mathlib.Order.Lattice
import Mathlib.Tactic

/-! Recursion on fuel: from some amount on, a call returns, and always the same. -/

namespace Ysyx

variable {α β : Type}

/-- `f` returns `a` whenever it has fuel enough. -/
def Settles (f : ℕ → Option α) (a : α) : Prop := ∃ N, ∀ n, N ≤ n → f n = some a

namespace Settles

variable {f g : ℕ → Option α} {a a' : α}

theorem of_some (a : α) : Settles (fun _ => some a) a := ⟨0, fun _ _ => rfl⟩

theorem congr (h : Settles g a) (hfg : ∀ n, f n = g n) : Settles f a := by
  obtain ⟨N, hN⟩ := h
  exact ⟨N, fun n hn => (hfg n).trans (hN n hn)⟩

/-- A call that spends one unit before it goes on. -/
theorem succ (h : Settles g a) (hfg : ∀ n, f (n + 1) = g n) : Settles f a := by
  obtain ⟨N, hN⟩ := h
  refine ⟨N + 1, fun n hn => ?_⟩
  obtain ⟨k, rfl⟩ : ∃ k, n = k + 1 := ⟨n - 1, by omega⟩
  exact (hfg k).trans (hN k (by omega))

theorem bind {k : ℕ → α → Option β} {b : β} (h : Settles f a) (hk : Settles (k · a) b) :
    Settles (fun n => f n >>= k n) b := by
  obtain ⟨N, hN⟩ := h
  obtain ⟨M, hM⟩ := hk
  refine ⟨max N M, fun n hn => ?_⟩
  show f n >>= k n = some b
  rw [hN n ((le_max_left N M).trans hn)]
  exact hM n ((le_max_right N M).trans hn)

theorem map (h : Settles f a) (k : α → β) : Settles (fun n => f n >>= fun x => some (k x)) (k a) :=
  h.bind (of_some _)

/-- What holds of every result holds of the one a call settles on. -/
theorem result {P : α → Prop} (h : Settles f a) (hP : ∀ n b, f n = some b → P b) : P a := by
  obtain ⟨N, hN⟩ := h
  exact hP N a (hN N le_rfl)

end Settles

end Ysyx
