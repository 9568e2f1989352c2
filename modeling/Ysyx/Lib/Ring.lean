import Mathlib.Tactic

/-! Ring buffers of a fixed capacity. The cell that the `k`-th item went to holds it until `c` more
items have come. -/

namespace Ysyx

structure Ring (α : Type) (c : ℕ) where
  buf : ℕ → α
  cur : ℕ

namespace Ring

variable {α : Type} {c : ℕ}

/-- Every cell holds `d`, and the first is written next. -/
def init (c : ℕ) (d : α) : Ring α c := ⟨fun _ => d, 0⟩

def push (r : Ring α c) (x : α) : Ring α c :=
  ⟨Function.update r.buf r.cur x, (r.cur + 1) % c⟩

def pushes (r : Ring α c) (xs : List α) : Ring α c := xs.foldl push r

theorem pushes_concat (r : Ring α c) (xs : List α) (x : α) :
    r.pushes (xs ++ [x]) = (r.pushes xs).push x := by
  simp [pushes]

theorem cur_pushes (d : α) (xs : List α) : ((init c d).pushes xs).cur = xs.length % c := by
  induction xs using List.reverseRecOn with
  | nil => exact (Nat.zero_mod c).symm
  | append_singleton xs x ih =>
    rw [pushes_concat, push, ih, Nat.mod_add_mod, List.length_append, List.length_singleton]

theorem buf_pushes (d : α) {xs : List α} {k : ℕ} (hk : k < xs.length) (hlast : xs.length ≤ k + c) :
    ((init c d).pushes xs).buf (k % c) = xs[k] := by
  induction xs using List.reverseRecOn with
  | nil => exact absurd hk (Nat.not_lt_zero k)
  | append_singleton xs x ih =>
    rw [List.length_append, List.length_singleton] at hk hlast
    rw [pushes_concat, push, cur_pushes]
    by_cases hx : k = xs.length
    · subst hx
      simp
    · have hne : k % c ≠ xs.length % c := by
        intro he
        have hsub := Nat.sub_mod_eq_zero_of_mod_eq he.symm
        rw [Nat.mod_eq_of_lt (by omega)] at hsub
        omega
      simp only [Function.update_of_ne hne, ih (by omega) (by omega),
        List.getElem_append_left (show k < xs.length by omega)]

theorem buf_pushes_of_le (d : α) {xs : List α} {j : ℕ} (hj : xs.length ≤ j) :
    ((init c d).pushes xs).buf j = d := by
  induction xs using List.reverseRecOn with
  | nil => rfl
  | append_singleton xs x ih =>
    rw [List.length_append, List.length_singleton] at hj
    have hne : j ≠ xs.length % c := by
      have := Nat.mod_le xs.length c
      omega
    rw [pushes_concat, push, cur_pushes]
    exact (Function.update_of_ne hne _ _).trans (ih (by omega))

end Ring
end Ysyx
