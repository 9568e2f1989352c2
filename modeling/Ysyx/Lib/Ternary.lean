import Mathlib.Data.BitVec
import Mathlib.Tactic

/-! Ternary patterns of bits: a place asks for a bit or for none. A pattern is read from its most
significant place into a key, a mask and the number of places at its end that ask for nothing, and
a word is compared with it after both were shifted by that number. -/

namespace Ysyx.Ternary

variable {w : ℕ}

def key (ts : List (Option Bool)) : BitVec w :=
  ts.foldl (fun k t => k <<< 1 ||| (if t = some true then 1 else 0)) 0

def mask (ts : List (Option Bool)) : BitVec w :=
  ts.foldl (fun m t => m <<< 1 ||| (if t = none then 0 else 1)) 0

def shift (ts : List (Option Bool)) : ℕ := ts.foldl (fun s t => if t = none then s + 1 else 0) 0

section Accumulate

variable (ts : List (Option Bool)) (t : Option Bool)

theorem key_concat :
    (key (ts ++ [t]) : BitVec w) = key ts <<< 1 ||| (if t = some true then 1 else 0) := by
  simp [key]

theorem mask_concat :
    (mask (ts ++ [t]) : BitVec w) = mask ts <<< 1 ||| (if t = none then 0 else 1) := by
  simp [mask]

theorem shift_concat : shift (ts ++ [t]) = if t = none then shift ts + 1 else 0 := by
  simp [shift]

theorem getLsbD_shiftLeft_or (x : BitVec w) (b : Bool) {i : ℕ} (hi : i < w) :
    (x <<< 1 ||| (if b then 1 else 0)).getLsbD i = if i = 0 then b else x.getLsbD (i - 1) := by
  rw [BitVec.getLsbD_or, BitVec.getLsbD_shiftLeft]
  cases i with
  | zero => cases b <;> simp [hi]
  | succ i => cases b <;> simp [hi]

theorem getLsbD_key {i : ℕ} (hi : i < w) :
    (key ts : BitVec w).getLsbD i = (ts.reverse[i]? == some (some true)) := by
  induction ts using List.reverseRecOn generalizing i with
  | nil => simp [key]
  | append_singleton ts t ih =>
    have hbit := getLsbD_shiftLeft_or (key ts : BitVec w) (t == some true) hi
    simp only [beq_iff_eq] at hbit
    rw [key_concat, hbit, List.reverse_concat]
    cases i with
    | zero => rfl
    | succ i => exact ih (by omega)

theorem getLsbD_mask {i : ℕ} (hi : i < w) :
    (mask ts : BitVec w).getLsbD i = (ts.reverse[i]?).join.isSome := by
  induction ts using List.reverseRecOn generalizing i with
  | nil => simp [mask]
  | append_singleton ts t ih =>
    have hbit := getLsbD_shiftLeft_or (mask ts : BitVec w) t.isSome hi
    have ht : (if t = none then (0 : BitVec w) else 1) = if t.isSome then 1 else 0 := by
      cases t <;> rfl
    rw [mask_concat, ht, hbit, List.reverse_concat]
    cases i with
    | zero => rfl
    | succ i => exact ih (by omega)

theorem reverse_of_lt_shift {i : ℕ} (hi : i < shift ts) : ts.reverse[i]? = some none := by
  induction ts using List.reverseRecOn generalizing i with
  | nil => exact absurd hi (Nat.not_lt_zero i)
  | append_singleton ts t ih =>
    rw [shift_concat] at hi
    rw [List.reverse_concat]
    split_ifs at hi with ht
    · cases i with
      | zero => rw [ht]; rfl
      | succ i => exact ih (by omega)
    · exact absurd hi (Nat.not_lt_zero i)

end Accumulate

theorem test_iff {ts : List (Option Bool)} (hlen : ts.length ≤ w) (x : BitVec w) :
    (x >>> shift ts) &&& (mask ts >>> shift ts) = key ts >>> shift ts ↔
      ∀ i b, ts.reverse[i]? = some (some b) → x.getLsbD i = b := by
  have hlt : ∀ {i b}, ts.reverse[i]? = some (some b) → i < w := by
    intro i b h
    obtain ⟨hi, -⟩ := List.getElem?_eq_some_iff.1 h
    rw [List.length_reverse] at hi
    omega
  constructor
  · intro h i b hib
    have hiw := hlt hib
    have hs : shift ts ≤ i := by
      by_contra hlo
      rw [reverse_of_lt_shift ts (by omega)] at hib
      cases hib
    have hbit := congrArg (·.getLsbD (i - shift ts)) h
    simp only [BitVec.getLsbD_and, BitVec.getLsbD_ushiftRight, Nat.add_sub_cancel' hs,
      getLsbD_mask ts hiw, getLsbD_key ts hiw, hib] at hbit
    cases b <;> simpa using hbit
  · intro h
    apply BitVec.eq_of_getLsbD_eq
    intro k hk
    simp only [BitVec.getLsbD_and, BitVec.getLsbD_ushiftRight]
    by_cases hw : shift ts + k < w
    · rw [getLsbD_mask ts hw, getLsbD_key ts hw]
      rcases hp : ts.reverse[shift ts + k]? with - | - | b
      · simp
      · simp
      · rw [h _ b hp]
        cases b <;> rfl
    · rw [BitVec.getLsbD_of_ge x _ (by omega), BitVec.getLsbD_of_ge (key ts) _ (by omega),
        Bool.false_and]

end Ysyx.Ternary
