import Ysyx.Lib.Align

/-! Ranges of a memory addressed by machine words of any width, and copies of one range over
another. A copy is determined by the cells it fills and the cells it leaves, so two routines that
copy the same range end in the same memory. -/

namespace Ysyx.Region

variable {w : ℕ} {β : Type}

/-- The address `k` cells after `p`. -/
def off (p : BitVec w) (k : ℕ) : BitVec w := p + BitVec.ofNat w k

@[simp] theorem off_zero (p : BitVec w) : off p 0 = p := by simp [off]

theorem off_add_one (p : BitVec w) (k : ℕ) : off p k + 1 = off p (k + 1) := by
  simp only [off, BitVec.ofNat_add, add_assoc]
  rfl

theorem off_succ_sub_one (p : BitVec w) (k : ℕ) : off p (k + 1) - 1 = off p k := by
  rw [← off_add_one, add_sub_cancel_right]

theorem off_toNat_self (p n : BitVec w) : off p n.toNat = p + n := by
  rw [off, BitVec.ofNat_toNat, BitVec.setWidth_eq]

theorem off_toNat {p : BitVec w} {k : ℕ} (h : p.toNat + k < 2 ^ w) :
    (off p k).toNat = p.toNat + k := toNat_add_ofNat h

theorem off_eq_off {p q : BitVec w} {i j : ℕ} (hp : p.toNat + i < 2 ^ w)
    (hq : q.toNat + j < 2 ^ w) : off p i = off q j ↔ p.toNat + i = q.toNat + j := by
  rw [BitVec.toNat_inj.symm, off_toNat hp, off_toNat hq]

/-- No cell of the `n` at `p` is one of the `n` at `q`. -/
def Apart (p q : BitVec w) (n : ℕ) : Prop := ∀ i < n, ∀ j < n, off p i ≠ off q j

theorem apart_iff {p q : BitVec w} {n : ℕ} (hp : p.toNat + n ≤ 2 ^ w) (hq : q.toNat + n ≤ 2 ^ w) :
    Apart p q n ↔ n = 0 ∨ p.toNat + n ≤ q.toNat ∨ q.toNat + n ≤ p.toNat := by
  constructor
  · intro h
    by_contra hn
    rcases le_total p.toNat q.toNat with hpq | hpq
    · refine h (q.toNat - p.toNat) (by omega) 0 (by omega) ?_
      rw [off_eq_off (by omega) (by omega)]
      omega
    · refine h 0 (by omega) (p.toNat - q.toNat) (by omega) ?_
      rw [off_eq_off (by omega) (by omega)]
      omega
  · rintro h i hi j hj he
    rw [off_eq_off (by omega) (by omega)] at he
    omega

/-- Cells `i` to `j` of the range at `dst` hold in `m'` what those of the range at `src` held in
`m`, and every other cell is as in `m`. -/
structure Copied (m m' : BitVec w → β) (dst src : BitVec w) (i j : ℕ) : Prop where
  copied : ∀ k, i ≤ k → k < j → m' (off dst k) = m (off src k)
  frame : ∀ a, (∀ k, i ≤ k → k < j → a ≠ off dst k) → m' a = m a

section Copied

variable {m m' m'' : BitVec w → β} {dst src : BitVec w} {i j : ℕ}

theorem Copied.refl (m : BitVec w → β) (dst src : BitVec w) {i j : ℕ} (h : j ≤ i) :
    Copied m m dst src i j :=
  ⟨fun k h1 h2 => by omega, fun _ _ => rfl⟩

theorem Copied.unique (h : Copied m m' dst src i j) (h' : Copied m m'' dst src i j) : m' = m'' := by
  funext a
  by_cases ha : ∃ k, i ≤ k ∧ k < j ∧ a = off dst k
  · obtain ⟨k, hi, hj, rfl⟩ := ha
    rw [h.copied k hi hj, h'.copied k hi hj]
  · have hout : ∀ k, i ≤ k → k < j → a ≠ off dst k :=
      fun k hi hj he => ha ⟨k, hi, hj, he⟩
    rw [h.frame a hout, h'.frame a hout]

/-- The lowest cell first: none of the sources still to be read may lie in it. -/
theorem Copied.cons (hij : i < j)
    (hdst : ∀ k, i < k → k < j → off dst i ≠ off dst k)
    (hsrc : ∀ k, i < k → k < j → off src k ≠ off dst i)
    (h : Copied (Function.update m (off dst i) (m (off src i))) m' dst src (i + 1) j) :
    Copied m m' dst src i j where
  copied k hi hj := by
    rcases Nat.eq_or_lt_of_le hi with rfl | hlt
    · rw [h.frame _ fun k' hi' hj' => hdst k' hi' hj', Function.update_self]
    · rw [h.copied k hlt hj, Function.update_of_ne (hsrc k hlt hj)]
  frame a ha := by
    rw [h.frame a fun k hi hj => ha k (by omega) hj, Function.update_of_ne (ha i le_rfl hij)]

theorem Copied.snoc (hij : i ≤ j)
    (hdst : ∀ k, i ≤ k → k < j → off dst j ≠ off dst k)
    (hsrc : ∀ k, i ≤ k → k < j → off src k ≠ off dst j)
    (h : Copied (Function.update m (off dst j) (m (off src j))) m' dst src i j) :
    Copied m m' dst src i (j + 1) where
  copied k hi hj := by
    rcases Nat.eq_or_lt_of_le (Nat.lt_succ_iff.1 hj) with rfl | hlt
    · rw [h.frame _ fun k' hi' hj' => hdst k' hi' hj', Function.update_self]
    · rw [h.copied k hi hlt, Function.update_of_ne (hsrc k hi hlt)]
  frame a ha := by
    rw [h.frame a fun k hi hj => ha k hi (by omega),
      Function.update_of_ne (ha j hij (Nat.lt_succ_self j))]

end Copied

end Ysyx.Region
