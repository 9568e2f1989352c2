import Mathlib.Data.BitVec
import Mathlib.Tactic

/-! Little-endian words over byte-valued functions. A read is a fold over the
bytes it covers and a write replaces a window of bytes, so every fact about
overlapping accesses reduces to a fact about one byte. -/

namespace Ysyx.Bytes

abbrev Byte := BitVec 8
abbrev Word := BitVec 32

/-- Byte `k` of a word, counted from the least significant one. -/
def byteOf (d : Word) (k : ℕ) : Byte := d.extractLsb' (8 * k) 8

/-- The word whose byte `k` is `f k` for `k < n`, and whose other bytes are zero. -/
def leWord (f : ℕ → Byte) : ℕ → Word
  | 0 => 0
  | n + 1 => leWord f n ||| ((f n).setWidth 32 <<< (8 * n))

theorem leWord_congr {f g : ℕ → Byte} {n : ℕ} (h : ∀ k < n, f k = g k) :
    leWord f n = leWord g n := by
  induction n with
  | zero => rfl
  | succ n ih =>
    simp only [leWord, h n (Nat.lt_succ_self n)]
    rw [ih fun k hk => h k (Nat.lt_succ_of_lt hk)]

theorem getLsbD_leWord (f : ℕ → Byte) (n i : ℕ) :
    (leWord f n).getLsbD i =
      (decide (i < 32) && decide (i < 8 * n) && (f (i / 8)).getLsbD (i % 8)) := by
  induction n with
  | zero => simp [leWord]
  | succ n ih =>
    simp only [leWord, BitVec.getLsbD_or, ih, BitVec.getLsbD_shiftLeft, BitVec.getLsbD_setWidth]
    by_cases hi : i < 8 * n
    · simp [hi, show i < 8 * (n + 1) by omega]
    · by_cases hn : i < 8 * (n + 1)
      · have hd : i / 8 = n := by omega
        have hm : i - 8 * n = i % 8 := by omega
        have hl : i % 8 < 32 := by omega
        simp [hi, hn, hd, hm, hl]
      · have hz : (f n).getLsbD (i - 8 * n) = false := BitVec.getLsbD_of_ge _ _ (by omega)
        simp [hi, hn, hz]

theorem byteOf_leWord (f : ℕ → Byte) (n k : ℕ) (hn : n ≤ 4) :
    byteOf (leWord f n) k = if k < n then f k else 0 := by
  apply BitVec.eq_of_getLsbD_eq
  intro i hi
  simp only [byteOf, BitVec.getLsbD_extractLsb', getLsbD_leWord]
  have hd : (8 * k + i) / 8 = k := by omega
  have hm : (8 * k + i) % 8 = i := by omega
  split_ifs with hk
  · simp [hi, hd, hm, show 8 * k + i < 32 by omega, show 8 * k + i < 8 * n by omega]
  · simp [show ¬ 8 * k + i < 8 * n by omega]

theorem leWord_byteOf (d : Word) : leWord (byteOf d) 4 = d := by
  apply BitVec.eq_of_getLsbD_eq
  intro i hi
  have hm : i % 8 < 8 := Nat.mod_lt _ (by decide)
  have hs : 8 * (i / 8) + i % 8 = i := Nat.div_add_mod i 8
  rw [getLsbD_leWord, byteOf, BitVec.getLsbD_extractLsb', hs]
  simp only [hi, hm, decide_true, Bool.true_and]

/-- The bytes `d₀ d₁ …` of `d` written over the window of `n` cells at `p`. -/
def writeWindow (m : ℕ → Byte) (p n : ℕ) (d : Word) : ℕ → Byte :=
  fun i => if p ≤ i ∧ i < p + n then byteOf d (i - p) else m i

theorem writeWindow_in (m : ℕ → Byte) {p n i : ℕ} (d : Word) (h : p ≤ i ∧ i < p + n) :
    writeWindow m p n d i = byteOf d (i - p) := if_pos h

theorem writeWindow_out (m : ℕ → Byte) {p n i : ℕ} (d : Word) (h : ¬ (p ≤ i ∧ i < p + n)) :
    writeWindow m p n d i = m i := if_neg h

def loadLE (m : Word → Byte) (a : Word) (n : ℕ) : Word :=
  leWord (fun k => m (a + BitVec.ofNat 32 k)) n

def storeLE (m : Word → Byte) (a : Word) (n : ℕ) (d : Word) : Word → Byte :=
  fun b => if (b - a).toNat < n then byteOf d (b - a).toNat else m b

theorem storeLE_in (m : Word → Byte) {a b : Word} {n : ℕ} (d : Word) (h : (b - a).toNat < n) :
    storeLE m a n d b = byteOf d (b - a).toNat := if_pos h

theorem storeLE_out (m : Word → Byte) {a b : Word} {n : ℕ} (d : Word) (h : ¬ (b - a).toNat < n) :
    storeLE m a n d b = m b := if_neg h

theorem add_ofNat_sub (a : Word) (k : ℕ) (hk : k < 2 ^ 32) :
    (a + BitVec.ofNat 32 k - a).toNat = k := by
  rw [add_sub_cancel_left, BitVec.toNat_ofNat, Nat.mod_eq_of_lt hk]

theorem loadLE_congr {m m' : Word → Byte} {a : Word} {n : ℕ}
    (h : ∀ k < n, m (a + BitVec.ofNat 32 k) = m' (a + BitVec.ofNat 32 k)) :
    loadLE m a n = loadLE m' a n := leWord_congr h

theorem loadLE_storeLE_same (m : Word → Byte) (a d : Word) : loadLE (storeLE m a 4 d) a 4 = d := by
  rw [← leWord_byteOf d]
  refine leWord_congr fun k hk => ?_
  have h := add_ofNat_sub a k (by omega)
  rw [storeLE_in _ _ (by omega), h, leWord_byteOf]

end Ysyx.Bytes
