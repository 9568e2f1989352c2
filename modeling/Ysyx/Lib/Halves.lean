import Ysyx.Lib.Bytes

/-! The halves of a 64-bit word, and when an operation on the low halves agrees with the one on the
whole. -/

namespace Ysyx.Halves

open Bytes

variable (a b : BitVec 64)

def lo : Word := a.setWidth 32

def hi : Word := a.extractLsb' 32 32

theorem toNat_lo : (lo a).toNat = a.toNat % 2 ^ 32 := BitVec.toNat_setWidth 32 a

theorem toNat_hi : (hi a).toNat = a.toNat / 2 ^ 32 := by
  have ha := a.isLt
  rw [hi, BitVec.extractLsb'_toNat, Nat.shiftRight_eq_div_pow]
  exact Nat.mod_eq_of_lt (by omega)

theorem toNat_eq_halves : a.toNat = 2 ^ 32 * (hi a).toNat + (lo a).toNat := by
  rw [toNat_hi, toNat_lo]
  exact (Nat.div_add_mod _ _).symm

theorem toInt_eq_halves : a.toInt = 2 ^ 32 * (hi a).toInt + (lo a).toNat := by
  have hn := toNat_eq_halves a
  have hlo := (lo a).isLt
  have hhi := (hi a).isLt
  rw [BitVec.toInt_eq_toNat_cond, BitVec.toInt_eq_toNat_cond]
  split_ifs <;> omega

theorem getLsbD_lo {k : ℕ} (h : k < 32) : (lo a).getLsbD k = a.getLsbD k := by
  rw [lo, BitVec.getLsbD_setWidth, decide_eq_true h, Bool.true_and]

theorem getLsbD_hi {k : ℕ} (h : k < 32) : (hi a).getLsbD k = a.getLsbD (32 + k) := by
  rw [hi, BitVec.getLsbD_extractLsb', decide_eq_true h, Bool.true_and]

/-- Where the upper halves differ they decide, and otherwise the lower ones do. -/
def SignedAgree : Prop :=
  if hi a = hi b then (lo a).msb = (lo b).msb else (hi a).slt (hi b) = (lo a).slt (lo b)

def UnsignedAgree : Prop := hi a = hi b ∨ (hi a).ult (hi b) = (lo a).ult (lo b)

variable {a b}

theorem slt_lo_iff : (lo a).slt (lo b) = a.slt b ↔ SignedAgree a b := by
  have ha := toInt_eq_halves a
  have hb := toInt_eq_halves b
  have hla := (lo a).isLt
  have hlb := (lo b).isLt
  have hslt (x y : ℤ) (p : Prop) [Decidable p] : decide (x < y) = decide p ↔ (x < y ↔ p) := by
    rw [decide_eq_decide]
  unfold SignedAgree
  split_ifs with h
  · rw [h] at ha
    rw [BitVec.slt, BitVec.slt, hslt, BitVec.toInt_eq_msb_cond (lo a),
      BitVec.toInt_eq_msb_cond (lo b),
      BitVec.msb_eq_decide, BitVec.msb_eq_decide]
    simp only [decide_eq_true_eq, decide_eq_decide]
    split_ifs <;> omega
  · have hne : (hi a).toInt ≠ (hi b).toInt := fun he => h (BitVec.eq_of_toInt_eq he)
    rw [BitVec.slt, BitVec.slt, BitVec.slt, hslt, hslt]
    omega

theorem ult_lo_iff : (lo a).ult (lo b) = a.ult b ↔ UnsignedAgree a b := by
  have ha := toNat_eq_halves a
  have hb := toNat_eq_halves b
  have hla := (lo a).isLt
  have hlb := (lo b).isLt
  have hne : hi a = hi b ↔ (hi a).toNat = (hi b).toNat := BitVec.toNat_inj.symm
  unfold UnsignedAgree
  rw [hne, BitVec.ult, BitVec.ult, BitVec.ult, decide_eq_decide, decide_eq_decide]
  omega

section Shifts

variable (a) (n : ℕ)

def ShlAgree : Prop := n < 32 ∨ 2 ^ (96 - n) ∣ a.toNat

def ShrAgree : Prop := if n < 32 then hi a = 0 else hi a >>> (n - 32) = lo a >>> (n - 32)

/-- The sign is taken from bit 31. -/
def SarAgree : Prop :=
  if (lo a).msb then
    if n < 32 then hi a = BitVec.allOnes 32 else hi a >>> (n - 32) = lo a >>> (n - 32)
  else if n < 32 then n = 0 ∨ a.msb = false else a.toNat < 2 ^ (n - 32)

variable {a n}

theorem shl_mod_iff (hn : n < 64) : a <<< (n % 32) = a <<< n ↔ ShlAgree a n := by
  unfold ShlAgree
  by_cases h : n < 32
  · rw [Nat.mod_eq_of_lt h]
    exact iff_of_true rfl (.inl h)
  · obtain ⟨k, rfl⟩ : ∃ k, n = k + 32 := ⟨n - 32, by omega⟩
    have hmod : (k + 32) % 32 = k := by omega
    have hexp : 96 - (k + 32) = 64 - k := by omega
    have hpow : 2 ^ (64 - k) * 2 ^ k = 2 ^ 64 := by
      rw [← pow_add]
      exact congrArg (2 ^ ·) (by omega)
    have hzero : a <<< k = 0 ↔ 2 ^ (64 - k) ∣ a.toNat := by
      rw [← BitVec.toNat_inj, BitVec.toNat_shiftLeft, Nat.shiftLeft_eq, ← hpow,
        ← Nat.mul_dvd_mul_iff_right (Nat.two_pow_pos k)]
      exact Nat.dvd_iff_mod_eq_zero.symm
    have htwice : a <<< (k + 32) = (a <<< k) <<< 32 := by rw [BitVec.shiftLeft_add]
    rw [hmod, hexp, ← hzero, htwice, or_iff_right h]
    constructor
    · intro he
      -- shifted by 32 twice, nothing is left
      have he2 : a <<< k = ((a <<< k) <<< 32) <<< 32 := by rw [← he, ← he]
      rw [← BitVec.shiftLeft_add] at he2
      exact he2.trans (BitVec.shiftLeft_eq_zero (by decide))
    · intro hz
      rw [hz]
      rfl

theorem shr_lo_iff (hn : n < 64) :
    (lo a >>> (n % 32)).setWidth 64 = a >>> n ↔ ShrAgree a n := by
  have ha := toNat_eq_halves a
  have hle : 32 ≤ 64 := by decide
  unfold ShrAgree
  rw [← BitVec.toNat_inj, BitVec.toNat_setWidth_of_le hle, BitVec.toNat_ushiftRight,
    BitVec.toNat_ushiftRight, Nat.shiftRight_eq_div_pow, Nat.shiftRight_eq_div_pow]
  split_ifs with h
  · have hpow : 2 ^ 32 = 2 ^ (32 - n) * 2 ^ n := by
      rw [← pow_add]
      exact congrArg (2 ^ ·) (by omega)
    have hdiv : a.toNat / 2 ^ n = 2 ^ (32 - n) * (hi a).toNat + (lo a).toNat / 2 ^ n := by
      rw [ha, hpow, Nat.mul_right_comm, Nat.add_comm, Nat.add_mul_div_right _ _ (Nat.two_pow_pos n),
        Nat.add_comm]
    have hpos := Nat.two_pow_pos (32 - n)
    rw [Nat.mod_eq_of_lt h, hdiv, ← BitVec.toNat_inj]
    change _ ↔ (hi a).toNat = 0
    constructor
    · intro he
      exact (Nat.mul_eq_zero.1 (by omega)).resolve_left hpos.ne'
    · intro hz
      rw [hz, Nat.mul_zero, Nat.zero_add]
  · have hmod : n % 32 = n - 32 := by omega
    have hpow : 2 ^ n = 2 ^ 32 * 2 ^ (n - 32) := by
      rw [← pow_add]
      exact congrArg (2 ^ ·) (by omega)
    rw [← BitVec.toNat_inj, BitVec.toNat_ushiftRight, BitVec.toNat_ushiftRight,
      Nat.shiftRight_eq_div_pow, Nat.shiftRight_eq_div_pow, hmod, hpow, ← Nat.div_div_eq_div_mul,
      toNat_hi]
    exact eq_comm

/-- The arithmetic shift as one of a 32-bit word is written, with the sign put above bit `32 - n`. -/
def sarLo (a : BitVec 64) (n : ℕ) : BitVec 64 :=
  (if (lo a).msb then BitVec.allOnes 64 else 0) <<< (32 - n % 32) ||| a >>> (n % 32)

theorem getLsbD_sarLo {k : ℕ} (hk : k < 64) :
    (sarLo a n).getLsbD k = ((lo a).msb && decide (32 - n % 32 ≤ k) || a.getLsbD (n % 32 + k)) := by
  rw [sarLo, BitVec.getLsbD_or, BitVec.getLsbD_shiftLeft, BitVec.getLsbD_ushiftRight,
    decide_eq_true hk, Bool.true_and]
  congr 1
  by_cases hlow : k < 32 - n % 32
  · rw [decide_eq_true hlow, decide_eq_false (by omega)]
    simp
  · rw [decide_eq_false hlow, decide_eq_true (by omega : 32 - n % 32 ≤ k)]
    cases (lo a).msb
    · simp
    · simp only [if_true, Bool.not_false, Bool.true_and, BitVec.getLsbD_allOnes]
      exact decide_eq_true (by omega)

theorem getLsbD_sar {k : ℕ} (hk : k < 64) :
    (a.sshiftRight n).getLsbD k = if n + k < 64 then a.getLsbD (n + k) else a.msb := by
  rw [BitVec.getLsbD_sshiftRight, decide_eq_false (by omega), Bool.not_false, Bool.true_and]

theorem msb_lo : (lo a).msb = a.getLsbD 31 := by
  rw [BitVec.msb_eq_getLsbD_last]
  exact getLsbD_lo a (by decide)

theorem sarLo_eq_iff_getLsbD (h31 : (lo a).msb = true) :
    sarLo a n = a.sshiftRight n ↔
      ∀ k < 64, (decide (32 - n % 32 ≤ k) || a.getLsbD (n % 32 + k)) =
        if n + k < 64 then a.getLsbD (n + k) else a.msb := by
  rw [BitVec.eq_of_getLsbD_eq_iff]
  refine forall₂_congr fun k hk => ?_
  rw [getLsbD_sarLo hk, getLsbD_sar hk, h31, Bool.true_and]

theorem sarLo_iff_ones (h31 : (lo a).msb = true) (h : n < 32) :
    sarLo a n = a.sshiftRight n ↔ hi a = BitVec.allOnes 32 := by
  rw [sarLo_eq_iff_getLsbD h31, Nat.mod_eq_of_lt h]
  constructor
  · intro he
    apply BitVec.eq_of_getLsbD_eq
    intro j hj
    have hbit := he (32 + j - n) (by omega)
    rw [decide_eq_true (show 32 - n ≤ 32 + j - n by omega), if_pos (by omega),
      show n + (32 + j - n) = 32 + j by omega] at hbit
    rw [getLsbD_hi a hj, BitVec.getLsbD_allOnes, decide_eq_true hj]
    exact hbit.symm
  · intro he k hk
    have hset : ∀ j < 32, a.getLsbD (32 + j) = true := by
      intro j hj
      rw [← getLsbD_hi a hj, he, BitVec.getLsbD_allOnes, decide_eq_true hj]
    have hmsb : a.msb = true := (BitVec.msb_eq_getLsbD_last a).trans (hset 31 (by decide))
    by_cases hhigh : 32 - n ≤ k
    · rw [decide_eq_true hhigh, Bool.true_or]
      split_ifs with hin
      · have hplace : n + k = 32 + (n + k - 32) := by omega
        rw [hplace]
        exact (hset _ (by omega)).symm
      · exact hmsb.symm
    · rw [decide_eq_false hhigh, Bool.false_or, if_pos (by omega)]

theorem sarLo_iff_hi (h31 : (lo a).msb = true) (h : ¬ n < 32) (hn : n < 64) :
    sarLo a n = a.sshiftRight n ↔ hi a >>> (n - 32) = lo a >>> (n - 32) := by
  obtain ⟨r, rfl⟩ : ∃ r, n = r + 32 := ⟨n - 32, by omega⟩
  have hmod : (r + 32) % 32 = r := by omega
  rw [sarLo_eq_iff_getLsbD h31, hmod, Nat.add_sub_cancel]
  constructor
  · intro he
    apply BitVec.eq_of_getLsbD_eq
    intro k hk
    rw [BitVec.getLsbD_ushiftRight, BitVec.getLsbD_ushiftRight]
    by_cases hin : r + k < 32
    · have hbit := he k (by omega)
      rw [decide_eq_false (by omega), Bool.false_or, if_pos (by omega)] at hbit
      rw [getLsbD_hi a hin, getLsbD_lo a hin, hbit]
      exact congrArg a.getLsbD (by omega)
    · rw [BitVec.getLsbD_of_ge _ _ (by omega), BitVec.getLsbD_of_ge _ _ (by omega)]
  · intro he k hk
    have hsame : ∀ k, r + k < 32 → a.getLsbD (32 + (r + k)) = a.getLsbD (r + k) := by
      intro k hk
      have hbit := congrArg (fun x => x.getLsbD k) he
      simp only [BitVec.getLsbD_ushiftRight] at hbit
      rwa [getLsbD_hi a hk, getLsbD_lo a hk] at hbit
    by_cases hhigh : 32 - r ≤ k
    · -- the sign of the whole is bit 31 again
      have hlast := hsame (31 - r) (by omega)
      have hplace : r + (31 - r) = 31 := by omega
      rw [hplace, ← msb_lo, h31] at hlast
      rw [decide_eq_true hhigh, Bool.true_or, if_neg (by omega), BitVec.msb_eq_getLsbD_last]
      exact hlast.symm
    · rw [decide_eq_false hhigh, Bool.false_or, if_pos (by omega), ← hsame k (by omega)]
      exact congrArg a.getLsbD (by omega)

theorem sarLo_of_msb_false (h31 : (lo a).msb = false) : sarLo a n = a >>> (n % 32) := by
  rw [sarLo, h31]
  simp

theorem sarLo_iff_zero (h31 : (lo a).msb = false) (h : n < 32) :
    sarLo a n = a.sshiftRight n ↔ n = 0 ∨ a.msb = false := by
  rw [sarLo_of_msb_false h31, Nat.mod_eq_of_lt h]
  constructor
  · intro he
    by_contra hne
    obtain ⟨hn0, hmsb⟩ := not_or.1 hne
    have hbit := congrArg (fun x => x.getLsbD 63) he
    simp only [getLsbD_sar (show 63 < 64 by decide), BitVec.getLsbD_ushiftRight] at hbit
    rw [if_neg (by omega), BitVec.getLsbD_of_ge _ _ (by omega)] at hbit
    exact hmsb hbit.symm
  · rintro (rfl | hmsb)
    · rw [BitVec.sshiftRight_zero, BitVec.ushiftRight_zero]
    · exact (BitVec.sshiftRight_eq_of_msb_false hmsb).symm

theorem sarLo_iff_small (h31 : (lo a).msb = false) (h : ¬ n < 32) (hn : n < 64) :
    sarLo a n = a.sshiftRight n ↔ a.toNat < 2 ^ (n - 32) := by
  obtain ⟨r, rfl⟩ : ∃ r, n = r + 32 := ⟨n - 32, by omega⟩
  have hmod : (r + 32) % 32 = r := by omega
  rw [sarLo_of_msb_false h31, hmod, Nat.add_sub_cancel]
  constructor
  · intro he
    have hmsb : a.msb = false := by
      by_contra hne
      have hset : a.msb = true := by simpa using hne
      -- the shifted sign is at place 31 too
      have hbit := congrArg (fun x => x.getLsbD (31 - r)) he
      simp only [getLsbD_sar (show 31 - r < 64 by omega), BitVec.getLsbD_ushiftRight] at hbit
      have hplace : r + 32 + (31 - r) = 63 := by omega
      have hplace' : r + (31 - r) = 31 := by omega
      rw [hplace, hplace', ← msb_lo, h31, if_pos (by decide)] at hbit
      rw [BitVec.msb_eq_getLsbD_last] at hset
      exact absurd (hbit.trans hset) (by decide)
    rw [BitVec.sshiftRight_eq_of_msb_false hmsb, ← BitVec.toNat_inj, BitVec.toNat_ushiftRight,
      BitVec.toNat_ushiftRight, Nat.shiftRight_eq_div_pow, Nat.shiftRight_eq_div_pow, pow_add,
      ← Nat.div_div_eq_div_mul] at he
    have hzero : ∀ x : ℕ, x = x / 2 ^ 32 → x = 0 := fun x hx => by omega
    exact (Nat.div_eq_zero_iff_lt (Nat.two_pow_pos r)).1 (hzero _ he)
  · intro hlt
    have hr : 2 ^ r ≤ 2 ^ 63 := Nat.pow_le_pow_right (by decide) (by omega)
    have hmsb : a.msb = false := by
      rw [BitVec.msb_eq_decide]
      exact decide_eq_false (Nat.not_le.2 (hlt.trans_le hr))
    have hlt' : a.toNat < 2 ^ (r + 32) := hlt.trans_le (Nat.pow_le_pow_right (by decide) (by omega))
    rw [BitVec.sshiftRight_eq_of_msb_false hmsb, ← BitVec.toNat_inj, BitVec.toNat_ushiftRight,
      BitVec.toNat_ushiftRight, Nat.shiftRight_eq_div_pow, Nat.shiftRight_eq_div_pow,
      Nat.div_eq_of_lt hlt, Nat.div_eq_of_lt hlt']

theorem sarLo_iff (hn : n < 64) : sarLo a n = a.sshiftRight n ↔ SarAgree a n := by
  unfold SarAgree
  cases h31 : (lo a).msb with
  | false =>
    rw [if_neg Bool.false_ne_true]
    split_ifs with h
    · exact sarLo_iff_zero h31 h
    · exact sarLo_iff_small h31 h hn
  | true =>
    rw [if_pos rfl]
    split_ifs with h
    · exact sarLo_iff_ones h31 h
    · exact sarLo_iff_hi h31 h hn

end Shifts

theorem ofInt_eq_ofInt_iff {x y : ℤ} (hx : -2 ^ 63 ≤ x ∧ x < 2 ^ 63)
    (hy : -2 ^ 63 ≤ y ∧ y < 2 ^ 63) :
    BitVec.ofInt 64 x = BitVec.ofInt 64 y ↔ x = y := by
  have hself {z : ℤ} (hz : -2 ^ 63 ≤ z ∧ z < 2 ^ 63) : (BitVec.ofInt 64 z).toInt = z := by
    rw [BitVec.toInt_ofInt]
    exact Int.bmod_eq_of_le (by norm_num at hz ⊢; linarith) (by norm_num at hz ⊢; linarith)
  constructor
  · intro h
    have hi := congrArg BitVec.toInt h
    rwa [hself hx, hself hy] at hi
  · rintro rfl
    rfl

/-- A value of the whole against one of the low half that is extended by its sign. -/
theorem signExtend_eq_ofInt_iff {v : Word} {x : ℤ} (hx : -2 ^ 63 ≤ x ∧ x < 2 ^ 63) :
    v.signExtend 64 = BitVec.ofInt 64 x ↔ v.toInt = x := by
  have hv : -2 ^ 63 ≤ v.toInt ∧ v.toInt < 2 ^ 63 := by
    have hlo := BitVec.le_toInt v
    have hhi := BitVec.toInt_lt (x := v)
    constructor <;> norm_num at hlo hhi ⊢ <;> linarith
  rw [← ofInt_eq_ofInt_iff hv hx]
  exact Iff.rfl

end Ysyx.Halves
