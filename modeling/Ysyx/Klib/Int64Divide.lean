import Ysyx.Klib.Int64Counts
import Ysyx.Lib.ShiftArith

/-! `__udivmoddi4` divides: every case of it, for every dividend and divisor. -/

namespace Ysyx.Klib.Int64

open Bytes Halves ZeroCount ShiftArith

section Halves

variable (a : DWord) (d : Udwords)

theorem all_ofAll : (Udwords.ofAll a).all = a := by
  apply BitVec.eq_of_getLsbD_eq
  intro i hi
  rw [Udwords.all, Udwords.ofAll, BitVec.getLsbD_append]
  by_cases h : i < 32
  · rw [if_pos h, getLsbD_lo a h]
  · rw [if_neg h, getLsbD_hi a (by omega), Nat.add_sub_cancel' (by omega)]

theorem toNat_all : d.all.toNat = 2 ^ 32 * d.high.toNat + d.low.toNat := by
  rw [Udwords.all, BitVec.toNat_append, Nat.shiftLeft_eq, Nat.mul_comm,
    ← Nat.two_pow_add_eq_or_of_lt d.low.isLt]

/-- One place up, with a bit coming in. -/
theorem all_shiftLeft_or (c : Word) :
    Udwords.all ⟨(d.high <<< 1) ||| (d.low >>> 31), (d.low <<< 1) ||| c⟩ =
      (d.all <<< 1) ||| c.setWidth 64 := by
  apply BitVec.eq_of_getLsbD_eq
  intro i hi
  simp only [Udwords.all, BitVec.getLsbD_append, BitVec.getLsbD_or, BitVec.getLsbD_shiftLeft,
    BitVec.getLsbD_ushiftRight, BitVec.getLsbD_setWidth]
  grind

end Halves

section Splits

variable (a : DWord) {s : ℕ}

theorem below_q (h : s ≤ 32) :
    Udwords.all ⟨lo a <<< (32 - s), 0⟩ = a <<< (64 - s) := by
  apply BitVec.eq_of_getLsbD_eq
  intro i hi
  simp only [Udwords.all, BitVec.getLsbD_append, BitVec.getLsbD_shiftLeft, getLsbD_zero_word]
  by_cases h1 : i < 32
  · grind
  · rw [lo, BitVec.getLsbD_setWidth]
    grind

theorem below_r (h : s ≤ 32) :
    Udwords.all ⟨hi a >>> s, (hi a <<< (32 - s)) ||| (lo a >>> s)⟩ = a >>> s := by
  apply BitVec.eq_of_getLsbD_eq
  intro i hi
  simp only [Udwords.all, BitVec.getLsbD_append, BitVec.getLsbD_or, BitVec.getLsbD_shiftLeft,
    BitVec.getLsbD_ushiftRight, Halves.hi, lo, BitVec.getLsbD_setWidth, BitVec.getLsbD_extractLsb']
  by_cases hsi : s + i < 32
  · grind
  · cases hbit : a.getLsbD (s + i) <;> grind

theorem above_q (h : 32 ≤ s) (h' : s ≤ 64) :
    Udwords.all ⟨(hi a <<< (64 - s)) ||| (lo a >>> (s - 32)), lo a <<< (64 - s)⟩ =
      a <<< (64 - s) := by
  apply BitVec.eq_of_getLsbD_eq
  intro i hi
  simp only [Udwords.all, BitVec.getLsbD_append, BitVec.getLsbD_or, BitVec.getLsbD_shiftLeft,
    BitVec.getLsbD_ushiftRight, Halves.hi, lo, BitVec.getLsbD_setWidth, BitVec.getLsbD_extractLsb']
  by_cases hsi : i - 32 < 64 - s
  · grind
  · cases hbit : a.getLsbD (i - (64 - s)) <;> grind

theorem above_r (h : 32 ≤ s) : Udwords.all ⟨0, hi a >>> (s - 32)⟩ = a >>> s := by
  apply BitVec.eq_of_getLsbD_eq
  intro i hi
  simp only [Udwords.all, BitVec.getLsbD_append, BitVec.getLsbD_ushiftRight, Halves.hi,
    BitVec.getLsbD_extractLsb', getLsbD_zero_word]
  grind

/-- The loop starts with the upper part of the dividend in `r`, and the rest at the top of `q`. -/
structure Start (a : DWord) (s : ℕ) (q r : Udwords) : Prop where
  q : q.all = a <<< (64 - s)
  r : r.all = a >>> s

theorem shl_ok {x k : Word} (h : k.toNat < 32) : shl x k = .ok (x <<< k.toNat) := if_pos h

theorem shr_ok {x k : Word} (h : k.toNat < 32) : shr x k = .ok (x >>> k.toNat) := if_pos h

variable {a} {s : Word}

theorem splitBelow_ok (h1 : 1 ≤ s.toNat) (h2 : s.toNat < 32) :
    ∃ q r, splitBelow (.ofAll a) s = .ok (.loop s q r) ∧ Start a s.toNat q r := by
  have hsub : (32 - s).toNat = 32 - s.toNat := by
    rw [BitVec.toNat_sub_of_le (by rw [BitVec.le_def]; exact h2.le)]
    rfl
  refine ⟨_, _, ?_, below_q a h2.le, below_r a h2.le⟩
  simp only [splitBelow, bind, Except.bind, shl_ok (k := 32 - s) (by omega), shr_ok h2, hsub]
  rfl

theorem splitMiddle_ok (h : s = 32) :
    ∃ q r, splitMiddle (.ofAll a) s = .loop s q r ∧ Start a s.toNat q r := by
  have hq := below_q a (s := 32) le_rfl
  have hr := above_r a (s := 32) le_rfl
  rw [Nat.sub_self, BitVec.shiftLeft_zero] at hq
  rw [Nat.sub_self, BitVec.ushiftRight_zero] at hr
  have h32 : s.toNat = 32 := by rw [h]; rfl
  rw [h32]
  exact ⟨_, _, rfl, hq, hr⟩

theorem splitAbove_ok (h1 : 32 < s.toNat) (h2 : s.toNat < 64) :
    ∃ q r, splitAbove (.ofAll a) s = .ok (.loop s q r) ∧ Start a s.toNat q r := by
  have hsub : (64 - s).toNat = 64 - s.toNat := by
    rw [BitVec.toNat_sub_of_le (by rw [BitVec.le_def]; exact h2.le)]
    rfl
  have hsub' : (s - 32).toNat = s.toNat - 32 := by
    rw [BitVec.toNat_sub_of_le (by rw [BitVec.le_def]; exact h1.le)]
    rfl
  refine ⟨_, _, ?_, above_q a h1.le h2.le, above_r a h1.le⟩
  simp only [splitAbove, bind, Except.bind, shl_ok (k := 64 - s) (by omega),
    shr_ok (k := s - 32) (by omega), hsub, hsub']
  rfl

end Splits

section Loop

variable {a b : DWord} {k : ℕ} {d : Udwords} {t : LoopState}

/-- The registers before `k` more turns: `r` is the remainder of the part of the dividend above
bit `k`; `q` has the rest of it at the top and the quotient of that part, but for the last bit,
at the bottom. -/
structure Dividing (n d k : ℕ) (t : LoopState) : Prop where
  r : t.r.all.toNat = n / 2 ^ k % d
  q : t.q.all.toNat = n % 2 ^ k * 2 ^ (64 - k) + n / 2 ^ k / d / 2
  carry : t.carry.toNat = n / 2 ^ k / d % 2

/-- The difference of divisor and remainder has the sign that the loop looks at: the divisor is
at most `2 ^ 63`, or there is one turn and the dividend is at least that. -/
def Near (n d k : ℕ) : Prop := d ≤ 2 ^ 63 ∨ k ≤ 1 ∧ 2 ^ 63 ≤ n

/-- A word of copies of the sign. -/
theorem sshiftRight_sign (x : DWord) :
    x.sshiftRight 63 = if x.msb then BitVec.allOnes 64 else 0 := by
  have hzero (i : ℕ) : (0 : DWord).getLsbD i = false := BitVec.getLsbD_zero
  apply BitVec.eq_of_getLsbD_eq
  intro i hi
  have hlast : x.getLsbD 63 = x.msb := (BitVec.msb_eq_getLsbD_last x).symm
  have hif : (if x.msb then BitVec.allOnes 64 else 0).getLsbD i = x.msb := by
    cases x.msb with
    | true => rw [if_pos rfl, BitVec.getLsbD_allOnes, decide_eq_true hi]
    | false => rw [if_neg (by decide), hzero]
  rw [BitVec.getLsbD_sshiftRight, hif, decide_eq_false (show ¬ 64 ≤ i by omega), Bool.not_false,
    Bool.true_and]
  split_ifs with h
  · obtain rfl : i = 0 := by omega
    exact hlast
  · rfl

/-- The mask of the subtraction. -/
theorem sign_mask {x y : DWord} (h : x.toNat < y.toNat → y.toNat ≤ 2 ^ 63 + x.toNat)
    (h' : x.toNat < 2 * y.toNat) :
    (y - x - 1).sshiftRight 63 = if y.toNat ≤ x.toNat then BitVec.allOnes 64 else 0 := by
  have hx := x.isLt
  have hy := y.isLt
  have hone : (1 : DWord).toNat = 1 := rfl
  have hmsb : (y - x - 1).msb = decide (y.toNat ≤ x.toNat) := by
    rw [BitVec.msb_eq_decide, decide_eq_decide, BitVec.toNat_sub, BitVec.toNat_sub, hone]
    omega
  rw [sshiftRight_sign, hmsb]
  simp only [decide_eq_true_eq]

theorem toNat_shiftLeft_or (x : DWord) {c : Word} (hc : c.toNat < 2) :
    ((x <<< 1) ||| c.setWidth 64).toNat = (2 * x.toNat + c.toNat) % 2 ^ 64 := by
  have hx := x.isLt
  have heven : x.toNat * 2 ^ 1 % 2 ^ 64 = 2 ^ 1 * (x.toNat % 2 ^ 63) := by omega
  have hwidth : (c.setWidth 64).toNat = c.toNat := by
    rw [BitVec.toNat_setWidth, Nat.mod_eq_of_lt (by omega)]
  rw [BitVec.toNat_or, BitVec.toNat_shiftLeft, Nat.shiftLeft_eq, heven, hwidth,
    ← Nat.two_pow_add_eq_or_of_lt (by omega)]
  omega

/-- The bit that goes from `q` to `r`. -/
theorem top_bit (q : Udwords) : (q.high >>> 31).toNat = q.all.toNat / 2 ^ 63 := by
  have hlow := q.low.isLt
  rw [toNat_all, BitVec.toNat_ushiftRight, Nat.shiftRight_eq_div_pow]
  omega

/-- What a turn does to the numbers in the registers. -/
theorem turn_eq {x : ℕ} (hc : t.carry.toNat < 2) (hx : 2 * t.r.all.toNat + t.q.all.toNat / 2 ^ 63 = x)
    (hlt : x < 2 ^ 64) (hfar : x < d.all.toNat → d.all.toNat ≤ 2 ^ 63 + x)
    (hdouble : x < 2 * d.all.toNat) :
    (turn d t).r.all.toNat = x - (if d.all.toNat ≤ x then d.all.toNat else 0) ∧
      (turn d t).q.all.toNat = (2 * t.q.all.toNat + t.carry.toNat) % 2 ^ 64 ∧
      (turn d t).carry.toNat = if d.all.toNat ≤ x then 1 else 0 := by
  have hq := t.q.all.isLt
  let r : Udwords := ⟨(t.r.high <<< 1) ||| (t.r.low >>> 31), (t.r.low <<< 1) ||| (t.q.high >>> 31)⟩
  have hr : r.all.toNat = x := by
    rw [all_shiftLeft_or, toNat_shiftLeft_or _ (by rw [top_bit]; omega), top_bit, hx,
      Nat.mod_eq_of_lt hlt]
  have hmask : (d.all - r.all - 1).sshiftRight 63 =
      if d.all.toNat ≤ x then BitVec.allOnes 64 else 0 := by
    rw [sign_mask (by rwa [hr]) (by rwa [hr]), hr]
  have hr' : (turn d t).r.all = r.all - (d.all &&& (d.all - r.all - 1).sshiftRight 63) :=
    all_ofAll _
  have hq' : (turn d t).q.all = (t.q.all <<< 1) ||| t.carry.setWidth 64 := all_shiftLeft_or _ _
  have hc' : (turn d t).carry = lo ((d.all - r.all - 1).sshiftRight 63 &&& 1) := rfl
  rw [hr', hq', hc', hmask, toNat_shiftLeft_or _ hc]
  split_ifs with hle
  · refine ⟨?_, rfl, rfl⟩
    rw [BitVec.and_allOnes, BitVec.toNat_sub_of_le (by rw [BitVec.le_def, hr]; exact hle), hr]
  · refine ⟨?_, rfl, rfl⟩
    have hand : d.all &&& (0 : DWord) = 0 := BitVec.and_zero
    rw [hand, sub_zero, hr]
    rfl

/-- One turn of the loop. -/
theorem turn_dividing {n : ℕ} (hn : n < 2 ^ 64) (hd : 0 < d.all.toNat) (hk : k < 63)
    (hnear : Near n d.all.toNat (k + 1)) (h : Dividing n d.all.toNat (k + 1) t) :
    Dividing n d.all.toNat k (turn d t) := by
  have hdlt := d.all.isLt
  obtain ⟨hdiv, hmod⟩ := div_turn n d.all.toNat k hd
  set D := d.all.toNat with hD
  set Q := n / 2 ^ (k + 1) / D with hQ
  set R := n / 2 ^ (k + 1) % D with hR
  have hRD : R < D := Nat.mod_lt _ hd
  -- the parts of the dividend above and below bit `k`
  have hpow : 2 ^ (k + 1) * 2 ^ (63 - k) = 2 ^ 64 := by
    rw [← pow_add, show k + 1 + (63 - k) = 64 by omega]
  have hpow' : 2 ^ k * 2 ^ (63 - k) = 2 ^ 63 := by
    rw [← pow_add, show k + (63 - k) = 63 by omega]
  have hhalf : 2 ^ (63 - k) ≤ 2 ^ 63 := Nat.pow_le_pow_right (by decide) (by omega)
  have hup : n / 2 ^ (k + 1) < 2 ^ (63 - k) := Nat.div_lt_of_lt_mul (by rwa [hpow])
  have hQlt : Q < 2 ^ (63 - k) := (Nat.div_le_self _ _).trans_lt hup
  have hRle : R ≤ n / 2 ^ (k + 1) := Nat.mod_le _ _
  have hlow : n % 2 ^ k * 2 ^ (63 - k) + 2 ^ (63 - k) ≤ 2 ^ 63 := by
    rw [← hpow', ← Nat.succ_mul]
    exact Nat.mul_le_mul_right _ (Nat.mod_lt _ (Nat.two_pow_pos k))
  have hbits : n % 2 ^ (k + 1) * 2 ^ (63 - k) =
      2 ^ 63 * (n / 2 ^ k % 2) + n % 2 ^ k * 2 ^ (63 - k) := by
    rw [Nat.mod_pow_succ, Nat.add_mul, Nat.mul_right_comm, hpow', Nat.add_comm]
  have hq : t.q.all.toNat = 2 ^ 63 * (n / 2 ^ k % 2) + n % 2 ^ k * 2 ^ (63 - k) + Q / 2 := by
    rw [h.q, ← hbits, show 64 - (k + 1) = 63 - k by omega]
  have htop : t.q.all.toNat / 2 ^ 63 = n / 2 ^ k % 2 := by omega
  have hcarry : t.carry.toNat = Q % 2 := h.carry
  have hx : 2 * t.r.all.toNat + t.q.all.toNat / 2 ^ 63 = 2 * R + n / 2 ^ k % 2 := by
    rw [h.r, htop]
  have hfar : 2 * R + n / 2 ^ k % 2 < D → D ≤ 2 ^ 63 + (2 * R + n / 2 ^ k % 2) := by
    intro hlt
    by_cases hle : D ≤ 2 ^ 63
    · omega
    · obtain ⟨hk0, hbig⟩ := hnear.resolve_left hle
      obtain rfl : k = 0 := by omega
      have hRn : R = n / 2 := by rw [hR, pow_one, Nat.mod_eq_of_lt (by omega)]
      rw [pow_zero, Nat.div_one]
      omega
  obtain ⟨hr', hq', hc'⟩ := turn_eq (d := d) (by omega) hx (by omega) hfar (by omega)
  rw [← hD] at hr' hc'
  refine ⟨hr'.trans hmod.symm, ?_, ?_⟩
  · have hhalf' : n / 2 ^ k / D / 2 = Q := by
      rw [hdiv]
      split_ifs <;> omega
    have hshift : n % 2 ^ k * 2 ^ (64 - k) = 2 * (n % 2 ^ k * 2 ^ (63 - k)) := by
      rw [show 64 - k = 63 - k + 1 by omega, pow_succ]
      ring
    rw [hq', hhalf', hshift, hcarry]
    omega
  · rw [hc', hdiv]
    split_ifs <;> omega

/-- The whole loop. -/
theorem turns_dividing {n : ℕ} (hn : n < 2 ^ 64) (hd : 0 < d.all.toNat) (hk : k ≤ 63)
    (hnear : Near n d.all.toNat k) (h : Dividing n d.all.toNat k t) :
    Dividing n d.all.toNat 0 (turns d k t) := by
  induction k generalizing t with
  | zero => exact h
  | succ k ih =>
    refine ih (by omega) ?_ (turn_dividing hn hd (by omega) hnear h)
    rcases hnear with hle | ⟨hk0, hbig⟩
    · exact .inl hle
    · exact .inr ⟨by omega, hbig⟩

/-- The loop and what follows it give the quotient and the remainder. -/
theorem loop_divides {q r : Udwords} (hb : 0 < b.toNat) (hk0 : 1 ≤ k) (hk : k ≤ 63)
    (hstart : Start a k q r) (hsmall : a.toNat < 2 ^ k * b.toNat) (hnear : Near a.toNat b.toNat k) :
    let t := turns (.ofAll b) k ⟨q, r, 0⟩
    ((t.q.all <<< 1) ||| t.carry.setWidth 64, t.r.all) = (a / b, a % b) := by
  intro t
  have ha := a.isLt
  have hball : (Udwords.ofAll b).all.toNat = b.toNat := by rw [all_ofAll]
  have hup : a.toNat / 2 ^ k < b.toNat := Nat.div_lt_of_lt_mul hsmall
  have hend : Dividing a.toNat b.toNat 0 t := by
    rw [← hball]
    refine turns_dividing ha (by rwa [hball]) hk (by rwa [hball]) ⟨?_, ?_, ?_⟩
    · rw [hstart.r, hball, BitVec.toNat_ushiftRight, Nat.shiftRight_eq_div_pow,
        Nat.mod_eq_of_lt hup]
    · have hpow : 2 ^ 64 = 2 ^ k * 2 ^ (64 - k) := by
        rw [← pow_add, show k + (64 - k) = 64 by omega]
      rw [hstart.q, hball, BitVec.toNat_shiftLeft, Nat.shiftLeft_eq, hpow, Nat.mul_mod_mul_right,
        Nat.div_eq_of_lt hup, Nat.zero_div, Nat.add_zero]
    · rw [hball, Nat.div_eq_of_lt hup]
      rfl
  have hq := hend.q
  have hr := hend.r
  have hc := hend.carry
  rw [pow_zero, Nat.mod_one, Nat.zero_mul, Nat.zero_add, Nat.div_one] at hq
  rw [pow_zero, Nat.div_one] at hr hc
  have hle : a.toNat / b.toNat ≤ a.toNat := Nat.div_le_self _ _
  refine Prod.ext (BitVec.eq_of_toNat_eq ?_) (BitVec.eq_of_toNat_eq ?_)
  · rw [toNat_shiftLeft_or _ (by omega), BitVec.toNat_udiv]
    omega
  · rw [BitVec.toNat_umod]
    exact hr

end Loop

section Cases

variable {a b : DWord}

/-- What a case has to come to. -/
def Planned (a b : DWord) : Plan → Prop
  | .done q rem => q = a / b ∧ rem = a % b
  | .loop sr q r => (1 ≤ sr.toNat ∧ sr.toNat ≤ 63) ∧ Start a sr.toNat q r ∧
      a.toNat < 2 ^ sr.toNat * b.toNat ∧ Near a.toNat b.toNat sr.toNat

theorem planned_done {q rem : DWord} (hq : q.toNat = a.toNat / b.toNat)
    (hr : rem.toNat = a.toNat % b.toNat) : Planned a b (.done q rem) :=
  ⟨BitVec.eq_of_toNat_eq (hq.trans (BitVec.toNat_udiv).symm),
    BitVec.eq_of_toNat_eq (hr.trans (BitVec.toNat_umod).symm)⟩

/-- The dividend is smaller than the divisor. -/
theorem planned_small (h : a.toNat < b.toNat) : Planned a b (.done 0 (Udwords.ofAll a).all) :=
  planned_done (Nat.div_eq_of_lt h).symm (by rw [all_ofAll, Nat.mod_eq_of_lt h])

theorem builtinClz_ok {x : Word} (hx : x ≠ 0) : builtinClz x = .ok x.clz := by
  rw [builtinClz, if_neg hx, clzsi2_eq]

theorem builtinCtz_ok {x : Word} (hx : x ≠ 0) : builtinCtz x = .ok x.ctz := by
  rw [builtinCtz, if_neg hx, ctzsi2_eq]

theorem udiv_ok (x : Word) {y : Word} (hy : y ≠ 0) : udiv x y = .ok (x / y) := if_neg hy

theorem umod_ok (x : Word) {y : Word} (hy : y ≠ 0) : umod x y = .ok (x % y) := if_neg hy

theorem ofAll_high (a : DWord) : (Udwords.ofAll a).high = hi a := rfl

theorem ofAll_low (a : DWord) : (Udwords.ofAll a).low = lo a := rfl

theorem toNat_low (x : Word) : (x.setWidth 64).toNat = x.toNat := by
  rw [BitVec.toNat_setWidth, Nat.mod_eq_of_lt (by have := x.isLt; omega)]

theorem toNat_eq_lo (h : hi a = 0) : a.toNat = (lo a).toNat := by
  have hnum := toNat_eq_halves a
  have h0 : (hi a).toNat = 0 := by rw [h]; rfl
  omega

theorem toNat_eq_hi (h : lo a = 0) : a.toNat = 2 ^ 32 * (hi a).toNat := by
  have hnum := toNat_eq_halves a
  have h0 : (lo a).toNat = 0 := by rw [h]; rfl
  omega

theorem toNat_ne_zero {x : Word} (h : x ≠ 0) : x.toNat ≠ 0 := fun h0 => h (BitVec.eq_of_toNat_eq h0)

/-- Both operands have an upper half: the difference of the counts wraps exactly when the divisor
has more digits than the dividend. -/
theorem high_counts (ha : hi a ≠ 0) (hb : hi b ≠ 0) :
    (31 < ((hi b).clz - (hi a).clz).toNat ∧ a.toNat < b.toNat) ∨
      ((hi b).clz - (hi a).clz).toNat ≤ (hi b).clz.toNat ∧
      ((hi b).clz - (hi a).clz + 1).toNat = ((hi b).clz - (hi a).clz).toNat + 1 ∧
      a.toNat < 2 ^ ((hi b).clz - (hi a).clz + 1).toNat * b.toNat ∧
      Near a.toNat b.toNat ((hi b).clz - (hi a).clz + 1).toNat := by
  obtain ⟨ha₁, ha₂⟩ := hi_bounds ha
  obtain ⟨hb₁, hb₂⟩ := hi_bounds hb
  have hca := toNat_clz_lt (show hi a ≠ 0#32 from ha)
  have hcb := toNat_clz_lt (show hi b ≠ 0#32 from hb)
  by_cases hle : (hi a).clz.toNat ≤ (hi b).clz.toNat
  · right
    have hsub : ((hi b).clz - (hi a).clz).toNat = (hi b).clz.toNat - (hi a).clz.toNat :=
      BitVec.toNat_sub_of_le hle
    have hsucc : ((hi b).clz - (hi a).clz + 1).toNat = ((hi b).clz - (hi a).clz).toNat + 1 := by
      rw [BitVec.toNat_add, Nat.mod_eq_of_lt (by change _ + 1 < _; omega)]
      rfl
    refine ⟨by omega, hsucc, ?_, ?_⟩
    · have hpow : 2 ^ (64 - (hi a).clz.toNat) =
          2 ^ ((hi b).clz - (hi a).clz + 1).toNat * 2 ^ (63 - (hi b).clz.toNat) := by
        rw [← pow_add, hsucc, hsub]
        congr 1
        omega
      calc a.toNat < 2 ^ (64 - (hi a).clz.toNat) := ha₂
        _ ≤ _ := by rw [hpow]; exact Nat.mul_le_mul_left _ hb₁
    · by_cases hc : (hi b).clz.toNat = 0
      · refine .inr ⟨by omega, ?_⟩
        rwa [show (hi a).clz.toNat = 0 by omega] at ha₁
      · refine .inl (hb₂.le.trans (Nat.pow_le_pow_right (by decide) (by omega)))
  · left
    constructor
    · rw [BitVec.toNat_sub]
      omega
    · exact (ha₂.trans_le (Nat.pow_le_pow_right (by decide) (by omega))).trans_le hb₁

/-- The counts of a divisor that is not a power of two. -/
theorem clz_lt_of_not_pow {x : Word} (hx : x ≠ 0) (hpow : ¬ x &&& (x - 1) = 0) :
    x.clz.toNat < 31 := by
  have hlt := toNat_clz_lt (show x ≠ 0#32 from hx)
  have hne : x.clz.toNat ≠ 31 := by
    intro h
    obtain ⟨h₁, h₂⟩ := clz_bounds (show x ≠ 0#32 from hx)
    rw [h] at h₁ h₂
    have hone : x = 1 := BitVec.eq_of_toNat_eq (by change _ = 1; omega)
    rw [hone] at hpow
    exact hpow (by decide)
  omega

/-- The divisor has only a lower half, and is not a power of two. -/
theorem low_counts (ha : hi a ≠ 0) (hb : hi b = 0) (hb0 : lo b ≠ 0)
    (hpow : lo b &&& (lo b - 1) ≠ 0) :
    (1 ≤ (1 + 32 + (lo b).clz - (hi a).clz).toNat ∧ (1 + 32 + (lo b).clz - (hi a).clz).toNat ≤ 63) ∧
      a.toNat < 2 ^ (1 + 32 + (lo b).clz - (hi a).clz).toNat * b.toNat := by
  obtain ⟨-, ha₂⟩ := hi_bounds ha
  obtain ⟨hb₁, hb₂⟩ := clz_bounds (show lo b ≠ 0#32 from hb0)
  have hca := toNat_clz_lt (show hi a ≠ 0#32 from ha)
  have hcb := clz_lt_of_not_pow hb0 hpow
  have hthirty : (1 + 32 : Word).toNat = 33 := rfl
  have hsum : (1 + 32 + (lo b).clz - (hi a).clz).toNat =
      33 + (lo b).clz.toNat - (hi a).clz.toNat := by
    have hadd : (1 + 32 + (lo b).clz).toNat = 33 + (lo b).clz.toNat := by
      rw [BitVec.toNat_add, hthirty, Nat.mod_eq_of_lt (by omega)]
    rw [BitVec.toNat_sub_of_le (by rw [BitVec.le_def, hadd]; omega), hadd]
  refine ⟨by omega, ?_⟩
  have hp : 2 ^ (64 - (hi a).clz.toNat) =
      2 ^ (33 + (lo b).clz.toNat - (hi a).clz.toNat) * 2 ^ (32 - 1 - (lo b).clz.toNat) := by
    rw [← pow_add]
    congr 1
    omega
  rw [hsum, toNat_eq_lo hb]
  calc a.toNat < 2 ^ (64 - (hi a).clz.toNat) := ha₂
    _ ≤ _ := by rw [hp]; exact Nat.mul_le_mul_left _ hb₁

theorem and_sub_one {x : Word} (hx : x ≠ 0) (h : x &&& (x - 1) = 0) (y : Word) :
    (y &&& (x - 1)).toNat = y.toNat % x.toNat := by
  have hx0 := toNat_ne_zero hx
  have hone : (1 : Word).toNat = 1 := rfl
  rw [BitVec.toNat_and, BitVec.toNat_sub_of_le (by rw [BitVec.le_def, hone]; omega), hone,
    eq_two_pow_ctz hx h, Nat.and_two_pow_sub_one_eq_mod]

/-- The dividend has only a lower half. -/
theorem plan_low (ha : hi a = 0) (hb : b ≠ 0) :
    ∃ p, plan (.ofAll a) (.ofAll b) = .ok p ∧ Planned a b p := by
  rw [plan, ofAll_high, ofAll_high, ofAll_low, ofAll_low, if_pos ha]
  by_cases hhi : hi b = 0
  · have hlo : lo b ≠ 0 := fun h => hb (eq_zero_of_halves hhi h)
    rw [if_pos hhi, umod_ok _ hlo, udiv_ok _ hlo]
    refine ⟨_, rfl, planned_done ?_ ?_⟩
    · rw [toNat_low, toNat_eq_lo ha, toNat_eq_lo hhi, BitVec.toNat_udiv]
    · rw [toNat_low, toNat_eq_lo ha, toNat_eq_lo hhi, BitVec.toNat_umod]
  · have hlt : a.toNat < b.toNat := by
      have hnum := toNat_eq_halves b
      have hpos := toNat_ne_zero hhi
      have hlow := (lo a).isLt
      rw [toNat_eq_lo ha]
      omega
    refine ⟨_, if_neg hhi, planned_done (Nat.div_eq_of_lt hlt).symm ?_⟩
    rw [Nat.mod_eq_of_lt hlt, toNat_low, toNat_eq_lo ha]

/-- `d` is a power of two, in the upper half. -/
theorem planned_shift (hlo : lo b = 0) (hhi : hi b ≠ 0) (hpow : hi b &&& (hi b - 1) = 0) :
    Planned a b (.done ((hi a >>> (hi b).ctz.toNat).setWidth 64)
      (Udwords.all ⟨hi a &&& (hi b - 1), lo a⟩)) := by
  have hb := toNat_eq_hi hlo
  have hnum := toNat_eq_halves a
  have hlow := (lo a).isLt
  have hupper : a.toNat / 2 ^ 32 = (hi a).toNat := by omega
  have hlower : a.toNat % 2 ^ 32 = (lo a).toNat := by omega
  refine planned_done ?_ ?_
  · rw [toNat_low, BitVec.toNat_ushiftRight, Nat.shiftRight_eq_div_pow, ← eq_two_pow_ctz hhi hpow, hb,
      ← Nat.div_div_eq_div_mul, hupper]
  · rw [toNat_all, and_sub_one hhi hpow, hb, Nat.mod_mul, hupper, hlower]
    exact Nat.add_comm _ _

/-- The divisor has only an upper half. -/
theorem plan_upper (ha : hi a ≠ 0) (hlo : lo b = 0) (hhi : hi b ≠ 0) :
    ∃ p, plan (.ofAll a) (.ofAll b) = .ok p ∧ Planned a b p := by
  rw [plan, ofAll_high, ofAll_high, ofAll_low, ofAll_low, if_neg ha, if_pos hlo, if_neg hhi]
  by_cases hal : lo a = 0
  · rw [if_pos hal, umod_ok _ hhi, udiv_ok _ hhi]
    refine ⟨_, rfl, planned_done ?_ ?_⟩
    · rw [toNat_low, toNat_eq_hi hal, toNat_eq_hi hlo, Nat.mul_div_mul_left _ _ (by decide),
        BitVec.toNat_udiv]
    · rw [toNat_all, toNat_eq_hi hal, toNat_eq_hi hlo, Nat.mul_mod_mul_left, BitVec.toNat_umod]
      rfl
  rw [if_neg hal]
  by_cases hpow : hi b &&& (hi b - 1) = 0
  · rw [if_pos hpow, builtinCtz_ok hhi]
    simp only [bind, Except.bind, shr_ok (toNat_ctz_lt (show hi b ≠ 0#32 from hhi))]
    exact ⟨_, rfl, planned_shift hlo hhi hpow⟩
  · have hclz := clz_lt_of_not_pow hhi hpow
    rw [if_neg hpow, builtinClz_ok hhi, builtinClz_ok ha]
    simp only [bind, Except.bind]
    rcases high_counts ha hhi with ⟨hbig, hlt⟩ | ⟨hle, hsucc, hsmall, hnear⟩
    · refine ⟨_, if_pos ?_, planned_small hlt⟩
      rw [gt_iff_lt, BitVec.lt_def]
      change 30 < _
      omega
    · obtain ⟨q, r, hsplit, hstart⟩ := splitBelow_ok (a := a)
        (s := (hi b).clz - (hi a).clz + 1) (by omega) (by omega)
      refine ⟨_, (if_neg ?_).trans hsplit, ⟨by omega, by omega⟩, hstart, hsmall, hnear⟩
      rw [gt_iff_lt, BitVec.lt_def]
      change ¬ 30 < _
      omega

/-- The divisor has only a lower half. -/
theorem plan_lower (ha : hi a ≠ 0) (hlo : lo b ≠ 0) (hhi : hi b = 0) :
    ∃ p, plan (.ofAll a) (.ofAll b) = .ok p ∧ Planned a b p := by
  have hbval := toNat_eq_lo hhi
  rw [plan, ofAll_high, ofAll_high, ofAll_low, ofAll_low, if_neg ha, if_neg hlo, if_pos hhi]
  by_cases hpow : lo b &&& (lo b - 1) = 0
  · have hval := eq_two_pow_ctz hlo hpow
    have hctz := toNat_ctz_lt (show lo b ≠ 0#32 from hlo)
    have hrem : ((lo a &&& (lo b - 1)).setWidth 64).toNat = a.toNat % b.toNat := by
      rw [toNat_low, and_sub_one hlo hpow, toNat_lo, hbval, hval,
        Nat.mod_mod_of_dvd _ (pow_dvd_pow 2 hctz.le)]
    rw [if_pos hpow]
    by_cases hone : lo b = 1
    · rw [if_pos hone]
      refine ⟨_, rfl, planned_done ?_ hrem⟩
      rw [all_ofAll, hbval, hone]
      exact (Nat.div_one _).symm
    · have hpos : (lo b).ctz.toNat ≠ 0 := by
        intro h
        rw [h, pow_zero] at hval
        exact hone (BitVec.eq_of_toNat_eq hval)
      have hsub : (32 - (lo b).ctz).toNat = 32 - (lo b).ctz.toNat := by
        rw [BitVec.toNat_sub_of_le (by rw [BitVec.le_def]; exact hctz.le)]
        rfl
      rw [if_neg hone, builtinCtz_ok hlo]
      simp only [bind, Except.bind, shr_ok hctz, shl_ok (k := 32 - (lo b).ctz) (by omega), hsub]
      refine ⟨_, rfl, planned_done ?_ hrem⟩
      rw [below_r a hctz.le, BitVec.toNat_ushiftRight, Nat.shiftRight_eq_div_pow, hbval, hval]
  · obtain ⟨hrange, hsmall⟩ := low_counts ha hhi hlo hpow
    have hnear : Near a.toNat b.toNat (1 + 32 + (lo b).clz - (hi a).clz).toNat := by
      have := (lo b).isLt
      exact .inl (by omega)
    rw [if_neg hpow, builtinClz_ok hlo, builtinClz_ok ha]
    simp only [bind, Except.bind]
    generalize 1 + 32 + (lo b).clz - (hi a).clz = sr at hrange hsmall hnear ⊢
    by_cases hmid : sr = 32
    · obtain ⟨q, r, hsplit, hstart⟩ := splitMiddle_ok (a := a) hmid
      rw [if_pos hmid, hsplit]
      exact ⟨_, rfl, hrange, hstart, hsmall, hnear⟩
    · have hne : sr.toNat ≠ 32 := fun h => hmid (BitVec.eq_of_toNat_eq h)
      rw [if_neg hmid]
      by_cases hlt : sr < 32
      · have hlt' : sr.toNat < 32 := BitVec.lt_def.mp hlt
        obtain ⟨q, r, hsplit, hstart⟩ := splitBelow_ok (a := a) hrange.1 hlt'
        rw [if_pos hlt, hsplit]
        exact ⟨_, rfl, hrange, hstart, hsmall, hnear⟩
      · have hge : 32 ≤ sr.toNat := by
          rw [BitVec.lt_def] at hlt
          exact not_lt.mp hlt
        obtain ⟨q, r, hsplit, hstart⟩ := splitAbove_ok (a := a) (s := sr) (by omega) (by omega)
        rw [if_neg hlt, hsplit]
        exact ⟨_, rfl, hrange, hstart, hsmall, hnear⟩

/-- The divisor has both halves. -/
theorem plan_both (ha : hi a ≠ 0) (hlo : lo b ≠ 0) (hhi : hi b ≠ 0) :
    ∃ p, plan (.ofAll a) (.ofAll b) = .ok p ∧ Planned a b p := by
  have hclz := toNat_clz_lt (show hi b ≠ 0#32 from hhi)
  rw [plan, ofAll_high, ofAll_high, ofAll_low, ofAll_low, if_neg ha, if_neg hlo, if_neg hhi,
    builtinClz_ok hhi, builtinClz_ok ha]
  simp only [bind, Except.bind]
  rcases high_counts ha hhi with ⟨hbig, hlt⟩ | ⟨hle, hsucc, hsmall, hnear⟩
  · refine ⟨_, if_pos ?_, planned_small hlt⟩
    rw [gt_iff_lt, BitVec.lt_def]
    exact hbig
  · have hnot : ¬ (hi b).clz - (hi a).clz > 32 - 1 := by
      rw [gt_iff_lt, BitVec.lt_def]
      change ¬ 31 < _
      omega
    rw [if_neg hnot]
    by_cases hmid : (hi b).clz - (hi a).clz + 1 = 32
    · obtain ⟨q, r, hsplit, hstart⟩ := splitMiddle_ok (a := a) hmid
      rw [if_pos hmid, hsplit]
      exact ⟨_, rfl, ⟨by omega, by omega⟩, hstart, hsmall, hnear⟩
    · have hne : ((hi b).clz - (hi a).clz + 1).toNat ≠ 32 := fun h => hmid (BitVec.eq_of_toNat_eq h)
      obtain ⟨q, r, hsplit, hstart⟩ := splitBelow_ok (a := a)
        (s := (hi b).clz - (hi a).clz + 1) (by omega) (by omega)
      rw [if_neg hmid, hsplit]
      exact ⟨_, rfl, ⟨by omega, by omega⟩, hstart, hsmall, hnear⟩

theorem plan_ok (hb : b ≠ 0) : ∃ p, plan (.ofAll a) (.ofAll b) = .ok p ∧ Planned a b p := by
  by_cases ha : hi a = 0
  · exact plan_low ha hb
  by_cases hlo : lo b = 0
  · exact plan_upper ha hlo fun hhi => hb (eq_zero_of_halves hhi hlo)
  by_cases hhi : hi b = 0
  · exact plan_lower ha hlo hhi
  · exact plan_both ha hlo hhi

theorem plan_zero : plan (.ofAll a) (.ofAll 0) = .error .divide := by
  have hhi : hi 0 = 0 := by decide
  have hlo : lo 0 = 0 := by decide
  have hzero (x : Word) : umod x 0 = .error .divide := if_pos rfl
  rw [plan, ofAll_high, ofAll_high, ofAll_low, ofAll_low, if_pos hlo, if_pos hhi, if_pos hhi, hlo,
    hzero, hzero]
  split_ifs <;> rfl

/-- `__udivmoddi4` on a divisor that is not zero. -/
theorem udivmoddi4_ok (hb : b ≠ 0) : udivmoddi4 a b = .ok (a / b, a % b) := by
  have hpos : 0 < b.toNat := Nat.pos_of_ne_zero fun h => hb (BitVec.eq_of_toNat_eq h)
  obtain ⟨p, hplan, hp⟩ := plan_ok (a := a) hb
  rw [udivmoddi4, hplan]
  cases p with
  | done q rem =>
    obtain ⟨rfl, rfl⟩ := hp
    rfl
  | loop sr q r =>
    obtain ⟨⟨h1, h2⟩, hstart, hsmall, hnear⟩ := hp
    exact congrArg Except.ok (loop_divides hpos h1 h2 hstart hsmall hnear)

theorem udivmoddi4_zero : udivmoddi4 a 0 = .error .divide := by
  rw [udivmoddi4, plan_zero]
  rfl

/-- `__udivmoddi4` divides by everything but zero: no shift in it is out of range, and no count is
taken of zero. -/
theorem udivmoddi4_eq (a b : DWord) :
    udivmoddi4 a b = if b = 0 then .error .divide else .ok (a / b, a % b) := by
  split_ifs with hb
  · rw [hb, udivmoddi4_zero]
  · exact udivmoddi4_ok hb

/-- The three unsigned divisions. -/
theorem unsigned_divisions (a b : DWord) :
    udivmoddi4 a b = (if b = 0 then .error .divide else .ok (a / b, a % b)) ∧
      udivdi3 a b = (if b = 0 then .error .divide else .ok (a / b)) ∧
      umoddi3 a b = (if b = 0 then .error .divide else .ok (a % b)) := by
  rw [udivdi3, umoddi3, udivmoddi4_eq]
  split_ifs <;> exact ⟨rfl, rfl, rfl⟩

end Cases

end Ysyx.Klib.Int64
