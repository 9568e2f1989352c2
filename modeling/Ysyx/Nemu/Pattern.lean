import Ysyx.Nemu.Memory

/-! The pattern matching mechanism of `decode.h` and the bit-field macros of
`macro.h` that the decoders are written with. -/

namespace Ysyx.Nemu

open Bytes

/-- The `key`, `mask` and `shift` that `pattern_decode` computes. -/
structure Pattern where
  key : BitVec 64
  mask : BitVec 64
  shift : ℕ
  deriving DecidableEq, Repr

/-- One `macro(i)` of `pattern_decode`; a character outside the alphabet fails its `Assert`. -/
def patternStep (p : Pattern) (c : Char) : Except Fault Pattern :=
  if c = ' ' then .ok p
  else if c = '0' ∨ c = '1' ∨ c = '?' then
    .ok ⟨p.key <<< 1 ||| (if c = '1' then 1 else 0), p.mask <<< 1 ||| (if c = '?' then 0 else 1),
      if c = '?' then p.shift + 1 else 0⟩
  else .error .panic

/-- `macro64(0)` reads 64 characters at most and panics unless the string ended before. -/
def patternDecode (str : List Char) : Except Fault Pattern := do
  if str.length < 64 then
    let p ← str.foldlM patternStep ⟨0, 0, 0⟩
    .ok ⟨p.key >>> p.shift, p.mask >>> p.shift, p.shift⟩
  else .error .panic

/-- The test of `INSTPAT`. -/
def Pattern.hits (p : Pattern) (inst : Word) : Bool :=
  ((inst.setWidth 64 >>> p.shift) &&& p.mask) == p.key

def BITMASK (bits : ℕ) : BitVec 64 := (1#64 <<< bits) - 1

/-- `BITS` of a `uint32_t`; the mask makes the result 64 bits wide. -/
def BITS (x : Word) (hi lo : ℕ) : BitVec 64 := (x >>> lo).setWidth 64 &&& BITMASK (hi - lo + 1)

/-- The bit-field `int64_t n : len` keeps `len` bits and sign-extends them. -/
def SEXT (x : BitVec 64) (len : ℕ) : BitVec 64 := (x.setWidth len).signExtend 64

theorem getLsbD_BITMASK (n k : ℕ) (hn : n < 64) : (BITMASK n).getLsbD k = decide (k < n) := by
  have hlt : 2 ^ n < 2 ^ 64 := Nat.pow_lt_pow_right (by decide) hn
  have hpos : 0 < 2 ^ n := Nat.two_pow_pos n
  have h1 : (1#64 <<< n).toNat = 2 ^ n := by
    rw [BitVec.toNat_shiftLeft, Nat.shiftLeft_eq, BitVec.toNat_ofNat, Nat.one_mod_two_pow (by decide),
      one_mul, Nat.mod_eq_of_lt hlt]
  have h : (BITMASK n).toNat = 2 ^ n - 1 := by
    rw [BITMASK, BitVec.toNat_sub, h1, show (1 : BitVec 64).toNat = 1 from rfl]
    omega
  rw [BitVec.getLsbD, h, Nat.testBit_two_pow_sub_one]

theorem BITS_eq (x : Word) {hi lo n : ℕ} (hlen : hi - lo + 1 = n) (hn : n ≤ 32) :
    BITS x hi lo = (x.extractLsb' lo n).setWidth 64 := by
  apply BitVec.eq_of_getLsbD_eq
  intro k hk
  subst hlen
  simp only [BITS, BitVec.getLsbD_and, BitVec.getLsbD_setWidth, BitVec.getLsbD_ushiftRight,
    getLsbD_BITMASK _ _ (by omega : hi - lo + 1 < 64), BitVec.getLsbD_extractLsb', hk,
    decide_true, Bool.true_and]
  rw [Bool.and_comm]

theorem SEXT_setWidth {n : ℕ} (x : BitVec n) (hn : n ≤ 64) :
    SEXT (x.setWidth 64) n = x.signExtend 64 := by
  rw [SEXT, BitVec.setWidth_setWidth_of_le _ hn, BitVec.setWidth_eq]

end Ysyx.Nemu
