import Ysyx.Nemu.Pattern
import Ysyx.Lib.Ternary

/-! What the patterns of `decode.h` mean: the key, the mask and the shift of a pattern string accept
the words that agree with it bit by bit, and a hexadecimal pattern accepts what its expansion into
bits accepts. -/

namespace Ysyx.Nemu

open Bytes

/-- The test of `INSTPAT` on the 64 bits it is made on. -/
def Pattern.test (p : Pattern) (w : BitVec 64) : Bool := ((w >>> p.shift) &&& p.mask) == p.key

theorem Pattern.hits_eq_test (p : Pattern) (inst : Word) :
    p.hits inst = p.test (inst.setWidth 64) := rfl

def isPatternChar (c : Char) : Bool := c == '0' || c == '1' || c == '?' || c == ' '

def bitChar (b : Bool) : Char := if b then '1' else '0'

/-- The characters of the pattern that are no spaces, counted from the right, against the bits. -/
def Matches (str : List Char) (w : BitVec 64) : Prop :=
  ∀ i c, (str.filter (· != ' ')).reverse[i]? = some c → c = '?' ∨ c = bitChar (w.getLsbD i)

/-- What a character that is no space asks of its bit. -/
def trit (c : Char) : Option Bool := if c = '?' then none else some (c == '1')

/-- The variables `__key`, `__mask` and `__shift` once they have seen `ts`. -/
def Pattern.seen (ts : List (Option Bool)) : Pattern :=
  ⟨Ternary.key ts, Ternary.mask ts, Ternary.shift ts⟩

theorem patternStep_seen (ts : List (Option Bool)) {c : Char} (hc : isPatternChar c)
    (hsp : c ≠ ' ') : patternStep (Pattern.seen ts) c = .ok (Pattern.seen (ts ++ [trit c])) := by
  have hval : c = '0' ∨ c = '1' ∨ c = '?' := by
    simpa [isPatternChar, hsp, or_assoc] using hc
  rw [patternStep, if_neg hsp, if_pos hval, Pattern.seen, Pattern.seen, Ternary.key_concat,
    Ternary.mask_concat, Ternary.shift_concat]
  rcases hval with rfl | rfl | rfl <;> rfl

theorem foldlM_patternStep (str : List Char) (hstr : ∀ c ∈ str, isPatternChar c)
    (ts : List (Option Bool)) :
    str.foldlM patternStep (Pattern.seen ts) =
      .ok (Pattern.seen (ts ++ (str.filter (· != ' ')).map trit)) := by
  induction str generalizing ts with
  | nil => simp [pure, Except.pure]
  | cons c str ih =>
    have hrest := fun c' h' => hstr c' (List.mem_cons_of_mem _ h')
    rw [List.foldlM_cons]
    by_cases hsp : c = ' '
    · subst hsp
      exact ih hrest ts
    · rw [patternStep_seen ts (hstr c List.mem_cons_self) hsp]
      refine (ih hrest (ts ++ [trit c])).trans ?_
      simp [hsp]

theorem patternDecode_eq {str : List Char} (hstr : ∀ c ∈ str, isPatternChar c)
    (hlen : str.length < 64) {ts : List (Option Bool)}
    (hts : (str.filter (· != ' ')).map trit = ts) :
    patternDecode str = .ok ⟨Ternary.key ts >>> Ternary.shift ts,
      Ternary.mask ts >>> Ternary.shift ts, Ternary.shift ts⟩ := by
  have hfold := foldlM_patternStep str hstr []
  rw [List.nil_append, hts] at hfold
  rw [patternDecode, if_pos hlen, show (⟨0, 0, 0⟩ : Pattern) = Pattern.seen [] from rfl, hfold]
  rfl

theorem matches_iff_trits {str : List Char} (hstr : ∀ c ∈ str, isPatternChar c) (w : BitVec 64) :
    Matches str w ↔ ∀ i b, ((str.filter (· != ' ')).map trit).reverse[i]? = some (some b) →
      w.getLsbD i = b := by
  have hval : ∀ {i : ℕ} {c : Char}, (str.filter (· != ' ')).reverse[i]? = some c →
      c = '0' ∨ c = '1' ∨ c = '?' := by
    intro i c h
    have hmem := List.mem_reverse.1 (List.mem_of_getElem? h)
    obtain ⟨hin, hsp⟩ := List.mem_filter.1 hmem
    simpa [isPatternChar, (by simpa using hsp : c ≠ ' '), or_assoc] using hstr c hin
  unfold Matches
  simp only [← List.map_reverse, List.getElem?_map, Option.map_eq_some_iff]
  constructor
  · rintro h i b ⟨c, hc, hb⟩
    rcases h i c hc with rfl | rfl
    · cases hb
    · cases hw : w.getLsbD i <;> rw [hw] at hb <;> exact Option.some.inj hb
  · intro h i c hc
    rcases hval hc with rfl | rfl | rfl
    · rw [h i false ⟨'0', hc, rfl⟩]
      exact .inr rfl
    · rw [h i true ⟨'1', hc, rfl⟩]
      exact .inr rfl
    · exact .inl rfl

theorem test_patternDecode {str : List Char} (hstr : ∀ c ∈ str, isPatternChar c)
    (hlen : str.length ≤ 63) :
    ∃ p, patternDecode str = .ok p ∧ ∀ w, p.test w ↔ Matches str w := by
  refine ⟨_, patternDecode_eq hstr (by omega) rfl, fun w => ?_⟩
  have hts : ((str.filter (· != ' ')).map trit).length ≤ 64 := by
    rw [List.length_map]
    exact (List.length_filter_le _ _).trans (by omega)
  rw [matches_iff_trits hstr, ← Ternary.test_iff hts, Pattern.test, beq_iff_eq]

def isHexChar (c : Char) : Bool :=
  ('0' ≤ c && c ≤ '9') || ('a' ≤ c && c ≤ 'f') || c == '?' || c == ' '

/-- What a digit adds to `__key`. -/
def nibbleOf (c : Char) : ℕ :=
  if c = '?' then 0
  else if '0' ≤ c ∧ c ≤ '9' then c.toNat - '0'.toNat
  else c.toNat - 'a'.toNat + 10

/-- One `macro(i)` of `pattern_decode_hex`. -/
def patternHexStep (p : Pattern) (c : Char) : Except Fault Pattern :=
  if c = ' ' then .ok p
  else if ('0' ≤ c ∧ c ≤ '9') ∨ ('a' ≤ c ∧ c ≤ 'f') ∨ c = '?' then
    .ok ⟨p.key <<< 4 ||| BitVec.ofNat 64 (nibbleOf c),
      p.mask <<< 4 ||| (if c = '?' then 0 else 0xf), if c = '?' then p.shift + 4 else 0⟩
  else .error .panic

/-- `macro16(0)` reads 16 characters at most. -/
def patternDecodeHex (str : List Char) : Except Fault Pattern := do
  if str.length < 16 then
    let p ← str.foldlM patternHexStep ⟨0, 0, 0⟩
    .ok ⟨p.key >>> p.shift, p.mask >>> p.shift, p.shift⟩
  else .error .panic

/-- The binary spelling of one character of a hexadecimal pattern. -/
def expandDigit (c : Char) : List Char :=
  if c = ' ' then [' ']
  else if c = '?' then ['?', '?', '?', '?']
  else [3, 2, 1, 0].map fun i => bitChar ((nibbleOf c).testBit i)

theorem shiftLeft_four_or (x d : BitVec 64) (hd : d.toNat < 16) :
    x <<< 4 ||| d =
      (((x <<< 1 ||| (if d.getLsbD 3 then 1 else 0)) <<< 1 ||| (if d.getLsbD 2 then 1 else 0)) <<< 1
        ||| (if d.getLsbD 1 then 1 else 0)) <<< 1 ||| (if d.getLsbD 0 then 1 else 0) := by
  apply BitVec.eq_of_getLsbD_eq
  intro k hk
  rw [Ternary.getLsbD_shiftLeft_or _ _ hk, BitVec.getLsbD_or, BitVec.getLsbD_shiftLeft]
  rcases k with - | k
  · simp
  rw [if_neg (Nat.succ_ne_zero k), Nat.add_sub_cancel, Ternary.getLsbD_shiftLeft_or _ _ (by omega)]
  rcases k with - | k
  · simp
  rw [if_neg (Nat.succ_ne_zero k), Nat.add_sub_cancel, Ternary.getLsbD_shiftLeft_or _ _ (by omega)]
  rcases k with - | k
  · simp
  rw [if_neg (Nat.succ_ne_zero k), Nat.add_sub_cancel, Ternary.getLsbD_shiftLeft_or _ _ (by omega)]
  rcases k with - | k
  · simp
  have hhigh : d.getLsbD (k + 4) = false := by
    rw [BitVec.getLsbD, Nat.testBit_lt_two_pow]
    exact hd.trans_le (Nat.pow_le_pow_right (by decide : 2 > 0) (by omega : 4 ≤ k + 4))
  rw [hhigh, Bool.or_false, decide_eq_true hk, Bool.true_and,
    decide_eq_false (by omega : ¬ k + 1 + 1 + 1 + 1 < 4),
    Bool.not_false, Bool.true_and, if_neg (Nat.succ_ne_zero k)]
  rfl

theorem nibbleOf_lt {c : Char} (hc : isHexChar c) (hsp : c ≠ ' ') : nibbleOf c < 16 := by
  have hle : ∀ {a b : Char}, a ≤ b → a.toNat ≤ b.toNat := fun h => UInt32.le_iff_toNat_le.1 h
  unfold nibbleOf
  split_ifs with hq hd
  · decide
  · have := hle hd.2
    rw [show '9'.toNat = 57 from rfl] at this
    rw [show '0'.toNat = 48 from rfl]
    omega
  · simp only [isHexChar, Bool.or_eq_true, Bool.and_eq_true, decide_eq_true_eq, beq_iff_eq, hq, hsp,
      hd, or_false, false_or] at hc
    have := hle hc.2
    rw [show 'f'.toNat = 102 from rfl] at this
    rw [show 'a'.toNat = 97 from rfl]
    omega

theorem patternStep_bitChar (p : Pattern) (b : Bool) :
    patternStep p (bitChar b) =
      .ok ⟨p.key <<< 1 ||| (if b then 1 else 0), p.mask <<< 1 ||| 1, 0⟩ := by
  cases b <;> rfl

theorem foldlM_expandDigit (p : Pattern) {c : Char} (hc : isHexChar c) :
    (expandDigit c).foldlM patternStep p = patternHexStep p c := by
  by_cases hsp : c = ' '
  · rw [expandDigit, patternHexStep, if_pos hsp, if_pos hsp]
    rfl
  have hval : ('0' ≤ c ∧ c ≤ '9') ∨ ('a' ≤ c ∧ c ≤ 'f') ∨ c = '?' := by
    simpa [isHexChar, hsp, or_assoc] using hc
  have hlow : (BitVec.ofNat 64 (nibbleOf c)).toNat < 16 := by
    rw [BitVec.toNat_ofNat]
    exact (Nat.mod_le _ _).trans_lt (nibbleOf_lt hc hsp)
  have hbit : ∀ i < 4, (BitVec.ofNat 64 (nibbleOf c)).getLsbD i = (nibbleOf c).testBit i := by
    intro i hi
    rw [BitVec.getLsbD_ofNat, decide_eq_true (by omega : i < 64), Bool.true_and]
  rw [expandDigit, patternHexStep, if_neg hsp, if_neg hsp, if_pos hval,
    shiftLeft_four_or p.key _ hlow, hbit 3 (by decide), hbit 2 (by decide), hbit 1 (by decide),
    hbit 0 (by decide)]
  by_cases hq : c = '?'
  · subst hq
    rw [if_pos rfl, if_pos rfl, if_pos rfl, shiftLeft_four_or p.mask 0 (by decide)]
    rfl
  · rw [if_neg hq, if_neg hq, if_neg hq, shiftLeft_four_or p.mask 0xf (by decide)]
    simp only [List.map, List.foldlM_cons, patternStep_bitChar]
    rfl

theorem foldlM_expand (str : List Char) (hstr : ∀ c ∈ str, isHexChar c) (p : Pattern) :
    (str.flatMap expandDigit).foldlM patternStep p = str.foldlM patternHexStep p := by
  induction str generalizing p with
  | nil => rfl
  | cons c str ih =>
    rw [List.flatMap_cons, List.foldlM_append, foldlM_expandDigit p (hstr c List.mem_cons_self),
      List.foldlM_cons]
    exact congrArg _ (funext fun q => ih (fun c' h' => hstr c' (List.mem_cons_of_mem _ h')) q)

theorem length_expandDigit (c : Char) : (expandDigit c).length ≤ 4 := by
  unfold expandDigit
  split_ifs <;> simp

theorem length_expand (str : List Char) :
    (str.flatMap expandDigit).length ≤ 4 * str.length := by
  induction str with
  | nil => simp
  | cons c str ih =>
    have := length_expandDigit c
    rw [List.flatMap_cons, List.length_append, List.length_cons]
    omega

/-- Both decoders reach the same key, mask and shift. -/
theorem patternDecodeHex_eq {str : List Char} (hstr : ∀ c ∈ str, isHexChar c)
    (hlen : str.length ≤ 15) :
    patternDecodeHex str = patternDecode (str.flatMap expandDigit) := by
  have := length_expand str
  rw [patternDecodeHex, patternDecode, if_pos (by omega), if_pos (by omega),
    foldlM_expand str hstr]

theorem isPatternChar_bitChar (b : Bool) : isPatternChar (bitChar b) := by cases b <;> rfl

theorem isPatternChar_expand (str : List Char) :
    ∀ c ∈ str.flatMap expandDigit, isPatternChar c := by
  intro c hc
  obtain ⟨d, -, hd⟩ := List.mem_flatMap.1 hc
  unfold expandDigit at hd
  split_ifs at hd
  · rw [List.mem_singleton.1 hd]
    rfl
  · simp only [List.mem_cons, List.not_mem_nil, or_false, or_self] at hd
    rw [hd]
    rfl
  · obtain ⟨i, -, rfl⟩ := List.mem_map.1 hd
    exact isPatternChar_bitChar _

/-- A pattern accepts the words that agree with it bit by bit, and a hexadecimal pattern accepts
what its expansion accepts. -/
theorem pattern_decode_bitwise :
    (∀ str : List Char, (∀ c ∈ str, isPatternChar c) → str.length ≤ 63 →
      ∃ p, patternDecode str = .ok p ∧ ∀ w, p.test w ↔ Matches str w) ∧
    (∀ str : List Char, (∀ c ∈ str, isHexChar c) → str.length ≤ 15 →
      ∃ p q, patternDecodeHex str = .ok p ∧ patternDecode (str.flatMap expandDigit) = .ok q ∧
        ∀ w, p.test w = q.test w) := by
  refine ⟨fun str => test_patternDecode, fun str hstr hlen => ?_⟩
  have hexp := length_expand str
  obtain ⟨p, hp, -⟩ := test_patternDecode (isPatternChar_expand str) (by omega)
  exact ⟨p, p, by rw [patternDecodeHex_eq hstr hlen, hp], hp, fun w => rfl⟩

theorem pattern_decode_bitwise_short :
    (∃ p, patternDecode ['1', '?', ' ', '0', '?'] = .ok p ∧
      ∀ w, p.test w ↔ Matches ['1', '?', ' ', '0', '?'] w) ∧
    (∃ p q, patternDecodeHex ['?', 'a', ' ', '7'] = .ok p ∧
      patternDecode (['?', 'a', ' ', '7'].flatMap expandDigit) = .ok q ∧ ∀ w, p.test w = q.test w) :=
  ⟨pattern_decode_bitwise.1 ['1', '?', ' ', '0', '?']
      (List.all_eq_true.1 (by decide)) (by decide),
    pattern_decode_bitwise.2 ['?', 'a', ' ', '7']
      (List.all_eq_true.1 (by decide)) (by decide)⟩

end Ysyx.Nemu
