import Mathlib.Data.List.TakeWhile
import Mathlib.Data.Nat.Digits.Defs
import Ysyx.Nemu.InstCorrect
import Ysyx.Nemu.Lexer

/-! Numeric literals, from the rule that accepts them to the word that `expr` returns. The
rule takes `0x` and `0X`, and `eval_num_reg` looks for `0x` only. -/

namespace Ysyx.Nemu

open Regex TokenType

def numeralValue (s : List Char) : ℕ :=
  if s[1]?.any (fun c => c == 'x' || c == 'X') then
    Nat.ofDigits 16 ((s.drop 2).reverse.map digitOf)
  else Nat.ofDigits 10 (s.reverse.map digitOf)

section Accepted

variable {s : List Char}

theorem all_of_takeWhile {p : Char → Bool} (h : s.length ≤ (s.takeWhile p).length) :
    ∀ c ∈ s, p c = true :=
  List.takeWhile_eq_self_iff.mp ((List.takeWhile_prefix p).eq_of_length_le h)

theorem stops_nil (p : Char → Bool) : Stops p [] := fun _ hc => nomatch hc

theorem longest_num_iff : longest numPattern s = some s.length ↔ Numeral s := by
  constructor
  · intro hlong
    obtain ⟨⟨items, hi, hk⟩, -⟩ := longest_eq_some_iff.mp hlong
    simp only [numPattern, List.mem_cons, List.not_mem_nil, or_false] at hi
    rcases hi with rfl | rfl
    · obtain ⟨c, s, j, rfl, hc, hj, hrest⟩ := mem_lens_one.mp hk
      obtain ⟨x, h, i, rfl, hx, rfl, hh⟩ := mem_lens_one.mp hrest
      obtain ⟨hpos, htake⟩ := mem_lens_last.mp hh
      rw [beq_iff_eq.mp hc]
      simp only [List.length_cons] at hj
      obtain rfl : h.length = i := by omega
      exact .hex hx (List.length_pos_iff.mp hpos) (all_of_takeWhile htake)
    · rw [lens] at hk
      split_ifs at hk
      · obtain ⟨k, hk, hj⟩ := List.mem_flatMap.mp hk
        obtain ⟨j, hj, hlen⟩ := List.mem_map.mp hj
        obtain ⟨hlo, htake, -⟩ := mem_runs_iff.mp hk
        obtain rfl : j = 0 := by
          generalize (if k = 0 then none else s[k - 1]?) = prev at hj
          rw [lens] at hj
          split_ifs at hj
          · exact List.mem_singleton.mp hj
          · cases hj
        obtain rfl : k = s.length := hlen
        exact .dec (List.length_pos_iff.mp hlo) (all_of_takeWhile htake)
      · cases hk
  · intro h
    have hlong := longest_numeral h (stops_nil isWord)
    rwa [List.append_nil] at hlong

end Accepted

section Value

variable {s h : List Char} {x : Char}

theorem foldl_digits (base : ℕ) (ds : List Char) :
    ds.foldl (fun acc c => acc * base + digitOf c) 0 =
      Nat.ofDigits base (ds.reverse.map digitOf) := by
  rw [List.foldl_eq_foldr_reverse, Nat.ofDigits_eq_foldr, List.foldr_map]
  congr 1
  funext c acc
  exact (Nat.add_comm _ _).trans (congrArg _ (Nat.mul_comm acc base))

theorem takeWhile_all {p : Char → Bool} (hp : ∀ c ∈ s, p c = true) : s.takeWhile p = s :=
  List.takeWhile_eq_self_iff.mpr hp

theorem not_prefix_of_digit {c : Char} (hc : isDecDigit c = true) :
    (c == 'x' || c == 'X') = false := by
  rw [beq_eq_false_of_class hc (by decide), beq_eq_false_of_class hc (by decide)]
  rfl

theorem second_dec (hd : ∀ c ∈ s, isDecDigit c = true) :
    s[1]?.any (fun c => c == 'x' || c == 'X') = false := by
  match s with
  | [] => rfl
  | [_] => rfl
  | _ :: c :: _ => exact not_prefix_of_digit (hd c (by simp))

theorem strtoul_dec (hd : ∀ c ∈ s, isDecDigit c = true) (hv : numeralValue s < 2 ^ 64) :
    strtoul s 10 = numeralValue s := by
  rw [numeralValue, if_neg (by rw [second_dec hd]; exact Bool.false_ne_true)] at hv ⊢
  simp only [strtoul, Nat.reduceEqDiff, false_and, if_false, takeWhile_all hd, foldl_digits]
  omega

theorem strtoul_hex (hx : (x == 'x' || x == 'X') = true) (hne : h ≠ [])
    (hh : ∀ c ∈ h, isHexDigit c = true) (hv : numeralValue ('0' :: x :: h) < 2 ^ 64) :
    strtoul ('0' :: x :: h) 16 = numeralValue ('0' :: x :: h) := by
  have hvalue : numeralValue ('0' :: x :: h) = Nat.ofDigits 16 (h.reverse.map digitOf) :=
    if_pos hx
  obtain ⟨d, h', rfl⟩ := List.exists_cons_of_ne_nil hne
  have hprefix : ('0' :: x :: d :: h').head? = some '0' ∧
      ('0' :: x :: d :: h')[1]?.any (fun c => c == 'x' || c == 'X') = true ∧
      ('0' :: x :: d :: h')[2]?.any isHexDigit = true :=
    ⟨rfl, hx, hh d List.mem_cons_self⟩
  rw [hvalue] at hv ⊢
  simp only [strtoul, true_and, if_pos hprefix, if_true, List.drop_succ_cons, List.drop_zero,
    takeWhile_all hh, foldl_digits]
  omega

theorem base_dec (hd : ∀ c ∈ s, isDecDigit c = true) : s.take 2 ≠ ['0', 'x'] := by
  intro htake
  have hsecond : s[1]? = some 'x' := by
    rw [← List.getElem?_take_of_lt (by decide : 1 < 2), htake]
    rfl
  have hnot := second_dec hd
  rw [hsecond] at hnot
  cases hnot

theorem evalNumReg_dec (cfg : Config) (m : Machine) (hd : ∀ c ∈ s, isDecDigit c = true)
    (hv : numeralValue s < 2 ^ 64) :
    evalNumReg cfg m ⟨TK_NUM, s⟩ = .ok (BitVec.ofNat 32 (numeralValue s), true) := by
  simp only [evalNumReg, if_neg (base_dec hd), strtoul_dec hd hv]

/-- In base 10 the conversion stops at the `X`. -/
theorem strtoul_upper (h : List Char) : strtoul ('0' :: 'X' :: h) 10 = 0 := rfl

theorem makeToken_numeral (h : Numeral s) (hlen : s.length < 32) :
    makeToken s = .ok (some [⟨TK_NUM, s⟩]) := by
  have hrule := matchRule_numeral h (stops_nil isWord)
  have hput : putToken [] TK_NUM s = .ok [⟨TK_NUM, s⟩] :=
    putToken_ok ⟨by decide, fun _ => hlen⟩
  rw [makeToken_eq, ← List.append_nil s, lexFrom_token hrule (by decide), List.append_nil, hput]
  rfl

/-- The base is 16 exactly after `0x`. -/
theorem expr_numeral (cfg : Config) (m : Machine) (h : Numeral s) (hlen : s.length < 32) :
    expr cfg m s =
      .ok (BitVec.ofNat 32 (strtoul s (if s.take 2 = ['0', 'x'] then 16 else 10)), true) := by
  have heval : expr cfg m s = evalNumReg cfg m ⟨TK_NUM, s⟩ := by
    rw [expr, makeToken_numeral h hlen]
    rfl
  rw [heval]
  simp only [evalNumReg]
  split_ifs <;> rfl

theorem ofNat_zero_iff (n : ℕ) : BitVec.ofNat 32 0 = BitVec.ofNat 32 n ↔ n % 2 ^ 32 = 0 := by
  rw [← BitVec.toNat_inj, BitVec.toNat_ofNat, BitVec.toNat_ofNat, Nat.zero_mod]
  exact eq_comm

end Value

/-- The literal means its value, unless it is spelled with `0X`; then the result is 0. -/
theorem literal_value_iff (cfg : Config) (m : Machine) (s : List Char)
    (hrule : longest numPattern s = some s.length) (hlen : s.length ≤ 31)
    (hv : numeralValue s < 2 ^ 64) :
    expr cfg m s = .ok (BitVec.ofNat 32 (numeralValue s), true) ↔
      s[1]? ≠ some 'X' ∨ numeralValue s % 2 ^ 32 = 0 := by
  have h := longest_num_iff.mp hrule
  rw [expr_numeral cfg m h (by omega)]
  cases h with
  | dec hne hd =>
    have hupper : s[1]? ≠ some 'X' := by
      intro hx
      have hnot := second_dec hd
      rw [hx] at hnot
      cases hnot
    rw [if_neg (base_dec hd), strtoul_dec hd hv]
    exact iff_of_true rfl (.inl hupper)
  | @hex x h hx hne hh =>
    rcases Bool.or_eq_true _ _ ▸ hx with hlower | hupper
    · obtain rfl := beq_iff_eq.mp hlower
      rw [if_pos (by rfl), strtoul_hex hx hne hh hv]
      exact iff_of_true rfl (.inl (by simp))
    · obtain rfl := beq_iff_eq.mp hupper
      rw [if_neg (by simp), strtoul_upper, or_iff_right (fun hx => hx rfl), ← ofNat_zero_iff]
      simp

theorem literal_value_iff_decimal :
    expr defaultConfig (startOf 0 0) ['4', '2'] =
        .ok (BitVec.ofNat 32 (numeralValue ['4', '2']), true) ↔
      ['4', '2'][1]? ≠ some 'X' ∨ numeralValue ['4', '2'] % 2 ^ 32 = 0 :=
  literal_value_iff defaultConfig (startOf 0 0) ['4', '2'] (by decide) (by decide) (by decide)

/-- `0X` and a value that is not 0. -/
theorem upper_prefix_not_value :
    ¬ ∀ (cfg : Config) (m : Machine) (s : List Char), longest numPattern s = some s.length →
      s.length ≤ 31 → numeralValue s < 2 ^ 64 →
        expr cfg m s = .ok (BitVec.ofNat 32 (numeralValue s), true) := by
  intro h
  have hten := h defaultConfig (startOf 0 0) ['0', 'X', '1', '0'] (by decide) (by decide)
    (by decide)
  rw [expr_numeral _ _ (longest_num_iff.mp (by decide)) (by decide)] at hten
  exact absurd hten (by decide)

end Ysyx.Nemu
