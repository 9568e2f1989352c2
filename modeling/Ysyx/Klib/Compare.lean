import Ysyx.Lib.Bytes

/-! The comparison routines of klib: `strcmp`, `strncmp` and `memcmp`. A pointer is the bytes of
its object from there on, so that reading past the object is an error of the model. Whether
`char` is signed is the ABI's choice (it is not on RISC-V and ARM, it is on x86). -/

namespace Ysyx.Klib

open Bytes

/-- What C leaves undefined in these routines: a read past the object, an `int` too large. -/
inductive Undefined
  | outside
  | overflow
deriving DecidableEq, Repr

def charVal (signed : Bool) (b : Byte) : ℤ := if signed then b.toInt else b.toNat

/-- `while(s1[i] && s2[i] && (s1[i] == s2[i])) i++;` from `i` on, and the difference after it. -/
def strcmpFrom (signed : Bool) : ℕ → List Byte → List Byte → Except Undefined ℤ
  | i, a :: s1, b :: s2 =>
    if a ≠ 0 ∧ b ≠ 0 ∧ a = b then
      if i + 1 < 2 ^ 31 then strcmpFrom signed (i + 1) s1 s2 else .error .overflow
    else
      .ok (charVal signed a - charVal signed b)
  | _, _, _ => .error .outside

def strcmp (signed : Bool) (s1 s2 : List Byte) : Except Undefined ℤ := strcmpFrom signed 0 s1 s2

def strncmp (signed : Bool) : List Byte → List Byte → ℕ → Except Undefined ℤ
  | _, _, 0 => .ok 0
  | a :: s1, b :: s2, n + 1 =>
    if charVal signed a > charVal signed b then .ok 1
    else if charVal signed a < charVal signed b then .ok (-1)
    else strncmp signed s1 s2 n
  | _, _, _ => .error .outside

def memcmp : List Byte → List Byte → ℕ → Except Undefined ℤ
  | _, _, 0 => .ok 0
  | a :: p1, b :: p2, n + 1 =>
    if a ≠ b then .ok (a.toNat - b.toNat) else memcmp p1 p2 n
  | _, _, _ => .error .outside

/-- The lexicographic order of byte strings, bytes taken as unsigned. -/
def Before : List Byte → List Byte → Prop := List.Lex fun a b => a.toNat < b.toNat

/-- `r` has the sign of the comparison of `u` with `v`. -/
structure SignOf (r : ℤ) (u v : List Byte) : Prop where
  neg : r < 0 ↔ Before u v
  zero : r = 0 ↔ u = v
  pos : 0 < r ↔ Before v u

/-- The bytes from a pointer to the string `s` on: its characters, its NUL, and whatever follows
in the object. -/
def cstr (s rest : List Byte) : List Byte := s ++ 0 :: rest

/-- The laws for the strings `s` and `t`, followed by `rs` and `rt` in memory, and a length `n`. -/
structure CompareLaws (signed : Bool) (s t rs rt : List Byte) (n : ℕ) : Prop where
  /-- `strncmp` compares the strings cut after `n` characters. -/
  strncmp_lex : ∃ r, strncmp signed (cstr s rs) (cstr t rt) n = .ok r ∧ SignOf r (s.take n) (t.take n)
  /-- It does the same when the memory ends where both strings have ended. -/
  strncmp_reads : strncmp signed ((cstr s rs).take (max s.length t.length + 1))
      ((cstr t rt).take (max s.length t.length + 1)) n = strncmp signed (cstr s rs) (cstr t rt) n
  strcmp_strncmp : max s.length t.length < n → ∃ r r', strcmp signed (cstr s rs) (cstr t rt) = .ok r ∧
    strncmp signed (cstr s rs) (cstr t rt) n = .ok r' ∧ r.sign = r'.sign
  memcmp_strcmp : ∃ r r', memcmp (cstr s rs) (cstr t rt) (min s.length t.length + 1) = .ok r ∧
    strcmp signed (cstr s rs) (cstr t rt) = .ok r' ∧ r.sign = r'.sign

section CommonPart

variable (signed : Bool) (c x y : List Byte) {a b : Byte}

theorem strncmp_append (n : ℕ) :
    strncmp signed (c ++ x) (c ++ y) (c.length + n) = strncmp signed x y n := by
  induction c with
  | nil => simp
  | cons d c ih =>
    rw [List.length_cons, Nat.add_right_comm]
    simpa [strncmp] using ih

theorem strncmp_common {n : ℕ} (hn : n ≤ c.length) :
    strncmp signed (c ++ x) (c ++ y) n = .ok 0 := by
  induction c generalizing n with
  | nil =>
    obtain rfl : n = 0 := Nat.le_zero.1 hn
    simp [strncmp]
  | cons d c ih =>
    cases n with
    | zero => simp [strncmp]
    | succ n => simpa [strncmp] using ih (Nat.le_of_succ_le_succ hn)

/-- What `strncmp` gives for two different characters. -/
def charSign (signed : Bool) (a b : Byte) : ℤ :=
  if charVal signed a > charVal signed b then 1 else -1

theorem strncmp_differ (hne : a ≠ b) {n : ℕ} (hn : c.length < n) :
    strncmp signed (c ++ a :: x) (c ++ b :: y) n = .ok (charSign signed a b) := by
  obtain ⟨k, rfl⟩ : ∃ k, n = c.length + (k + 1) := ⟨n - c.length - 1, by omega⟩
  rw [strncmp_append, strncmp, charSign]
  split_ifs with hgt hlt
  · rfl
  · rfl
  · exfalso
    apply hne
    have hval : charVal signed a = charVal signed b := by omega
    cases signed with
    | false => exact BitVec.eq_of_toNat_eq (by simpa [charVal] using hval)
    | true => exact BitVec.eq_of_toInt_eq (by simpa [charVal] using hval)

theorem memcmp_append (n : ℕ) : memcmp (c ++ x) (c ++ y) (c.length + n) = memcmp x y n := by
  induction c with
  | nil => simp
  | cons d c ih =>
    rw [List.length_cons, Nat.add_right_comm]
    simpa [memcmp] using ih

variable {c}

theorem strcmpFrom_append (hc : 0 ∉ c) {i : ℕ} (hi : i + c.length < 2 ^ 31) :
    strcmpFrom signed i (c ++ x) (c ++ y) = strcmpFrom signed (i + c.length) x y := by
  induction c generalizing i with
  | nil => simp
  | cons d c ih =>
    have hd : d ≠ 0 := fun h => hc (by simp [h])
    rw [List.length_cons] at hi
    rw [List.cons_append, List.cons_append, strcmpFrom, if_pos ⟨hd, hd, rfl⟩, if_pos (by omega),
      ih (fun h => hc (List.mem_cons_of_mem d h)) (by omega), List.length_cons]
    congr 1
    omega

theorem strcmpFrom_overflow (hc : 0 ∉ c) {i : ℕ} (hi : 2 ^ 31 ≤ i + c.length) (hlt : i < 2 ^ 31) :
    strcmpFrom signed i (c ++ x) (c ++ y) = .error .overflow := by
  induction c generalizing i with
  | nil => exact absurd hi (by simpa using hlt)
  | cons d c ih =>
    have hd : d ≠ 0 := fun h => hc (by simp [h])
    rw [List.length_cons] at hi
    rw [List.cons_append, List.cons_append, strcmpFrom, if_pos ⟨hd, hd, rfl⟩]
    split_ifs with hnext
    · exact ih (fun h => hc (List.mem_cons_of_mem d h)) (by omega) hnext
    · rfl

theorem strcmp_differ (hc : 0 ∉ c) (hlen : c.length < 2 ^ 31) (hne : a ≠ b) :
    strcmp signed (c ++ a :: x) (c ++ b :: y) = .ok (charVal signed a - charVal signed b) := by
  rw [strcmp, strcmpFrom_append signed (a :: x) (b :: y) hc (by omega), strcmpFrom,
    if_neg fun h => hne h.2.2]

theorem strcmp_same (hc : 0 ∉ c) (hlen : c.length < 2 ^ 31) :
    strcmp signed (cstr c x) (cstr c y) = .ok 0 := by
  rw [strcmp, cstr, cstr, strcmpFrom_append signed (0 :: x) (0 :: y) hc (by omega), strcmpFrom,
    if_neg fun h => h.1 rfl, sub_self]

end CommonPart

/-- Byte `a` follows the characters `c` in the string `s`: its NUL when they are all of it. -/
def Follows (c s : List Byte) (a : Byte) : Prop := (s = c ∧ a = 0) ∨ ∃ x, s = c ++ a :: x

/-- The strings share the characters `c`, and `a` and `b` are the first bytes that differ. -/
structure Differ (s t c : List Byte) (a b : Byte) : Prop where
  left : Follows c s a
  right : Follows c t b
  ne : a ≠ b

section Differ

variable {s t c : List Byte} {a b : Byte}

theorem Follows.isPrefix (h : Follows c s a) : c <+: s := by
  rcases h with ⟨rfl, -⟩ | ⟨x, rfl⟩
  · exact List.prefix_refl _
  · exact List.prefix_append _ _

theorem Follows.cons (h : Follows c s a) (d : Byte) : Follows (d :: c) (d :: s) a := by
  rcases h with ⟨rfl, ha⟩ | ⟨x, rfl⟩
  · exact .inl ⟨rfl, ha⟩
  · exact .inr ⟨x, rfl⟩

theorem Follows.cstr_eq (h : Follows c s a) (r : List Byte) : ∃ x, cstr s r = c ++ a :: x := by
  rcases h with ⟨rfl, rfl⟩ | ⟨x, rfl⟩
  · exact ⟨r, rfl⟩
  · exact ⟨x ++ 0 :: r, by simp [cstr]⟩

theorem Follows.cstr_take (h : Follows c s a) (r : List Byte) {m : ℕ} (hm : c.length < m) :
    ∃ x, (cstr s r).take m = c ++ a :: x := by
  obtain ⟨x, hx⟩ := h.cstr_eq r
  obtain ⟨k, rfl⟩ : ∃ k, m = c.length + (k + 1) := ⟨m - c.length - 1, by omega⟩
  exact ⟨x.take k, by rw [hx, List.take_length_add_append, List.take_succ_cons]⟩

theorem Follows.take (h : Follows c s a) {n : ℕ} (hn : c.length < n) : Follows c (s.take n) a := by
  obtain ⟨k, rfl⟩ : ∃ k, n = c.length + (k + 1) := ⟨n - c.length - 1, by omega⟩
  rcases h with ⟨rfl, ha⟩ | ⟨x, rfl⟩
  · exact .inl ⟨List.take_of_length_le (by omega), ha⟩
  · exact .inr ⟨x.take k, by rw [List.take_length_add_append, List.take_succ_cons]⟩

theorem Differ.symm (h : Differ s t c a b) : Differ t s c b a := ⟨h.right, h.left, h.ne.symm⟩

theorem Differ.ne_strings (h : Differ s t c a b) : s ≠ t := by
  rintro rfl
  apply h.ne
  rcases h.left with ⟨h1, ha⟩ | ⟨x, h1⟩ <;> rcases h.right with ⟨h2, hb⟩ | ⟨y, h2⟩
  · rw [ha, hb]
  · rw [h1] at h2
    simp at h2
  · rw [h2] at h1
    simp at h1
  · rw [h1] at h2
    simp at h2
    exact h2.1

theorem Differ.length_le (h : Differ s t c a b) : c.length ≤ min s.length t.length :=
  le_min h.left.isPrefix.length_le h.right.isPrefix.length_le

theorem exists_differ (hs : 0 ∉ s) (ht : 0 ∉ t) (hne : s ≠ t) : ∃ c a b, Differ s t c a b := by
  induction s generalizing t with
  | nil =>
    cases t with
    | nil => exact absurd rfl hne
    | cons b t =>
      exact ⟨[], 0, b, .inl ⟨rfl, rfl⟩, .inr ⟨t, rfl⟩, fun h => ht (by simp [h])⟩
  | cons a s ih =>
    cases t with
    | nil => exact ⟨[], a, 0, .inr ⟨s, rfl⟩, .inl ⟨rfl, rfl⟩, fun h => hs (by simp [h])⟩
    | cons b t =>
      by_cases hab : a = b
      · subst hab
        obtain ⟨c, a', b', h⟩ := ih (fun h => hs (List.mem_cons_of_mem a h))
          (fun h => ht (List.mem_cons_of_mem a h)) (fun h => hne (by rw [h]))
        exact ⟨a :: c, a', b', h.left.cons a, h.right.cons a, h.ne⟩
      · exact ⟨[], a, b, .inr ⟨s, rfl⟩, .inr ⟨t, rfl⟩, hab⟩

theorem before_append (c u v : List Byte) : Before (c ++ u) (c ++ v) ↔ Before u v := by
  induction c with
  | nil => rfl
  | cons d c ih =>
    rw [Before, List.cons_append, List.cons_append, List.cons_lex_cons_iff]
    constructor
    · rintro (h | ⟨-, h⟩)
      · exact absurd h (lt_irrefl _)
      · exact ih.1 h
    · exact fun h => .inr ⟨rfl, ih.2 h⟩

theorem not_before_self (u : List Byte) : ¬ Before u u :=
  List.lex_irrefl (fun x : Byte => Nat.lt_irrefl x.toNat) u

theorem Differ.before_iff (h : Differ s t c a b) : Before s t ↔ a.toNat < b.toNat := by
  have hne : a.toNat ≠ b.toNat := fun he => h.ne (BitVec.eq_of_toNat_eq he)
  rcases h.left with ⟨h1, ha⟩ | ⟨x, h1⟩ <;> rcases h.right with ⟨h2, hb⟩ | ⟨y, h2⟩
  · exact absurd (ha.trans hb.symm) h.ne
  · subst h1 h2 ha
    have hlex := before_append s [] (b :: y)
    rw [List.append_nil] at hlex
    rw [hlex]
    refine iff_of_true List.Lex.nil ?_
    simp only [BitVec.ofNat_eq_ofNat, BitVec.toNat_ofNat] at hne ⊢
    omega
  · subst h1 h2 hb
    have hlex := before_append t (a :: x) []
    rw [List.append_nil] at hlex
    rw [hlex]
    exact iff_of_false List.not_lex_nil (by simp)
  · subst h1 h2
    rw [before_append, Before, List.cons_lex_cons_iff]
    constructor
    · rintro (h | ⟨h, -⟩)
      · exact h
      · exact absurd (congrArg BitVec.toNat h) hne
    · exact .inl

theorem Differ.signOf (h : Differ s t c a b) {r : ℤ} (hlt : r < 0 ↔ a.toNat < b.toNat)
    (hgt : 0 < r ↔ b.toNat < a.toNat) : SignOf r s t where
  neg := hlt.trans h.before_iff.symm
  pos := hgt.trans h.symm.before_iff.symm
  zero := by
    have hne : a.toNat ≠ b.toNat := fun he => h.ne (BitVec.eq_of_toNat_eq he)
    exact iff_of_false (by omega) h.ne_strings

theorem signOf_same (s : List Byte) : SignOf 0 s s where
  neg := iff_of_false (by decide) (not_before_self s)
  zero := iff_of_true rfl rfl
  pos := iff_of_false (by decide) (not_before_self s)

end Differ

section Chars

variable {signed : Bool} {a b : Byte}

/-- Characters are ordered as unsigned bytes just when signedness does not come between them. -/
theorem charVal_lt_iff (h : signed = true → a.msb = b.msb) :
    charVal signed a < charVal signed b ↔ a.toNat < b.toNat := by
  cases signed with
  | false => simp [charVal]
  | true =>
    have hmsb := h rfl
    simp only [charVal, if_pos, BitVec.toInt_eq_msb_cond, hmsb]
    split_ifs <;> omega

theorem charVal_lt_iff_not (hsigned : signed = true) (h : a.msb ≠ b.msb) :
    charVal signed a < charVal signed b ↔ b.toNat < a.toNat := by
  have ha := a.isLt
  have hb := b.isLt
  have hma : a.msb = decide (128 ≤ a.toNat) := BitVec.msb_eq_decide a
  have hmb : b.msb = decide (128 ≤ b.toNat) := BitVec.msb_eq_decide b
  simp only [charVal, hsigned, if_pos, BitVec.toInt_eq_msb_cond]
  rw [hma, hmb] at h ⊢
  by_cases h1 : 128 ≤ a.toNat <;> by_cases h2 : 128 ≤ b.toNat <;> simp [h1, h2] at h ⊢ <;> omega

theorem sign_sub_iff (hne : a ≠ b) :
    ((a.toNat : ℤ) - b.toNat).sign = (charVal signed a - charVal signed b).sign ↔
      (signed = true → a.msb = b.msb) := by
  have hval : a.toNat ≠ b.toNat := fun he => hne (BitVec.eq_of_toNat_eq he)
  constructor
  · intro hsign hsigned
    by_contra hmsb
    have h1 := charVal_lt_iff_not hsigned hmsb
    have h2 := charVal_lt_iff_not hsigned (Ne.symm hmsb)
    rcases Nat.lt_or_gt_of_ne hval with hlt | hgt
    · rw [Int.sign_eq_neg_one_of_neg (by omega), Int.sign_eq_one_of_pos (by omega)] at hsign
      cases hsign
    · rw [Int.sign_eq_one_of_pos (by omega), Int.sign_eq_neg_one_of_neg (by omega)] at hsign
      cases hsign
  · intro h
    have h1 := charVal_lt_iff h
    have h2 := charVal_lt_iff (a := b) (b := a) fun hs => (h hs).symm
    rcases Nat.lt_or_gt_of_ne hval with hlt | hgt
    · rw [Int.sign_eq_neg_one_of_neg (by omega), Int.sign_eq_neg_one_of_neg (by omega)]
    · rw [Int.sign_eq_one_of_pos (by omega), Int.sign_eq_one_of_pos (by omega)]

end Chars

/-- The length reaches past the NUL of no pair of equal strings; where `char` is signed the first
bytes that differ are both below `0x80` or both not; the strings share fewer than `2^31`
characters. -/
structure Comparable (signed : Bool) (s t : List Byte) (n : ℕ) : Prop where
  ends : s ≠ t ∨ n ≤ s.length + 1
  half : signed = true → ∀ c a b, Differ s t c a b → a.msb = b.msb
  short : ∀ c, c <+: s → c <+: t → c.length < 2 ^ 31

section Laws

variable {signed : Bool} {s t rs rt : List Byte} {n : ℕ}

theorem compareLaws_same (hs : 0 ∉ s) (hlen : s.length < 2 ^ 31) (hn : n ≤ s.length + 1) :
    CompareLaws signed s s rs rt n := by
  have hsplit : ∀ r, cstr s r = (s ++ [0]) ++ r := fun r => by simp [cstr]
  have hlen1 : (s ++ [(0 : Byte)]).length = s.length + 1 := by simp
  have htake : ∀ r, (cstr s r).take (max s.length s.length + 1) = (s ++ [0]) ++ [] := fun r => by
    rw [hsplit, max_self, ← hlen1, List.take_left, List.append_nil]
  have hstrncmp : strncmp signed (cstr s rs) (cstr s rt) n = .ok 0 := by
    rw [hsplit, hsplit]
    exact strncmp_common signed _ rs rt (by omega)
  have hstrcmp := strcmp_same signed rs rt hs hlen
  have hmemcmp : memcmp (cstr s rs) (cstr s rt) (min s.length s.length + 1) = .ok 0 := by
    rw [hsplit, hsplit, min_self, ← hlen1]
    exact (memcmp_append (s ++ [0]) rs rt 0).trans (by simp [memcmp])
  refine ⟨⟨0, hstrncmp, signOf_same _⟩, ?_, fun _ => ⟨0, 0, hstrcmp, hstrncmp, rfl⟩,
    ⟨0, 0, hmemcmp, hstrcmp, rfl⟩⟩
  rw [hstrncmp, htake, htake]
  exact strncmp_common signed _ [] [] (by omega)

theorem memcmp_cstr {c : List Byte} {a b : Byte} (h : Differ s t c a b) :
    memcmp (cstr s rs) (cstr t rt) (min s.length t.length + 1) = .ok (a.toNat - b.toNat) := by
  have hle := h.length_le
  obtain ⟨x, hx⟩ := h.left.cstr_eq rs
  obtain ⟨y, hy⟩ := h.right.cstr_eq rt
  obtain ⟨k, hk⟩ : ∃ k, min s.length t.length + 1 = c.length + (k + 1) :=
    ⟨min s.length t.length - c.length, by omega⟩
  rw [hx, hy, hk, memcmp_append, memcmp, if_pos h.ne]

theorem strcmp_cstr {c : List Byte} {a b : Byte} (h : Differ s t c a b) (hs : 0 ∉ s)
    (hlen : c.length < 2 ^ 31) :
    strcmp signed (cstr s rs) (cstr t rt) = .ok (charVal signed a - charVal signed b) := by
  obtain ⟨x, hx⟩ := h.left.cstr_eq rs
  obtain ⟨y, hy⟩ := h.right.cstr_eq rt
  have hc : 0 ∉ c := fun h0 => hs (h.left.isPrefix.subset h0)
  rw [hx, hy, strcmp_differ signed x y hc hlen h.ne]

/-- The index of `strcmp` overflows on a common prefix of `2^31` characters. -/
theorem strcmp_cstr_overflow {c : List Byte} (hcs : c <+: s) (hct : c <+: t) (hs : 0 ∉ s)
    (hlen : 2 ^ 31 ≤ c.length) : strcmp signed (cstr s rs) (cstr t rt) = .error .overflow := by
  have hc : 0 ∉ c := fun h0 => hs (hcs.subset h0)
  obtain ⟨u, rfl⟩ := hcs
  obtain ⟨v, rfl⟩ := hct
  rw [strcmp, cstr, cstr, List.append_assoc, List.append_assoc]
  exact strcmpFrom_overflow signed _ _ hc (by omega) (by decide)

theorem compareLaws_differ {c : List Byte} {a b : Byte} (h : Differ s t c a b) (hs : 0 ∉ s)
    (hlen : c.length < 2 ^ 31) (hhalf : signed = true → a.msb = b.msb) :
    CompareLaws signed s t rs rt n := by
  have hle := h.length_le
  obtain ⟨x, hx⟩ := h.left.cstr_eq rs
  obtain ⟨y, hy⟩ := h.right.cstr_eq rt
  have hlt := charVal_lt_iff hhalf
  have hgt := charVal_lt_iff (a := b) (b := a) fun hsigned => (hhalf hsigned).symm
  have hval : a.toNat ≠ b.toNat := fun he => h.ne (BitVec.eq_of_toNat_eq he)
  have hstrcmp : strcmp signed (cstr s rs) (cstr t rt) =
      .ok (charVal signed a - charVal signed b) := strcmp_cstr h hs hlen
  have hcmp : ∀ m, c.length < m →
      strncmp signed (cstr s rs) (cstr t rt) m = .ok (charSign signed a b) := fun m hm => by
    rw [hx, hy, strncmp_differ signed c x y h.ne hm]
  have hneg : charSign signed a b < 0 ↔ a.toNat < b.toNat := by
    rw [charSign]
    split_ifs <;> omega
  have hpos : 0 < charSign signed a b ↔ b.toNat < a.toNat := by
    rw [charSign]
    split_ifs <;> omega
  refine ⟨?_, ?_, fun hn => ⟨_, _, hstrcmp, hcmp n (by omega), ?_⟩,
    ⟨_, _, memcmp_cstr h, hstrcmp, (sign_sub_iff h.ne).2 hhalf⟩⟩
  · rcases Nat.lt_or_ge c.length n with hn | hn
    · exact ⟨_, hcmp n hn, (Differ.mk (h.left.take hn) (h.right.take hn) h.ne).signOf hneg hpos⟩
    · obtain ⟨u, rfl⟩ := h.left.isPrefix
      obtain ⟨v, rfl⟩ := h.right.isPrefix
      rw [List.take_append_of_le_length hn, List.take_append_of_le_length hn]
      refine ⟨0, ?_, signOf_same _⟩
      rw [hx, hy, strncmp_common signed c _ _ hn]
  · obtain ⟨x', hx'⟩ := h.left.cstr_take rs (m := max s.length t.length + 1) (by omega)
    obtain ⟨y', hy'⟩ := h.right.cstr_take rt (m := max s.length t.length + 1) (by omega)
    rw [hx', hy', hx, hy]
    rcases Nat.lt_or_ge c.length n with hn | hn
    · rw [strncmp_differ signed c x' y' h.ne hn, strncmp_differ signed c x y h.ne hn]
    · rw [strncmp_common signed c _ _ hn, strncmp_common signed c _ _ hn]
  · rcases Nat.lt_or_gt_of_ne hval with hab | hab
    · rw [Int.sign_eq_neg_one_of_neg (by omega), Int.sign_eq_neg_one_of_neg (hneg.2 hab)]
    · rw [Int.sign_eq_one_of_pos (by omega), Int.sign_eq_one_of_pos (hpos.2 hab)]

/-- Past the NUL of two equal strings `strncmp` goes on into what follows them. -/
theorem strncmp_same_reads_on (s : List Byte) (hn : s.length + 1 < n) :
    strncmp signed ((cstr s rs).take (max s.length s.length + 1))
      ((cstr s rt).take (max s.length s.length + 1)) n = .error .outside := by
  have htake : ∀ r, (cstr s r).take (max s.length s.length + 1) = (s ++ [0]) ++ [] := fun r => by
    have hlen : (s ++ [(0 : Byte)]).length = s.length + 1 := by simp
    rw [max_self, ← hlen, cstr, show s ++ 0 :: r = (s ++ [0]) ++ r by simp, List.take_left,
      List.append_nil]
  obtain ⟨k, rfl⟩ : ∃ k, n = (s ++ [(0 : Byte)]).length + (k + 1) := by
    refine ⟨n - s.length - 2, ?_⟩
    simp
    omega
  rw [htake, htake, strncmp_append]
  simp [strncmp]

/-- The comparison routines agree with each other and with the order of byte strings on exactly
the strings and lengths that are comparable. -/
theorem compareLaws_iff (signed : Bool) (s t rs rt : List Byte) (n : ℕ) (hs : 0 ∉ s) (ht : 0 ∉ t) :
    CompareLaws signed s t rs rt n ↔ Comparable signed s t n := by
  constructor
  · intro h
    obtain ⟨r, r', hmemcmp, hstrcmp, hsign⟩ := h.memcmp_strcmp
    have hshort : ∀ c, c <+: s → c <+: t → c.length < 2 ^ 31 := fun c hcs hct => by
      by_contra hlen
      rw [strcmp_cstr_overflow hcs hct hs (by omega)] at hstrcmp
      cases hstrcmp
    refine ⟨?_, fun hsigned c a b hd => ?_, hshort⟩
    · by_contra hcon
      rw [not_or, not_ne_iff, not_le] at hcon
      obtain ⟨rfl, hn⟩ := hcon
      obtain ⟨r, hr, -⟩ := h.strncmp_lex
      have hreads := h.strncmp_reads
      rw [strncmp_same_reads_on s hn, hr] at hreads
      cases hreads
    · rw [memcmp_cstr hd] at hmemcmp
      rw [strcmp_cstr hd hs (hshort c hd.left.isPrefix hd.right.isPrefix)] at hstrcmp
      cases hmemcmp
      cases hstrcmp
      exact (sign_sub_iff hd.ne).1 hsign hsigned
  · intro h
    by_cases hst : s = t
    · subst hst
      exact compareLaws_same hs (h.short s (List.prefix_refl s) (List.prefix_refl s))
        (h.ends.resolve_left fun hne => hne rfl)
    · obtain ⟨c, a, b, hd⟩ := exists_differ hs ht hst
      exact compareLaws_differ hd hs (h.short c hd.left.isPrefix hd.right.isPrefix)
        fun hsigned => h.half hsigned c a b hd

/-- The strings `ab` and `cd` over more bytes than they have. -/
theorem compareLaws_ab_cd : CompareLaws false [97#8, 98#8] [99#8, 100#8] [] [] 7 :=
  (compareLaws_iff false [97#8, 98#8] [99#8, 100#8] [] [] 7 (by decide) (by decide)).2
    ⟨.inl (by decide), by simp,
      fun _ hc _ => lt_of_le_of_lt hc.length_le (by decide)⟩

/-- `a` followed by `x` in memory, compared over three bytes with `a` followed by `y`. -/
theorem compareLaws_fail : ¬ ∀ (signed : Bool) (s t rs rt : List Byte) (n : ℕ), 0 ∉ s → 0 ∉ t →
    CompareLaws signed s t rs rt n := by
  intro h
  obtain ⟨r, hr, hsign⟩ :=
    (h false [97#8] [97#8] [120#8] [121#8] 3 (by decide) (by decide)).strncmp_lex
  have hres : strncmp false (cstr [97#8] [120#8]) (cstr [97#8] [121#8]) 3 = .ok (-1) := by decide
  rw [hres] at hr
  cases hr
  exact absurd (hsign.zero.2 rfl) (by decide)

end Laws
end Ysyx.Klib
