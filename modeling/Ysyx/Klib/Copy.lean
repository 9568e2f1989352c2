import Ysyx.Lib.Bytes
import Ysyx.Lib.Region

/-! The routines of klib that copy: `memmove`, `memcpy` and `strncpy`. Pointers and `size_t` are
words of the machine's width, a memory gives every address a byte. -/

namespace Ysyx.Klib

open Bytes Region

variable {w : ℕ}

abbrev Mem (w : ℕ) := BitVec w → Byte

/-- `while(n--){ *d = *s; d++; s++; }` -/
def copyUp (mem : Mem w) (d s : BitVec w) : ℕ → Mem w
  | 0 => mem
  | n + 1 => copyUp (Function.update mem d (mem s)) (d + 1) (s + 1) n

/-- `while(n--){ *d = *s; d--; s--; }` -/
def copyDown (mem : Mem w) (d s : BitVec w) : ℕ → Mem w
  | 0 => mem
  | n + 1 => copyDown (Function.update mem d (mem s)) (d - 1) (s - 1) n

/-- What `memmove` returns and the memory it leaves. -/
def memmove (mem : Mem w) (dst src n : BitVec w) : BitVec w × Mem w :=
  if dst < src then
    (dst, copyUp mem dst src n.toNat)
  else
    (dst, copyDown mem (dst + n - 1) (src + n - 1) n.toNat)

def memcpy (mem : Mem w) (out inp n : BitVec w) : BitVec w × Mem w :=
  (out, copyUp mem out inp n.toNat)

section Move

variable {dst src : BitVec w}

theorem copyUp_copied {n i : ℕ} (hd : dst.toNat + (i + n) ≤ 2 ^ w) (hs : src.toNat + (i + n) ≤ 2 ^ w)
    (hkeep : ∀ k k', i ≤ k → k < k' → k' < i + n → off src k' ≠ off dst k) (mem : Mem w) :
    Copied mem (copyUp mem (off dst i) (off src i) n) dst src i (i + n) := by
  induction n generalizing i mem with
  | zero => exact Copied.refl mem dst src le_rfl
  | succ n ih =>
    simp only [copyUp, off_add_one]
    have hn : i + (n + 1) = i + 1 + n := by omega
    rw [hn] at hd hs hkeep ⊢
    refine Copied.cons (by omega) ?_ (fun k hi hj => hkeep i k le_rfl hi hj) ?_
    · intro k hi hj he
      rw [off_eq_off (by omega) (by omega)] at he
      omega
    · exact ih hd hs (fun k k' hk => hkeep k k' (by omega)) _

theorem copyDown_copied {n : ℕ} (hd : dst.toNat + n ≤ 2 ^ w) (hs : src.toNat + n ≤ 2 ^ w)
    (hle : src ≤ dst) (mem : Mem w) :
    Copied mem (copyDown mem (off dst n - 1) (off src n - 1) n) dst src 0 n := by
  induction n generalizing mem with
  | zero => exact Copied.refl mem dst src le_rfl
  | succ n ih =>
    rw [BitVec.le_def] at hle
    simp only [copyDown, off_succ_sub_one]
    refine Copied.snoc (Nat.zero_le n) ?_ ?_ (ih (by omega) (by omega) _)
    · intro k _ hk he
      rw [off_eq_off (by omega) (by omega)] at he
      omega
    · intro k _ hk he
      rw [off_eq_off (by omega) (by omega)] at he
      omega

/-- Writing from the bottom spoils no source byte when the copy goes down in memory, or to a range
of its own. -/
theorem keep_of_le_or_apart {n : ℕ} (hd : dst.toNat + n ≤ 2 ^ w) (hs : src.toNat + n ≤ 2 ^ w)
    (h : dst ≤ src ∨ Apart dst src n) {k k' : ℕ} (hk : k < k') (hk' : k' < n) :
    off src k' ≠ off dst k := by
  rw [apart_iff hd hs, BitVec.le_def] at h
  intro he
  rw [off_eq_off (by omega) (by omega)] at he
  omega

theorem memcpy_copied {n : BitVec w} (hd : dst.toNat + n.toNat ≤ 2 ^ w)
    (hs : src.toNat + n.toNat ≤ 2 ^ w) (h : dst ≤ src ∨ Apart dst src n.toNat) (mem : Mem w) :
    Copied mem (memcpy mem dst src n).2 dst src 0 n.toNat := by
  have hup := copyUp_copied (i := 0) (n := n.toNat) (by omega) (by omega)
    (fun k k' _ hk hk' => keep_of_le_or_apart hd hs h hk (by omega)) mem
  simpa only [memcpy, off_zero, Nat.zero_add] using hup

theorem memmove_copied {n : BitVec w} (hd : dst.toNat + n.toNat ≤ 2 ^ w)
    (hs : src.toNat + n.toNat ≤ 2 ^ w) (mem : Mem w) :
    Copied mem (memmove mem dst src n).2 dst src 0 n.toNat := by
  rw [memmove]
  split_ifs with hlt
  · exact memcpy_copied hd hs (.inl (BitVec.le_of_lt hlt)) mem
  · have hle : src ≤ dst := BitVec.not_lt.1 hlt
    have hdown := copyDown_copied hd hs hle mem
    rwa [off_toNat_self, off_toNat_self] at hdown

theorem memmove_fst (mem : Mem w) (dst src n : BitVec w) : (memmove mem dst src n).1 = dst := by
  rw [memmove]
  split_ifs <;> rfl

/-- `memmove` moves the bytes whatever the overlap, and `memcpy` does the same where it copies
downwards or between ranges that share no byte. -/
theorem memmove_moves (mem : Mem w) (dst src n : BitVec w) (hd : dst.toNat + n.toNat ≤ 2 ^ w)
    (hs : src.toNat + n.toNat ≤ 2 ^ w) :
    (memmove mem dst src n).1 = dst ∧
    (∀ k < n.toNat, (memmove mem dst src n).2 (off dst k) = mem (off src k)) ∧
    (∀ a, (∀ k < n.toNat, a ≠ off dst k) → (memmove mem dst src n).2 a = mem a) ∧
    (dst ≤ src ∨ Apart dst src n.toNat → memcpy mem dst src n = memmove mem dst src n) := by
  have hmove := memmove_copied hd hs mem
  refine ⟨memmove_fst mem dst src n, fun k hk => hmove.copied k (Nat.zero_le k) hk,
    fun a ha => hmove.frame a fun k _ hk => ha k hk, fun h => ?_⟩
  have hmem := (memcpy_copied hd hs h mem).unique hmove
  exact Prod.ext (memmove_fst mem dst src n).symm hmem

/-- Four bytes moved up by one, over themselves. -/
theorem memmove_moves_up :
    (memmove (fun a : BitVec 32 => a.setWidth 8) 0x101#32 0x100#32 4#32).2 0x104#32 = 3#8 ∧
    (memmove (fun a : BitVec 32 => a.setWidth 8) 0x101#32 0x100#32 4#32).2 0x105#32 = 5#8 := by
  obtain ⟨-, hcopied, hframe, -⟩ := memmove_moves (fun a : BitVec 32 => a.setWidth 8) 0x101#32
    0x100#32 4#32 (by decide) (by decide)
  refine ⟨(hcopied 3 (by decide)).trans (by decide), (hframe 0x105#32 ?_).trans (by decide)⟩
  decide

end Move

/-- How a routine ends that may run into `panic`, which halts the machine. -/
inductive Ended (w : ℕ)
  | returned (p : BitVec w) (mem : Mem w)
  | panicked (mem : Mem w)

/-- `for(i = 0; src[i] != '\0'; i++) dst[i] = src[i];` from `i` on: the memory it leaves and the
index it stops at, `none` when it is still going. -/
def strncpyLoop (dst src : BitVec w) : ℕ → Mem w → BitVec w → Option (Mem w × BitVec w)
  | 0, _, _ => none
  | fuel + 1, mem, i =>
    if mem (src + i) = 0 then
      some (mem, i)
    else
      strncpyLoop dst src fuel (Function.update mem (dst + i) (mem (src + i))) (i + 1)

/-- The length is not looked at, and the body ends in `panic("Not implemented")`. -/
def strncpy (fuel : ℕ) (mem : Mem w) (dst src _n : BitVec w) : Option (Ended w) :=
  (strncpyLoop dst src fuel mem 0).map fun r => .panicked (Function.update r.1 (dst + r.2) 0)

/-- The string `s` and its NUL lie at `p`. -/
structure CStrAt (mem : Mem w) (p : BitVec w) (s : List Byte) : Prop where
  room : p.toNat + s.length < 2 ^ w
  noNul : 0 ∉ s
  chars : ∀ k (h : k < s.length), mem (off p k) = s[k]
  nul : mem (off p s.length) = 0

/-- What C says of `strncpy` from the string `s`: `dst` is returned, the first `n` bytes there are
those of `s` padded with NULs, and nothing else changes. -/
def Strncpies (mem : Mem w) (dst src n : BitVec w) (s : List Byte) : Prop :=
  ∃ fuel mem', strncpy fuel mem dst src n = some (.returned dst mem') ∧
    (∀ k < n.toNat, mem' (off dst k) = s.getD k 0) ∧
    ∀ a, (∀ k < n.toNat, a ≠ off dst k) → mem' a = mem a

section Strncpy

variable {mem : Mem w} {dst src : BitVec w}

theorem strncpy_not_returned (fuel : ℕ) (mem mem' : Mem w) (dst src n p : BitVec w) :
    strncpy fuel mem dst src n ≠ some (.returned p mem') := by
  rw [strncpy]
  cases strncpyLoop dst src fuel mem 0 <;> simp

/-- No call does what C says, as none returns. -/
theorem strncpy_never_copies (mem : Mem w) (dst src n : BitVec w) (s : List Byte) :
    ¬ Strncpies mem dst src n s := by
  rintro ⟨fuel, mem', hreturned, -⟩
  exact strncpy_not_returned fuel mem mem' dst src n dst hreturned

/-- The string `ab`, at address `0x100` of a memory of zeros. -/
def abMem : Mem 32 := fun a => if a = 0x100 then 97 else if a = 0x101 then 98 else 0

theorem strncpy_ab_not_copied : ¬ ∀ (mem : Mem 32) (dst src n : BitVec 32) (s : List Byte),
    CStrAt mem src s → dst.toNat + n.toNat ≤ 2 ^ 32 → Strncpies mem dst src n s := by
  intro h
  have hab : CStrAt abMem 0x100#32 [97#8, 98#8] :=
    ⟨by decide, by decide, by decide, by decide⟩
  obtain ⟨fuel, mem', hreturned, -⟩ := h abMem 0x200#32 0x100#32 2#32 [97#8, 98#8] hab (by decide)
  exact strncpy_not_returned fuel abMem mem' 0x200#32 0x100#32 2#32 0x200#32 hreturned

end Strncpy

end Ysyx.Klib
