import Ysyx.Nemu.Mmio
import Ysyx.Lib.Outcome

/-! Accesses to a device through `paddr_read`, `map_read` and `map_write` whose callback keeps
variables of its own and may fail an assertion. -/

namespace Ysyx.Nemu

open Bytes

/-- An `IOMap` whose callback works on `δ`, the static variables of the device, and on its space. -/
structure DevMap (δ : Type) where
  low : Word
  high : Word
  space : ℕ
  callback : Word → ℕ → Bool → δ × IoSpace → Except BusFault (δ × IoSpace)

section Access

variable {δ : Type} (map : DevMap δ)

/-- `map_read` -/
def DevMap.read (s : δ × IoSpace) (addr : Word) (len : ℕ) : Except BusFault (Word × (δ × IoSpace)) :=
  if 1 ≤ len ∧ len ≤ 8 then
    if map.low.toNat ≤ addr.toNat ∧ addr.toNat ≤ map.high.toNat then do
      let offset := addr - map.low
      let s ← map.callback offset len false s
      return (← ioRead s.2 (map.space + offset.toNat) len, s)
    else .error .outOfBound
  else .error .assertion

/-- `map_write` -/
def DevMap.write (s : δ × IoSpace) (addr : Word) (len : ℕ) (data : Word) :
    Except BusFault (δ × IoSpace) :=
  if 1 ≤ len ∧ len ≤ 8 then
    if map.low.toNat ≤ addr.toNat ∧ addr.toNat ≤ map.high.toNat then do
      let offset := addr - map.low
      let io ← ioWrite s.2 (map.space + offset.toNat) len data
      map.callback offset len true (s.1, io)
    else .error .outOfBound
  else .error .assertion

/-- `paddr_read` with `CONFIG_DEVICE`, this map being the one that is registered at the address. -/
def DevMap.paddrRead (cfg : Config) (mem : Mem) (s : δ × IoSpace) (addr : Word) (len : ℕ) :
    Except BusFault (Word × (δ × IoSpace)) := do
  if ← ofMem (inPmem cfg addr) then return (← ofMem (pmemRead cfg mem addr len), s)
  else map.read s addr len

theorem DevMap.paddrRead_of_false {cfg : Config} {addr : Word} (h : inPmem cfg addr = .ok false)
    (mem : Mem) (s : δ × IoSpace) (len : ℕ) :
    map.paddrRead cfg mem s addr len = map.read s addr len := by
  rw [DevMap.paddrRead, h]
  rfl

/-- A load of an address that is not in memory reaches the device, or `in_pmem` asserts. -/
theorem DevMap.paddrRead_cases {cfg : Config} {addr : Word} (hdev : inPmem cfg addr ≠ .ok true) :
    inPmem cfg addr = .ok false ∨
      ∃ f, ∀ mem s len, map.paddrRead cfg mem s addr len = .error (.mem f) := by
  cases h : inPmem cfg addr with
  | ok b =>
    cases b with
    | true => exact absurd h hdev
    | false => exact .inl rfl
  | error f =>
    refine .inr ⟨f, fun mem s len => ?_⟩
    rw [DevMap.paddrRead, h]
    rfl

section Word

variable {offset : Word} (hwrap : map.low.toNat + offset.toNat < 2 ^ 32)
  (hhigh : map.low.toNat + offset.toNat ≤ map.high.toNat)

include hwrap in
theorem toNat_low_add : (map.low + offset).toNat = map.low.toNat + offset.toNat := by
  rw [BitVec.toNat_add, Nat.mod_eq_of_lt hwrap]

include hwrap hhigh

variable {len : ℕ} (hlen : len = 1 ∨ len = 2 ∨ len = 4)

include hlen

/-- The bytes are read after the callback had its turn. -/
theorem DevMap.read_eq (s : δ × IoSpace) : map.read s (map.low + offset) len =
    (map.callback offset len false s).map fun s' =>
      (leWord (fun k => s'.2 (map.space + offset.toNat + k)) len, s') := by
  have haddr := toNat_low_add map hwrap
  rw [DevMap.read, if_pos (by omega), if_pos (by omega), add_sub_cancel_left]
  change (map.callback offset len false s >>= fun s => _) = _
  cases map.callback offset len false s with
  | error e => rfl
  | ok s' =>
    change (ioRead s'.2 _ len >>= fun _ => _) = _
    rw [ioRead, if_pos hlen]
    rfl

/-- They are written before it has. -/
theorem DevMap.write_eq (s : δ × IoSpace) (data : Word) : map.write s (map.low + offset) len data =
    map.callback offset len true (s.1, writeWindow s.2 (map.space + offset.toNat) len data) := by
  have haddr := toNat_low_add map hwrap
  rw [DevMap.write, if_pos (by omega), if_pos (by omega), add_sub_cancel_left]
  change (ioWrite s.2 _ len data >>= fun _ => _) = _
  rw [ioWrite, if_pos hlen]
  rfl

end Word

end Access

section Registers

variable (io : IoSpace) (space : ℕ)

/-- `base[i]` of the array of `uint32_t` at `space`. -/
def reg (i : ℕ) : Word := leWord (fun k => io (space + 4 * i + k)) 4

/-- `base[i] = d;` -/
def setReg (i : ℕ) (d : Word) : IoSpace := writeWindow io (space + 4 * i) 4 d

theorem reg_setReg (i : ℕ) (d : Word) : reg (setReg io space i d) space i = d := by
  rw [← leWord_byteOf d]
  refine leWord_congr fun k hk => ?_
  rw [setReg, writeWindow_in _ _ (by omega), leWord_byteOf, Nat.add_sub_cancel_left]

theorem reg_setReg_ne {i j : ℕ} (d : Word) (h : i ≠ j) :
    reg (setReg io space j d) space i = reg io space i := by
  refine leWord_congr fun k hk => ?_
  rw [setReg, writeWindow_out _ _ (by omega)]

end Registers

end Ysyx.Nemu
