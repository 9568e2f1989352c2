import Ysyx.Nemu.Machine
import Ysyx.Nemu.MemBounds

/-! Physical addresses with `CONFIG_DEVICE` (`paddr.c`, `mmio.c`, `map.c`, `map.h`): the
table of maps, how it is filled, and the way an access takes. -/

namespace Ysyx.Nemu

open Bytes

abbrev IoSpace := ℕ → Byte

/-- `space` is an offset in `io_space`; a callback is given the offset, the length and the
direction, and may change what the space holds. -/
structure IOMap where
  name : String
  low : Word
  high : Word
  space : ℕ
  callback : Option (Word → ℕ → Bool → IoSpace → IoSpace)

/-- The failures of the device paths: those of memory, the reports of `check_bound` and
`report_mmio_overlap`, and a failed `assert`. -/
inductive BusFault where
  | mem (f : Fault)
  | outOfBound
  | overlap
  | assertion
  deriving DecidableEq, Repr

structure BusState where
  m : Machine
  io : IoSpace

def NR_MAP : ℕ := 16

def ofMem {α : Type} : Except Fault α → Except BusFault α
  | .ok a => .ok a
  | .error f => .error (.mem f)

def mapInside (map : IOMap) (addr : Word) : Bool :=
  map.low.toNat ≤ addr.toNat && addr.toNat ≤ map.high.toNat

theorem mapInside_iff {map : IOMap} {addr : Word} :
    mapInside map addr = true ↔ map.low.toNat ≤ addr.toNat ∧ addr.toNat ≤ map.high.toNat := by
  rw [mapInside, Bool.and_eq_true, decide_eq_true_eq, decide_eq_true_eq]

section Device

variable (cfg : Config) (maps : List IOMap)

/-- `fetch_mmio_map`, with the `difftest_skip_ref` of a search that succeeds. -/
def fetchMmioMap (s : BusState) (addr : Word) : Option IOMap × BusState :=
  match maps.find? (mapInside · addr) with
  | some map => (some map, { s with m := difftestSkipRef cfg s.m })
  | none => (none, s)

def checkBound (map : Option IOMap) (addr : Word) : Except BusFault IOMap :=
  match map with
  | none => .error .outOfBound
  | some map => if mapInside map addr then .ok map else .error .outOfBound

def invokeCallback (map : IOMap) (offset : Word) (len : ℕ) (isWrite : Bool) (s : BusState) :
    BusState :=
  match map.callback with
  | some c => { s with io := c offset len isWrite s.io }
  | none => s

/-- `host_read(map->space + offset, len)` -/
def ioRead (io : IoSpace) (off len : ℕ) : Except BusFault Word :=
  if len = 1 ∨ len = 2 ∨ len = 4 then .ok (leWord (fun k => io (off + k)) len)
  else .error .assertion

def ioWrite (io : IoSpace) (off len : ℕ) (data : Word) : Except BusFault IoSpace :=
  if len = 1 ∨ len = 2 ∨ len = 4 then .ok (writeWindow io off len data) else .error .assertion

def mapRead (s : BusState) (addr : Word) (len : ℕ) (map : Option IOMap) :
    Except BusFault (Word × BusState) :=
  if 1 ≤ len ∧ len ≤ 8 then do
    let map ← checkBound map addr
    let offset := addr - map.low
    let s := invokeCallback map offset len false s
    return (← ioRead s.io (map.space + offset.toNat) len, s)
  else .error .assertion

def mapWrite (s : BusState) (addr : Word) (len : ℕ) (data : Word) (map : Option IOMap) :
    Except BusFault BusState :=
  if 1 ≤ len ∧ len ≤ 8 then do
    let map ← checkBound map addr
    let offset := addr - map.low
    let io ← ioWrite s.io (map.space + offset.toNat) len data
    return invokeCallback map offset len true { s with io := io }
  else .error .assertion

def mmioRead (s : BusState) (addr : Word) (len : ℕ) : Except BusFault (Word × BusState) :=
  let (map, s) := fetchMmioMap cfg maps s addr
  mapRead s addr len map

def mmioWrite (s : BusState) (addr : Word) (len : ℕ) (data : Word) : Except BusFault BusState :=
  let (map, s) := fetchMmioMap cfg maps s addr
  mapWrite s addr len data map

/-- `paddr_read` with `CONFIG_DEVICE`. -/
def paddrReadDevice (s : BusState) (addr : Word) (len : ℕ) : Except BusFault (Word × BusState) := do
  if ← ofMem (inPmem cfg addr) then return (← ofMem (pmemRead cfg s.m.mem addr len), s)
  else mmioRead cfg maps s addr len

/-- `paddr_write` with `CONFIG_DEVICE`. -/
def paddrWriteDevice (s : BusState) (addr : Word) (len : ℕ) (data : Word) :
    Except BusFault BusState := do
  if ← ofMem (inPmem cfg addr) then
    return { s with m := { s.m with mem := ← ofMem (pmemWrite cfg s.m.mem addr len data) } }
  else mmioWrite cfg maps s addr len data

/-- The test of `add_mmio_map` against one earlier map. -/
def overlaps (left right : Word) (map : IOMap) : Bool :=
  left.toNat ≤ map.high.toNat && map.low.toNat ≤ right.toNat

/-- `in_pmem(left) || in_pmem(right)`, where `right` is `left + len - 1` in `paddr_t`. -/
def inPmemEither (left len : Word) : Except BusFault Bool := do
  if ← ofMem (inPmem cfg left) then return true
  else if PMEM64 cfg ∧ 2 ^ 32 < left.toNat + len.toNat then ofMem (.error .assertion)
  else ofMem (inPmem cfg (left + len - 1))

def addMmioMap (map : IOMap) (len : Word) : Except BusFault (List IOMap) :=
  if maps.length < NR_MAP then do
    let left := map.low
    let right := map.low + len - 1
    if ← inPmemEither cfg left len then .error .overlap
    else if maps.any (overlaps left right) then .error .overlap
    else return maps ++ [{ map with high := right }]
  else .error .assertion

end Device

/-- The tables that calls of `add_mmio_map` build. -/
inductive Registered (cfg : Config) : List IOMap → Prop where
  | nil : Registered cfg []
  | add {maps maps' : List IOMap} {map : IOMap} {len : Word} (h : Registered cfg maps)
      (hadd : addMmioMap cfg maps map len = .ok maps') : Registered cfg maps'

end Ysyx.Nemu
