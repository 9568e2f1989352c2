import Ysyx.Nemu.GdbProtocol

/-! QEMU as the reference of differential testing (`tools/qemu-diff/src/gdb-host.c` and
`diff-test.c`): the commands that the client prints and what it makes of the replies. -/

namespace Ysyx.Nemu.Gdb

open Bytes Rsp

/-- What `diff-test.c` and the buffers of `gdb-host.c` add to the faults of the connection. -/
inductive HostFault where
  | conn (e : Fault)
  | buffer
  | assertion
  | tooLong
  deriving DecidableEq, Repr

def text (s : String) : List Byte := s.toList.map ascii

/-- `%x` -/
def hexText (n : ℕ) : List Byte :=
  if n = 0 then [ascii '0'] else ((Nat.digits 16 n).map (hexDigit false)).reverse

/-- The loop of `sprintf(buf + p, "%c%c", hex_encode(...), hex_encode(...))`. -/
def hexBytes (src : List Byte) : List Byte :=
  src.flatMap fun b : Byte => [hexEncode (b >>> 4), hexEncode (b &&& 0xf)]

def memCommand (dest : Word) (src : List Byte) : List Byte :=
  text "M0x" ++ hexText dest.toNat ++ [ascii ','] ++ hexText src.length ++ [ascii ':'] ++ hexBytes src

def wordBytes (r : List Word) : List Byte := r.flatMap fun w : Word => (List.range 4).map (byteOf w)

/-- `sizeof(union isa_gdb_regs) / sizeof(uint32_t)` -/
def nrArray : ℕ := 77

def regsCommand (r : List Word) : List Byte := ascii 'G' :: hexBytes (wordBytes r)

/-- `strcmp` with a string that is not empty. -/
def isText (reply : List Byte) (s : String) : Bool := reply.takeWhile (· ≠ 0) == text s

section Host

variable {ρ : Type} (answer : ρ → List Byte → ρ × List Byte) (n : ℕ)

/-- One command and its reply, with at most `n` turns of the loops of `gdb_send` and `gdb_recv`. -/
def request (conn : Conn ρ) (command : List Byte) : Except HostFault (List Byte × Conn ρ) := do
  let conn ← (gdbSend answer n conn command).mapError .conn
  (gdbRecv answer n conn).mapError .conn

/-- `buf` has `len * 2 + 128` bytes. -/
def gdbMemcpyToQemuSmall (conn : Conn ρ) (dest : Word) (src : List Byte) :
    Except HostFault (Bool × Conn ρ) := do
  let command := memCommand dest src
  if command.length < src.length * 2 + 128 then
    let (reply, conn) ← request answer n conn command
    return (isText reply "OK", conn)
  else .error .buffer

/-- The loop is `while (len > mtu)`. -/
def gdbMemcpyToQemu (conn : Conn ρ) (dest : Word) (src : List Byte) :
    Except HostFault (Bool × Conn ρ) :=
  if 1500 < src.length then do
    let (ok, conn) ← gdbMemcpyToQemuSmall answer n conn dest (src.take 1500)
    let (ok', conn) ← gdbMemcpyToQemu conn (dest + 1500) (src.drop 1500)
    return (ok && ok', conn)
  else gdbMemcpyToQemuSmall answer n conn dest src
termination_by src.length

/-- The words are read from the buffer of the reply, which goes on with its NUL and with `junk`. -/
def gdbGetregs (junk : List Byte) (conn : Conn ρ) : Except HostFault (List Word × Conn ρ) := do
  let (reply, conn) ← request answer n conn (text "g")
  let buffer := reply ++ 0 :: junk
  let word (i : ℕ) := (gdbDecodeHexStr ((buffer.drop (8 * i)).take 8)).setWidth 32
  return ((List.range nrArray).map word, conn)

def gdbSetregs (conn : Conn ρ) (r : List Word) : Except HostFault (Bool × Conn ρ) := do
  let command := regsCommand r
  if command.length < 4 * nrArray * 2 + 128 then
    let (reply, conn) ← request answer n conn command
    return (isText reply "OK", conn)
  else .error .buffer

def gdbSi (conn : Conn ρ) : Except HostFault (Conn ρ) := do
  return (← request answer n conn (text "vCont;s:1")).2

/-- `difftest_memcpy(addr, buf, n, DIFFTEST_TO_REF)`; the length is passed on as an `int`. -/
def difftestMemcpy (conn : Conn ρ) (addr : Word) (buf : List Byte) :
    Except HostFault (Conn ρ) := do
  if buf.length < 2 ^ 31 then
    let (ok, conn) ← gdbMemcpyToQemu answer n conn addr buf
    if ok then return conn else .error .assertion
  else .error .tooLong

/-- `difftest_regcpy(dut, DIFFTEST_TO_REF)`: the words of `dut` are those of `DIFFTEST_REG_SIZE`. -/
def difftestRegcpyToRef (junk : List Byte) (conn : Conn ρ) (dut : List Word) :
    Except HostFault (Conn ρ) := do
  let (r, conn) ← gdbGetregs answer n junk conn
  return (← gdbSetregs answer n conn (dut ++ r.drop dut.length)).2

/-- `difftest_regcpy(dut, DIFFTEST_TO_DUT)` of `nr` words. -/
def difftestRegcpyToDut (junk : List Byte) (conn : Conn ρ) (nr : ℕ) :
    Except HostFault (List Word × Conn ρ) := do
  let (r, conn) ← gdbGetregs answer n junk conn
  return (r.take nr, conn)

/-- `while (n --) gdb_si();` -/
def difftestExec : ℕ → Conn ρ → Except HostFault (Conn ρ)
  | 0, conn => .ok conn
  | k + 1, conn => do difftestExec k (← gdbSi answer n conn)

/-- A call of the functions of `diff-test.c`; `regcpyToDut` is for `nr` words. -/
inductive Call
  | memcpy (addr : Word) (buf : List Byte)
  | regcpyToRef (dut : List Word)
  | regcpyToDut (nr : ℕ)
  | exec (k : ℕ)

/-- The registers that the call hands out, if any. -/
def Call.run (junk : List Byte) (conn : Conn ρ) :
    Call → Except HostFault (List Word × Conn ρ)
  | .memcpy addr buf => do return ([], ← difftestMemcpy answer n conn addr buf)
  | .regcpyToRef dut => do return ([], ← difftestRegcpyToRef answer n junk conn dut)
  | .regcpyToDut nr => difftestRegcpyToDut answer n junk conn nr
  | .exec k => do return ([], ← difftestExec answer n k conn)

/-- Calls one after the other, each with what its reply buffer goes on with. -/
def runCalls (conn : Conn ρ) : List (Call × List Byte) →
    Except HostFault (List (List Word) × Conn ρ)
  | [] => .ok ([], conn)
  | (c, junk) :: calls => do
    let (dut, conn) ← c.run answer n junk conn
    let (duts, conn) ← runCalls conn calls
    return (dut :: duts, conn)

end Host

end Ysyx.Nemu.Gdb
