import Ysyx.Lib.Rsp

/-! The GDB client through which NEMU talks to QEMU (`tools/qemu-diff/src/protocol.c`). A stream is
the list of the bytes that are still to be read, and reading past it is the end of the connection.
The other side is a function from the bytes of one flush to the bytes that it sends back. -/

namespace Ysyx.Nemu.Gdb

open Bytes Rsp

/-- What ends the process (`errx`), what C leaves undefined, and a loop that has not ended yet. -/
inductive Fault where
  | closed | outside | again
  deriving DecidableEq, Repr

def isdigit (c : Byte) : Bool := ascii '0' ≤ c && c ≤ ascii '9'

def isxdigit (c : Byte) : Bool :=
  isdigit c || (ascii 'a' ≤ c && c ≤ ascii 'f') || (ascii 'A' ≤ c && c ≤ ascii 'F')

def tolower (c : Byte) : Byte := if ascii 'A' ≤ c ∧ c ≤ ascii 'Z' then c + 32 else c

def hexNibble (hex : Byte) : Byte :=
  if isdigit hex then hex - ascii '0' else tolower hex - ascii 'a' + 10

def hexEncode (digit : Byte) : Byte :=
  if digit > 9 then ascii 'a' + digit - 10 else ascii '0' + digit

/-- `UINT16_MAX` for anything but two digits. -/
def gdbDecodeHex (msb lsb : Byte) : ℕ :=
  if isxdigit msb = false ∨ isxdigit lsb = false then 2 ^ 16 - 1
  else 16 * (hexNibble msb).toNat + (hexNibble lsb).toNat

def decodeFrom (value weight : BitVec 64) : List Byte → BitVec 64
  | a :: b :: bytes =>
    if isxdigit a && isxdigit b then
      decodeFrom (value + weight * BitVec.ofNat 64 (gdbDecodeHex a b)) (weight * (16 * 16)) bytes
    else value
  | _ => value

def gdbDecodeHexStr (bytes : List Byte) : BitVec 64 := decodeFrom 0 1 bytes

/-- `send_packet` up to the flush; the checksum is printed by `%02X`. -/
def sendPacket (command : List Byte) : List Byte :=
  let sum := command.foldl (· + ·) 0
  ascii '$' :: command ++ [ascii '#', hexDigit true (sum.toNat / 16), hexDigit true (sum.toNat % 16)]

/-- The bytes that `reply` holds, and the `size` it has been allocated with. -/
structure Reply where
  bytes : List Byte
  size : ℕ
  deriving DecidableEq, Repr

/-- `reply[i++] = c` -/
def Reply.put (r : Reply) (c : Byte) : Except Fault Reply :=
  let size := if r.bytes.length = r.size then r.size * 2 else r.size
  if r.bytes.length < size then .ok ⟨r.bytes ++ [c], size⟩ else .error .outside

/-- `memset(&reply[i], reply[i - 1], count); i += count;` -/
def Reply.fill (r : Reply) (c : Byte) (count : ℕ) : Except Fault Reply :=
  let size := if r.bytes.length + count > r.size then r.size * 2 else r.size
  if r.bytes.length + count ≤ size then .ok ⟨r.bytes ++ List.replicate count c, size⟩
  else .error .outside

/-- `reply[i] = '\0'` -/
def Reply.finish (r : Reply) : Except Fault (List Byte) :=
  let size := if r.bytes.length = r.size then r.size + 1 else r.size
  if r.bytes.length < size then .ok r.bytes else .error .outside

/-- `fgetc` into an `uint8_t`. -/
def getc : List Byte → Byte × List Byte
  | [] => (255, [])
  | c :: input => (c, input)

/-- The count that `case '*'` goes by, where there is something to repeat. -/
def runCount (c : Byte) (reply : Reply) (input : List Byte) : Option (Byte × Byte) :=
  match reply.bytes.getLast?, input with
  | some last, c2 :: _ =>
    if c = ascii '*' ∧ ¬ (c2.toNat < 29 ∨ c2.toNat > 126 ∨ c2 = ascii '$' ∨ c2 = ascii '#') then
      some (last, c2)
    else none
  | _, _ => none

/-- The loop of `recv_packet` behind the first `$`: the reply, whether the checksum was right, and
what is left of the stream. -/
def recvLoop : List Byte → Reply → Byte → Bool → Except Fault (List Byte × Bool × List Byte)
  | [], _, _, _ => .error .closed
  | c :: input, reply, sum, escape =>
    let sum := sum + c
    if c = ascii '$' then recvLoop input ⟨[], reply.size⟩ 0 false
    else if c = ascii '#' then
      let sum := sum - c
      let (msb, input) := getc input
      let (lsb, input) := getc input
      do return (← reply.finish, sum.toNat == gdbDecodeHex msb lsb, input)
    else if c = ascii '}' then recvLoop input reply sum true
    else match runCount c reply input with
      | some (last, c2) => do
        recvLoop input.tail (← reply.fill last (c2.toNat - 29)) (sum + c2) escape
      | none => do
        let c := if escape then c ^^^ 0x20 else c
        recvLoop input (← reply.put c) sum false
termination_by input => input.length
decreasing_by
  all_goals simp only [List.length_cons, List.length_tail]
  all_goals omega

/-- `while ((c = fgetc(in)) != EOF && c != '$');` -/
def skipToPacket : List Byte → List Byte
  | [] => []
  | c :: input => if c = ascii '$' then input else skipToPacket input

def recvPacket (input : List Byte) : Except Fault (List Byte × Bool × List Byte) :=
  recvLoop (skipToPacket input) ⟨[], 4096⟩ 0 false

/-- `struct gdb_conn`: what the other side has sent and is not read yet, the other side, and `ack`. -/
structure Conn (ρ : Type) where
  inbox : List Byte
  peer : ρ
  ack : Bool

section Conn

variable {ρ : Type} (answer : ρ → List Byte → ρ × List Byte)

/-- `fflush(conn->out)` -/
def Conn.flush (conn : Conn ρ) (out : List Byte) : Conn ρ :=
  let (peer, bytes) := answer conn.peer out
  { conn with inbox := conn.inbox ++ bytes, peer }

/-- `gdb_begin` once the connection is there. -/
def gdbBegin (peer : ρ) : Conn ρ := Conn.flush answer ⟨[], peer, true⟩ [ascii '+']

/-- `gdb_send`, with at most `n` turns of its loop. -/
def gdbSend : ℕ → Conn ρ → List Byte → Except Fault (Conn ρ)
  | 0, _, _ => .error .again
  | n + 1, conn, command =>
    let conn := conn.flush answer (sendPacket command)
    if conn.ack = false then .ok conn
    else
      match conn.inbox with
      | [] => gdbSend n conn command
      | c :: inbox =>
        let conn := { conn with inbox }
        if c = ascii '+' then .ok conn else gdbSend n conn command

/-- `gdb_recv`, with at most `n` turns of its loop. -/
def gdbRecv : ℕ → Conn ρ → Except Fault (List Byte × Conn ρ)
  | 0, _ => .error .again
  | n + 1, conn => do
    let (reply, acked, inbox) ← recvPacket conn.inbox
    let conn := { conn with inbox }
    if conn.ack = false then return (reply, conn)
    else
      let conn := conn.flush answer [if acked then ascii '+' else ascii '-']
      if acked then return (reply, conn) else gdbRecv n conn

end Conn

end Ysyx.Nemu.Gdb
