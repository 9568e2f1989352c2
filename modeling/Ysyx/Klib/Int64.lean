import Ysyx.Lib.Halves
import Ysyx.Lib.ZeroCount

/-! The 64-bit integer routines of klib (`int64.c`): the division that works on the halves of its
operands, the signed divisions around it, and the counts of leading and trailing zeros. -/

namespace Ysyx.Klib.Int64

open Bytes Halves ZeroCount

/-- `di_int` and `du_int` -/
abbrev DWord := BitVec 64

/-- What C leaves undefined in these routines. -/
inductive Undefined where
  | divide | shift | overflow | builtin
  deriving DecidableEq, Repr

def ofCond (b : Bool) : Word := if b then 1 else 0

/-- A turn of `__clzsi2`: `t = ((x & mask) == 0) << k; x >>= n - t; r += t;`. -/
def clzTurn (mask : Word) (k : ℕ) (n : Word) (x r : Word) : Word × Word :=
  let t := ofCond (x &&& mask == 0) <<< k
  (x >>> (n - t), r + t)

def clzsi2 (a : Word) : Word :=
  let (x, r) := clzTurn 0xFFFF0000 4 16 a 0
  let (x, r) := clzTurn 0xFF00 3 8 x r
  let (x, r) := clzTurn 0xF0 2 4 x r
  let (x, r) := clzTurn 0xC 1 2 x r
  r + ((2 - x) &&& -ofCond (x &&& 2 == 0))

/-- A turn of `__ctzsi2`: `t = ((x & mask) == 0) << k; x >>= t; r += t;`. -/
def ctzTurn (mask : Word) (k : ℕ) (x r : Word) : Word × Word :=
  let t := ofCond (x &&& mask == 0) <<< k
  (x >>> t, r + t)

def ctzsi2 (a : Word) : Word :=
  let (x, r) := ctzTurn 0x0000FFFF 4 a 0
  let (x, r) := ctzTurn 0x00FF 3 x r
  let (x, r) := ctzTurn 0x0F 2 x r
  let (x, r) := ctzTurn 0x3 1 x r
  let x := x &&& 3
  r + ((2 - (x >>> 1)) &&& -ofCond (x &&& 1 == 0))

def ctzdi2 (a : DWord) : Word :=
  let f := -ofCond (lo a == 0)
  ctzsi2 ((hi a &&& f) ||| (lo a &&& ~~~f)) + (f &&& 32)

def clzdi2 (a : DWord) : Word :=
  let f := -ofCond (hi a == 0)
  clzsi2 ((hi a &&& ~~~f) ||| (lo a &&& f)) + (f &&& 32)

structure Udwords where
  high : Word
  low : Word
  deriving DecidableEq, Repr

def Udwords.all (d : Udwords) : DWord := d.high ++ d.low

def Udwords.ofAll (a : DWord) : Udwords := ⟨hi a, lo a⟩

def shl (x k : Word) : Except Undefined Word :=
  if k.toNat < 32 then .ok (x <<< k) else .error .shift

def shr (x k : Word) : Except Undefined Word :=
  if k.toNat < 32 then .ok (x >>> k) else .error .shift

def udiv (x y : Word) : Except Undefined Word := if y = 0 then .error .divide else .ok (x / y)

def umod (x y : Word) : Except Undefined Word := if y = 0 then .error .divide else .ok (x % y)

/-- `__builtin_clz` and `__builtin_ctz` have no value on zero. -/
def builtinClz (x : Word) : Except Undefined Word :=
  if x = 0 then .error .builtin else .ok (clzsi2 x)

def builtinCtz (x : Word) : Except Undefined Word :=
  if x = 0 then .error .builtin else .ok (ctzsi2 x)

/-- What the cases of `__udivmoddi4` lead to: the quotient and `*rem`, or the start of the loop. -/
inductive Plan where
  | done (q rem : DWord)
  | loop (sr : Word) (q r : Udwords)
  deriving DecidableEq, Repr

/-- `q.all = n.all << (n_udword_bits - sr); r.all = n.all >> sr;` for `sr < n_uword_bits`. -/
def splitBelow (n : Udwords) (sr : Word) : Except Undefined Plan := do
  let qhigh ← shl n.low (32 - sr)
  let rhigh ← shr n.high sr
  let rlow := (← shl n.high (32 - sr)) ||| (← shr n.low sr)
  return .loop sr ⟨qhigh, 0⟩ ⟨rhigh, rlow⟩

/-- The same for `sr == n_uword_bits`. -/
def splitMiddle (n : Udwords) (sr : Word) : Plan := .loop sr ⟨n.low, 0⟩ ⟨0, n.high⟩

/-- The same for `sr > n_uword_bits`. -/
def splitAbove (n : Udwords) (sr : Word) : Except Undefined Plan := do
  let qlow ← shl n.low (64 - sr)
  let qhigh := (← shl n.high (64 - sr)) ||| (← shr n.low (sr - 32))
  let rlow ← shr n.high (sr - 32)
  return .loop sr ⟨qhigh, qlow⟩ ⟨0, rlow⟩

/-- The special cases of `__udivmoddi4`; `unsigned` differences wrap. -/
def plan (n d : Udwords) : Except Undefined Plan :=
  if n.high = 0 then
    if d.high = 0 then do
      let rem ← umod n.low d.low
      return .done ((← udiv n.low d.low).setWidth 64) (rem.setWidth 64)
    else .ok (.done 0 (n.low.setWidth 64))
  else if d.low = 0 then
    if d.high = 0 then do
      let rem ← umod n.high d.low
      return .done ((← udiv n.high d.low).setWidth 64) (rem.setWidth 64)
    else if n.low = 0 then do
      let rhigh ← umod n.high d.high
      return .done ((← udiv n.high d.high).setWidth 64) (Udwords.all ⟨rhigh, 0⟩)
    else if d.high &&& (d.high - 1) = 0 then do
      let q ← shr n.high (← builtinCtz d.high)
      return .done (q.setWidth 64) (Udwords.all ⟨n.high &&& (d.high - 1), n.low⟩)
    else do
      let sr := (← builtinClz d.high) - (← builtinClz n.high)
      if sr > 32 - 2 then return .done 0 n.all
      else splitBelow n (sr + 1)
  else if d.high = 0 then
    if d.low &&& (d.low - 1) = 0 then do
      let rem := n.low &&& (d.low - 1)
      if d.low = 1 then return .done n.all (rem.setWidth 64)
      else do
        let sr ← builtinCtz d.low
        let qhigh ← shr n.high sr
        let qlow := (← shl n.high (32 - sr)) ||| (← shr n.low sr)
        return .done (Udwords.all ⟨qhigh, qlow⟩) (rem.setWidth 64)
    else do
      let sr := 1 + 32 + (← builtinClz d.low) - (← builtinClz n.high)
      if sr = 32 then return splitMiddle n sr
      else if sr < 32 then splitBelow n sr
      else splitAbove n sr
  else do
    let sr := (← builtinClz d.high) - (← builtinClz n.high)
    if sr > 32 - 1 then return .done 0 n.all
    else
      let sr := sr + 1
      if sr = 32 then return splitMiddle n sr
      else splitBelow n sr

/-- The registers of the loop. -/
structure LoopState where
  q : Udwords
  r : Udwords
  carry : Word

def turn (d : Udwords) (t : LoopState) : LoopState :=
  let rhigh := (t.r.high <<< 1) ||| (t.r.low >>> 31)
  let rlow := (t.r.low <<< 1) ||| (t.q.high >>> 31)
  let qhigh := (t.q.high <<< 1) ||| (t.q.low >>> 31)
  let qlow := (t.q.low <<< 1) ||| t.carry
  let r : Udwords := ⟨rhigh, rlow⟩
  let s := (d.all - r.all - 1).sshiftRight 63
  ⟨⟨qhigh, qlow⟩, .ofAll (r.all - (d.all &&& s)), lo (s &&& 1)⟩

/-- `for (; sr > 0; --sr)` -/
def turns (d : Udwords) : ℕ → LoopState → LoopState
  | 0, t => t
  | k + 1, t => turns d k (turn d t)

/-- The quotient, and what is stored in `*rem`. -/
def udivmoddi4 (a b : DWord) : Except Undefined (DWord × DWord) := do
  match ← plan (.ofAll a) (.ofAll b) with
  | .done q rem => return (q, rem)
  | .loop sr q r =>
    let t := turns (.ofAll b) sr.toNat ⟨q, r, 0⟩
    return ((t.q.all <<< 1) ||| t.carry.setWidth 64, t.r.all)

def udivdi3 (a b : DWord) : Except Undefined DWord := do return (← udivmoddi4 a b).1

def umoddi3 (a b : DWord) : Except Undefined DWord := do return (← udivmoddi4 a b).2

/-- `x - y` of two `di_int`. -/
def signedSub (x y : DWord) : Except Undefined DWord :=
  if x.ssubOverflow y then .error .overflow else .ok (x - y)

def signedMul (x y : DWord) : Except Undefined DWord :=
  if x.smulOverflow y then .error .overflow else .ok (x * y)

/-- The quotient is unsigned, so that the last difference wraps. -/
def divdi3 (a b : DWord) : Except Undefined DWord := do
  let sa := a.sshiftRight 63
  let sb := b.sshiftRight 63
  let a ← signedSub (a ^^^ sa) sa
  let b ← signedSub (b ^^^ sb) sb
  let sa := sa ^^^ sb
  return ((← udivmoddi4 a b).1 ^^^ sa) - sa

/-- The quotient, and what is stored in `*rem`. -/
def divmoddi4 (a b : DWord) : Except Undefined (DWord × DWord) := do
  let d ← divdi3 a b
  let rem ← signedSub a (← signedMul d b)
  return (d, rem)

def moddi3 (a b : DWord) : Except Undefined DWord := do
  let s := b.sshiftRight 63
  let b ← signedSub (b ^^^ s) s
  let s := a.sshiftRight 63
  let a ← signedSub (a ^^^ s) s
  let r := (← udivmoddi4 a b).2
  signedSub (r ^^^ s) s

end Ysyx.Klib.Int64
