import Ysyx.Lib.Regex
import Ysyx.Nemu.Machine

/-! The debugger's expressions (`expr.c`, `reg.c`): `make_token`, `eval` and what they
call. The array `tokens[p..q]` that a function reads is passed as a list, and
strings are the characters before the terminating NUL. -/

namespace Ysyx.Nemu

open Bytes Regex

/-- A failed `assert(0)`, a write past `str` or `tokens`, a loop or recursion that has used
up its fuel, the host's division trap, a fault of `paddr_read`, a read past `cpu.gpr`. -/
inductive ExprFault where
  | assertion | overflow | fuel | trap
  | read (f : Fault)
  | pastGpr
  deriving DecidableEq, Repr

/-- The character tokens have names of their own. -/
inductive TokenType where
  | TK_NOTYPE
  | lparen | rparen | plus | minus | asterisk | slash
  | TK_EQ | TK_NEQ | TK_GT | TK_LT | TK_GE | TK_LE
  | TK_POS | TK_NEG | TK_DEREF
  | TK_AND | TK_OR
  | TK_NUM | TK_REG | TK_VAR
  deriving DecidableEq, Repr

/-- `str` is written, and read, for numbers, registers and variables only. -/
structure Token where
  type : TokenType
  str : List Char
  deriving DecidableEq, Repr

section Rules

open TokenType

def isHexDigit (c : Char) : Bool :=
  c.isDigit || ('A' ≤ c && c ≤ 'F') || ('a' ≤ c && c ≤ 'f')

def isDecDigit (c : Char) : Bool := c.isDigit

/-- `rules`, in the order in which they are tried. -/
def rules : List (Pattern × TokenType) :=
  [([[.run (· == ' ') 1 none]], TK_NOTYPE),
   ([lit "("], lparen), ([lit ")"], rparen),
   ([lit "+"], plus), ([lit "-"], minus),
   ([lit "*"], asterisk), ([lit "/"], slash),
   ([lit "<"], TK_LT), ([lit ">"], TK_GT), ([lit "<="], TK_LE), ([lit ">="], TK_GE),
   ([lit "=="], TK_EQ), ([lit "!="], TK_NEQ),
   ([lit "&&"], TK_AND), ([lit "||"], TK_OR),
   ([[.run (· == '0') 1 (some 1), .run (fun c => c == 'x' || c == 'X') 1 (some 1),
        .run isHexDigit 1 none],
      [.wordBound, .run isDecDigit 1 none, .wordBound]], TK_NUM),
   ([[.run (· == '$') 1 (some 2), .run isWord 1 none]], TK_REG),
   ([[.run (fun c => c.isAlpha || c == '_') 1 (some 1), .run isWord 0 none]], TK_VAR)]

def boundTypes : List TokenType := [rparen, TK_NUM, TK_REG]
def nopTypes : List TokenType := [lparen, rparen, TK_NUM, TK_REG]
def uopTypes : List TokenType := [TK_NEG, TK_POS, TK_DEREF]

def oftypes (type : TokenType) (types : List TokenType) : Bool := types.contains type

/-- The first rule that matches at the start, with the length of its match. -/
def matchRule (e : List Char) : Option (TokenType × ℕ) :=
  rules.findSome? fun rule => (longest rule.1 e).map fun len => (rule.2, len)

/-- The length of the array `tokens`. -/
def NR_TOKENS : ℕ := 9999999

def unaryOf : TokenType → TokenType
  | plus => TK_POS
  | minus => TK_NEG
  | asterisk => TK_DEREF
  | type => type

/-- The body of the loop of `make_token`, from `tokens[nr_token].type = …` on. -/
def putToken (tokens : List Token) (type : TokenType) (substr : List Char) :
    Except ExprFault (List Token) :=
  if NR_TOKENS ≤ tokens.length then .error .overflow
  else
    match type with
    | TK_NUM | TK_REG | TK_VAR =>
      if substr.length < 32 then .ok (tokens ++ [⟨type, substr⟩]) else .error .overflow
    | plus | minus | asterisk =>
      if !tokens.getLast?.any fun t => oftypes t.type boundTypes then
        .ok (tokens ++ [⟨unaryOf type, []⟩])
      else .ok (tokens ++ [⟨type, []⟩])
    | _ => .ok (tokens ++ [⟨type, []⟩])

/-- `while (e[position] != '\0')`, where `e` is what is left; the result is `none` where no
rule matches. -/
def makeTokenFrom : ℕ → List Char → List Token → Except ExprFault (Option (List Token))
  | _, [], tokens => .ok (some tokens)
  | 0, _ :: _, _ => .error .fuel
  | n + 1, e, tokens =>
    match matchRule e with
    | none => .ok none
    | some (type, len) =>
      if type = TK_NOTYPE then makeTokenFrom n (e.drop len) tokens
      else do
        let tokens ← putToken tokens type (e.take len)
        makeTokenFrom n (e.drop len) tokens

def makeToken (e : List Char) : Except ExprFault (Option (List Token)) :=
  makeTokenFrom e.length e []

/-- The loop of `check_parentheses`. -/
def parLoop : ℤ → List Token → Bool
  | _, [] => false
  | par, t :: ts =>
    let par := if t.type = lparen then par + 1 else if t.type = rparen then par - 1 else par
    if par = 0 then ts.isEmpty else parLoop par ts

def checkParentheses (ts : List Token) : Bool :=
  if (ts.head?.any fun t => t.type = lparen) && (ts.getLast?.any fun t => t.type = rparen) then
    parLoop 0 ts
  else false

def nowType : TokenType → Option ℕ
  | TK_OR => some 1
  | TK_AND => some 2
  | TK_EQ | TK_NEQ => some 3
  | TK_LT | TK_GT | TK_GE | TK_LE => some 4
  | plus | minus => some 5
  | asterisk | slash => some 6
  | TK_NEG | TK_POS | TK_DEREF => some 7
  | _ => none

/-- The loop of `find_op`, where `none` stands for −1. -/
def findOpFrom : ℕ → Option ℕ → ℕ → ℕ → List Token → Except ExprFault (Option ℕ)
  | _, retOp, par, _, [] => .ok (if par ≠ 0 then none else retOp)
  | i, retOp, par, opType, t :: ts =>
    if t.type = lparen then findOpFrom (i + 1) retOp (par + 1) opType ts
    else if t.type = rparen then
      if par = 0 then .ok none else findOpFrom (i + 1) retOp (par - 1) opType ts
    else if oftypes t.type nopTypes then findOpFrom (i + 1) retOp par opType ts
    else if 0 < par then findOpFrom (i + 1) retOp par opType ts
    else
      match nowType t.type with
      | none => .error .assertion
      | some now =>
        if now < opType ∨ (now = opType ∧ !oftypes t.type uopTypes) then
          findOpFrom (i + 1) (some i) par now ts
        else findOpFrom (i + 1) retOp par opType ts

def findOp (ts : List Token) : Except ExprFault (Option ℕ) := findOpFrom 0 none 0 100 ts

end Rules

def digitOf (c : Char) : ℕ :=
  if c.isDigit then c.toNat - '0'.toNat
  else if 'a' ≤ c && c ≤ 'f' then c.toNat - 'a'.toNat + 10
  else c.toNat - 'A'.toNat + 10

/-- `strtoul` on a string without blanks and sign; a value of 2^64 or more saturates. -/
def strtoul (s : List Char) (base : ℕ) : ℕ :=
  let isDigit := if base = 16 then isHexDigit else isDecDigit
  let hasPrefix := base = 16 ∧ s.head? = some '0' ∧ s[1]?.any (fun c => c == 'x' || c == 'X') ∧
    s[2]?.any isHexDigit
  let digits := (if hasPrefix then s.drop 2 else s).takeWhile isDigit
  min (digits.foldl (fun acc c => acc * base + digitOf c) 0) (2 ^ 64 - 1)

/-- `regs` of `reg.c`. -/
def regs : List String :=
  ["$0", "ra", "sp", "gp", "tp", "t0", "t1", "t2",
   "s0", "s1", "a0", "a1", "a2", "a3", "a4", "a5",
   "a6", "a7", "s2", "s3", "s4", "s5", "s6", "s7",
   "s8", "s9", "s10", "s11", "t3", "t4", "t5", "t6"]

section Values

variable (cfg : Config) (m : Machine)

/-- The register is not checked against the length of `cpu.gpr`. -/
def isaRegStr2val (s : List Char) : Except ExprFault (Word × Bool) :=
  match regs.findIdx? fun r => r.toList == s.tail with
  | some i => if i < cfg.nrGpr then .ok (m.cpu.gpr (BitVec.ofNat 5 i), true) else .error .pastGpr
  | none => .ok (0, false)

def evalNumReg (t : Token) : Except ExprFault (Word × Bool) :=
  match t.type with
  | .TK_NUM =>
    if t.str.take 2 = ['0', 'x'] then .ok (BitVec.ofNat 32 (strtoul t.str 16), true)
    else .ok (BitVec.ofNat 32 (strtoul t.str 10), true)
  | .TK_REG => isaRegStr2val cfg m t.str
  | _ => .ok (0, false)

def paddrRead4 (addr : Word) : Except ExprFault Word :=
  match paddrRead cfg m.mem addr 4 with
  | .ok v => .ok v
  | .error f => .error (.read f)

def calc1 (op : TokenType) (val : Word) : Except ExprFault (Word × Bool) :=
  match op with
  | .TK_NEG => .ok (-val, true)
  | .TK_POS => .ok (val, true)
  | .TK_DEREF => do return (← paddrRead4 cfg m val, true)
  | _ => .ok (0, false)

def ofCond (b : Bool) : Word := if b then 1 else 0

/-- The quotient of the two signed values; −2^31 / −1 traps. -/
def calc2 (val1 : Word) (op : TokenType) (val2 : Word) : Except ExprFault (Word × Bool) :=
  match op with
  | .plus => .ok (val1 + val2, true)
  | .minus => .ok (val1 - val2, true)
  | .asterisk => .ok (val1 * val2, true)
  | .slash =>
    if val2 = 0 then .ok (0, false)
    else if val1 = 0x80000000 ∧ val2 = 0xffffffff then .error .trap
    else .ok (val1.sdiv val2, true)
  | .TK_AND => .ok (ofCond (val1 ≠ 0 && val2 ≠ 0), true)
  | .TK_OR => .ok (ofCond (val1 ≠ 0 || val2 ≠ 0), true)
  | .TK_EQ => .ok (ofCond (val1 = val2), true)
  | .TK_NEQ => .ok (ofCond (val1 ≠ val2), true)
  | .TK_GT => .ok (ofCond (val2.ult val1), true)
  | .TK_LT => .ok (ofCond (val1.ult val2), true)
  | .TK_GE => .ok (ofCond (val2.ule val1), true)
  | .TK_LE => .ok (ofCond (val1.ule val2), true)
  | _ => .ok (0, false)

/-- `eval`; the second component is `*pass`. -/
def evalFrom : ℕ → List Token → Except ExprFault (Word × Bool)
  | _, [] => .ok (0, false)
  | 0, _ :: _ => .error .fuel
  | _ + 1, [t] => evalNumReg cfg m t
  | n + 1, ts =>
    if checkParentheses ts then evalFrom n ts.tail.dropLast
    else do
      match ← findOp ts with
      | none => return (0, false)
      | some op =>
        let (val1, pass1) ← evalFrom n (ts.take op)
        let (val2, pass2) ← evalFrom n (ts.drop (op + 1))
        match ts[op]? with
        | none => .error .assertion
        | some t =>
          if !pass2 then return (0, false)
          else if pass1 then calc2 val1 t.type val2
          else calc1 cfg m t.type val2

def eval (ts : List Token) : Except ExprFault (Word × Bool) := evalFrom cfg m ts.length ts

def expr (e : List Char) : Except ExprFault (Word × Bool) := do
  match ← makeToken e with
  | none => return (0, false)
  | some tokens => eval cfg m tokens

end Values

end Ysyx.Nemu
