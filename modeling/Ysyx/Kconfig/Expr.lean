import Ysyx.Lib.Fuel

/-! Dependency expressions of kconfig: `struct expr`, the comparison of two of them, and what is
taken out of one or of both. An absent expression (`NULL`) is only ever a whole one. -/

namespace Ysyx.Kconfig

inductive Tristate
  | no | mod | yes
  deriving DecidableEq, Repr

namespace Tristate

def toNat : Tristate → ℕ
  | no => 0
  | mod => 1
  | yes => 2

instance : LinearOrder Tristate :=
  LinearOrder.lift' toNat fun a b => by cases a <;> cases b <;> simp [toNat]

/-- `EXPR_NOT` -/
def not : Tristate → Tristate
  | no => yes
  | mod => mod
  | yes => no

end Tristate

inductive SymbolType
  | unknown | boolean | tristate | int | hex | string
  deriving DecidableEq, Repr

/-- The symbol table: every name is interned, once as a constant and once as a symbol. -/
structure Symbols (σ : Type) where
  name : σ → List Char
  type : σ → SymbolType
  /-- `flags & SYMBOL_CONST` -/
  const : σ → Bool
  yes : σ
  mod : σ
  no : σ
  name_yes : name yes = ['y']
  name_mod : name mod = ['m']
  name_no : name no = ['n']
  const_yes : const yes = true
  const_mod : const mod = true
  const_no : const no = true
  const_type : ∀ s, const s = true → type s = .unknown
  const_inj : ∀ s t, const s = true → const t = true → name s = name t → s = t

attribute [simp] Symbols.name_yes Symbols.name_mod Symbols.name_no Symbols.const_yes
  Symbols.const_mod Symbols.const_no

section Constants

variable {σ : Type} (S : Symbols σ)

/-- `symbol_yes`, `symbol_mod` and `symbol_no` -/
def Symbols.of : Tristate → σ
  | .yes => S.yes
  | .mod => S.mod
  | .no => S.no

theorem Symbols.const_of (t : Tristate) : S.const (S.of t) = true := by
  cases t <;> simp [Symbols.of]

theorem Symbols.of_inj {t u : Tristate} : S.of t = S.of u ↔ t = u := by
  refine ⟨fun h => ?_, congrArg _⟩
  have hn := congrArg S.name h
  cases t <;> cases u <;> simp [Symbols.of] at hn ⊢

end Constants

/-- The two types with expressions on both sides. -/
inductive BinOp
  | or | and
  deriving DecidableEq, Repr

/-- The types with symbols on both sides. -/
inductive CmpOp
  | equal | unequal | lth | leq | gth | geq
  deriving DecidableEq, Repr

inductive Expr (σ : Type)
  | symbol (sym : σ)
  | not (e : Expr σ)
  | bin (type : BinOp) (left right : Expr σ)
  | comp (type : CmpOp) (left right : σ)
  deriving DecidableEq, Repr

/-- The connective of the negated operands. -/
def BinOp.dual : BinOp → BinOp
  | or => and
  | and => or

namespace Expr

variable {σ : Type}

/-- The operands of an expression of this type. -/
def operands (type : BinOp) : Expr σ → Option (Expr σ × Expr σ)
  | bin t l r => if t = type then some (l, r) else none
  | _ => none

/-- The type of an expression that is `E_OR` or `E_AND`. -/
def binType : Expr σ → Option BinOp
  | bin t _ _ => some t
  | _ => none

def size : Expr σ → ℕ
  | symbol _ => 1
  | not e => e.size + 1
  | bin _ l r => l.size + r.size + 1
  | comp _ _ _ => 1

theorem size_pos (e : Expr σ) : 0 < e.size := by
  cases e <;> simp only [size] <;> omega

theorem operands_eq_some {type : BinOp} {e l r : Expr σ} :
    e.operands type = some (l, r) ↔ e = bin type l r := by
  cases e with
  | bin t a b =>
    simp only [operands, bin.injEq]
    by_cases ht : t = type <;> simp [ht]
  | _ => simp [operands]

@[simp] theorem operands_bin (type : BinOp) (l r : Expr σ) :
    (bin type l r).operands type = some (l, r) := if_pos rfl

end Expr

section Places

variable {σ : Type}

/-- Where an expression hangs in a tree: the turns from the root, right being `true`. -/
abbrev Place := List Bool

def Expr.at : Expr σ → Place → Option (Expr σ)
  | e, [] => some e
  | .bin _ l r, right :: p => if right then r.at p else l.at p
  | _, _ :: _ => none

def Expr.set : Expr σ → Place → Expr σ → Expr σ
  | _, [], x => x
  | .bin t l r, right :: p, x => if right then .bin t l (r.set p x) else .bin t (l.set p x) r
  | e, _ :: _, _ => e

@[simp] theorem Expr.at_nil (e : Expr σ) : e.at [] = some e := by cases e <;> rfl

@[simp] theorem Expr.set_nil (e x : Expr σ) : e.set [] x = x := by cases e <;> rfl

@[simp] theorem Expr.set_left (t : BinOp) (l r x : Expr σ) (p : Place) :
    (bin t l r).set (false :: p) x = bin t (l.set p x) r := rfl

@[simp] theorem Expr.set_right (t : BinOp) (l r x : Expr σ) (p : Place) :
    (bin t l r).set (true :: p) x = bin t l (r.set p x) := rfl

end Places

section Functions

variable {σ : Type} [DecidableEq σ] (S : Symbols σ)

/-- The symbol an operand is replaced with when it goes: `n` of `||`, `y` of `&&`. -/
def BinOp.unit : BinOp → σ
  | .or => S.no
  | .and => S.yes

/-- The symbol that decides the whole: `y` of `||`, `n` of `&&`. -/
def BinOp.zero : BinOp → σ
  | .or => S.yes
  | .and => S.no

def exprEliminateYn : Expr σ → Expr σ
  | .bin type left right =>
    let l := exprEliminateYn left
    let r := exprEliminateYn right
    if l = .symbol (type.zero S) then .symbol (type.zero S)
    else if l = .symbol (type.unit S) then r
    else if r = .symbol (type.zero S) then .symbol (type.zero S)
    else if r = .symbol (type.unit S) then l
    else .bin type l r
  | e => e

def sameSymbol : Expr σ → Expr σ → Bool
  | .symbol s1, .symbol s2 => s1 = s2
  | _, _ => false

mutual

/-- `__expr_eliminate_eq()` -/
def exprEliminateEq1 : ℕ → BinOp → Expr σ → Expr σ → Option (Expr σ × Expr σ)
  | 0, _, _, _ => none
  | n + 1, type, e1, e2 =>
    match e1.operands type with
    | some (left, right) => do
      let (left, e2) ← exprEliminateEq1 n type left e2
      let (right, e2) ← exprEliminateEq1 n type right e2
      return (.bin type left right, e2)
    | none =>
      match e2.operands type with
      | some (left, right) => do
        let (e1, left) ← exprEliminateEq1 n type e1 left
        let (e1, right) ← exprEliminateEq1 n type e1 right
        return (e1, .bin type left right)
      | none => do
        -- `e1` and `e2` are leaves.
        if e1 = e2 ∧ (e1 = .symbol S.yes ∨ e1 = .symbol S.no) then return (e1, e2)
        if ← exprEq n e1 e2 then return (.symbol (type.unit S), .symbol (type.unit S))
        return (e1, e2)

def exprEliminateEq : ℕ → Expr σ → Expr σ → Option (Expr σ × Expr σ)
  | 0, _, _ => none
  | n + 1, e1, e2 => do
    let p ← (match e1.binType with
      | some type => exprEliminateEq1 n type e1 e2
      | none => some (e1, e2))
    let q ← (match p.2.binType with
      | some type => if p.1.binType = some type then some p else exprEliminateEq1 n type p.1 p.2
      | none => some p)
    return (exprEliminateYn S q.1, exprEliminateYn S q.2)

def exprEq : ℕ → Expr σ → Expr σ → Option Bool
  | 0, _, _ => none
  | _ + 1, .comp c1 l1 r1, .comp c2 l2 r2 => some (c1 = c2 ∧ l1 = l2 ∧ r1 = r2)
  | _ + 1, .symbol s1, .symbol s2 => some (s1 = s2)
  | n + 1, .not e1, .not e2 => exprEq n e1 e2
  | n + 1, .bin t1 l1 r1, .bin t2 l2 r2 =>
    if t1 ≠ t2 then some false
    else do
      let p ← exprEliminateEq n (.bin t1 l1 r1) (.bin t2 l2 r2)
      return sameSymbol p.1 p.2
  | _ + 1, _, _ => some false

end

/-- The symbol of the left operand: that of a comparison with `=` or `!=`, also under a `!`. -/
def joinSym1 : Expr σ → Option σ
  | .comp .equal l _ | .comp .unequal l _ | .symbol l => some l
  | .not (.comp .equal l _) | .not (.comp .unequal l _) | .not (.symbol l) => some l
  | _ => none

/-- The symbol of the right operand: under a `!` only a symbol. -/
def joinSym2 : Expr σ → Option σ
  | .comp .equal l _ | .comp .unequal l _ | .symbol l => some l
  | .not (.symbol l) => some l
  | _ => none

def isSymbol : Expr σ → Bool
  | .symbol _ => true
  | _ => false

def isNotSymbol : Expr σ → Bool
  | .not (.symbol _) => true
  | _ => false

/-- What an expression of this type compares with. -/
def rhs (c : CmpOp) : Expr σ → Option σ
  | .comp c' _ r => if c' = c then some r else none
  | _ => none

/-- Two comparisons of this type, one with `a` and one with `b`. -/
def compPair (c : CmpOp) (a b : σ) (e1 e2 : Expr σ) : Prop :=
  rhs c e1 = some a ∧ rhs c e2 = some b ∨ rhs c e1 = some b ∧ rhs c e2 = some a

/-- A symbol, and a comparison of this type with `a`. -/
def symbolAnd (c : CmpOp) (a : σ) (e1 e2 : Expr σ) : Prop :=
  isSymbol e1 ∧ rhs c e2 = some a ∨ isSymbol e2 ∧ rhs c e1 = some a

instance (c : CmpOp) (a b : σ) (e1 e2 : Expr σ) : Decidable (compPair c a b e1 e2) :=
  inferInstanceAs (Decidable (_ ∨ _))

instance (c : CmpOp) (a : σ) (e1 e2 : Expr σ) : Decidable (symbolAnd c a e1 e2) :=
  inferInstanceAs (Decidable (_ ∨ _))

/-- `expr_join_or()` once both sides are about `sym`. -/
def joinOrOf (sym : σ) (e1 e2 : Expr σ) : Option (Expr σ) :=
  if S.type sym ≠ .boolean ∧ S.type sym ≠ .tristate then none
  else if S.type sym = .tristate ∧ compPair .equal S.yes S.mod e1 e2 then
    some (.comp .unequal sym S.no)
  else if S.type sym = .tristate ∧ compPair .equal S.yes S.no e1 e2 then
    some (.comp .unequal sym S.mod)
  else if S.type sym = .tristate ∧ compPair .equal S.mod S.no e1 e2 then
    some (.comp .unequal sym S.yes)
  else if S.type sym = .boolean ∧ (isNotSymbol e1 ∧ isSymbol e2 ∨ isNotSymbol e2 ∧ isSymbol e1) then
    some (.symbol S.yes)
  else none

/-- `(a='b') && (a!='c') -> 'b'='c' ? 'n' : a='b'` -/
def joinConsts (sym : σ) (eq ne : Expr σ) : Option (Expr σ) :=
  match rhs .equal eq, rhs .unequal ne with
  | some b, some c =>
    if S.const c ∧ S.const b then
      some (if b ≠ c then .comp .equal sym b else .symbol S.no)
    else none
  | _, _ => none

/-- Two of `(a!='y')`, `(a!='m')` and `(a!='n')`: the third value. -/
def joinUnequals (sym : σ) (e1 e2 : Expr σ) : Option (Expr σ) :=
  if compPair .unequal S.yes S.no e1 e2 then some (.comp .equal sym S.mod)
  else if compPair .unequal S.yes S.mod e1 e2 then some (.comp .equal sym S.no)
  else if compPair .unequal S.mod S.no e1 e2 then some (.comp .equal sym S.yes)
  else none

/-- `expr_join_and()` once both sides are about `sym`. -/
def joinAndOf (sym : σ) (e1 e2 : Expr σ) : Option (Expr σ) :=
  if S.type sym ≠ .boolean ∧ S.type sym ≠ .tristate then none
  else if symbolAnd .equal S.yes e1 e2 then some (.comp .equal sym S.yes)
  else if symbolAnd .unequal S.no e1 e2 then some (.symbol sym)
  else if symbolAnd .unequal S.mod e1 e2 then some (.comp .equal sym S.yes)
  else if S.type sym = .tristate then
    ((joinConsts S sym e1 e2).or (joinConsts S sym e2 e1)).or (joinUnequals S sym e1 e2)
  else none

/-- Both operands have to be about one symbol. -/
def joinAbout (rules : σ → Expr σ → Expr σ → Option (Expr σ)) (e1 e2 : Expr σ) : Option (Expr σ) :=
  match joinSym1 e1, joinSym2 e2 with
  | some sym1, some sym2 => if sym1 ≠ sym2 then none else rules sym1 e1 e2
  | _, _ => none

/-- How both joins begin: equal operands are one. -/
def exprJoin (rules : σ → Expr σ → Expr σ → Option (Expr σ)) (n : ℕ) (e1 e2 : Expr σ) :
    Option (Option (Expr σ)) := do
  let eq ← exprEq S n e1 e2
  return if eq then some e1 else joinAbout rules e1 e2

def exprJoinOr : ℕ → Expr σ → Expr σ → Option (Option (Expr σ)) := exprJoin S (joinOrOf S)

def exprJoinAnd : ℕ → Expr σ → Expr σ → Option (Option (Expr σ)) := exprJoin S (joinAndOf S)

/-- `expr_eliminate_dups1()`: `ep1` and `ep2` are two places in one tree, which is changed under
way. The number is `trans_count`. -/
def exprEliminateDups1 : ℕ → BinOp → Place → Place → Expr σ × ℕ → Option (Expr σ × ℕ)
  | 0, _, _, _, _ => none
  | n + 1, type, ep1, ep2, (e, count) => do
    let e1 ← e.at ep1
    let e2 ← e.at ep2
    if (e1.operands type).isSome then do
      let s ← exprEliminateDups1 n type (ep1 ++ [false]) ep2 (e, count)
      exprEliminateDups1 n type (ep1 ++ [true]) ep2 s
    else if (e2.operands type).isSome then do
      let s ← exprEliminateDups1 n type ep1 (ep2 ++ [false]) (e, count)
      exprEliminateDups1 n type ep1 (ep2 ++ [true]) s
    else if ep1 = ep2 then some (e, count)
    else do
      -- Within the first leaf both places start at the leaf itself.
      let s ← (match e1.binType with
        | some type1 => exprEliminateDups1 n type1 [] [] (e1, count)
        | none => some (e1, count))
      let tmp ← (match type with
        | .or => exprJoinOr S n s.1 e2
        | .and => exprJoinAnd S n s.1 e2)
      return (match tmp with
        | some tmp => ((e.set ep1 (.symbol (type.unit S))).set ep2 tmp, s.2 + 1)
        | none => (e.set ep1 s.1, s.2))

/-- One pass of the loop below. -/
def exprDupsPass (n : ℕ) (e : Expr σ) : Option (Expr σ × ℕ) :=
  match e.binType with
  | some type => exprEliminateDups1 S n type [] [] (e, 0)
  | none => some (e, 0)

def exprEliminateDups : ℕ → Expr σ → Option (Expr σ)
  | 0, _ => none
  | n + 1, e => do
    let s ← exprDupsPass S n e
    if s.2 = 0 then return s.1
    else exprEliminateDups n (exprEliminateYn S s.1)

def CmpOp.negate : CmpOp → CmpOp
  | .equal => .unequal
  | .unequal => .equal
  | .leq => .gth
  | .geq => .lth
  | .lth => .geq
  | .gth => .leq

/-- A boolean symbol compared with `y`, `m` or `n`. -/
def transformComp (c : CmpOp) (left right : σ) : Expr σ :=
  match c with
  | .equal =>
    if S.type left ≠ .boolean then .comp c left right
    else if right = S.no then .not (.symbol left)
    else if right = S.mod then .symbol S.no
    else if right = S.yes then .symbol left
    else .comp c left right
  | .unequal =>
    if S.type left ≠ .boolean then .comp c left right
    else if right = S.no then .symbol left
    else if right = S.mod then .symbol S.yes
    else if right = S.yes then .not (.symbol left)
    else .comp c left right
  | _ => .comp c left right

/-- A symbol under a `!`. -/
def transformNotSymbol (s : σ) : Expr σ :=
  if s = S.yes then .symbol S.no
  else if s = S.mod then .symbol S.mod
  else if s = S.no then .symbol S.yes
  else .not (.symbol s)

/-- What is left of `!e`, `transform` being the recursive call. -/
def transformNot (transform : Expr σ → Option (Expr σ)) : Expr σ → Option (Expr σ)
  | .not a => transform a
  | .comp c left right => some (.comp c.negate left right)
  | .bin .or left right => transform (.bin .and (.not left) (.not right))
  | .bin .and left right => transform (.bin .or (.not left) (.not right))
  | .symbol s => some (transformNotSymbol S s)

def exprTransform : ℕ → Expr σ → Option (Expr σ)
  | 0, _ => none
  | _ + 1, .symbol s => some (.symbol s)
  | _ + 1, .comp c left right => some (transformComp S c left right)
  | n + 1, .bin type left right => do
    let left ← exprTransform n left
    let right ← exprTransform n right
    return .bin type left right
  | n + 1, .not e => do
    let e ← exprTransform n e
    transformNot S (exprTransform n) e

/-- `expr_trans_compare()` with one of the three constants, `type` being `E_EQUAL` or
`E_UNEQUAL` -/
def exprTransCompare (sym : Tristate) : CmpOp → Expr σ → Expr σ
  | type, .bin t left right =>
    let e1 := exprTransCompare sym .equal left
    let e2 := exprTransCompare sym .equal right
    let e := match sym, t with
      | .yes, t => .bin t e1 e2
      | .no, .and => .bin .or e1 e2
      | .no, .or => .bin .and e1 e2
      | .mod, t => .bin t left right
    if type = .unequal then .not e else e
  | type, .not e => exprTransCompare sym (if type = .equal then .unequal else .equal) e
  | type, .comp c left right =>
    match sym, decide (type = .equal) with
    | .yes, true => .comp c left right
    | .mod, true => .symbol S.no
    | .no, true => .not (.comp c left right)
    | .yes, false => .not (.comp c left right)
    | .mod, false => .symbol S.yes
    | .no, false => .comp c left right
  | type, .symbol s => .comp type s (S.of sym)

def exprIsYes : Option (Expr σ) → Bool
  | none => true
  | some e => e = .symbol S.yes

/-- `expr_eq()` of two expressions that may be absent -/
def exprEqNull (n : ℕ) : Option (Expr σ) → Option (Expr σ) → Option Bool
  | some e1, some e2 => exprEq S n e1 e2
  | e1, e2 => some (exprIsYes S e1 && exprIsYes S e2)

/-- `expr_trans_compare()` of one that may be absent -/
def exprTransCompareNull (sym : Tristate) (type : CmpOp) : Option (Expr σ) → Expr σ
  | some e => exprTransCompare S sym type e
  | none => if type = .unequal then .not (.symbol (S.of sym)) else .symbol (S.of sym)

end Functions

end Ysyx.Kconfig
