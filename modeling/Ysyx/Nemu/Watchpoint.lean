import Ysyx.Lib.Chain
import Ysyx.Nemu.Expr

/-! The watchpoint pool of the debugger (`watchpoint.c`): the two lists through
`wp_pool`, and the hook that evaluates every active expression after an
instruction. A `WP *` is an index of `wp_pool` or `NULL`. -/

namespace Ysyx.Nemu

open Bytes

abbrev NR_WP : ℕ := 32

abbrev WPtr := Fin NR_WP

/-- The field `new` is never read or written. -/
structure WP where
  NO : ℤ
  next : Option WPtr
  expr : List Char
  old : Word

structure WPPool where
  wp : WPtr → WP
  head : Option WPtr
  free_ : Option WPtr

/-- A failed `assert`, a use of `NULL`, a string too long for its buffer, a loop that does not
end, a fault of the evaluator. -/
inductive WPFault where
  | assertion | nullPtr | overflow | fuel
  | expr (f : ExprFault)
  deriving DecidableEq, Repr

def WPPool.next (w : WPPool) (p : WPtr) : Option WPtr := (w.wp p).next

/-- `p->next = q;` -/
def WPPool.setNext (w : WPPool) (p : WPtr) (q : Option WPtr) : WPPool :=
  { w with wp := Function.update w.wp p { w.wp p with next := q } }

/-- `p->old = v;` -/
def WPPool.setOld (w : WPPool) (p : WPtr) (v : Word) : WPPool :=
  { w with wp := Function.update w.wp p { w.wp p with old := v } }

/-- `strcpy(p->expr, e); p->old = v;` -/
def WPPool.fill (w : WPPool) (p : WPtr) (e : List Char) (v : Word) : WPPool :=
  { w with wp := Function.update w.wp p { w.wp p with expr := e, old := v } }

def initWpPool (w : WPPool) : WPPool where
  wp i := { w.wp i with
    NO := (i.val : ℤ)
    next := if h : i.val + 1 < NR_WP then some ⟨i.val + 1, h⟩ else none }
  head := none
  free_ := some 0

def newWp (w : WPPool) : Except WPFault (WPtr × WPPool) :=
  match w.free_ with
  | none => .error .assertion
  | some ret =>
    let w := { w with free_ := w.next ret }
    let w := w.setNext ret w.head
    .ok (ret, { w with head := some ret })

/-- `while (tmp->next != NULL)`: the node before `wp`. -/
def findPrev (w : WPPool) (wp : WPtr) : ℕ → WPtr → Except WPFault WPtr
  | n, tmp =>
    match w.next tmp with
    | none => .error .assertion
    | some q =>
      if q = wp then .ok tmp
      else
        match n with
        | 0 => .error .fuel
        | n + 1 => findPrev w wp n q

/-- `wp->next = free_; free_ = wp;` -/
def pushFree (w : WPPool) (wp : WPtr) : WPPool :=
  { w.setNext wp w.free_ with free_ := some wp }

def freeWp (w : WPPool) (wp : Option WPtr) : Except WPFault WPPool :=
  match wp with
  | none => .error .assertion
  | some wp =>
    if w.head = some wp ∧ w.next wp = none then .ok { pushFree w wp with head := none }
    else if w.head = some wp ∧ w.next wp ≠ none then
      .ok (pushFree { w with head := w.next wp } wp)
    else
      match w.head with
      | none => .error .nullPtr
      | some tmp => do
        let tmp ← findPrev w wp NR_WP tmp
        return pushFree (w.setNext tmp (w.next wp)) wp

/-- `strcpy` into `char expr[100]`. -/
def wpSet (w : WPPool) (expr : List Char) (result : Word) : Except WPFault (WPtr × WPPool) := do
  let (wp, w) ← newWp w
  if expr.length < 100 then return (wp, w.fill wp expr result) else .error .overflow

/-- `while ((tmp->NO != no) && (tmp->NO < NR_WP - 1))` -/
def seekNo (w : WPPool) (no : ℤ) : ℕ → Option WPtr → Except WPFault WPtr
  | _, none => .error .nullPtr
  | n, some tmp =>
    if (w.wp tmp).NO ≠ no ∧ (w.wp tmp).NO < NR_WP - 1 then
      match n with
      | 0 => .error .fuel
      | n + 1 => seekNo w no n (w.next tmp)
    else .ok tmp

/-- The test `tmp == NULL` comes after the loop has read `tmp->NO`. -/
def wpDelete (w : WPPool) (no : ℤ) : Except WPFault WPPool :=
  if no < NR_WP then
    match w.head with
    | none => .ok w
    | some tmp => do
      let tmp ← seekNo w no NR_WP (some tmp)
      freeWp w (some tmp)
  else .error .assertion

/-- The line that `wp_difftest` prints. -/
structure Report where
  wp : WPtr
  old : Word
  new : Word
  deriving DecidableEq, Repr

def evalWp (cfg : Config) (m : Machine) (e : List Char) : Except WPFault (Word × Bool) :=
  match expr cfg m e with
  | .ok r => .ok r
  | .error f => .error (.expr f)

/-- `nemu_state.state = NEMU_STOP;` -/
def Machine.stop (m : Machine) : Machine :=
  { m with nemuState := { m.nemuState with state := .STOP } }

/-- `success` is not looked at: an expression that fails has the value zero. -/
def wpDifftestFrom (cfg : Config) :
    ℕ → Option WPtr → Machine → WPPool → Except WPFault (Machine × WPPool × List Report)
  | _, none, m, w => .ok (m, w, [])
  | 0, some _, _, _ => .error .fuel
  | n + 1, some tmp, m, w => do
    let (newValue, _) ← evalWp cfg m (w.wp tmp).expr
    let old := (w.wp tmp).old
    if old ≠ newValue then
      let w := w.setOld tmp newValue
      let (m, w, out) ← wpDifftestFrom cfg n (w.next tmp) m.stop w
      return (m, w, ⟨tmp, old, newValue⟩ :: out)
    else wpDifftestFrom cfg n (w.next tmp) m w

def wpDifftest (cfg : Config) (m : Machine) (w : WPPool) :
    Except WPFault (Machine × WPPool × List Report) :=
  wpDifftestFrom cfg NR_WP w.head m w

section Frame

variable (w : WPPool) (p : WPtr) (q : Option WPtr) (v : Word)

@[simp] theorem setNext_next : (w.setNext p q).next = Function.update w.next p q := by
  funext r
  by_cases h : r = p
  · subst h
    simp [WPPool.next, WPPool.setNext]
  · simp [WPPool.next, WPPool.setNext, h]

@[simp] theorem pushFree_next :
    (pushFree w p).next = Function.update w.next p w.free_ := setNext_next w p w.free_

@[simp] theorem pushFree_free : (pushFree w p).free_ = some p := rfl

@[simp] theorem fill_next (e : List Char) : (w.fill p e v).next = w.next := by
  funext r
  by_cases h : r = p
  · subst h
    simp [WPPool.next, WPPool.fill]
  · simp [WPPool.next, WPPool.fill, h]

@[simp] theorem setOld_next : (w.setOld p v).next = w.next := by
  funext r
  by_cases h : r = p
  · subst h
    simp [WPPool.next, WPPool.setOld]
  · simp [WPPool.next, WPPool.setOld, h]

end Frame

end Ysyx.Nemu
