import Ysyx.Kconfig.Expr

/-! The value of an expression: numbers out of strings, the comparison of two symbols, and
`expr_calc_value`. -/

namespace Ysyx.Kconfig

def digit (c : Char) : Option ℕ :=
  if '0' ≤ c ∧ c ≤ '9' then some (c.toNat - '0'.toNat)
  else if 'a' ≤ c ∧ c ≤ 'z' then some (c.toNat - 'a'.toNat + 10)
  else if 'A' ≤ c ∧ c ≤ 'Z' then some (c.toNat - 'A'.toNat + 10)
  else none

def isDigit (base : ℕ) (c : Char) : Bool :=
  match digit c with
  | some d => d < base
  | none => false

def isSpace (c : Char) : Bool :=
  c = ' ' || c = '\t' || c = '\n' || c = '\r' || c.toNat = 11 || c.toNat = 12

/-- The digits in front, on top of those read before, and what comes after them. -/
def scanDigits (base : ℕ) : ℕ → List Char → ℕ × List Char
  | acc, [] => (acc, [])
  | acc, c :: cs =>
    if isDigit base c then scanDigits base (acc * base + (digit c).getD 0) cs else (acc, c :: cs)

/-- The base that is read in, without its prefix: `0x` only goes in front of a digit. -/
def scanBase (base : ℕ) : List Char → ℕ × List Char
  | '0' :: x :: d :: cs =>
    if (base = 0 ∨ base = 16) ∧ (x = 'x' ∨ x = 'X') ∧ isDigit 16 d then (16, d :: cs)
    else (if base = 0 then 8 else base, '0' :: x :: d :: cs)
  | '0' :: cs => (if base = 0 then 8 else base, '0' :: cs)
  | cs => (if base = 0 then 10 else base, cs)

def scanSign : List Char → Bool × List Char
  | '-' :: cs => (true, cs)
  | '+' :: cs => (false, cs)
  | cs => (false, cs)

/-- What `strtoll` and `strtoull` find: the sign, the number and the tail. -/
def scanNumber (base : ℕ) (str : List Char) : Option (Bool × ℕ × List Char) :=
  let (neg, cs) := scanSign (str.dropWhile isSpace)
  let (b, cs) := scanBase base cs
  match cs with
  | c :: _ => if isDigit b c then some (neg, scanDigits b 0 cs) else none
  | [] => none

/-- `strtoll()`: the number unless it is out of range, and the tail. -/
def strtoll (base : ℕ) (str : List Char) : Option (BitVec 64) × List Char :=
  match scanNumber base str with
  | some (neg, v, tail) =>
    let x : ℤ := if neg then -v else v
    (if -2 ^ 63 ≤ x ∧ x < 2 ^ 63 then some (BitVec.ofInt 64 x) else none, tail)
  | none => (some 0, str)

def strtoull (base : ℕ) (str : List Char) : Option (BitVec 64) × List Char :=
  match scanNumber base str with
  | some (neg, v, tail) =>
    (if v < 2 ^ 64 then some (if neg then -BitVec.ofNat 64 v else BitVec.ofNat 64 v) else none, tail)
  | none => (some 0, str)

/-- `enum string_value_kind` -/
inductive StringValueKind
  | string | signed | unsigned
  deriving DecidableEq, Repr

def exprParseString (str : List Char) (type : SymbolType) : StringValueKind × BitVec 64 :=
  match type with
  | .boolean | .tristate =>
    (.signed, if str = ['n'] then 0 else if str = ['m'] then 1 else if str = ['y'] then 2 else -1)
  | .int => finish .signed (strtoll 10 str)
  | .hex => finish .unsigned (strtoull 16 str)
  | _ => finish .signed (strtoll 0 str)
where
  /-- All of the string has to be a number that ends in a hexadecimal digit. -/
  finish (kind : StringValueKind) : Option (BitVec 64) × List Char → StringValueKind × BitVec 64
    | (some v, []) => (if str.getLast?.any (isDigit 16) then kind else .string, v)
    | (v, _) => (.string, v.getD 0)

/-- `strcmp()`: less, equal or greater. -/
def strcmp : List Char → List Char → Ordering
  | [], [] => .eq
  | [], _ :: _ => .lt
  | _ :: _, [] => .gt
  | a :: s, b :: t => if a.toNat < b.toNat then .lt else if b.toNat < a.toNat then .gt else strcmp s t

theorem strcmp_eq_iff (s t : List Char) : strcmp s t = .eq ↔ s = t := by
  induction s generalizing t with
  | nil => cases t <;> simp [strcmp]
  | cons a s ih =>
    cases t with
    | nil => simp [strcmp]
    | cons b t =>
      have hab : a = b ↔ a.toNat = b.toNat :=
        ⟨congrArg _, fun h => Char.ext (UInt32.toNat_inj.mp h)⟩
      rw [strcmp, List.cons.injEq, hab, ← ih]
      split_ifs with h1 h2
      · simp [h1.ne]
      · simp [h2.ne']
      · simp [show a.toNat = b.toNat by omega]

variable {σ : Type}

/-- What `sym_calc_value()` leaves in the symbols: without modules no symbol is `m`, and a symbol
that no option declares stands for its own name. -/
structure Values (S : Symbols σ) where
  tri : σ → Tristate
  val : σ → List Char
  /-- `modules_sym->curr.tri` -/
  modules : Tristate
  tri_of : ∀ t, tri (S.of t) = t
  val_unknown : ∀ s, S.type s = .unknown → val s = S.name s
  boolean : ∀ s, S.type s = .boolean → tri s ≠ .mod
  tristate : ∀ s, S.type s = .tristate → tri s = .mod → modules ≠ .no

section Calc

variable {S : Symbols σ} (V : Values S)

def symGetStringValue (s : σ) : List Char :=
  match S.type s with
  | .boolean | .tristate =>
    match V.tri s with
    | .no => ['n']
    | .mod => if V.modules = .no then ['n'] else ['m']
    | .yes => ['y']
  | _ => V.val s

def symCompare (l r : σ) : Ordering :=
  let str1 := symGetStringValue V l
  let str2 := symGetStringValue V r
  let (k1, lval) :=
    if S.type l ≠ .string ∨ S.type r ≠ .string then exprParseString str1 (S.type l) else (.string, 0)
  let (k2, rval) :=
    if S.type l ≠ .string ∨ S.type r ≠ .string then exprParseString str2 (S.type r) else (.string, 0)
  if k1 = .string ∨ k2 = .string then strcmp str1 str2
  else if k1 = .unsigned ∨ k2 = .unsigned then compare lval.toNat rval.toNat
  else compare lval.toInt rval.toInt

def CmpOp.holds : CmpOp → Ordering → Bool
  | .equal, o => o = .eq
  | .unequal, o => o ≠ .eq
  | .lth, o => o = .lt
  | .leq, o => o ≠ .gt
  | .gth, o => o = .gt
  | .geq, o => o ≠ .lt

def ofBool (b : Bool) : Tristate := if b then .yes else .no

/-- `EXPR_OR` and `EXPR_AND` -/
def BinOp.eval : BinOp → Tristate → Tristate → Tristate
  | .or => max
  | .and => min

def exprCalcValue : Expr σ → Tristate
  | .symbol s => V.tri s
  | .not e => (exprCalcValue e).not
  | .bin t l r => t.eval (exprCalcValue l) (exprCalcValue r)
  | .comp c l r => ofBool (c.holds (symCompare V l r))

/-- An absent expression is `y`. -/
def exprCalcValueNull : Option (Expr σ) → Tristate
  | none => .yes
  | some e => exprCalcValue V e

@[simp] theorem calc_yes : V.tri S.yes = .yes := V.tri_of .yes
@[simp] theorem calc_mod : V.tri S.mod = .mod := V.tri_of .mod
@[simp] theorem calc_no : V.tri S.no = .no := V.tri_of .no

theorem string_const {c : σ} (hc : S.const c = true) : symGetStringValue V c = S.name c := by
  have ht := S.const_type c hc
  simp [symGetStringValue, ht, V.val_unknown c ht]

theorem string_tristate {s : σ} (hs : S.type s = .boolean ∨ S.type s = .tristate) :
    symGetStringValue V s = S.name (S.of (V.tri s)) := by
  have hmod : V.tri s = .mod → V.modules ≠ .no := by
    intro hm
    rcases hs with hs | hs
    · exact absurd hm (V.boolean s hs)
    · exact V.tristate s hs hm
  cases ht : V.tri s with
  | mod => rcases hs with hs | hs <;> simp [symGetStringValue, hs, ht, hmod ht, Symbols.of]
  | _ => rcases hs with hs | hs <;> simp [symGetStringValue, hs, ht, Symbols.of]

def Worded (S : Symbols σ) (c : σ) : Prop := (exprParseString (S.name c) .unknown).1 = .string

instance (S : Symbols σ) (c : σ) : Decidable (Worded S c) := inferInstanceAs (Decidable (_ = _))

theorem worded_of (S : Symbols σ) (t : Tristate) : Worded S (S.of t) := by
  cases t <;> simp only [Worded, Symbols.of, S.name_yes, S.name_mod, S.name_no] <;> decide

theorem symCompare_word {s c : σ} (hns : S.type s ≠ .string)
    (hstr : symGetStringValue V s = S.name (S.of (V.tri s))) (hc : S.const c = true)
    (hw : Worded S c) : symCompare V s c = .eq ↔ S.of (V.tri s) = c := by
  have hcmp : symCompare V s c = strcmp (S.name (S.of (V.tri s))) (S.name c) := by
    unfold Worded at hw
    simp only [symCompare, hns, ne_eq, not_false_eq_true, true_or, if_true, string_const V hc, hstr,
      S.const_type c hc, hw, or_true]
  rw [hcmp, strcmp_eq_iff]
  exact ⟨S.const_inj _ _ (S.const_of _) hc, congrArg _⟩

theorem symCompare_const {s c : σ} (hs : S.type s = .boolean ∨ S.type s = .tristate)
    (hc : S.const c = true) (hw : Worded S c) : symCompare V s c = .eq ↔ S.of (V.tri s) = c := by
  have hns : S.type s ≠ .string := by rcases hs with hs | hs <;> simp [hs]
  exact symCompare_word V hns (string_tristate V hs) hc hw

theorem symCompare_of {s : σ} (hs : S.type s = .boolean ∨ S.type s = .tristate) (t : Tristate) :
    symCompare V s (S.of t) = .eq ↔ V.tri s = t := by
  rw [symCompare_const V hs (S.const_of t) (worded_of S t), S.of_inj]

theorem CmpOp.negate_holds (c : CmpOp) (o : Ordering) : c.negate.holds o = !c.holds o := by
  cases c <;> cases o <;> rfl

theorem ofBool_not (b : Bool) : ofBool (!b) = (ofBool b).not := by cases b <;> rfl

@[simp] theorem Tristate.not_not (t : Tristate) : t.not.not = t := by cases t <;> rfl

theorem Tristate.not_eval (op : BinOp) (t u : Tristate) :
    (op.eval t u).not = op.dual.eval t.not u.not := by
  cases op <;> cases t <;> cases u <;> rfl

end Calc

end Ysyx.Kconfig
