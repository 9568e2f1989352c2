import Ysyx.Lib.Rv32M
import Ysyx.Nemu.Literal
import Ysyx.Nemu.Tokenizer

/-! The law that `test_expr` samples: on every expression that `gen_rand_expr` can write, with
blanks anywhere, `expr` computes what C computes with `int`, and a zero divisor is reported. -/

namespace Ysyx.Nemu

open Bytes OpPrecedence TokenType

def ops : List TokenType := [plus, minus, asterisk, slash]

/-- `"%d"` of a number that is not negative. -/
def decimal (n : ℕ) : List Char := Nat.toDigits 10 n

theorem decimal_check : ∀ n < 127, decimal n ≠ [] ∧ (decimal n).all isDecDigit = true ∧
    (decimal n).length < 32 ∧ numeralValue (decimal n) = n := by
  decide +kernel

theorem decimal_spec (n : ℕ) (h : n < 127) : decimal n ≠ [] ∧
    (∀ c ∈ decimal n, isDecDigit c = true) ∧ (decimal n).length < 32 ∧
    numeralValue (decimal n) = n := by
  obtain ⟨hne, hall, hrest⟩ := decimal_check n h
  exact ⟨hne, List.all_eq_true.mp hall, hrest⟩

/-- The choices of `gen_rand_expr`. -/
inductive GenExpr where
  | num (n : ℕ) (h : n < 127)
  | paren (e : GenExpr)
  | op (l : GenExpr) (type : TokenType) (h : type ∈ ops) (r : GenExpr)

namespace GenExpr

theorem sign_of_op {type : TokenType} (h : type ∈ ops) : type ∈ signTypes := by
  revert h
  cases type <;> decide

/-- What is written, but for the blanks. -/
def lexemes : GenExpr → List Lexeme
  | num n h => [.num (decimal n) (.dec (decimal_spec n h).1 (decimal_spec n h).2.1)
      (decimal_spec n h).2.2.1]
  | paren e => .sign lparen (by decide) :: (e.lexemes ++ [.sign rparen (by decide)])
  | op l type h r => l.lexemes ++ .sign type (sign_of_op h) :: r.lexemes

def tokens : GenExpr → List Token
  | num n _ => [⟨TK_NUM, decimal n⟩]
  | paren e => ⟨lparen, []⟩ :: e.tokens ++ [⟨rparen, []⟩]
  | op l type _ r => l.tokens ++ ⟨type, []⟩ :: r.tokens

end GenExpr

/-- `none` for a zero divisor; C's `/` truncates. -/
def cOp (type : TokenType) (x y : ℤ) : Option ℤ :=
  match type with
  | plus => some (x + y)
  | minus => some (x - y)
  | asterisk => some (x * y)
  | slash => if y = 0 then none else some (x.tdiv y)
  | _ => none

/-- The value of a tree, defined where all its operands are. -/
def cValue : ExprTree Token → Option ℤ
  | .leaf t => some (numeralValue t.str)
  | .unary _ _ => none
  | .binary a op b => do cOp op.type (← cValue a) (← cValue b)

def IsInt (x : ℤ) : Prop := -2 ^ 31 ≤ x ∧ x < 2 ^ 31

instance (x : ℤ) : Decidable (IsInt x) := inferInstanceAs (Decidable (_ ∧ _))

/-- No operation on defined operands overflows. -/
def NoOverflow : ExprTree Token → Prop
  | .leaf _ => True
  | .unary _ e => NoOverflow e
  | .binary a op b => NoOverflow a ∧ NoOverflow b ∧
      ∀ v, cValue (.binary a op b) = some v → IsInt v

def ZeroDivisor : ExprTree Token → Prop
  | .leaf _ => False
  | .unary _ e => ZeroDivisor e
  | .binary a op b => ZeroDivisor a ∨ ZeroDivisor b ∨ (op.type = slash ∧ cValue b = some 0)

/-- What `expr` is to do with a string whose tree is `e`. -/
structure TestLaw (cfg : Config) (m : Machine) (e : ExprTree Token) (s : List Char) : Prop where
  value : NoOverflow e → ¬ ZeroDivisor e →
    ∃ v, cValue e = some v ∧ expr cfg m s = .ok (BitVec.ofInt 32 v, true)
  zero : NoOverflow e → ZeroDivisor e → ∃ w, expr cfg m s = .ok (w, false)

section Tokens

variable {ls : List Lexeme} {s : List Char} {gap : ℕ}

theorem tokensOf_lexemes (g : GenExpr) : ∃ last : Lexeme, last.ends = true ∧
    ∀ prev rest, tokensOf prev (g.lexemes ++ rest) = g.tokens ++ tokensOf (some last) rest := by
  induction g with
  | num n h => exact ⟨_, rfl, fun prev rest => rfl⟩
  | paren e ih =>
    obtain ⟨last, hlast, ih⟩ := ih
    refine ⟨.sign rparen (by decide), rfl, fun prev rest => ?_⟩
    have hopen : (Lexeme.sign lparen (by decide)).token prev = ⟨lparen, []⟩ := by
      unfold Lexeme.token
      split_ifs <;> rfl
    have hclose : (Lexeme.sign rparen (by decide)).token (some last) = ⟨rparen, []⟩ := by
      unfold Lexeme.token
      split_ifs <;> rfl
    rw [GenExpr.lexemes, List.cons_append, List.append_assoc, tokensOf, ih, List.singleton_append,
      tokensOf, hopen, hclose, GenExpr.tokens]
    simp
  | op l type h r ihl ihr =>
    obtain ⟨lastl, hlastl, ihl⟩ := ihl
    obtain ⟨lastr, hlastr, ihr⟩ := ihr
    refine ⟨lastr, hlastr, fun prev rest => ?_⟩
    have hop : (Lexeme.sign type (GenExpr.sign_of_op h)).token (some lastl) = ⟨type, []⟩ :=
      if_pos hlastl
    rw [GenExpr.lexemes, List.append_assoc, ihl, List.cons_append, tokensOf, ihr, hop,
      GenExpr.tokens, List.append_assoc]
    rfl

theorem tokensOf_eq (g : GenExpr) : tokensOf none g.lexemes = g.tokens := by
  obtain ⟨last, -, h⟩ := tokensOf_lexemes g
  have hnil := h none []
  rwa [List.append_nil, tokensOf, List.append_nil] at hnil

/-- Of two neighbours one is an operator or a parenthesis. -/
def Alternates (l l' : Lexeme) : Prop :=
  (∃ type h, l = .sign type h) ∨ ∃ type h, l' = .sign type h

theorem alternates_lexemes (g : GenExpr) : g.lexemes.IsChain Alternates := by
  induction g with
  | num n h => exact List.isChain_singleton _
  | paren e ih =>
    rw [GenExpr.lexemes, List.isChain_cons, List.isChain_append]
    refine ⟨fun l hl => .inl ⟨_, _, rfl⟩, ih, List.isChain_singleton _, fun l hl l' hl' => ?_⟩
    cases hl'
    exact .inr ⟨_, _, rfl⟩
  | op l type h r ihl ihr =>
    rw [GenExpr.lexemes, List.isChain_append, List.isChain_cons]
    refine ⟨ihl, ⟨fun l' hl' => .inl ⟨_, _, rfl⟩, ihr⟩, fun l hl l' hl' => ?_⟩
    cases hl'
    exact .inr ⟨_, _, rfl⟩

theorem stops_sign {type : TokenType} (h : type ∈ signTypes) (k : ℕ) (s : List Char) :
    Regex.Stops isReg (List.replicate k ' ' ++ (signText type ++ s)) := by
  cases k with
  | zero =>
    intro c hc
    revert h hc
    cases type <;> simp [signTypes, signText] <;> rintro rfl <;> decide
  | succ k => exact stops_blanks rfl _ (.inl (Nat.succ_pos k))

theorem Rendered.spaced_of_alternates (h : Rendered gap ls s) (hls : ls.IsChain Alternates) :
    Spaced ls s := by
  induction h with
  | nil k => exact .nil k
  | single l k => exact spaced_single l k
  | @cons l l' ls s k hk h ih =>
    rw [List.isChain_cons_cons] at hls
    refine .cons l k ?_ (ih hls.2)
    rcases hls.1 with hsign | ⟨type, hsign, rfl⟩
    · exact .inl hsign
    · obtain ⟨s', rfl⟩ : ∃ s', s = signText type ++ s' := by
        cases h with
        | single l k => exact ⟨_, rfl⟩
        | cons l k hk h => exact ⟨_, rfl⟩
      exact .inr (stops_sign hsign k s')

theorem clear_lexemes (g : GenExpr) : ∀ l ∈ g.lexemes, l.Clear := by
  induction g with
  | num n h =>
    intro l hl
    rw [List.mem_singleton.mp hl]
    exact ⟨nofun, nofun⟩
  | paren e ih =>
    intro l hl
    rw [GenExpr.lexemes, List.mem_cons, List.mem_append, List.mem_singleton] at hl
    rcases hl with rfl | hl | rfl
    · exact ⟨nofun, nofun⟩
    · exact ih l hl
    · exact ⟨nofun, nofun⟩
  | op l type h r ihl ihr =>
    intro l' hl
    rw [GenExpr.lexemes, List.mem_append, List.mem_cons] at hl
    rcases hl with hl | rfl | hl
    · exact ihl l' hl
    · unfold Lexeme.Clear Lexeme.type
      revert h
      cases type <;> decide
    · exact ihr l' hl

theorem makeToken_gen {g : GenExpr} (h : Rendered gap g.lexemes s)
    (hlen : g.lexemes.length ≤ NR_TOKENS) : makeToken s = .ok (some g.tokens) := by
  have hends : Ends none ([] : List Token).getLast? := rfl
  rw [makeToken_eq, lexFrom_spaced (h.spaced_of_alternates (alternates_lexemes g))
    (clear_lexemes g) (by simpa using hlen) hends, tokensOf_eq]
  rfl

theorem makeToken_long {g : GenExpr} (h : Rendered gap g.lexemes s)
    (hlen : NR_TOKENS < g.lexemes.length) : makeToken s = .error .overflow := by
  have hends : Ends none ([] : List Token).getLast? := rfl
  rw [makeToken_eq, lexFrom_spaced_overflow (h.spaced_of_alternates (alternates_lexemes g))
    (clear_lexemes g) (by simpa using hlen) (Nat.zero_le _) hends]

end Tokens

section Tree

variable {ts : List Token} {t : Token} {e : ExprTree Token} {k : ℕ} {type : TokenType}

inductive ArithToken : Token → Prop
  | num (n : ℕ) (h : n < 127) : ArithToken ⟨TK_NUM, decimal n⟩
  | op (type : TokenType) (h : type ∈ ops) : ArithToken ⟨type, []⟩
  | open : ArithToken ⟨lparen, []⟩
  | close : ArithToken ⟨rparen, []⟩

theorem arithToken_tokens (g : GenExpr) : ∀ t ∈ g.tokens, ArithToken t := by
  induction g with
  | num n h =>
    intro t ht
    rw [List.mem_singleton.mp ht]
    exact .num n h
  | paren e ih =>
    intro t ht
    rw [GenExpr.tokens, List.cons_append, List.mem_cons, List.mem_append, List.mem_singleton] at ht
    rcases ht with rfl | ht | rfl
    · exact .open
    · exact ih t ht
    · exact .close
  | op l type h r ihl ihr =>
    intro t ht
    rw [GenExpr.tokens, List.mem_append, List.mem_cons] at ht
    rcases ht with ht | rfl | ht
    · exact ihl t ht
    · exact .op type h
    · exact ihr t ht

theorem kind_op (h : type ∈ ops) : ∃ k, exprGrammar.kind ⟨type, []⟩ = .binary k ∧ 1 ≤ k := by
  change ∃ k, exprKind type = .binary k ∧ 1 ≤ k
  revert h
  cases type <;> simp [ops, exprKind]

theorem derives_tokens (g : GenExpr) : ∃ e, Derives exprGrammar 1 g.tokens e := by
  induction g with
  | num n h => exact ⟨_, (Derives.atom rfl).lower (by decide)⟩
  | paren e ih =>
    obtain ⟨e', he⟩ := ih
    exact ⟨e', (Derives.paren rfl rfl he).lower (by decide)⟩
  | op l type h r ihl ihr =>
    obtain ⟨el, hl⟩ := ihl
    obtain ⟨er, hr⟩ := ihr
    obtain ⟨k, hop, hk⟩ := kind_op h
    exact hl.join hop (by omega : 1 + (k - 1) = k) hr

theorem ArithToken.atom (h : ArithToken t) (ht : exprGrammar.kind t = .atom) :
    ∃ n < 127, t = ⟨TK_NUM, decimal n⟩ := by
  cases h with
  | num n h => exact ⟨n, h, rfl⟩
  | op type h =>
    obtain ⟨k, hop, -⟩ := kind_op h
    rw [hop] at ht
    cases ht
  | «open» | close => cases ht

theorem ArithToken.level (h : ArithToken t) (ht : exprGrammar.level t = some k) :
    t.type ∈ ops ∧ exprGrammar.kind t = .binary k := by
  cases h with
  | op type h =>
    obtain ⟨k', hop, -⟩ := kind_op h
    rw [level_binary hop] at ht
    cases ht
    exact ⟨h, hop⟩
  | num n h => exact nomatch ht
  | «open» | close => exact nomatch ht

/-- A tree of such tokens has no value exactly when a divisor is zero. -/
theorem cValue_none_iff (h : Derives exprGrammar k ts e) (hts : ∀ t ∈ ts, ArithToken t) :
    cValue e = none ↔ ZeroDivisor e := by
  induction h with
  | lift h ih => exact ih hts
  | @binary n l r op a b hop hl hr ihl ihr =>
    have ha := ihl fun t ht => hts t (List.mem_append_left _ ht)
    have hb := ihr fun t ht => hts t (List.mem_append_right _ (List.mem_cons_of_mem op ht))
    have hop' := ((hts op (by simp)).level (level_binary hop)).1
    rw [ZeroDivisor, ← ha, ← hb, cValue]
    cases hx : cValue a with
    | none => simp
    | some x =>
      cases hy : cValue b with
      | none => simp
      | some y =>
        simp only [ops, List.mem_cons, List.not_mem_nil, or_false] at hop'
        rcases hop' with hop' | hop' | hop' | hop' <;> simp [hop', cOp]
  | @unary ts op e hop h ih =>
    have hop' := ((hts op List.mem_cons_self).level (level_unary hop)).2
    rw [hop] at hop'
    cases hop'
  | atom ht => exact iff_of_false nofun id
  | paren ho hc h ih =>
    exact ih fun t ht => hts t (List.mem_append_left _ (List.mem_cons_of_mem _ ht))

theorem isInt_of_cValue (h : Derives exprGrammar k ts e) (hts : ∀ t ∈ ts, ArithToken t)
    (hno : NoOverflow e) {v : ℤ} (hv : cValue e = some v) : IsInt v := by
  induction h with
  | lift h ih => exact ih hts hno hv
  | binary hop hl hr ihl ihr => exact hno.2.2 v hv
  | unary hop h ih => cases hv
  | @atom t ht =>
    obtain ⟨n, hn, rfl⟩ := (hts t (List.mem_singleton_self t)).atom ht
    rw [cValue, Option.some.injEq, (decimal_spec n hn).2.2.2] at hv
    unfold IsInt
    omega
  | paren ho hc h ih =>
    exact ih (fun t ht => hts t (List.mem_append_left _ (List.mem_cons_of_mem _ ht))) hno hv

end Tree

section Value

variable {cfg : Config} {m : Machine} {ts : List Token} {e : ExprTree Token} {type : TokenType}
  {x y : ℤ} {pass : Bool} {val : Word}

/-- `eval` passes with a value, and does not pass without one. -/
def Agrees (r : Except ExprFault (Word × Bool)) : Option ℤ → Prop
  | some v => r = .ok (BitVec.ofInt 32 v, true)
  | none => ∃ w, r = .ok (w, false)

theorem toInt_ofInt (h : IsInt x) : (BitVec.ofInt 32 x).toInt = x :=
  BitVec.toInt_ofInt_eq_self (by decide) h.1 h.2

theorem ofInt_eq_iff (hx : IsInt x) (hy : IsInt y) :
    BitVec.ofInt 32 x = BitVec.ofInt 32 y ↔ x = y := by
  rw [← BitVec.toInt_inj, toInt_ofInt hx, toInt_ofInt hy]

theorem calc2_agrees (hop : type ∈ ops) (hx : IsInt x) (hy : IsInt y)
    (hv : ∀ v, cOp type x y = some v → IsInt v) :
    Agrees (calc2 (BitVec.ofInt 32 x) type (BitVec.ofInt 32 y)) (cOp type x y) := by
  simp only [ops, List.mem_cons, List.not_mem_nil, or_false] at hop
  rcases hop with rfl | rfl | rfl | rfl
  · simp only [cOp, Agrees, calc2, BitVec.ofInt_add]
  · simp only [cOp, Agrees, calc2, sub_eq_add_neg, BitVec.ofInt_add, BitVec.ofInt_neg]
  · simp only [cOp, Agrees, calc2, BitVec.ofInt_mul]
  · have hzero : BitVec.ofInt 32 y = 0 ↔ y = 0 := ofInt_eq_iff hy (by decide : IsInt 0)
    by_cases h0 : y = 0
    · rw [cOp, if_pos h0, calc2, if_pos (hzero.mpr h0)]
      exact ⟨_, rfl⟩
    · rw [cOp, if_neg h0] at hv ⊢
      have htrap : ¬ (BitVec.ofInt 32 x = 0x80000000 ∧ BitVec.ofInt 32 y = 0xffffffff) := by
        rintro ⟨hmin, hone⟩
        obtain rfl : x = -2 ^ 31 := (ofInt_eq_iff hx (by decide)).mp (hmin.trans (by decide))
        obtain rfl : y = -1 := (ofInt_eq_iff hy (by decide)).mp (hone.trans (by decide))
        exact absurd (hv _ rfl) (by decide)
      rw [calc2, if_neg (fun h => h0 (hzero.mp h)), if_neg htrap]
      change Except.ok _ = Except.ok _
      rw [← Rv32.ofInt_tdiv, toInt_ofInt hx, toInt_ofInt hy]

/-- `calc1` knows no binary operator. -/
theorem calc1_op (hop : type ∈ ops) : calc1 cfg m type val = .ok (0, false) := by
  simp only [ops, List.mem_cons, List.not_mem_nil, or_false] at hop
  rcases hop with rfl | rfl | rfl | rfl <;> rfl

theorem agrees_op {r₁ r₂ : Except ExprFault (Word × Bool)} {a b : Option ℤ} (hop : type ∈ ops)
    (h₁ : Agrees r₁ a) (h₂ : Agrees r₂ b) (ha : ∀ x, a = some x → IsInt x)
    (hb : ∀ y, b = some y → IsInt y)
    (hv : ∀ v, (do cOp type (← a) (← b)) = some v → IsInt v) :
    Agrees (do
      let (val1, pass1) ← r₁
      let (val2, pass2) ← r₂
      if !pass2 then return (0, false)
      else if pass1 then calc2 val1 type val2
      else calc1 cfg m type val2) (do cOp type (← a) (← b)) := by
  cases a with
  | none =>
    obtain ⟨w₁, rfl⟩ := h₁
    cases b with
    | none =>
      obtain ⟨w₂, rfl⟩ := h₂
      exact ⟨0, rfl⟩
    | some y =>
      rw [h₂]
      exact ⟨0, calc1_op hop⟩
  | some x =>
    rw [h₁]
    cases b with
    | none =>
      obtain ⟨w₂, rfl⟩ := h₂
      exact ⟨0, rfl⟩
    | some y =>
      rw [h₂]
      exact calc2_agrees hop (ha x rfl) (hb y rfl) hv

theorem evalFrom_agrees {n : ℕ} (hn : ts.length ≤ n) (hts : ∀ t ∈ ts, ArithToken t)
    (h : Derives exprGrammar 1 ts e) (hno : NoOverflow e) :
    Agrees (evalFrom cfg m n ts) (cValue e) := by
  have hvar : ∀ t ∈ ts, exprGrammar.kind t ≠ .other := by
    intro t ht
    cases hts t ht with
    | op type h =>
      obtain ⟨k, hop, -⟩ := kind_op h
      rw [hop]
      exact nofun
    | num | «open» | close => exact nofun
  induction n generalizing ts e with
  | zero =>
    rw [List.eq_nil_of_length_eq_zero (Nat.le_zero.mp hn)] at h
    exact absurd h not_derives_nil
  | succ n ih =>
    cases view ts hvar with
    | nil => exact absurd h not_derives_nil
    | single t =>
      obtain ⟨hatom, rfl⟩ := derives_single.mp h
      obtain ⟨k, hk, rfl⟩ := (hts t (List.mem_singleton_self t)).atom hatom
      obtain ⟨-, hd, -, hvalue⟩ := decimal_spec k hk
      rw [evalFrom, evalNumReg_dec cfg m hd (by omega)]
      exact congrArg (fun w => Except.ok (w, true)) (BitVec.ofInt_natCast 32 _).symm
    | wrapped o c inner ho hc hinner =>
      rw [evalFrom_wrapped ho hc hinner]
      have hsub : ∀ t ∈ inner, t ∈ o :: inner ++ [c] := fun t ht =>
        List.mem_append_left _ (List.mem_cons_of_mem o ht)
      exact ih (length_inner_lt hn) (fun t ht => hts t (hsub t ht))
        ((derives_wrapped ho hc hinner).mp h) hno (fun t ht => hvar t (hsub t ht))
    | split l op r k hlow hlen hcheck hfind =>
      obtain ⟨hl, hr⟩ := length_split_le hn
      have htsl : ∀ t ∈ l, ArithToken t := fun t ht => hts t (List.mem_append_left _ ht)
      have htsr : ∀ t ∈ r, ArithToken t := fun t ht =>
        hts t (List.mem_append_right _ (List.mem_cons_of_mem op ht))
      obtain ⟨hop, hbin⟩ := (hts op (by simp)).level hlow.level
      obtain ⟨a, b, rfl, ha, hb⟩ := (derives_binary hlow hbin).mp h
      obtain ⟨hnoa, hnob, hv⟩ := hno
      have hvala := ih hl htsl ha hnoa fun t ht => hvar t (List.mem_append_left _ ht)
      have hvalb := ih hr htsr hb hnob fun t ht =>
        hvar t (List.mem_append_right _ (List.mem_cons_of_mem op ht))
      rw [evalFrom_split hlen hcheck hfind]
      exact agrees_op hop hvala hvalb (fun x => isInt_of_cValue ha htsl hnoa)
        (fun y => isInt_of_cValue hb htsr hnob) hv
    | stuck ts hnone _ _ _ => exact absurd h (hnone e)

end Value

/-- `test_expr`'s law for every generated expression: its string has one tree, and unless an
operation of the tree overflows, the law holds exactly when there is room for the tokens. -/
theorem testLaw_iff (cfg : Config) (m : Machine) (g : GenExpr) (s : List Char)
    (h : Rendered 0 g.lexemes s) :
    ∃ e, Derives exprGrammar 1 g.tokens e ∧ (∀ e', Derives exprGrammar 1 g.tokens e' → e' = e) ∧
      (TestLaw cfg m e s ↔ (NoOverflow e → g.lexemes.length ≤ NR_TOKENS)) := by
  obtain ⟨e, he⟩ := derives_tokens g
  refine ⟨e, he, fun e' he' => he'.unique he, fun hlaw hno => ?_, fun hlen => ?_⟩
  · by_contra hlong
    have hexpr : expr cfg m s = .error .overflow := by
      rw [expr, makeToken_long h (Nat.not_le.mp hlong)]
      rfl
    by_cases hz : ZeroDivisor e
    · obtain ⟨w, hw⟩ := hlaw.zero hno hz
      rw [hexpr] at hw
      cases hw
    · obtain ⟨v, -, hw⟩ := hlaw.value hno hz
      rw [hexpr] at hw
      cases hw
  · have hts := arithToken_tokens g
    have hagrees (hno : NoOverflow e) : Agrees (expr cfg m s) (cValue e) := by
      rw [expr, makeToken_gen h (hlen hno)]
      exact evalFrom_agrees le_rfl hts he hno
    refine ⟨fun hno hz => ?_, fun hno hz => ?_⟩
    · cases hv : cValue e with
      | none => exact absurd ((cValue_none_iff he hts).mp hv) hz
      | some v =>
        have := hagrees hno
        rw [hv] at this
        exact ⟨v, rfl, this⟩
    · have := hagrees hno
      rwa [(cValue_none_iff he hts).mpr hz] at this

/-- `1+2*(3-4)` -/
def sample : GenExpr :=
  .op (.op (.num 1 (by decide)) plus (by decide) (.num 2 (by decide))) asterisk (by decide)
    (.paren (.op (.num 3 (by decide)) minus (by decide) (.num 4 (by decide))))

theorem testLaw_iff_sample :
    ∃ e, Derives exprGrammar 1 sample.tokens e ∧
      (∀ e', Derives exprGrammar 1 sample.tokens e' → e' = e) ∧
      (TestLaw defaultConfig (startOf 0 0) e ['1', '+', '2', '*', '(', '3', ' ', '-', '4', ')'] ↔
        (NoOverflow e → sample.lexemes.length ≤ NR_TOKENS)) :=
  testLaw_iff defaultConfig (startOf 0 0) sample _
    (.cons _ 0 le_rfl (.cons _ 0 le_rfl (.cons _ 0 le_rfl (.cons _ 0 le_rfl (.cons _ 0 le_rfl
      (.cons _ 1 (by decide) (.cons _ 0 le_rfl (.cons _ 0 le_rfl (.single _ 0)))))))))

/-- `1+1+…+1` -/
def ones : ℕ → GenExpr
  | 0 => .num 1 (by decide)
  | n + 1 => .op (ones n) plus (by decide) (.num 1 (by decide))

theorem length_ones (n : ℕ) : (ones n).lexemes.length = 2 * n + 1 := by
  induction n with
  | zero => rfl
  | succ n ih =>
    rw [ones, GenExpr.lexemes, List.length_append, ih, List.length_cons]
    simp only [GenExpr.lexemes, List.length_singleton]
    omega

theorem exists_rendered (ls : List Lexeme) : ∃ s, Rendered 0 ls s := by
  induction ls with
  | nil => exact ⟨_, .nil 0⟩
  | cons l ls ih =>
    cases ls with
    | nil => exact ⟨_, .single l 0⟩
    | cons l' ls =>
      obtain ⟨s, hs⟩ := ih
      exact ⟨_, .cons l 0 le_rfl hs⟩

theorem value_one : numeralValue (decimal 1) = 1 := (decimal_spec 1 (by decide)).2.2.2

theorem derives_ones {n : ℕ} (hn : n + 1 < 2 ^ 31) :
    ∃ e, Derives exprGrammar 5 (ones n).tokens e ∧ cValue e = some (n + 1 : ℤ) ∧ NoOverflow e := by
  induction n with
  | zero =>
    refine ⟨_, (Derives.atom rfl).lower (by decide), ?_, trivial⟩
    rw [cValue, value_one]
    rfl
  | succ n ih =>
    obtain ⟨e, he, hv, hno⟩ := ih (by omega)
    have hone : Derives exprGrammar 6 [⟨TK_NUM, decimal 1⟩] (.leaf ⟨TK_NUM, decimal 1⟩) :=
      (Derives.atom rfl).lower (by decide)
    have hvalue : cValue (.binary e ⟨plus, []⟩ (.leaf ⟨TK_NUM, decimal 1⟩)) =
        some ((n + 1 : ℤ) + 1) := by
      rw [cValue, hv, cValue, value_one]
      rfl
    refine ⟨_, .binary rfl he hone, ?_, hno, trivial, fun v hvv => ?_⟩
    · rw [hvalue]
      push_cast
      rfl
    · cases hvalue.symm.trans hvv
      unfold IsInt
      omega

/-- The sum of 5000001 ones. -/
theorem long_sum_breaks_law : ¬ ∀ (cfg : Config) (m : Machine) (g : GenExpr) (s : List Char)
    (e : ExprTree Token), Rendered 0 g.lexemes s → Derives exprGrammar 1 g.tokens e →
      TestLaw cfg m e s := by
  intro h
  obtain ⟨n, hn⟩ : ∃ n, n = 5000000 := ⟨_, rfl⟩
  obtain ⟨s, hs⟩ := exists_rendered (ones n).lexemes
  obtain ⟨e, he, hv, hno⟩ := derives_ones (by omega : n + 1 < 2 ^ 31)
  have hlong : NR_TOKENS < (ones n).lexemes.length := by
    rw [length_ones, hn]
    decide
  have hexpr : expr defaultConfig (startOf 0 0) s = .error .overflow := by
    rw [expr, makeToken_long hs hlong]
    rfl
  have hlaw := h defaultConfig (startOf 0 0) (ones n) s e hs (he.lower (by decide))
  have hz : ¬ ZeroDivisor e := by
    rw [← cValue_none_iff he (arithToken_tokens (ones n)), hv]
    exact Option.some_ne_none _
  obtain ⟨v, -, hw⟩ := hlaw.value hno hz
  rw [hexpr] at hw
  cases hw

end Ysyx.Nemu
