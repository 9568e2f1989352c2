import Ysyx.Nemu.InstCorrect
import Ysyx.Nemu.Lexer

/-! Which strings `expr` survives: those whose lexemes fit where `make_token` puts them, and
in whose parts, as `eval` splits them, nothing asserts, traps or reads where it cannot. -/

namespace Ysyx.Nemu

open Bytes OpPrecedence TokenType

/-- The lexemes that the rules read off a string, and whether they reach its end. -/
inductive Lexes : List Char → List (TokenType × List Char) → Bool → Prop
  | done : Lexes [] [] true
  | stop {e : List Char} (he : e ≠ []) (h : matchRule e = none) : Lexes e [] false
  | blank {e : List Char} {len : ℕ} {ls : List (TokenType × List Char)} {b : Bool}
      (h : matchRule e = some (TK_NOTYPE, len)) (hs : Lexes (e.drop len) ls b) : Lexes e ls b
  | lexeme {e : List Char} {type : TokenType} {len : ℕ} {ls : List (TokenType × List Char)}
      {b : Bool} (h : matchRule e = some (type, len)) (ht : type ≠ TK_NOTYPE)
      (hs : Lexes (e.drop len) ls b) : Lexes e ((type, e.take len) :: ls) b

/-- There is room behind `k` tokens for all lexemes, and for the text of each number, register
and variable. -/
def FitsFrom (k : ℕ) (ls : List (TokenType × List Char)) : Prop :=
  k + ls.length ≤ NR_TOKENS ∧ ∀ p ∈ ls, p.1 ∈ textTypes → p.2.length < 32

/-- The tokens that are stored for them behind `last`. -/
def storedTokens : Option Token → List (TokenType × List Char) → List Token
  | _, [] => []
  | last, (type, w) :: ls =>
    storedToken last type w :: storedTokens (some (storedToken last type w)) ls

section Lexing

variable {e : List Char} {ls ls' : List (TokenType × List Char)} {b b' : Bool}
  {tokens : List Token} {type : TokenType} {len : ℕ}

theorem exists_lexes (e : List Char) : ∃ ls b, Lexes e ls b := by
  induction hn : e.length using Nat.strong_induction_on generalizing e with
  | _ n ih =>
    by_cases he : e = []
    · exact ⟨[], true, he ▸ .done⟩
    cases hrule : matchRule e with
    | none => exact ⟨[], false, .stop he hrule⟩
    | some r =>
      obtain ⟨type, len⟩ := r
      have hlen := matchRule_length hrule
      have hlt : (e.drop len).length < n := by
        rw [List.length_drop]
        omega
      obtain ⟨ls, b, hs⟩ := ih _ hlt (e.drop len) rfl
      by_cases ht : type = TK_NOTYPE
      · exact ⟨ls, b, .blank (ht ▸ hrule) hs⟩
      · exact ⟨_, b, .lexeme hrule ht hs⟩

theorem Lexes.unique (h : Lexes e ls b) (h' : Lexes e ls' b') : ls' = ls ∧ b' = b := by
  have hnil : matchRule [] = none := by decide
  induction h generalizing ls' b' with
  | done =>
    cases h' with
    | done => exact ⟨rfl, rfl⟩
    | stop he h' => exact absurd rfl he
    | blank h' hs' => cases hnil.symm.trans h'
    | lexeme h' ht' hs' => cases hnil.symm.trans h'
  | stop he h =>
    cases h' with
    | done => exact absurd rfl he
    | stop he' h' => exact ⟨rfl, rfl⟩
    | blank h' hs' => cases h.symm.trans h'
    | lexeme h' ht' hs' => cases h.symm.trans h'
  | blank h hs ih =>
    cases h' with
    | done => cases hnil.symm.trans h
    | stop he' h' => cases h.symm.trans h'
    | blank h' hs' =>
      cases h.symm.trans h'
      exact ih hs'
    | lexeme h' ht' hs' =>
      cases h.symm.trans h'
      exact absurd rfl ht'
  | lexeme h ht hs ih =>
    cases h' with
    | done => cases hnil.symm.trans h
    | stop he' h' => cases h.symm.trans h'
    | blank h' hs' =>
      cases h.symm.trans h'
      exact absurd rfl ht
    | lexeme h' ht' hs' =>
      cases h.symm.trans h'
      obtain ⟨rfl, rfl⟩ := ih hs'
      exact ⟨rfl, rfl⟩

theorem lexFrom_match (h : matchRule e = some (type, len)) :
    lexFrom e tokens = if type = TK_NOTYPE then lexFrom (e.drop len) tokens
      else putToken tokens type (e.take len) >>= lexFrom (e.drop len) := by
  have hlen : (e.take len).length = len := List.length_take_of_le (matchRule_length h).2
  have hsplit := List.take_append_drop len e
  have hrule : matchRule (e.take len ++ e.drop len) = some (type, (e.take len).length) := by
    rw [hsplit, hlen, h]
  rw [← hsplit, lexFrom_some hrule, hsplit]

theorem fitsFrom_cons {w : List Char} : FitsFrom tokens.length ((type, w) :: ls) ↔
    HasRoom tokens type w ∧ FitsFrom (tokens.length + 1) ls := by
  unfold FitsFrom HasRoom
  rw [List.length_cons, List.forall_mem_cons]
  constructor
  · rintro ⟨hlen, htext, hall⟩
    exact ⟨⟨by omega, htext⟩, by omega, hall⟩
  · rintro ⟨⟨-, htext⟩, hlen, hall⟩
    exact ⟨by omega, htext, hall⟩

theorem lexFrom_fits (h : Lexes e ls b) (hfits : FitsFrom tokens.length ls) :
    lexFrom e tokens =
      .ok (if b then some (tokens ++ storedTokens tokens.getLast? ls) else none) := by
  induction h generalizing tokens with
  | done => rw [lexFrom_nil, storedTokens, List.append_nil, if_pos rfl]
  | stop he h => rw [lexFrom_none he h, if_neg Bool.false_ne_true]
  | blank h hs ih => rw [lexFrom_match h, if_pos rfl, ih hfits]
  | @lexeme e type len ls b h ht hs ih =>
    obtain ⟨hroom, hrest⟩ := fitsFrom_cons.mp hfits
    have hfits' : FitsFrom (tokens ++ [storedToken tokens.getLast? type (e.take len)]).length ls := by
      rwa [List.length_append, List.length_singleton]
    have hih := ih hfits'
    rw [List.getLast?_concat, List.append_assoc, List.singleton_append] at hih
    rw [lexFrom_match h, if_neg ht, putToken_ok hroom]
    exact hih

theorem lexFrom_not_fits (h : Lexes e ls b) (htokens : tokens.length ≤ NR_TOKENS)
    (hfits : ¬ FitsFrom tokens.length ls) : lexFrom e tokens = .error .overflow := by
  have hnil : FitsFrom tokens.length [] := ⟨htokens, nofun⟩
  induction h generalizing tokens with
  | done => exact absurd hnil hfits
  | stop he h => exact absurd hnil hfits
  | blank h hs ih => rw [lexFrom_match h, if_pos rfl, ih htokens hfits hnil]
  | @lexeme e type len ls b h ht hs ih =>
    rw [lexFrom_match h, if_neg ht]
    by_cases hroom : HasRoom tokens type (e.take len)
    · have hrest : ¬ FitsFrom (tokens.length + 1) ls := fun hrest =>
        hfits (fitsFrom_cons.mpr ⟨hroom, hrest⟩)
      have hlen : (tokens ++ [storedToken tokens.getLast? type (e.take len)]).length =
        tokens.length + 1 := List.length_append
      rw [putToken_ok hroom]
      have hlt := hroom.1
      exact ih (by omega) (by rwa [hlen]) ⟨by rw [hlen]; exact hlt, nofun⟩
    · rw [putToken_overflow hroom]
      rfl

end Lexing

/-- One pair of parentheses around a balanced string. -/
def Wrapped (ts : List Token) : Prop :=
  ∃ o inner c, ts = o :: inner ++ [c] ∧ o.type = lparen ∧ c.type = rparen ∧
    Balanced exprGrammar inner

/-- The operator to split at, with what stands before and behind it. -/
def Splits (ts l : List Token) (op : Token) (r : List Token) : Prop :=
  ts = l ++ op :: r ∧ 2 ≤ ts.length ∧ ¬ Wrapped ts ∧ ¬ BareVar ts ∧
    ∃ n, Lowest exprGrammar l op r n

/-- The parts of a string for which `eval` is called. -/
inductive Visits : List Token → List Token → Prop
  | self (ts : List Token) : Visits ts ts
  | inner {o c : Token} {inner seg : List Token} (ho : o.type = lparen) (hc : c.type = rparen)
      (hb : Balanced exprGrammar inner) (h : Visits inner seg) : Visits (o :: inner ++ [c]) seg
  | left {ts l r seg : List Token} {op : Token} (hs : Splits ts l op r) (h : Visits l seg) :
      Visits ts seg
  | right {ts l r seg : List Token} {op : Token} (hs : Splits ts l op r) (h : Visits r seg) :
      Visits ts seg

/-- A register that is looked up is one of `cpu.gpr`. -/
def RegFits (cfg : Config) (t : Token) : Prop :=
  t.type = TK_REG →
    ∀ i, (regs.findIdx? fun r => r.toList == t.str.tail) = some i → i < cfg.nrGpr

section Parts

variable (cfg : Config) (m : Machine)

/-- The part is a dereference of the address `v`. -/
def Derefs (seg : List Token) (v : Word) : Prop :=
  ∃ l op r, Splits seg l op r ∧ op.type = TK_DEREF ∧ HasValue cfg m r v

/-- Nothing goes wrong at a part itself. -/
structure Fine (seg : List Token) : Prop where
  /-- a register on its own is found -/
  reg : ∀ t, seg = [t] → RegFits cfg t
  /-- `find_op` meets no variable outside parentheses -/
  var : 2 ≤ seg.length → ¬ Wrapped seg → ¬ BareVar seg
  /-- no division is −2^31 / −1 -/
  trap : ∀ l op r, Splits seg l op r → op.type = slash →
    ¬ (HasValue cfg m l 0x80000000 ∧ HasValue cfg m r 0xffffffff)
  /-- the address that is dereferenced can be read -/
  read : ∀ v, Derefs cfg m seg v → ∃ w, paddrRead cfg m.mem v 4 = .ok w

def Safe (ts : List Token) : Prop := ∀ seg, Visits ts seg → Fine cfg m seg

end Parts

section Shapes

variable {cfg : Config} {m : Machine} {ts seg l r inner : List Token} {t o c op : Token} {n : ℕ}
  {v : Word} {pass : Bool}

theorem wrapped_iff : Wrapped ts ↔ checkParentheses ts = true := (checkParentheses_iff ts).symm

theorem Wrapped.two (h : Wrapped ts) : 2 ≤ ts.length := by
  obtain ⟨o, inner, c, rfl, -⟩ := h
  simp

theorem Splits.unique {l' r' : List Token} {op' : Token} (h : Splits ts l op r)
    (h' : Splits ts l' op' r') : l' = l ∧ op' = op ∧ r' = r := by
  obtain ⟨heq, -, -, -, n, hlow⟩ := h
  obtain ⟨heq', -, -, -, n', hlow'⟩ := h'
  exact hlow'.unique hlow (heq'.symm.trans heq)

theorem Visits.eq_self (h : Visits ts seg) (hw : ¬ Wrapped ts)
    (hs : ∀ l op r, ¬ Splits ts l op r) : seg = ts := by
  cases h with
  | self => rfl
  | inner ho hc hb h => exact absurd ⟨_, _, _, rfl, ho, hc, hb⟩ hw
  | left hs' h => exact absurd hs' (hs _ _ _)
  | right hs' h => exact absurd hs' (hs _ _ _)

theorem safe_leaf (hw : ¬ Wrapped ts) (hs : ∀ l op r, ¬ Splits ts l op r) :
    Safe cfg m ts ↔ Fine cfg m ts := by
  refine ⟨fun h => h ts (.self ts), fun h seg hv => ?_⟩
  rw [hv.eq_self hw hs]
  exact h

theorem safe_short (h : ts.length < 2) : Safe cfg m ts ↔ ∀ t, ts = [t] → RegFits cfg t := by
  have hw : ¬ Wrapped ts := fun hw => absurd hw.two (Nat.not_le.mpr h)
  have hs : ∀ l op r, ¬ Splits ts l op r := fun l op r hs => absurd hs.2.1 (Nat.not_le.mpr h)
  rw [safe_leaf hw hs]
  refine ⟨fun hfine => hfine.reg, fun hreg => ⟨hreg, fun hlen => absurd hlen (Nat.not_le.mpr h),
    fun l op r hsp => absurd hsp (hs l op r), ?_⟩⟩
  rintro v ⟨l, op, r, hsp, -⟩
  exact absurd hsp (hs l op r)

theorem safe_wrapped (ho : o.type = lparen) (hc : c.type = rparen)
    (hb : Balanced exprGrammar inner) : Safe cfg m (o :: inner ++ [c]) ↔ Safe cfg m inner := by
  have hw : Wrapped (o :: inner ++ [c]) := ⟨o, inner, c, rfl, ho, hc, hb⟩
  have hno : ∀ l op r, ¬ Splits (o :: inner ++ [c]) l op r := fun l op r hs => hs.2.2.1 hw
  refine ⟨fun h seg hv => h seg (.inner ho hc hb hv), fun h seg hv => ?_⟩
  generalize hts : o :: inner ++ [c] = ts at hv hw hno
  cases hv with
  | self =>
    refine ⟨fun t ht => ?_, fun _ hnw => absurd hw hnw, fun l op r hs => absurd hs (hno l op r), ?_⟩
    · have := hw.two
      rw [ht] at this
      simp at this
    · rintro v ⟨l, op, r, hs, -⟩
      exact absurd hs (hno l op r)
  | @inner o' c' inner' seg ho' hc' hb' h' =>
    obtain ⟨rfl, hrest⟩ := List.cons.inj hts
    obtain ⟨rfl, -⟩ := List.append_inj' hrest rfl
    exact h seg h'
  | left hs h' => exact absurd hs (hno _ _ _)
  | right hs h' => exact absurd hs (hno _ _ _)

theorem safe_split (hs : Splits ts l op r) : Safe cfg m ts ↔
    Safe cfg m l ∧ Safe cfg m r ∧
      (op.type = slash → ¬ (HasValue cfg m l 0x80000000 ∧ HasValue cfg m r 0xffffffff)) ∧
      (op.type = TK_DEREF → ∀ v, HasValue cfg m r v → ∃ w, paddrRead cfg m.mem v 4 = .ok w) := by
  constructor
  · intro h
    have hfine := h ts (.self ts)
    exact ⟨fun seg hv => h seg (.left hs hv), fun seg hv => h seg (.right hs hv),
      hfine.trap l op r hs, fun hop v hv => hfine.read v ⟨l, op, r, hs, hop, hv⟩⟩
  · rintro ⟨hl, hr, htrap, hread⟩ seg hv
    cases hv with
    | self =>
      refine ⟨fun t ht => ?_, fun _ _ => hs.2.2.2.1, fun l' op' r' hs' => ?_, ?_⟩
      · have := hs.2.1
        rw [ht] at this
        simp at this
      · obtain ⟨rfl, rfl, rfl⟩ := hs.unique hs'
        exact htrap
      · rintro v ⟨l', op', r', hs', hop, hv⟩
        obtain ⟨rfl, rfl, rfl⟩ := hs.unique hs'
        exact hread hop v hv
    | inner ho hc hb h => exact absurd ⟨_, _, _, rfl, ho, hc, hb⟩ hs.2.2.1
    | left hs' h =>
      obtain ⟨rfl, rfl, rfl⟩ := hs.unique hs'
      exact hl seg h
    | right hs' h =>
      obtain ⟨rfl, rfl, rfl⟩ := hs.unique hs'
      exact hr seg h

end Shapes

section Returns

variable {cfg : Config} {m : Machine} {ts l r : List Token} {op : Token} {n : ℕ}
  {v val1 val2 : Word} {type : TokenType}

theorem calc1_returns : (∃ res, calc1 cfg m type v = .ok res) ↔
    (type = TK_DEREF → ∃ w, paddrRead cfg m.mem v 4 = .ok w) := by
  by_cases hd : type = TK_DEREF
  · rw [hd, calc1, paddrRead4]
    cases paddrRead cfg m.mem v 4 with
    | ok w => exact iff_of_true ⟨_, rfl⟩ fun _ => ⟨w, rfl⟩
    | error f =>
      refine iff_of_false ?_ fun h => ?_
      · rintro ⟨res, h⟩
        cases h
      · obtain ⟨w, hw⟩ := h rfl
        cases hw
  · refine iff_of_true ?_ fun h => absurd h hd
    cases type <;> first | exact absurd rfl hd | exact ⟨_, rfl⟩

theorem calc2_returns : (∃ res, calc2 val1 type val2 = .ok res) ↔
    ¬ (type = slash ∧ val1 = 0x80000000 ∧ val2 = 0xffffffff) := by
  by_cases hs : type = slash
  · rw [hs, calc2]
    by_cases h0 : val2 = 0
    · rw [if_pos h0]
      refine iff_of_true ⟨_, rfl⟩ ?_
      rintro ⟨-, -, h⟩
      rw [h0] at h
      exact absurd h (by decide)
    · rw [if_neg h0]
      by_cases htrap : val1 = 0x80000000 ∧ val2 = 0xffffffff
      · rw [if_pos htrap]
        refine iff_of_false ?_ fun h => h ⟨rfl, htrap⟩
        rintro ⟨res, h⟩
        cases h
      · rw [if_neg htrap]
        exact iff_of_true ⟨_, rfl⟩ fun h => htrap h.2
  · refine iff_of_true ?_ fun h => hs h.1
    cases type <;> first | exact absurd rfl hs | exact ⟨_, rfl⟩

theorem view_or_bare (ts : List Token) :
    View ts ∨ (2 ≤ ts.length ∧ checkParentheses ts = false ∧ BareVar ts) := by
  by_cases hbare : BareVar ts
  · match ts with
    | [] => exact .inl .nil
    | [t] => exact .inl (.single t)
    | t :: t' :: ts =>
      cases hcheck : checkParentheses (t :: t' :: ts) with
      | true =>
        obtain ⟨o, inner, c, heq, ho, hc, hb⟩ := (checkParentheses_iff _).mp hcheck
        rw [heq]
        exact .inl (.wrapped o c inner (kind_opening.mpr ho) (kind_closing.mpr hc) hb)
      | false => exact .inr ⟨by simp, rfl, hbare⟩
  · exact .inl (view_of_not_bareVar ts hbare)

theorem evalFrom_bare (hlen : 2 ≤ ts.length) (hcheck : checkParentheses ts = false)
    (hbare : BareVar ts) : evalFrom cfg m (n + 1) ts = .error .assertion := by
  rw [evalFrom_long hlen hcheck, findOp_bare hbare]
  rfl

theorem not_bareVar_of_findOp {res : Option ℕ} (h : findOp ts = .ok res) : ¬ BareVar ts :=
  fun hbare => nomatch (findOp_bare hbare).symm.trans h

theorem evalFrom_pass_vars (hn : ts.length ≤ n) (hchain : ts.IsChain Follows)
    (h : evalFrom cfg m n ts = .ok (v, true)) : ∀ t ∈ ts, exprGrammar.kind t ≠ .other := by
  induction n generalizing ts v with
  | zero =>
    rw [List.eq_nil_of_length_eq_zero (Nat.le_zero.mp hn)] at h
    cases h
  | succ n ih =>
    rcases view_or_bare ts with hview | ⟨hlen, hcheck, hbare⟩
    · cases hview with
      | nil => cases h
      | single t =>
        rw [evalFrom] at h
        refine List.forall_mem_singleton.mpr ?_
        rw [evalNumReg_atom h]
        decide
      | wrapped o c inner ho hc hinner =>
        rw [evalFrom_wrapped ho hc hinner] at h
        rw [List.cons_append, List.forall_mem_cons, List.forall_mem_append,
          List.forall_mem_singleton, ho, hc]
        exact ⟨by decide, ih (length_inner_lt hn) (List.isChain_append.mp hchain.tail).1 h,
          by decide⟩
      | split l op r k hlow hlen hcheck hfind =>
        obtain ⟨hl, hr⟩ := length_split_le hn
        obtain ⟨hchainl, hchainr, -⟩ := List.isChain_append.mp hchain
        rw [evalFrom_split hlen hcheck hfind] at h
        obtain ⟨⟨val1, pass1⟩, h1, h⟩ := bind_eq_ok.mp h
        obtain ⟨⟨val2, pass2⟩, h2, hcalc⟩ := bind_eq_ok.mp h
        have hop : exprGrammar.kind op ≠ .other := by
          intro hother
          have hlevel := hlow.level
          rw [Grammar.level, hother] at hlevel
          cases hlevel
        cases pass2 with
        | false => cases hcalc
        | true =>
          have hvarr := ih hr hchainr.tail h2
          rw [List.forall_mem_append, List.forall_mem_cons]
          refine ⟨?_, hop, hvarr⟩
          cases pass1 with
          | true => exact ih hl hchainl h1
          | false =>
            rw [nil_of_unary hlow ((calc1_pass hcalc).mp rfl) hchain (not_bareVar_of_findOp hfind)]
            exact List.forall_mem_nil _
      | stuck ts hnone hlen hcheck hfind =>
        rw [evalFrom_stuck hlen hcheck hfind] at h
        cases h
    · rw [evalFrom_bare hlen hcheck hbare] at h
      cases h

theorem evalFrom_pass_iff (hn : ts.length ≤ n) (hchain : ts.IsChain Follows) :
    evalFrom cfg m n ts = .ok (v, true) ↔ HasValue cfg m ts v := by
  refine ⟨fun h => evalFrom_sound hn (evalFrom_pass_vars hn hchain h) hchain h, fun h => ?_⟩
  obtain ⟨e, he, -⟩ := id h
  exact evalFrom_complete hn he.kind_ne_other hchain h

/-- What a split leaves to be fine. -/
theorem split_returns {r₁ r₂ : Except ExprFault (Word × Bool)} {P Q : Word → Prop}
    (h₁ : ∀ v, r₁ = .ok (v, true) ↔ P v) (h₂ : ∀ v, r₂ = .ok (v, true) ↔ Q v)
    (hderef : type = TK_DEREF → ∀ v, ¬ P v) :
    (∃ res, (do
      let (val1, pass1) ← r₁
      let (val2, pass2) ← r₂
      if !pass2 then return (0, false)
      else if pass1 then calc2 val1 type val2
      else calc1 cfg m type val2) = .ok res) ↔
    (∃ res, r₁ = .ok res) ∧ (∃ res, r₂ = .ok res) ∧
      (type = slash → ¬ (P 0x80000000 ∧ Q 0xffffffff)) ∧
      (type = TK_DEREF → ∀ v, Q v → ∃ w, paddrRead cfg m.mem v 4 = .ok w) := by
  cases r₁ with
  | error f =>
    refine iff_of_false ?_ ?_
    · rintro ⟨res, h⟩
      cases h
    · rintro ⟨⟨res, h⟩, -⟩
      cases h
  | ok p₁ =>
    obtain ⟨val1, pass1⟩ := p₁
    cases r₂ with
    | error f =>
      refine iff_of_false ?_ ?_
      · rintro ⟨res, h⟩
        cases h
      · rintro ⟨-, ⟨res, h⟩, -⟩
        cases h
    | ok p₂ =>
      obtain ⟨val2, pass2⟩ := p₂
      simp only [Except.ok.injEq, Prod.mk.injEq] at h₁ h₂
      have hok {p : Word × Bool} : ∃ res, (.ok p : Except ExprFault (Word × Bool)) = .ok res :=
        ⟨p, rfl⟩
      rw [and_iff_right hok, and_iff_right hok]
      cases pass2 with
      | false =>
        have hQ (v : Word) : ¬ Q v := fun hv => Bool.false_ne_true ((h₂ v).mpr hv).2
        exact iff_of_true ⟨(0, false), rfl⟩ ⟨fun _ h => hQ _ h.2, fun _ v hv => absurd hv (hQ v)⟩
      | true =>
        have hQ (v : Word) : Q v ↔ val2 = v := by rw [← h₂ v, and_iff_left rfl]
        cases pass1 with
        | true =>
          have hP (v : Word) : P v ↔ val1 = v := by rw [← h₁ v, and_iff_left rfl]
          have htype : type ≠ TK_DEREF := fun h => hderef h val1 ((hP val1).mpr rfl)
          refine calc2_returns.trans ?_
          rw [hP, hQ, and_iff_left (fun h => absurd h htype), not_and]
        | false =>
          have hP (v : Word) : ¬ P v := fun hv => Bool.false_ne_true ((h₁ v).mpr hv).2
          refine calc1_returns.trans ?_
          rw [and_iff_right (fun _ h => hP _ h.1)]
          simp only [hQ, forall_eq']

theorem not_wrapped (h : checkParentheses ts = false) : ¬ Wrapped ts := by
  rw [wrapped_iff, h]
  exact Bool.false_ne_true

theorem evalNumReg_returns (cfg : Config) (m : Machine) (t : Token) :
    (∃ res, evalNumReg cfg m t = .ok res) ↔ RegFits cfg t := by
  unfold RegFits
  by_cases hreg : t.type = TK_REG
  · simp only [evalNumReg, hreg, isaRegStr2val, true_implies]
    cases regs.findIdx? fun r => r.toList == t.str.tail with
    | none => exact iff_of_true ⟨_, rfl⟩ (by simp)
    | some i =>
      by_cases hi : i < cfg.nrGpr
      · refine iff_of_true ⟨_, if_pos hi⟩ fun j hj => ?_
        cases hj
        exact hi
      · refine iff_of_false ?_ fun h => hi (h i rfl)
        rintro ⟨res, hres⟩
        cases (if_neg hi).symm.trans hres
  · refine iff_of_true ?_ fun h => absurd h hreg
    unfold evalNumReg
    split
    · split_ifs <;> exact ⟨_, rfl⟩
    · next ht => exact absurd ht hreg
    · exact ⟨_, rfl⟩

theorem safe_stuck (hlen : 2 ≤ ts.length) (hcheck : checkParentheses ts = false)
    (hfind : findOp ts = .ok none) : Safe cfg m ts := by
  have hbare := not_bareVar_of_findOp hfind
  have hs : ∀ l op r, ¬ Splits ts l op r := by
    rintro l op r ⟨rfl, -, -, -, k, hlow⟩
    rcases findOp_spec hbare with ⟨l', op', r', n', -, hfind', -⟩ | ⟨-, hunbalanced | htop⟩
    · cases hfind.symm.trans hfind'
    · exact hunbalanced ((hlow.left.op_iff hlow.level).mpr hlow.right)
    · exact htop op k hlow.top
  refine (safe_leaf (not_wrapped hcheck) hs).mpr ⟨fun t ht => ?_, fun _ _ => hbare,
    fun l op r hsp => absurd hsp (hs l op r), ?_⟩
  · rw [ht] at hlen
    simp at hlen
  · rintro v ⟨l, op, r, hsp, -⟩
    exact absurd hsp (hs l op r)

theorem evalFrom_returns_iff (hn : ts.length ≤ n) (hchain : ts.IsChain Follows) :
    (∃ res, evalFrom cfg m n ts = .ok res) ↔ Safe cfg m ts := by
  induction n generalizing ts with
  | zero =>
    rw [List.eq_nil_of_length_eq_zero (Nat.le_zero.mp hn), safe_short (by decide)]
    exact iff_of_true ⟨_, rfl⟩ nofun
  | succ n ih =>
    rcases view_or_bare ts with hview | ⟨hlen, hcheck, hbare⟩
    · cases hview with
      | nil =>
        rw [safe_short (by decide)]
        exact iff_of_true ⟨_, rfl⟩ nofun
      | single t =>
        rw [evalFrom, safe_short (by simp), evalNumReg_returns]
        simp only [List.cons.injEq, and_true, forall_eq']
      | wrapped o c inner ho hc hinner =>
        rw [evalFrom_wrapped ho hc hinner,
          safe_wrapped (kind_opening.mp ho) (kind_closing.mp hc) hinner]
        exact ih (length_inner_lt hn) (List.isChain_append.mp hchain.tail).1
      | split l op r k hlow hlen hcheck hfind =>
        obtain ⟨hl, hr⟩ := length_split_le hn
        obtain ⟨hchainl, hchainr, -⟩ := List.isChain_append.mp hchain
        have hbare := not_bareVar_of_findOp hfind
        have hsplits : Splits (l ++ op :: r) l op r :=
          ⟨rfl, hlen, not_wrapped hcheck, hbare, k, hlow⟩
        have hderef : op.type = TK_DEREF → ∀ v, ¬ HasValue cfg m l v := by
          rintro hop v ⟨e, he, -⟩
          rw [nil_of_unary hlow (kind_unary.mpr (by rw [hop]; rfl)) hchain hbare] at he
          exact not_derives_nil he
        rw [evalFrom_split hlen hcheck hfind, safe_split hsplits, ← ih hl hchainl,
          ← ih hr hchainr.tail]
        exact split_returns (fun v => evalFrom_pass_iff hl hchainl)
          (fun v => evalFrom_pass_iff hr hchainr.tail) hderef
      | stuck ts hnone hlen hcheck hfind =>
        rw [evalFrom_stuck hlen hcheck hfind]
        exact iff_of_true ⟨_, rfl⟩ (safe_stuck hlen hcheck hfind)
    · refine iff_of_false ?_ fun h => ?_
      · rintro ⟨res, hres⟩
        rw [evalFrom_bare hlen hcheck hbare] at hres
        cases hres
      · exact (h ts (.self ts)).var hlen (not_wrapped hcheck) hbare

end Returns

/-- `expr` returns, and where it dereferences an address that cannot be read, `*pass` is
false. -/
structure Robust (cfg : Config) (m : Machine) (e : List Char) : Prop where
  returns : ∃ v pass, expr cfg m e = .ok (v, pass)
  unmapped : ∀ ls seg v, Lexes e ls true → Visits (storedTokens none ls) seg →
    Derefs cfg m seg v → (∀ w, paddrRead cfg m.mem v 4 ≠ .ok w) →
    ∃ w, expr cfg m e = .ok (w, false)

section Expr

variable {cfg : Config} {m : Machine} {e : List Char} {ls : List (TokenType × List Char)}
  {b : Bool}

theorem makeToken_lexes (h : Lexes e ls b) (hfits : FitsFrom 0 ls) :
    makeToken e = .ok (if b then some (storedTokens none ls) else none) := by
  have hfits' : FitsFrom ([] : List Token).length ls := hfits
  rw [makeToken_eq, lexFrom_fits h hfits']
  rfl

theorem makeToken_not_fits (h : Lexes e ls b) (hfits : ¬ FitsFrom 0 ls) :
    makeToken e = .error .overflow := by
  have hfits' : ¬ FitsFrom ([] : List Token).length ls := hfits
  rw [makeToken_eq, lexFrom_not_fits h (Nat.zero_le _) hfits']

theorem expr_returns_iff (h : Lexes e ls b) : (∃ v pass, expr cfg m e = .ok (v, pass)) ↔
    FitsFrom 0 ls ∧ (b = true → Safe cfg m (storedTokens none ls)) := by
  by_cases hfits : FitsFrom 0 ls
  · have htoken := makeToken_lexes h hfits
    rw [and_iff_right hfits]
    cases b with
    | false =>
      refine iff_of_true ⟨0, false, ?_⟩ nofun
      rw [expr, htoken]
      rfl
    | true =>
      have hchain := (makeToken_stored htoken).chain
      have hexpr : expr cfg m e = eval cfg m (storedTokens none ls) := by
        rw [expr, htoken]
        rfl
      rw [hexpr, imp_iff_right rfl, ← evalFrom_returns_iff le_rfl hchain]
      exact ⟨fun ⟨v, pass, h⟩ => ⟨(v, pass), h⟩, fun ⟨(v, pass), h⟩ => ⟨v, pass, h⟩⟩
  · refine iff_of_false ?_ fun h => hfits h.1
    rintro ⟨v, pass, hv⟩
    rw [expr, makeToken_not_fits h hfits] at hv
    cases hv

end Expr

/-- A string is survived exactly when its lexemes fit and, if they reach its end, nothing goes
wrong at a part that `eval` is called for. -/
theorem robust_iff (cfg : Config) (m : Machine) (e : List Char) :
    ∃ ls b, Lexes e ls b ∧ (∀ ls' b', Lexes e ls' b' → ls' = ls ∧ b' = b) ∧
      (Robust cfg m e ↔ FitsFrom 0 ls ∧ (b = true → Safe cfg m (storedTokens none ls))) := by
  obtain ⟨ls, b, h⟩ := exists_lexes e
  refine ⟨ls, b, h, fun ls' b' h' => h.unique h', fun hr => (expr_returns_iff h).mp hr.returns,
    fun hcond => ⟨(expr_returns_iff h).mpr hcond, fun ls' seg v h' hv hd hw => ?_⟩⟩
  obtain ⟨rfl, hb⟩ := h.unique h'
  obtain ⟨w, hread⟩ := (hcond.2 hb.symm seg hv).read v hd
  exact absurd hread (hw w)

/-- The string `a + 1`. -/
theorem expr_not_robust : ¬ ∀ (cfg : Config) (m : Machine) (e : List Char), Robust cfg m e := by
  intro h
  obtain ⟨v, pass, hv⟩ := (h defaultConfig (startOf 0 0) ['a', ' ', '+', ' ', '1']).returns
  have hassert : expr defaultConfig (startOf 0 0) ['a', ' ', '+', ' ', '1'] =
    .error .assertion := by decide
  rw [hassert] at hv
  cases hv

example : expr defaultConfig (startOf 0 0)
    ['0', 'x', '8', '0', '0', '0', '0', '0', '0', '0', ' ', '/', ' ', '-', '1'] =
    .error .trap := by decide

example : expr defaultConfig (startOf 0 0) ['*', '0'] = .error (.read .assertion) := by decide

example : expr defaultConfig (startOf 0 0) (List.replicate 32 '7') = .error .overflow := by decide

end Ysyx.Nemu
