import Ysyx.Nemu.ExprSplit

/-! `eval` is a precedence parser: it passes on exactly the strings of the grammar
whose registers exist and whose divisions have a divisor, with the value of their
one tree, and it fails on every other string that `make_token` returns. -/

namespace Ysyx.Nemu

open Bytes OpPrecedence TokenType

/-- A prefix operator does not follow an operand. -/
def Follows (x y : Token) : Prop :=
  exprGrammar.kind y = .unary → oftypes x.type boundTypes = false

theorem type_unaryOf {type : TokenType} (h : type ≠ TK_NOTYPE) : unaryOf type ≠ TK_NOTYPE := by
  revert h
  cases type <;> decide

/-- Prefix operators are only ever put behind a token that is no operand. -/
theorem putToken_spec {tokens tokens' : List Token} {type : TokenType} {substr : List Char}
    (h : putToken tokens type substr = .ok tokens') (htype : exprKind type ≠ .unary)
    (hstored : type ≠ TK_NOTYPE) :
    ∃ t, tokens' = tokens ++ [t] ∧ t.type ≠ TK_NOTYPE ∧ ∀ x ∈ tokens.getLast?, Follows x t := by
  have hplain : ∀ s, ∀ x ∈ tokens.getLast?, Follows x ⟨type, s⟩ := fun s x _ hk => absurd hk htype
  unfold putToken at h
  by_cases hfull : NR_TOKENS ≤ tokens.length
  · rw [if_pos hfull] at h
    cases h
  rw [if_neg hfull] at h
  split at h
  case h_4 | h_5 | h_6 =>
    split_ifs at h with hlast
    · refine ⟨_, (Except.ok.inj h).symm, type_unaryOf hstored, fun x hx _ => ?_⟩
      rw [Option.mem_def.mp hx] at hlast
      simpa using hlast
    · exact ⟨_, (Except.ok.inj h).symm, hstored, hplain _⟩
  case h_1 | h_2 | h_3 =>
    split_ifs at h
    exact ⟨_, (Except.ok.inj h).symm, hstored, hplain _⟩
  case h_7 => exact ⟨_, (Except.ok.inj h).symm, hstored, hplain _⟩

/-- What `make_token` keeps true of the tokens. -/
structure Stored (tokens : List Token) : Prop where
  chain : tokens.IsChain Follows
  type : ∀ t ∈ tokens, t.type ≠ TK_NOTYPE

theorem rules_not_unary : ∀ rule ∈ rules, exprKind rule.2 ≠ .unary := by decide

theorem matchRule_type {e : List Char} {type : TokenType} {len : ℕ}
    (h : matchRule e = some (type, len)) : exprKind type ≠ .unary := by
  obtain ⟨rule, hrule, hmap⟩ := List.exists_of_findSome?_eq_some h
  obtain ⟨n, -, heq⟩ := Option.map_eq_some_iff.mp hmap
  rw [← (Prod.mk.inj heq).1]
  exact rules_not_unary rule hrule

theorem makeTokenFrom_stored {n : ℕ} {e : List Char} {tokens tokens' : List Token}
    (h : makeTokenFrom n e tokens = .ok (some tokens')) (htokens : Stored tokens) :
    Stored tokens' := by
  induction n generalizing e tokens with
  | zero =>
    cases e with
    | nil =>
      cases h
      exact htokens
    | cons c e => cases h
  | succ n ih =>
    cases e with
    | nil =>
      cases h
      exact htokens
    | cons c e =>
      rw [makeTokenFrom] at h
      · cases hrule : matchRule (c :: e) with
        | none =>
          rw [hrule] at h
          cases h
        | some rule =>
          obtain ⟨type, len⟩ := rule
          rw [hrule] at h
          dsimp only at h
          split_ifs at h with hblank
          · exact ih h htokens
          · obtain ⟨tokens₁, hput, h⟩ := bind_eq_ok.mp h
            obtain ⟨t, rfl, ht, hlast⟩ := putToken_spec hput (matchRule_type hrule) hblank
            refine ih h ⟨htokens.chain.append (List.isChain_singleton t) fun x hx y hy => ?_,
              fun x hx => ?_⟩
            · rw [List.head?_cons, Option.mem_def, Option.some.injEq] at hy
              exact hy ▸ hlast x hx
            · rcases List.mem_append.mp hx with hx | hx
              · exact htokens.type x hx
              · rwa [List.mem_singleton.mp hx]
      · exact List.cons_ne_nil c e

theorem rules_consume : ∀ rule ∈ rules, ∀ items ∈ rule.1, 1 ≤ Regex.minLen items := by decide

theorem matchRule_length {e : List Char} {type : TokenType} {len : ℕ}
    (h : matchRule e = some (type, len)) : 1 ≤ len ∧ len ≤ e.length := by
  obtain ⟨rule, hrule, hmap⟩ := List.exists_of_findSome?_eq_some h
  obtain ⟨n, hn, heq⟩ := Option.map_eq_some_iff.mp hmap
  rw [← (Prod.mk.inj heq).2]
  exact Regex.longest_bounds hn (rules_consume rule hrule)

theorem makeToken_stored {e : List Char} {tokens : List Token}
    (h : makeToken e = .ok (some tokens)) : Stored tokens :=
  makeTokenFrom_stored h ⟨List.isChain_nil, fun _ ht => absurd ht List.not_mem_nil⟩

section Values

variable (cfg : Config) (m : Machine)

/-- Bottom-up, with the functions that `eval` applies. -/
def treeValue : ExprTree Token → Except ExprFault Word
  | .leaf t => do return (← evalNumReg cfg m t).1
  | .unary op e => do
    let val ← treeValue e
    return (← calc1 cfg m op.type val).1
  | .binary a op b => do
    let val1 ← treeValue a
    let val2 ← treeValue b
    return (← calc2 val1 op.type val2).1

def KnownRegs : ExprTree Token → Prop
  | .leaf t => t.type = TK_REG → t.str.tail ∈ regs.map String.toList
  | .unary _ e => KnownRegs e
  | .binary a _ b => KnownRegs a ∧ KnownRegs b

def NoZeroDivisor : ExprTree Token → Prop
  | .leaf _ => True
  | .unary _ e => NoZeroDivisor e
  | .binary a op b =>
    NoZeroDivisor a ∧ NoZeroDivisor b ∧ (op.type = slash → treeValue cfg m b ≠ .ok 0)

/-- The string has a tree, and the tree has the value. -/
def HasValue (ts : List Token) (v : Word) : Prop :=
  ∃ e, Derives exprGrammar 1 ts e ∧ KnownRegs e ∧ NoZeroDivisor cfg m e ∧ treeValue cfg m e = .ok v

variable {cfg m} {t : Token} {v val val1 val2 : Word} {type : TokenType} {pass : Bool}

theorem evalNumReg_pass (ht : exprGrammar.kind t = .atom)
    (h : evalNumReg cfg m t = .ok (v, pass)) : pass = true ↔ KnownRegs (.leaf t) := by
  rcases kind_atom.mp ht with hnum | hreg
  · refine iff_of_true ?_ fun hreg => ?_
    · simp only [evalNumReg, hnum] at h
      split_ifs at h <;> exact (Prod.mk.inj (Except.ok.inj h)).2.symm
    · rw [hnum] at hreg
      cases hreg
  · have hknown : KnownRegs (.leaf t) ↔
        (regs.findIdx? fun r => r.toList == t.str.tail).isSome = true := by
      rw [List.findIdx?_isSome, List.any_eq_true]
      simp only [KnownRegs, hreg, true_implies, List.mem_map, beq_iff_eq]
    rw [hknown]
    simp only [evalNumReg, hreg, isaRegStr2val] at h
    split at h
    · next i hi =>
      rw [hi]
      split_ifs at h
      exact iff_of_true (Prod.mk.inj (Except.ok.inj h)).2.symm rfl
    · next hi =>
      rw [hi, ← (Prod.mk.inj (Except.ok.inj h)).2]
      exact iff_of_false Bool.false_ne_true Bool.false_ne_true

/-- Only numbers and registers are values of their own. -/
theorem evalNumReg_atom (h : evalNumReg cfg m t = .ok (v, true)) : exprGrammar.kind t = .atom := by
  rw [kind_atom]
  unfold evalNumReg at h
  split at h
  · next ht => exact .inl ht
  · next ht => exact .inr ht
  · cases h

theorem calc1_pass (h : calc1 cfg m t.type val = .ok (v, pass)) :
    pass = true ↔ exprGrammar.kind t = .unary := by
  rw [kind_unary]
  revert h
  cases t.type <;> simp only [calc1, Except.ok.injEq, Prod.mk.injEq] <;> intro h
  case TK_DEREF =>
    obtain ⟨w, -, hw⟩ := bind_eq_ok.mp h
    cases hw
    decide
  all_goals
    rw [← h.2]
    decide

theorem kind_binary_iff : (∃ n, exprGrammar.kind t = .binary n) ↔
    exprGrammar.level t ≠ none ∧ exprGrammar.kind t ≠ .unary := by
  rw [← nowType_eq]
  change (∃ n, exprKind t.type = .binary n) ↔ _ ∧ exprKind t.type ≠ .unary
  cases t.type <;> simp [exprKind, nowType]

theorem calc2_pass (h : calc2 val1 t.type val2 = .ok (v, pass)) :
    pass = true ↔ (∃ n, exprGrammar.kind t = .binary n) ∧ (t.type = slash → val2 ≠ 0) := by
  rw [kind_binary_iff, ← nowType_eq]
  change _ ↔ (_ ∧ exprKind t.type ≠ .unary) ∧ _
  revert h
  cases t.type <;> simp only [calc2, Except.ok.injEq, Prod.mk.injEq] <;> intro h
  case slash =>
    split_ifs at h with h0 htrap
    · rw [← (Prod.mk.inj (Except.ok.inj h)).2]
      simp [h0]
    · rw [← (Prod.mk.inj (Except.ok.inj h)).2]
      simpa [nowType, exprKind] using h0
  all_goals
    rw [← h.2]
    simp [nowType, exprKind]

/-- The ways in which `eval` looks at a string. -/
inductive View : List Token → Prop
  | nil : View []
  | single (t : Token) : View [t]
  | wrapped (o c : Token) (inner : List Token) (ho : exprGrammar.kind o = .opening)
      (hc : exprGrammar.kind c = .closing) (hinner : Balanced exprGrammar inner) :
      View (o :: inner ++ [c])
  | split (l : List Token) (op : Token) (r : List Token) (n : ℕ)
      (h : Lowest exprGrammar l op r n) (hlen : 2 ≤ (l ++ op :: r).length)
      (hcheck : checkParentheses (l ++ op :: r) = false)
      (hfind : findOp (l ++ op :: r) = .ok (some l.length)) : View (l ++ op :: r)
  | stuck (ts : List Token) (h : ∀ e, ¬ Derives exprGrammar 1 ts e) (hlen : 2 ≤ ts.length)
      (hcheck : checkParentheses ts = false) (hfind : findOp ts = .ok none) : View ts

theorem view_of_not_bareVar (ts : List Token) (hvar : ¬ BareVar ts) : View ts := by
  match ts, hvar with
  | [], _ => exact .nil
  | [t], _ => exact .single t
  | t :: t' :: ts, hvar =>
    have hlen : 2 ≤ (t :: t' :: ts).length := by simp
    cases hcheck : checkParentheses (t :: t' :: ts) with
    | true =>
      obtain ⟨o, inner, c, heq, ho, hc, hinner⟩ := (checkParentheses_iff _).mp hcheck
      rw [heq]
      exact .wrapped o c inner (kind_opening.mpr ho) (kind_closing.mpr hc) hinner
    | false =>
      rcases findOp_spec hvar with ⟨l, op, r, n, heq, hfind, hlow⟩ | ⟨hfind, hnone⟩
      · rw [heq] at hcheck hfind hlen ⊢
        exact .split l op r n hlow hlen hcheck hfind
      · refine .stuck _ (fun e he => ?_) hlen hcheck hfind
        rcases hnone with hunbalanced | htop
        · exact hunbalanced he.balanced
        · refine not_derives_of_no_top htop (fun x hx => ?_) (fun o inner c ho hc hinner heq => ?_) he
          · exact List.cons_ne_nil t' ts (List.cons.inj hx).2
          · rw [(checkParentheses_iff _).mpr
              ⟨o, inner, c, heq, kind_opening.mp ho, kind_closing.mp hc, hinner⟩] at hcheck
            cases hcheck

theorem view (ts : List Token) (hvar : ∀ t ∈ ts, exprGrammar.kind t ≠ .other) : View ts :=
  view_of_not_bareVar ts (not_bareVar hvar)

theorem evalFrom_long {n : ℕ} {ts : List Token} (hlen : 2 ≤ ts.length)
    (hcheck : checkParentheses ts = false) :
    evalFrom cfg m (n + 1) ts = (do
      match ← findOp ts with
      | none => return (0, false)
      | some op =>
        let (val1, pass1) ← evalFrom cfg m n (ts.take op)
        let (val2, pass2) ← evalFrom cfg m n (ts.drop (op + 1))
        match ts[op]? with
        | none => .error .assertion
        | some t =>
          if !pass2 then return (0, false)
          else if pass1 then calc2 val1 t.type val2
          else calc1 cfg m t.type val2) := by
  match ts, hlen with
  | t :: t' :: ts, _ =>
    rw [evalFrom, hcheck]
    · rfl
    · exact List.cons_ne_nil _ _
    · exact fun x hx => List.cons_ne_nil t' ts (List.cons.inj hx).2

theorem evalFrom_wrapped {n : ℕ} {o c : Token} {inner : List Token}
    (ho : exprGrammar.kind o = .opening) (hc : exprGrammar.kind c = .closing)
    (hinner : Balanced exprGrammar inner) :
    evalFrom cfg m (n + 1) (o :: inner ++ [c]) = evalFrom cfg m n inner := by
  have hcheck : checkParentheses (o :: inner ++ [c]) = true := (checkParentheses_iff _).mpr
    ⟨o, inner, c, rfl, kind_opening.mp ho, kind_closing.mp hc, hinner⟩
  rw [evalFrom, if_pos hcheck]
  · rw [List.cons_append, List.tail_cons, List.dropLast_concat]
  · exact List.cons_ne_nil _ _
  · exact fun x hx =>
      List.append_ne_nil_of_right_ne_nil inner (List.cons_ne_nil c []) (List.cons.inj hx).2

theorem evalFrom_split {n : ℕ} {l r : List Token} {op : Token} (hlen : 2 ≤ (l ++ op :: r).length)
    (hcheck : checkParentheses (l ++ op :: r) = false)
    (hfind : findOp (l ++ op :: r) = .ok (some l.length)) :
    evalFrom cfg m (n + 1) (l ++ op :: r) = (do
      let (val1, pass1) ← evalFrom cfg m n l
      let (val2, pass2) ← evalFrom cfg m n r
      if !pass2 then return (0, false)
      else if pass1 then calc2 val1 op.type val2
      else calc1 cfg m op.type val2) := by
  rw [evalFrom_long hlen hcheck, hfind]
  have hop : (l ++ op :: r)[l.length]? = some op := by simp
  have hr : (l ++ op :: r).drop (l.length + 1) = r := by simp
  change (do
    let (val1, pass1) ← evalFrom cfg m n ((l ++ op :: r).take l.length)
    let (val2, pass2) ← evalFrom cfg m n ((l ++ op :: r).drop (l.length + 1))
    match (l ++ op :: r)[l.length]? with
    | none => .error .assertion
    | some t =>
      if !pass2 then return (0, false)
      else if pass1 then calc2 val1 t.type val2
      else calc1 cfg m t.type val2) = _
  rw [hop, hr, List.take_left]

theorem evalFrom_stuck {n : ℕ} {ts : List Token} (hlen : 2 ≤ ts.length)
    (hcheck : checkParentheses ts = false) (hfind : findOp ts = .ok none) :
    evalFrom cfg m (n + 1) ts = .ok (0, false) := by
  rw [evalFrom_long hlen hcheck, hfind]
  rfl

/-- A prefix operator that is split at stands first. -/
theorem nil_of_unary {l r : List Token} {op : Token} {n : ℕ} (h : Lowest exprGrammar l op r n)
    (hop : exprGrammar.kind op = .unary) (hchain : (l ++ op :: r).IsChain Follows)
    (hvar : ¬ BareVar (l ++ op :: r)) : l = [] := by
  rcases List.eq_nil_or_concat l with rfl | ⟨l', x, rfl⟩
  · rfl
  rw [List.concat_eq_append] at h hchain hvar
  have hfollows : Follows x op := (List.isChain_append.mp hchain).2.2 x (by simp) op (by simp)
  have hx := hfollows hop
  have hopx : exprGrammar.level x = none := by
    by_contra hne
    obtain ⟨k, hk⟩ := Option.ne_none_iff_exists'.mp hne
    have hl : Balanced exprGrammar l' := h.left.init fun d => step_op hk
    exact (h.before x k (top_snoc.mpr (.inr ⟨rfl, hl, hk⟩))).2 hop
  have hopen : exprGrammar.kind x = .opening := by
    have hother : exprGrammar.kind x ≠ .other := by
      intro ht
      have hstep (d : ℕ) : step exprGrammar d x = some d :=
        step_other (by rw [ht]; exact nofun) (by rw [ht]; exact nofun)
      exact hvar ⟨l', x, op :: r, by simp, h.left.init hstep, ht⟩
    rw [← nowType_eq] at hopx
    rw [kind_opening]
    change exprKind x.type ≠ .other at hother
    revert hx hopx hother
    cases x.type <;> simp [oftypes, boundTypes, nowType, exprKind]
  have hleft := h.left
  rw [OpPrecedence.Balanced, scan_append] at hleft
  obtain ⟨d, -, hlast⟩ := Option.bind_eq_some_iff.mp hleft
  rw [scan_cons, step_opening hopen] at hlast
  cases hlast

theorem length_inner_lt {o c : Token} {inner : List Token} {n : ℕ}
    (h : (o :: inner ++ [c]).length ≤ n + 1) : inner.length ≤ n := by
  simp only [List.cons_append, List.length_cons, List.length_append, List.length_nil] at h
  omega

theorem length_split_le {l r : List Token} {op : Token} {n : ℕ}
    (h : (l ++ op :: r).length ≤ n + 1) : l.length ≤ n ∧ r.length ≤ n := by
  rw [List.length_append, List.length_cons] at h
  omega

theorem evalFrom_sound {n : ℕ} {ts : List Token} (hn : ts.length ≤ n)
    (hvar : ∀ t ∈ ts, exprGrammar.kind t ≠ .other) (hchain : ts.IsChain Follows)
    (h : evalFrom cfg m n ts = .ok (v, true)) : HasValue cfg m ts v := by
  induction n generalizing ts v with
  | zero =>
    rw [List.eq_nil_of_length_eq_zero (Nat.le_zero.mp hn)] at h
    cases h
  | succ n ih =>
    cases view ts hvar with
    | nil => cases h
    | single t =>
      rw [evalFrom] at h
      have hatom := evalNumReg_atom h
      refine ⟨.leaf t, derives_single.mpr ⟨hatom, rfl⟩, (evalNumReg_pass hatom h).mp rfl, trivial, ?_⟩
      rw [treeValue, h]
      rfl
    | wrapped o c inner ho hc hinner =>
      rw [evalFrom_wrapped ho hc hinner] at h
      obtain ⟨e, he, hrest⟩ := ih (length_inner_lt hn)
        (fun t ht => hvar t (List.mem_append_left _ (List.mem_cons_of_mem o ht)))
        (List.isChain_append.mp (hchain.tail)).1 h
      exact ⟨e, (derives_wrapped ho hc hinner).mpr he, hrest⟩
    | split l op r k hlow hlen hcheck hfind =>
      obtain ⟨hl, hr⟩ := length_split_le hn
      have hvarl : ∀ t ∈ l, exprGrammar.kind t ≠ .other := fun t ht =>
        hvar t (List.mem_append_left _ ht)
      have hvarr : ∀ t ∈ r, exprGrammar.kind t ≠ .other := fun t ht =>
        hvar t (List.mem_append_right _ (List.mem_cons_of_mem op ht))
      have hchainr : r.IsChain Follows := (List.isChain_append.mp hchain).2.1.tail
      rw [evalFrom_split hlen hcheck hfind] at h
      obtain ⟨⟨val1, pass1⟩, h1, h⟩ := bind_eq_ok.mp h
      obtain ⟨⟨val2, pass2⟩, h2, hcalc⟩ := bind_eq_ok.mp h
      cases pass2 with
      | false => cases hcalc
      | true =>
        obtain ⟨b, hb, hknownb, hzerob, hvalb⟩ := ih hr hvarr hchainr h2
        cases pass1 with
        | true =>
          obtain ⟨⟨k', hop⟩, hzero⟩ := (calc2_pass hcalc).mp rfl
          obtain rfl := Option.some.inj ((level_binary hop).symm.trans hlow.level)
          obtain ⟨a, ha, hknowna, hzeroa, hvala⟩ :=
            ih hl hvarl (List.isChain_append.mp hchain).1 h1
          refine ⟨.binary a op b, (derives_binary hlow hop).mpr ⟨a, b, rfl, ha, hb⟩,
            ⟨hknowna, hknownb⟩, ⟨hzeroa, hzerob, fun hslash hval => ?_⟩, ?_⟩
          · rw [hvalb] at hval
            exact hzero hslash (Except.ok.inj hval)
          · rw [treeValue, hvala, hvalb]
            change (do return (← calc2 val1 op.type val2).1) = _
            rw [show calc2 val1 op.type val2 = _ from hcalc]
            rfl
        | false =>
          have hop := (calc1_pass hcalc).mp rfl
          obtain rfl := nil_of_unary hlow hop hchain (not_bareVar hvar)
          obtain rfl := Option.some.inj ((level_unary hop).symm.trans hlow.level)
          refine ⟨.unary op b, (derives_unary hlow hop).mpr ⟨b, rfl, hb⟩, hknownb, hzerob, ?_⟩
          rw [treeValue, hvalb]
          change (do return (← calc1 cfg m op.type val2).1) = _
          rw [show calc1 cfg m op.type val2 = _ from hcalc]
          rfl
    | stuck ts _ hlen hcheck hfind =>
      rw [evalFrom_stuck hlen hcheck hfind] at h
      cases h

theorem evalFrom_complete {n : ℕ} {ts : List Token} (hn : ts.length ≤ n)
    (hvar : ∀ t ∈ ts, exprGrammar.kind t ≠ .other) (hchain : ts.IsChain Follows)
    (h : HasValue cfg m ts v) : evalFrom cfg m n ts = .ok (v, true) := by
  induction n generalizing ts v with
  | zero =>
    obtain ⟨e, he, -⟩ := h
    rw [List.eq_nil_of_length_eq_zero (Nat.le_zero.mp hn)] at he
    exact absurd he not_derives_nil
  | succ n ih =>
    obtain ⟨e, he, hknown, hzero, hval⟩ := h
    cases view ts hvar with
    | nil => exact absurd he not_derives_nil
    | single t =>
      obtain ⟨hatom, rfl⟩ := derives_single.mp he
      obtain ⟨⟨v', pass⟩, hnum, hv⟩ := bind_eq_ok.mp hval
      cases hv
      rw [evalFrom, hnum, (evalNumReg_pass hatom hnum).mpr hknown]
    | wrapped o c inner ho hc hinner =>
      rw [evalFrom_wrapped ho hc hinner]
      exact ih (length_inner_lt hn)
        (fun t ht => hvar t (List.mem_append_left _ (List.mem_cons_of_mem o ht)))
        (List.isChain_append.mp (hchain.tail)).1
        ⟨e, (derives_wrapped ho hc hinner).mp he, hknown, hzero, hval⟩
    | split l op r k hlow hlen hcheck hfind =>
      obtain ⟨hl, hr⟩ := length_split_le hn
      have hvarl : ∀ t ∈ l, exprGrammar.kind t ≠ .other := fun t ht =>
        hvar t (List.mem_append_left _ ht)
      have hvarr : ∀ t ∈ r, exprGrammar.kind t ≠ .other := fun t ht =>
        hvar t (List.mem_append_right _ (List.mem_cons_of_mem op ht))
      have hchainr : r.IsChain Follows := (List.isChain_append.mp hchain).2.1.tail
      rw [evalFrom_split hlen hcheck hfind]
      by_cases hop : exprGrammar.kind op = .unary
      · obtain rfl := nil_of_unary hlow hop hchain (not_bareVar hvar)
        obtain rfl := Option.some.inj ((level_unary hop).symm.trans hlow.level)
        obtain ⟨b, rfl, hb⟩ := (derives_unary hlow hop).mp he
        obtain ⟨val2, hval2, hval⟩ := bind_eq_ok.mp hval
        obtain ⟨⟨v', pass⟩, hcalc, hv⟩ := bind_eq_ok.mp hval
        cases hv
        have hnil : evalFrom cfg m n [] = .ok (0, false) := by cases n <;> rfl
        rw [hnil, ih hr hvarr hchainr ⟨b, hb, hknown, hzero, hval2⟩]
        exact hcalc.trans (by rw [(calc1_pass hcalc).mpr hop])
      · obtain ⟨k', hbin⟩ := kind_binary_iff.mpr ⟨by rw [hlow.level]; exact Option.some_ne_none k, hop⟩
        obtain rfl := Option.some.inj ((level_binary hbin).symm.trans hlow.level)
        obtain ⟨a, b, rfl, ha, hb⟩ := (derives_binary hlow hbin).mp he
        obtain ⟨val1, hval1, hval⟩ := bind_eq_ok.mp hval
        obtain ⟨val2, hval2, hval⟩ := bind_eq_ok.mp hval
        obtain ⟨⟨v', pass⟩, hcalc, hv⟩ := bind_eq_ok.mp hval
        cases hv
        obtain ⟨hzeroa, hzerob, hdiv⟩ := hzero
        rw [ih hl hvarl (List.isChain_append.mp hchain).1 ⟨a, ha, hknown.1, hzeroa, hval1⟩,
          ih hr hvarr hchainr ⟨b, hb, hknown.2, hzerob, hval2⟩]
        have hpass : pass = true := (calc2_pass hcalc).mpr
          ⟨⟨k', hbin⟩, fun hslash h0 => hdiv hslash (by rw [hval2, h0])⟩
        exact hcalc.trans (by rw [hpass])
    | stuck ts hnone _ _ _ => exact absurd he (hnone e)

/-- `eval` fails in a division, in a read of memory, or past a short register file only. -/
theorem evalFrom_fault {n : ℕ} {ts : List Token} {f : ExprFault} (hn : ts.length ≤ n)
    (hvar : ∀ t ∈ ts, exprGrammar.kind t ≠ .other) (h : evalFrom cfg m n ts = .error f) :
    f = .trap ∨ (∃ f', f = .read f') ∨ (f = .pastGpr ∧ cfg.RVE = true) := by
  induction n generalizing ts with
  | zero =>
    rw [List.eq_nil_of_length_eq_zero (Nat.le_zero.mp hn)] at h
    cases h
  | succ n ih =>
    cases view ts hvar with
    | nil => cases h
    | single t =>
      rw [evalFrom] at h
      unfold evalNumReg isaRegStr2val at h
      split at h
      · split_ifs at h
      · split at h
        · next i hi =>
          split_ifs at h with hgpr
          refine .inr (.inr ⟨(Except.error.inj h).symm, ?_⟩)
          by_contra hrve
          obtain ⟨hlt, -⟩ := List.findIdx?_eq_some_iff_findIdx_eq.mp hi
          rw [Config.nrGpr, if_neg hrve] at hgpr
          exact hgpr hlt
        · cases h
      · cases h
    | wrapped o c inner ho hc hinner =>
      rw [evalFrom_wrapped ho hc hinner] at h
      exact ih (length_inner_lt hn)
        (fun t ht => hvar t (List.mem_append_left _ (List.mem_cons_of_mem o ht))) h
    | split l op r k hlow hlen hcheck hfind =>
      obtain ⟨hl, hr⟩ := length_split_le hn
      rw [evalFrom_split hlen hcheck hfind] at h
      rcases bind_eq_error.mp h with h | ⟨⟨val1, pass1⟩, -, h⟩
      · exact ih hl (fun t ht => hvar t (List.mem_append_left _ ht)) h
      rcases bind_eq_error.mp h with h | ⟨⟨val2, pass2⟩, -, h⟩
      · exact ih hr (fun t ht => hvar t (List.mem_append_right _ (List.mem_cons_of_mem op ht))) h
      dsimp only at h
      split_ifs at h
      · cases h
      · unfold calc2 at h
        split at h <;> try cases h
        split_ifs at h
        exact .inl (Except.error.inj h).symm
      · unfold calc1 at h
        split at h <;> try cases h
        rcases bind_eq_error.mp h with h | ⟨w, -, h⟩
        · unfold paddrRead4 at h
          split at h
          · cases h
          · exact .inr (.inl ⟨_, (Except.error.inj h).symm⟩)
        · cases h
    | stuck ts _ hlen hcheck hfind =>
      rw [evalFrom_stuck hlen hcheck hfind] at h
      cases h

/-- Every address that `eval` dereferences can be read, every register it looks up exists,
and no division is −2^31 / −1. -/
structure NoFault (cfg : Config) (m : Machine) (ts : List Token) : Prop where
  read : ∀ f, eval cfg m ts ≠ .error (.read f)
  gpr : cfg.RVE = true → eval cfg m ts ≠ .error .pastGpr
  trap : eval cfg m ts ≠ .error .trap

/-- `eval` decides the grammar and computes the value of the one tree. -/
structure EvalCorrect (cfg : Config) (m : Machine) (ts : List Token) : Prop where
  accepts : ∀ v, eval cfg m ts = .ok (v, true) ↔ HasValue cfg m ts v
  unique : ∀ e e', Derives exprGrammar 1 ts e → Derives exprGrammar 1 ts e' → e = e'
  rejects : (∀ v, ¬ HasValue cfg m ts v) → NoFault cfg m ts → ∃ v, eval cfg m ts = .ok (v, false)

end Values

theorem kind_ne_other {tokens : List Token} (h : Stored tokens)
    (hvar : ∀ t ∈ tokens, t.type ≠ TK_VAR) : ∀ t ∈ tokens, exprGrammar.kind t ≠ .other := by
  intro t ht
  have hblank := h.type t ht
  have hname := hvar t ht
  change exprKind t.type ≠ .other
  revert hblank hname
  cases t.type <;> decide

theorem eval_correct (cfg : Config) (m : Machine) {e : List Char} {tokens : List Token}
    (h : makeToken e = .ok (some tokens)) (hvar : ∀ t ∈ tokens, t.type ≠ TK_VAR) :
    EvalCorrect cfg m tokens := by
  have hstored := makeToken_stored h
  have hother := kind_ne_other hstored hvar
  have haccepts : ∀ v, eval cfg m tokens = .ok (v, true) ↔ HasValue cfg m tokens v := fun v =>
    ⟨evalFrom_sound le_rfl hother hstored.chain, evalFrom_complete le_rfl hother hstored.chain⟩
  refine ⟨haccepts, fun e e' he he' => he.unique he', fun hnone hfault => ?_⟩
  cases heval : eval cfg m tokens with
  | ok res =>
    obtain ⟨v, pass⟩ := res
    cases pass with
    | true => exact absurd ((haccepts v).mp heval) (hnone v)
    | false => exact ⟨v, rfl⟩
  | error f =>
    rcases evalFrom_fault le_rfl hother heval with rfl | ⟨f', rfl⟩ | ⟨rfl, hrve⟩
    · exact absurd heval hfault.trap
    · exact absurd heval (hfault.read f')
    · exact absurd heval (hfault.gpr hrve)

/-- The string `-$ra * (1 + 2)`. -/
theorem eval_correct_product :
    EvalCorrect ⟨0x30000000, 0x10000000, false, false, true, by decide⟩
      ⟨⟨fun _ => 7, 0, ⟨0, 0, 0, 0⟩⟩, fun _ _ => 0, ⟨.RUNNING, 0, 0⟩, false, 0⟩
      [⟨TK_NEG, []⟩, ⟨TK_REG, ['$', 'r', 'a']⟩, ⟨asterisk, []⟩, ⟨lparen, []⟩, ⟨TK_NUM, ['1']⟩,
        ⟨plus, []⟩, ⟨TK_NUM, ['2']⟩, ⟨rparen, []⟩] :=
  eval_correct _ _ (e := ['-', '$', 'r', 'a', ' ', '*', ' ', '(', '1', ' ', '+', ' ', '2', ')'])
    (by decide) (by decide)

end Ysyx.Nemu
