import Ysyx.Lib.OpPrecedence
import Ysyx.Nemu.Expr

/-! The splitting functions of `expr.c` against the grammar: `check_parentheses` finds
exactly the strings in one pair of parentheses, `find_op` the operator to split at. -/

namespace Ysyx.Nemu

open OpPrecedence TokenType

def exprKind : TokenType → Kind
  | lparen => .opening
  | rparen => .closing
  | TK_NUM | TK_REG => .atom
  | TK_NEG | TK_POS | TK_DEREF => .unary
  | TK_OR => .binary 1
  | TK_AND => .binary 2
  | TK_EQ | TK_NEQ => .binary 3
  | TK_LT | TK_GT | TK_GE | TK_LE => .binary 4
  | plus | minus => .binary 5
  | asterisk | slash => .binary 6
  | TK_NOTYPE | TK_VAR => .other

def exprGrammar : Grammar Token where
  kind t := exprKind t.type
  top := 6
  bounds t n h := by
    revert h
    cases t.type <;> simp only [exprKind, reduceCtorEq, Kind.binary.injEq, false_implies] <;> omega

theorem kind_opening {t : Token} : exprGrammar.kind t = .opening ↔ t.type = lparen := by
  change exprKind t.type = _ ↔ _
  cases t.type <;> decide

theorem kind_closing {t : Token} : exprGrammar.kind t = .closing ↔ t.type = rparen := by
  change exprKind t.type = _ ↔ _
  cases t.type <;> decide

theorem kind_unary {t : Token} :
    exprGrammar.kind t = .unary ↔ oftypes t.type uopTypes = true := by
  change exprKind t.type = _ ↔ _
  cases t.type <;> decide

theorem kind_atom {t : Token} : exprGrammar.kind t = .atom ↔ t.type = TK_NUM ∨ t.type = TK_REG := by
  change exprKind t.type = _ ↔ _
  cases t.type <;> decide

theorem nowType_eq (t : Token) : nowType t.type = exprGrammar.level t := by
  obtain ⟨type, str⟩ := t
  cases type <;> rfl

/-- A variable outside parentheses, where no parenthesis was closed too early. -/
def BareVar (ts : List Token) : Prop :=
  ∃ l t r, ts = l ++ t :: r ∧ Balanced exprGrammar l ∧ exprGrammar.kind t = .other

theorem not_bareVar {ts : List Token} (hvar : ∀ t ∈ ts, exprGrammar.kind t ≠ .other) :
    ¬ BareVar ts := by
  rintro ⟨l, t, r, rfl, -, ht⟩
  exact hvar t (by simp) ht

/-- Every other token than a variable is an operator, a parenthesis or an atom. -/
theorem level_of_not_nop {t : Token} (h : oftypes t.type nopTypes = false)
    (hvar : exprGrammar.kind t ≠ .other) : ∃ n, exprGrammar.level t = some n ∧ n ≤ 7 := by
  rw [← nowType_eq]
  change exprKind t.type ≠ .other at hvar
  revert h hvar
  cases t.type <;> simp [oftypes, nopTypes, exprKind, nowType]

theorem level_of_nop {t : Token} (h : oftypes t.type nopTypes = true) :
    exprGrammar.level t = none := by
  rw [← nowType_eq]
  revert h
  cases t.type <;> simp [oftypes, nopTypes, nowType]

/-- What closes `d + 1` parentheses at its end and not before. -/
def Closes (d : ℕ) (ts : List Token) : Prop :=
  ∃ inner c, ts = inner ++ [c] ∧ c.type = rparen ∧ scan exprGrammar d inner = some 0

theorem not_closes_nil {d : ℕ} : ¬ Closes d [] := by
  rintro ⟨inner, c, h, -⟩
  exact List.append_ne_nil_of_right_ne_nil inner (List.cons_ne_nil c []) h.symm

theorem closes_cons {d : ℕ} {t : Token} {ts : List Token} :
    Closes d (t :: ts) ↔ (ts = [] ∧ t.type = rparen ∧ d = 0) ∨
      ∃ d', step exprGrammar d t = some d' ∧ Closes d' ts := by
  constructor
  · rintro ⟨inner, c, heq, hc, hscan⟩
    cases inner with
    | nil =>
      obtain ⟨rfl, rfl⟩ := List.cons.inj heq
      exact .inl ⟨rfl, hc, Option.some.inj hscan⟩
    | cons x inner =>
      obtain ⟨rfl, rfl⟩ := List.cons.inj heq
      obtain ⟨d', hstep, hscan⟩ := Option.bind_eq_some_iff.mp hscan
      exact .inr ⟨d', hstep, inner, c, rfl, hc, hscan⟩
  · rintro (⟨rfl, hc, rfl⟩ | ⟨d', hstep, inner, c, rfl, hc, hscan⟩)
    · exact ⟨[], t, rfl, hc, rfl⟩
    · refine ⟨t :: inner, c, rfl, hc, ?_⟩
      rw [scan_cons, hstep]
      exact hscan

/-- From an open parenthesis on, the loop looks for the token that closes it. -/
theorem parLoop_iff (d : ℕ) (ts : List Token) : parLoop (d + 1) ts = true ↔ Closes d ts := by
  induction ts generalizing d with
  | nil => exact iff_of_false Bool.false_ne_true not_closes_nil
  | cons t ts ih =>
    rw [closes_cons]
    by_cases ho : t.type = lparen
    · have hc : t.type ≠ rparen := by rw [ho]; decide
      have hpos : (d : ℤ) + 1 + 1 ≠ 0 := by omega
      simp only [parLoop, if_pos ho, if_neg hpos, step_opening (kind_opening.mpr ho), hc, false_and,
        and_false, false_or, Option.some.injEq, exists_eq_left']
      exact_mod_cast ih (d + 1)
    by_cases hc : t.type = rparen
    · simp only [parLoop, hc, reduceCtorEq, if_false, if_true, true_and, add_sub_cancel_right]
      cases d with
      | zero => simp [step_closing_zero (kind_closing.mpr hc)]
      | succ d =>
        have hpos : ((d + 1 : ℕ) : ℤ) ≠ 0 := by omega
        rw [if_neg hpos]
        simp only [step_closing (kind_closing.mpr hc), Nat.succ_ne_zero, and_false, false_or,
          Option.some.injEq, exists_eq_left']
        exact_mod_cast ih d
    · have hpos : (d : ℤ) + 1 ≠ 0 := by omega
      have hstep := step_other (d := d) (fun h => ho (kind_opening.mp h))
        (fun h => hc (kind_closing.mp h))
      rw [parLoop]
      simp only [if_neg ho, if_neg hc, if_neg hpos]
      simp only [hstep, hc, false_and, and_false, false_or, Option.some.injEq, exists_eq_left']
      exact ih d

theorem checkParentheses_iff (ts : List Token) :
    checkParentheses ts = true ↔ ∃ o inner c, ts = o :: inner ++ [c] ∧ o.type = lparen ∧
      c.type = rparen ∧ Balanced exprGrammar inner := by
  cases ts with
  | nil => simp [checkParentheses]
  | cons o ts =>
    have hloop : o.type = lparen → (parLoop 0 (o :: ts) = true ↔ Closes 0 ts) := by
      intro ho
      rw [← parLoop_iff, parLoop, if_pos ho]
      rfl
    constructor
    · intro h
      rw [checkParentheses] at h
      split_ifs at h with hguard
      simp only [List.head?_cons, Option.any_some, Bool.and_eq_true, decide_eq_true_eq] at hguard
      obtain ⟨inner, c, rfl, hc, hinner⟩ := (hloop hguard.1).mp h
      exact ⟨o, inner, c, rfl, hguard.1, hc, hinner⟩
    · rintro ⟨o', inner, c, heq, ho, hc, hinner⟩
      obtain ⟨rfl, hts⟩ := List.cons.inj heq
      rw [List.append_eq] at hts
      subst hts
      have hlast : (o :: (inner ++ [c])).getLast? = some c := by
        rw [← List.cons_append, List.getLast?_append]
        rfl
      rw [checkParentheses, hlast, if_pos (by simp [ho, hc])]
      exact (hloop ho).mpr ⟨inner, c, rfl, hc, hinner⟩

/-- The candidate after a prefix of the string. -/
structure Best (pre : List Token) (retOp : Option ℕ) (opType : ℕ) : Prop where
  unset : retOp = none → opType = 100 ∧ ∀ op m, ¬ Top exprGrammar pre op m
  set : ∀ i, retOp = some i → ∃ l op r, pre = l ++ op :: r ∧ l.length = i ∧
    exprGrammar.level op = some opType ∧ Balanced exprGrammar l ∧
    (∀ op' m, Top exprGrammar l op' m → opType ≤ m ∧ exprGrammar.kind op ≠ .unary) ∧
    ∀ op' m, Top exprGrammar r op' m →
      opType < m ∨ opType = m ∧ exprGrammar.kind op = .unary

section Best

variable {pre : List Token} {retOp : Option ℕ} {opType now : ℕ} {t op : Token} {m : ℕ}

theorem best_nil : Best [] none 100 :=
  ⟨fun _ => ⟨rfl, fun _ _ => not_top_nil⟩, fun _ h => by cases h⟩

theorem Best.le (h : Best pre retOp opType) (htop : Top exprGrammar pre op m) : opType ≤ m := by
  cases hret : retOp with
  | none => exact absurd htop ((h.unset hret).2 op m)
  | some i =>
    obtain ⟨l, op', r, rfl, -, hlevel, hl, hbefore, hafter⟩ := h.set i hret
    rcases top_split hl hlevel htop with htop | ⟨-, rfl⟩ | htop
    · exact (hbefore op m htop).1
    · exact le_rfl
    · rcases hafter op m htop with hlt | ⟨heq, -⟩
      · exact hlt.le
      · exact heq.le

/-- A token that is no operator, or not outside parentheses, changes nothing. -/
theorem Best.skip (h : Best pre retOp opType)
    (ht : ∀ m, ¬ (Balanced exprGrammar pre ∧ exprGrammar.level t = some m)) :
    Best (pre ++ [t]) retOp opType := by
  refine ⟨fun hret => ⟨(h.unset hret).1, fun op m htop => ?_⟩, fun i hret => ?_⟩
  · rcases top_snoc.mp htop with htop | ⟨-, htop⟩
    · exact (h.unset hret).2 op m htop
    · exact ht m htop
  · obtain ⟨l, op, r, rfl, hi, hlevel, hl, hbefore, hafter⟩ := h.set i hret
    refine ⟨l, op, r ++ [t], by rw [List.append_assoc, List.cons_append], hi, hlevel, hl, hbefore,
      fun op' m htop => ?_⟩
    rcases top_snoc.mp htop with htop | ⟨-, hr, hm⟩
    · exact hafter op' m htop
    · exact absurd ⟨(hl.op_iff hlevel).mpr hr, hm⟩ (ht m)

/-- A later operator that binds tighter, or an equal prefix, leaves the candidate. -/
theorem Best.keep (h : Best pre retOp opType) (hlevel : exprGrammar.level t = some now)
    (hnow : now ≤ 7) (hkeep : ¬ (now < opType ∨ (now = opType ∧ exprGrammar.kind t ≠ .unary))) :
    Best (pre ++ [t]) retOp opType := by
  push Not at hkeep
  refine ⟨fun hret => ?_, fun i hret => ?_⟩
  · have h100 := (h.unset hret).1
    omega
  · obtain ⟨l, op, r, rfl, hi, hop, hl, hbefore, hafter⟩ := h.set i hret
    refine ⟨l, op, r ++ [t], by rw [List.append_assoc, List.cons_append], hi, hop, hl, hbefore,
      fun op' m htop => ?_⟩
    rcases top_snoc.mp htop with htop | ⟨-, -, hm⟩
    · exact hafter op' m htop
    · obtain rfl := Option.some.inj (hlevel.symm.trans hm)
      rcases hkeep.1.lt_or_eq with hlt | heq
      · exact .inl hlt
      · have ht := hkeep.2 heq.symm
        have hnowtop := Option.some.inj (hlevel.symm.trans (level_unary ht))
        exact .inr ⟨heq, level_eq_top (by rw [hop, heq, hnowtop])⟩

/-- An operator that binds less tight, or an equal binary one, is the new candidate. -/
theorem Best.take (h : Best pre retOp opType) (hpre : Balanced exprGrammar pre)
    (hlevel : exprGrammar.level t = some now)
    (htake : now < opType ∨ (now = opType ∧ exprGrammar.kind t ≠ .unary)) :
    Best (pre ++ [t]) (some pre.length) now := by
  refine ⟨fun hret => (nomatch hret), fun i hret => ?_⟩
  obtain rfl := Option.some.inj hret
  refine ⟨pre, t, [], rfl, rfl, hlevel, hpre, fun op' m htop => ?_, fun op' m htop =>
    absurd htop not_top_nil⟩
  have hle := h.le htop
  refine ⟨by omega, fun hu => ?_⟩
  rcases htake with hlt | ⟨-, hne⟩
  · obtain ⟨-, -, -, -, hm⟩ := id htop
    have hmax := level_le hm
    rw [level_unary hu] at hlevel
    have := Option.some.inj hlevel
    omega
  · exact hne hu

/-- How the loop ends: at the operator to split at, or with a string that has none. -/
def Found (ts : List Token) (retOp : Option ℕ) : Prop :=
  match retOp with
  | some i => Balanced exprGrammar ts ∧ ∃ n, Best ts (some i) n
  | none => ¬ Balanced exprGrammar ts ∨ ∀ op m, ¬ Top exprGrammar ts op m

theorem findOpFrom_spec {ts : List Token} {par : ℕ} (hvar : ¬ BareVar (pre ++ ts))
    (hscan : scan exprGrammar 0 pre = some par) (h : Best pre retOp opType) :
    ∃ res, findOpFrom pre.length retOp par opType ts = .ok res ∧ Found (pre ++ ts) res := by
  induction ts generalizing pre retOp par opType with
  | nil =>
    refine ⟨_, rfl, ?_⟩
    rw [List.append_nil]
    by_cases hpar : par = 0
    · rw [if_neg (not_not.mpr hpar)]
      cases hret : retOp with
      | none => exact .inr (h.unset hret).2
      | some i => exact ⟨hscan.trans (by rw [hpar]), opType, hret ▸ h⟩
    · rw [if_pos hpar]
      exact .inl fun hb => hpar (Option.some.inj (hscan.symm.trans hb))
  | cons t ts ih =>
    have hvar' : ¬ BareVar (pre ++ [t] ++ ts) := by
      rwa [List.append_assoc, List.singleton_append]
    -- the rest of the string, once `t` has been looked at
    have hnext : ∀ {par' retOp' opType'}, step exprGrammar par t = some par' →
        Best (pre ++ [t]) retOp' opType' →
        ∃ res, findOpFrom (pre.length + 1) retOp' par' opType' ts = .ok res ∧
          Found (pre ++ t :: ts) res := by
      intro par' retOp' opType' hstep hbest
      have hscan' : scan exprGrammar 0 (pre ++ [t]) = some par' := by
        rw [scan_append, hscan]
        change scan exprGrammar par [t] = some par'
        rw [scan_cons, hstep]
        rfl
      have hrest := ih hvar' hscan' hbest
      rwa [List.length_append, List.append_assoc] at hrest
    rw [findOpFrom]
    by_cases ho : t.type = lparen
    · have hk := kind_opening.mpr ho
      rw [if_pos ho]
      refine hnext (step_opening hk) (h.skip fun m hm => ?_)
      have hlevel := hm.2
      rw [Grammar.level, hk] at hlevel
      cases hlevel
    rw [if_neg ho]
    by_cases hc : t.type = rparen
    · have hk := kind_closing.mpr hc
      rw [if_pos hc]
      cases par with
      | zero =>
        refine ⟨none, rfl, .inl fun hb => ?_⟩
        rw [OpPrecedence.Balanced, scan_append, hscan] at hb
        change scan exprGrammar 0 (t :: ts) = some 0 at hb
        rw [scan_cons, step_closing_zero hk] at hb
        cases hb
      | succ par =>
        rw [if_neg (Nat.succ_ne_zero par), Nat.add_sub_cancel]
        refine hnext (step_closing hk) (h.skip fun m hm => ?_)
        have hlevel := hm.2
        rw [Grammar.level, hk] at hlevel
        cases hlevel
    rw [if_neg hc]
    have hstep : step exprGrammar par t = some par :=
      step_other (fun hk => ho (kind_opening.mp hk)) fun hk => hc (kind_closing.mp hk)
    by_cases hnop : oftypes t.type nopTypes = true
    · rw [if_pos hnop]
      refine hnext hstep (h.skip fun m hm => ?_)
      have hlevel := hm.2
      rw [level_of_nop hnop] at hlevel
      cases hlevel
    rw [if_neg hnop]
    by_cases hpar : 0 < par
    · rw [if_pos hpar]
      refine hnext hstep (h.skip fun m hm => ?_)
      have hzero := Option.some.inj (hscan.symm.trans hm.1)
      omega
    obtain rfl : par = 0 := by omega
    obtain ⟨now, hlevel, hle⟩ := level_of_not_nop (Bool.eq_false_iff.mpr hnop)
      fun ht => hvar ⟨pre, t, ts, rfl, hscan, ht⟩
    have huop : (!oftypes t.type uopTypes) = true ↔ exprGrammar.kind t ≠ .unary := by
      rw [Ne, kind_unary, Bool.not_eq_true', Bool.not_eq_true]
    rw [if_neg hpar, nowType_eq, hlevel]
    simp only [huop]
    split_ifs with htake
    · exact hnext hstep (h.take hscan hlevel htake)
    · exact hnext hstep (h.keep hlevel hle htake)

/-- At a bare variable the loop asserts. -/
theorem findOpFrom_bare {l r : List Token} {i par : ℕ} (ht : exprGrammar.kind t = .other)
    (hl : scan exprGrammar par l = some 0) :
    findOpFrom i retOp par opType (l ++ t :: r) = .error .assertion := by
  induction l generalizing i retOp par opType with
  | nil =>
    obtain rfl : par = 0 := Option.some.inj hl
    have ho : t.type ≠ lparen := fun h => by rw [kind_opening.mpr h] at ht; cases ht
    have hc : t.type ≠ rparen := fun h => by rw [kind_closing.mpr h] at ht; cases ht
    have hnop : ¬ oftypes t.type nopTypes = true := by
      change exprKind t.type = .other at ht
      revert ht
      cases t.type <;> decide
    have hlevel : nowType t.type = none := by
      rw [nowType_eq, Grammar.level, ht]
    rw [List.nil_append, findOpFrom, if_neg ho, if_neg hc, if_neg hnop, if_neg (lt_irrefl 0), hlevel]
  | cons x l ih =>
    rw [scan_cons] at hl
    obtain ⟨par', hstep, hrest⟩ := Option.bind_eq_some_iff.mp hl
    rw [List.cons_append, findOpFrom]
    by_cases ho : x.type = lparen
    · rw [if_pos ho]
      rw [step_opening (kind_opening.mpr ho)] at hstep
      cases hstep
      exact ih hrest
    rw [if_neg ho]
    by_cases hc : x.type = rparen
    · rw [if_pos hc]
      cases par with
      | zero =>
        rw [step_closing_zero (kind_closing.mpr hc)] at hstep
        cases hstep
      | succ par =>
        rw [step_closing (kind_closing.mpr hc)] at hstep
        cases hstep
        rw [if_neg (Nat.succ_ne_zero _), Nat.add_sub_cancel]
        exact ih hrest
    rw [if_neg hc]
    rw [step_other (fun hk => ho (kind_opening.mp hk)) fun hk => hc (kind_closing.mp hk)] at hstep
    cases hstep
    split_ifs
    · exact ih hrest
    · exact ih hrest
    · cases nowType x.type with
      | none => rfl
      | some now =>
        dsimp only
        split_ifs <;> exact ih hrest

end Best

theorem findOp_bare {ts : List Token} (h : BareVar ts) : findOp ts = .error .assertion := by
  obtain ⟨l, t, r, rfl, hl, ht⟩ := h
  exact findOpFrom_bare ht hl

/-- `find_op` splits a string at its lowest operator, or there is nothing to split at. -/
theorem findOp_spec {ts : List Token} (hvar : ¬ BareVar ts) :
    (∃ l op r n, ts = l ++ op :: r ∧ findOp ts = .ok (some l.length) ∧
      Lowest exprGrammar l op r n) ∨
    (findOp ts = .ok none ∧
      (¬ Balanced exprGrammar ts ∨ ∀ op m, ¬ Top exprGrammar ts op m)) := by
  obtain ⟨res, hres, hfound⟩ := findOpFrom_spec (by rwa [List.nil_append]) rfl best_nil
  rw [List.nil_append] at hfound
  cases res with
  | none => exact .inr ⟨hres, hfound⟩
  | some i =>
    obtain ⟨hb, n, hbest⟩ := hfound
    obtain ⟨l, op, r, rfl, rfl, hlevel, hl, hbefore, hafter⟩ := hbest.set i rfl
    exact .inl ⟨l, op, r, n, rfl, hres, hlevel, hl, (hl.op_iff hlevel).mp hb, hbefore, hafter⟩

end Ysyx.Nemu
