import Ysyx.Kconfig.Equal

/-! The rules of `expr_join_or` and `expr_join_and`: one operand with the value of the two. -/

namespace Ysyx.Kconfig

variable {σ : Type} (S : Symbols σ)

/-- No tristate symbol is compared with a constant that is a number: `1` and `01` are two constants
and compare as one. -/
def Plain : Expr σ → Prop
  | .symbol _ => True
  | .not e => Plain e
  | .bin _ l r => Plain l ∧ Plain r
  | .comp _ l r => S.type l = .tristate → S.const r = true → Worded S r

variable {S}

theorem plain_of (c : CmpOp) (s : σ) (t : Tristate) : Plain S (.comp c s (S.of t)) :=
  fun _ _ => worded_of S t

section Operands

variable {s a : σ} {c : CmpOp} {e : Expr σ}

theorem joinSym1_of_joinSym2 (h : joinSym2 e = some s) : joinSym1 e = some s := by
  unfold joinSym2 at h
  split at h <;> simp_all [joinSym1]

theorem comp_of_rhs (h : joinSym1 e = some s) (hr : rhs c e = some a) : e = .comp c s a := by
  cases e with
  | comp c' l r =>
    simp only [rhs] at hr
    split_ifs at hr with hc
    cases hr
    subst hc
    cases c' <;> simp_all [joinSym1]
  | _ => cases hr

theorem symbol_of_isSymbol (h : joinSym1 e = some s) (hs : isSymbol e = true) : e = .symbol s := by
  cases e with
  | symbol l =>
    cases h
    rfl
  | _ => cases hs

theorem not_of_isNotSymbol (h : joinSym1 e = some s) (hs : isNotSymbol e = true) :
    e = .not (.symbol s) := by
  cases e with
  | not e =>
    cases e with
    | symbol l =>
      cases h
      rfl
    | _ => cases hs
  | _ => cases hs

end Operands

section Values

variable (V : Values S) {s : σ} (hs : S.type s = .boolean ∨ S.type s = .tristate)

include hs

theorem calc_equal_of (t : Tristate) :
    exprCalcValue V (.comp .equal s (S.of t)) = ofBool (decide (V.tri s = t)) := by
  rw [exprCalcValue, CmpOp.holds]
  exact congrArg ofBool (decide_eq_decide.mpr (symCompare_of V hs t))

theorem calc_unequal_of (t : Tristate) :
    exprCalcValue V (.comp .unequal s (S.of t)) = ofBool (decide (V.tri s ≠ t)) := by
  rw [exprCalcValue, CmpOp.holds]
  exact congrArg ofBool (decide_eq_decide.mpr (not_congr (symCompare_of V hs t)))

end Values

structure Joined (S : Symbols σ) (type : BinOp) (x y tmp : Expr σ) : Prop where
  single : tmp = x ∨ tmp.size = 1
  plain : Plain S x → Plain S y → Plain S tmp
  value : Plain S x → Plain S y → ∀ V : Values S,
    exprCalcValue V tmp = type.eval (exprCalcValue V x) (exprCalcValue V y)

section Rules

variable {s : σ} {x y tmp : Expr σ} {type : BinOp}

theorem Joined.of_atom {tmp : Expr σ} (h1 : tmp.size = 1) (hp : Plain S tmp)
    (hv : ∀ V : Values S,
      exprCalcValue V tmp = type.eval (exprCalcValue V x) (exprCalcValue V y)) :
    Joined S type x y tmp :=
  ⟨.inr h1, fun _ _ => hp, fun _ _ => hv⟩

theorem Joined.symm_of_ne {x y tmp : Expr σ} (h : Joined S type y x tmp) (h1 : tmp.size = 1) :
    Joined S type x y tmp :=
  ⟨.inr h1, fun hx hy => h.plain hy hx, fun hx hy V => by rw [h.value hy hx, BinOp.eval_comm]⟩

theorem joined_compPair {c d : CmpOp} {t u v : Tristate} (hx : joinSym1 x = some s)
    (hy : joinSym1 y = some s) (h : compPair c (S.of t) (S.of u) x y)
    (hv : ∀ V : Values S, type.eval (exprCalcValue V (.comp c s (S.of t)))
      (exprCalcValue V (.comp c s (S.of u))) = exprCalcValue V (.comp d s (S.of v))) :
    Joined S type x y (.comp d s (S.of v)) := by
  refine .of_atom rfl (plain_of _ _ _) fun V => ?_
  obtain ⟨h1, h2⟩ | ⟨h1, h2⟩ := h
  · rw [comp_of_rhs hx h1, comp_of_rhs hy h2, hv]
  · rw [comp_of_rhs hx h1, comp_of_rhs hy h2, BinOp.eval_comm, hv]

theorem joined_symbolAnd {c : CmpOp} {t : Tristate} {tmp : Expr σ} (h1 : tmp.size = 1)
    (hp : Plain S tmp) (hx : joinSym1 x = some s) (hy : joinSym1 y = some s)
    (h : symbolAnd c (S.of t) x y)
    (hv : ∀ V : Values S, type.eval (V.tri s) (exprCalcValue V (.comp c s (S.of t))) =
      exprCalcValue V tmp) : Joined S type x y tmp := by
  refine .of_atom h1 hp fun V => ?_
  obtain ⟨h1, h2⟩ | ⟨h1, h2⟩ := h
  · rw [symbol_of_isSymbol hx h1, comp_of_rhs hy h2, ← hv, exprCalcValue]
  · rw [symbol_of_isSymbol hy h1, comp_of_rhs hx h2, BinOp.eval_comm, ← hv, exprCalcValue]

variable [DecidableEq σ]

theorem joinOrOf_joined (hx : joinSym1 x = some s) (hy : joinSym1 y = some s)
    (h : joinOrOf S s x y = some tmp) : Joined S .or x y tmp := by
  unfold joinOrOf at h
  split_ifs at h with h0 h1 h2 h3 h4
  all_goals
    have hs : S.type s = .boolean ∨ S.type s = .tristate := by
      by_contra hne
      exact h0 (not_or.mp hne)
    cases h
  · refine joined_compPair (t := .yes) (u := .mod) (v := .no) hx hy h1.2 fun V => ?_
    rw [calc_equal_of V hs, calc_equal_of V hs, calc_unequal_of V hs]
    cases V.tri s <;> rfl
  · refine joined_compPair (t := .yes) (u := .no) (v := .mod) hx hy h2.2 fun V => ?_
    rw [calc_equal_of V hs, calc_equal_of V hs, calc_unequal_of V hs]
    cases V.tri s <;> rfl
  · refine joined_compPair (t := .mod) (u := .no) (v := .yes) hx hy h3.2 fun V => ?_
    rw [calc_equal_of V hs, calc_equal_of V hs, calc_unequal_of V hs]
    cases V.tri s <;> rfl
  · -- A boolean symbol is never `m`.
    have hbool (V : Values S) : BinOp.or.eval (V.tri s).not (V.tri s) = .yes := by
      have hm := V.boolean s h4.1
      cases ht : V.tri s with
      | mod => exact absurd ht hm
      | _ => rfl
    refine .of_atom rfl trivial fun V => ?_
    obtain ⟨hn, hsym⟩ | ⟨hn, hsym⟩ := h4.2
    · rw [not_of_isNotSymbol hx hn, symbol_of_isSymbol hy hsym, exprCalcValue, calc_yes]
      exact (hbool V).symm
    · rw [not_of_isNotSymbol hy hn, symbol_of_isSymbol hx hsym, BinOp.eval_comm, exprCalcValue,
        calc_yes]
      exact (hbool V).symm

theorem joinConsts_joined (ht : S.type s = .tristate) (hx : joinSym1 x = some s)
    (hy : joinSym1 y = some s) (h : joinConsts S s x y = some tmp) : Joined S .and x y tmp := by
  unfold joinConsts at h
  split at h
  · rename_i b c hb hc
    obtain rfl := comp_of_rhs hx hb
    obtain rfl := comp_of_rhs hy hc
    split_ifs at h with hconst hbc
    all_goals
      cases h
    · refine ⟨.inr rfl, fun hpx _ => hpx, fun hpx hpy V => ?_⟩
      have hb := symCompare_const V (.inr ht) hconst.2 (hpx ht hconst.2)
      have hc := symCompare_const V (.inr ht) hconst.1 (hpy ht hconst.1)
      by_cases hv : symCompare V s b = .eq
      · have hne : symCompare V s c ≠ .eq := fun he => hbc ((hb.mp hv).symm.trans (hc.mp he))
        simp [exprCalcValue, CmpOp.holds, ofBool, hv, hne, BinOp.eval]
      · have hno : exprCalcValue V (.comp .equal s b) = .no := by
          simp [exprCalcValue, CmpOp.holds, ofBool, hv]
        rw [hno]
        cases exprCalcValue V (.comp .unequal s c) <;> rfl
    · obtain rfl := not_not.mp hbc
      refine .of_atom rfl trivial fun V => ?_
      by_cases hv : symCompare V s b = .eq
      · simp only [exprCalcValue, CmpOp.holds, ofBool, hv, BinOp.eval, calc_no]
        rfl
      · simp only [exprCalcValue, CmpOp.holds, ofBool, hv, BinOp.eval, calc_no]
        rfl
  · cases h

theorem joinConsts_size (h : joinConsts S s x y = some tmp) : tmp.size = 1 := by
  unfold joinConsts at h
  split at h
  · split_ifs at h
    · cases h
      rfl
    · cases h
      rfl
  · cases h

theorem joinUnequals_joined (hs : S.type s = .boolean ∨ S.type s = .tristate)
    (hx : joinSym1 x = some s) (hy : joinSym1 y = some s) (h : joinUnequals S s x y = some tmp) :
    Joined S .and x y tmp := by
  unfold joinUnequals at h
  split_ifs at h with h1 h2 h3
  all_goals cases h
  · refine joined_compPair (t := .yes) (u := .no) (v := .mod) hx hy h1 fun V => ?_
    rw [calc_unequal_of V hs, calc_unequal_of V hs, calc_equal_of V hs]
    cases V.tri s <;> rfl
  · refine joined_compPair (t := .yes) (u := .mod) (v := .no) hx hy h2 fun V => ?_
    rw [calc_unequal_of V hs, calc_unequal_of V hs, calc_equal_of V hs]
    cases V.tri s <;> rfl
  · refine joined_compPair (t := .mod) (u := .no) (v := .yes) hx hy h3 fun V => ?_
    rw [calc_unequal_of V hs, calc_unequal_of V hs, calc_equal_of V hs]
    cases V.tri s <;> rfl

theorem joinAndOf_joined (hx : joinSym1 x = some s) (hy : joinSym1 y = some s)
    (h : joinAndOf S s x y = some tmp) : Joined S .and x y tmp := by
  unfold joinAndOf at h
  split_ifs at h with h0 h1 h2 h3 h4
  all_goals
    have hs : S.type s = .boolean ∨ S.type s = .tristate := by
      by_contra hne
      exact h0 (not_or.mp hne)
  · cases h
    refine joined_symbolAnd (t := .yes) rfl (plain_of _ _ .yes) hx hy h1 fun V => ?_
    have hv := calc_equal_of V hs .yes
    rw [show S.yes = S.of .yes from rfl, hv]
    cases V.tri s <;> rfl
  · cases h
    refine joined_symbolAnd (t := .no) rfl trivial hx hy h2 fun V => ?_
    rw [calc_unequal_of V hs .no, exprCalcValue]
    cases V.tri s <;> rfl
  · cases h
    refine joined_symbolAnd (t := .mod) rfl (plain_of _ _ .yes) hx hy h3 fun V => ?_
    have hv := calc_equal_of V hs .yes
    rw [calc_unequal_of V hs .mod, show S.yes = S.of .yes from rfl, hv]
    cases V.tri s <;> rfl
  · rw [Option.or_eq_some_iff, Option.or_eq_some_iff] at h
    obtain (h | ⟨-, h⟩) | ⟨-, h⟩ := h
    · exact joinConsts_joined h4 hx hy h
    · exact (joinConsts_joined h4 hy hx h).symm_of_ne (joinConsts_size h)
    · exact joinUnequals_joined hs hx hy h

theorem joinAbout_joined {rules : σ → Expr σ → Expr σ → Option (Expr σ)}
    (hrules : ∀ s tmp, joinSym1 x = some s → joinSym1 y = some s → rules s x y = some tmp →
      Joined S type x y tmp) (h : joinAbout rules x y = some tmp) : Joined S type x y tmp := by
  unfold joinAbout at h
  split at h
  · rename_i s1 s2 h1 h2
    split_ifs at h with hne
    obtain rfl := not_not.mp hne
    exact hrules s1 tmp h1 (joinSym1_of_joinSym2 h2) h
  · cases h

theorem exprJoin_joined {rules : σ → Expr σ → Expr σ → Option (Expr σ)} {n : ℕ}
    (hrules : ∀ s tmp, joinSym1 x = some s → joinSym1 y = some s → rules s x y = some tmp →
      Joined S type x y tmp) (h : exprJoin S rules n x y = some (some tmp)) :
    Joined S type x y tmp := by
  simp only [exprJoin, Option.bind_eq_bind, Option.bind_eq_some_iff] at h
  obtain ⟨b, hb, h⟩ := h
  cases b with
  | true =>
    cases h
    refine ⟨.inl rfl, fun hx _ => hx, fun _ _ V => ?_⟩
    rw [← (soundFor n).equal _ _ hb V, BinOp.eval_self]
  | false => exact joinAbout_joined hrules (Option.some.inj h)

theorem exprJoin_settles (rules : σ → Expr σ → Expr σ → Option (Expr σ)) (x y : Expr σ) :
    ∃ r, Settles (exprJoin S rules · x y) r := by
  obtain ⟨b, hb⟩ := exprEq_settles (S := S) x y
  exact ⟨_, hb.map fun b => if b then some x else joinAbout rules x y⟩

end Rules

end Ysyx.Kconfig
