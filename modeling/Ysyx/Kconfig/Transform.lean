import Ysyx.Kconfig.Value

/-! `expr_transform` ends on every expression, in a normal form that has the same value. -/

namespace Ysyx.Kconfig

variable {σ : Type} [DecidableEq σ] (S : Symbols σ)

def negated : Expr σ → Expr σ
  | .symbol s => transformNotSymbol S s
  | .not e => e
  | .bin type l r => .bin type.dual (negated l) (negated r)
  | .comp c l r => .comp c.negate l r

def transformed : Expr σ → Expr σ
  | .symbol s => .symbol s
  | .not e => negated S (transformed e)
  | .bin type l r => .bin type (transformed l) (transformed r)
  | .comp c l r => transformComp S c l r

/-- Only symbols are negated, none of them `y`, `m` or `n`, and no boolean symbol is compared with
one of these. -/
def Normal : Expr σ → Prop
  | .symbol _ => True
  | .not (.symbol s) => ∀ t, s ≠ S.of t
  | .not _ => False
  | .bin _ l r => Normal l ∧ Normal r
  | .comp c l r => S.type l = .boolean → c = .equal ∨ c = .unequal → ∀ t, r ≠ S.of t

variable {S}

omit [DecidableEq σ] in
theorem Normal.not_inv {e : Expr σ} (h : Normal S (.not e)) :
    ∃ s, e = .symbol s ∧ ∀ t, s ≠ S.of t := by
  cases e with
  | symbol s => exact ⟨s, rfl, h⟩
  | _ => exact absurd h id

omit [DecidableEq σ] in
theorem ne_of_boolean {s : σ} (hs : S.type s = .boolean) (t : Tristate) : s ≠ S.of t := by
  rintro rfl
  rw [S.const_type _ (S.const_of t)] at hs
  cases hs

theorem transformComp_normal {c : CmpOp} {l r : σ} (h : Normal S (.comp c l r)) :
    transformComp S c l r = .comp c l r := by
  by_cases hl : S.type l = .boolean
  · have hr (hc : c = .equal ∨ c = .unequal) : r ≠ S.no ∧ r ≠ S.mod ∧ r ≠ S.yes :=
      ⟨h hl hc .no, h hl hc .mod, h hl hc .yes⟩
    cases c <;> simp_all [transformComp]
  · cases c <;> simp [transformComp, hl]

theorem normal_transformComp (c : CmpOp) (l r : σ) : Normal S (transformComp S c l r) := by
  by_cases hl : S.type l = .boolean
  · have hnot : Normal S (.not (.symbol l)) := ne_of_boolean hl
    have hof (h1 : r ≠ S.no) (h2 : r ≠ S.mod) (h3 : r ≠ S.yes) : Normal S (.comp c l r) := by
      intro _ _ t
      cases t <;> assumption
    cases c with
    | equal | unequal =>
      simp only [transformComp, hl, ne_eq, not_true_eq_false, if_false]
      split_ifs with h1 h2 h3
      all_goals first | exact hnot | exact hof h1 h2 h3 | trivial
    | _ => exact fun _ hc => by simp at hc
  · cases c <;> simp [transformComp, hl, Normal]

theorem normal_negated {e : Expr σ} (h : Normal S e) : Normal S (negated S e) := by
  induction e with
  | symbol s =>
    rw [negated, transformNotSymbol]
    split_ifs with h1 h2 h3
    · trivial
    · trivial
    · trivial
    · intro t
      cases t <;> assumption
  | not e =>
    obtain ⟨s, rfl, _⟩ := h.not_inv
    trivial
  | bin type l r ihl ihr => exact ⟨ihl h.1, ihr h.2⟩
  | comp c l r =>
    refine fun hl hc => h hl ?_
    cases c <;> simp [CmpOp.negate] at hc ⊢

theorem normal_transformed (e : Expr σ) : Normal S (transformed S e) := by
  induction e with
  | symbol s => trivial
  | not e ih => exact normal_negated ih
  | bin type l r ihl ihr => exact ⟨ihl, ihr⟩
  | comp c l r => exact normal_transformComp c l r

theorem exprTransform_bin {type : BinOp} {l r l' r' : Expr σ}
    (hl : Settles (exprTransform S · l) l') (hr : Settles (exprTransform S · r) r') :
    Settles (exprTransform S · (.bin type l r)) (.bin type l' r') :=
  (hl.bind (hr.map _)).succ fun _ => rfl

theorem exprTransform_not {e a b : Expr σ} (h : Settles (exprTransform S · e) a)
    (ha : Settles (fun n => transformNot S (exprTransform S n) a) b) :
    Settles (exprTransform S · (.not e)) b :=
  (h.bind ha).succ fun _ => rfl

theorem exprTransform_normal {e : Expr σ} (h : Normal S e) : Settles (exprTransform S · e) e := by
  induction e with
  | symbol s => exact (Settles.of_some _).succ fun _ => rfl
  | not e ih =>
    obtain ⟨s, rfl, hs⟩ := h.not_inv
    refine exprTransform_not (ih trivial) ((Settles.of_some _).congr fun n => ?_)
    have h1 : s ≠ S.yes := hs .yes
    have h2 : s ≠ S.mod := hs .mod
    have h3 : s ≠ S.no := hs .no
    simp [transformNot, transformNotSymbol, h1, h2, h3]
  | bin type l r ihl ihr => exact exprTransform_bin (ihl h.1) (ihr h.2)
  | comp c l r =>
    refine (Settles.of_some _).succ fun n => ?_
    rw [exprTransform, transformComp_normal h]

/-- The rules for `!` end: one goes over a connective and is met again on both sides. -/
theorem transformNot_normal {e : Expr σ} (h : Normal S e) :
    Settles (fun n => transformNot S (exprTransform S n) e) (negated S e) := by
  induction e with
  | symbol s => exact .of_some _
  | not e =>
    obtain ⟨s, rfl, _⟩ := h.not_inv
    exact exprTransform_normal (e := .symbol s) trivial
  | bin type l r ihl ihr =>
    have hl := exprTransform_not (exprTransform_normal h.1) (ihl h.1)
    have hr := exprTransform_not (exprTransform_normal h.2) (ihr h.2)
    cases type with
    | or => exact exprTransform_bin hl hr
    | and => exact exprTransform_bin hl hr
  | comp c l r => exact .of_some _

theorem exprTransform_settles (e : Expr σ) : Settles (exprTransform S · e) (transformed S e) := by
  induction e with
  | symbol s => exact (Settles.of_some _).succ fun _ => rfl
  | not e ih => exact exprTransform_not ih (transformNot_normal (normal_transformed e))
  | bin type l r ihl ihr => exact exprTransform_bin ihl ihr
  | comp c l r => exact (Settles.of_some _).succ fun _ => rfl

variable (V : Values S)

theorem calc_negated (e : Expr σ) :
    exprCalcValue V (negated S e) = (exprCalcValue V e).not := by
  induction e with
  | symbol s =>
    rw [negated, transformNotSymbol]
    split_ifs with h1 h2 h3
    · simp [exprCalcValue, h1, Tristate.not]
    · simp [exprCalcValue, h2, Tristate.not]
    · simp [exprCalcValue, h3, Tristate.not]
    · rfl
  | not e => simp [negated, exprCalcValue]
  | bin type l r ihl ihr => rw [negated, exprCalcValue, ihl, ihr, exprCalcValue, Tristate.not_eval]
  | comp c l r => rw [negated, exprCalcValue, CmpOp.negate_holds, ofBool_not, exprCalcValue]

theorem calc_transformComp (c : CmpOp) (l r : σ) :
    exprCalcValue V (transformComp S c l r) = exprCalcValue V (.comp c l r) := by
  by_cases hl : S.type l = .boolean
  · have hof := symCompare_of V (.inl hl)
    have hmod := V.boolean l hl
    have hno : symCompare V l S.no = .eq ↔ V.tri l = .no := hof .no
    have hm : symCompare V l S.mod = .eq ↔ V.tri l = .mod := hof .mod
    have hyes : symCompare V l S.yes = .eq ↔ V.tri l = .yes := hof .yes
    cases c with
    | equal | unequal =>
      simp only [transformComp, hl, ne_eq, not_true_eq_false, if_false]
      split_ifs with h1 h2 h3
      · subst h1
        cases ht : V.tri l <;>
          simp_all [exprCalcValue, CmpOp.holds, ofBool, Tristate.not]
      · subst h2
        cases ht : V.tri l <;> simp_all [exprCalcValue, CmpOp.holds, ofBool]
      · subst h3
        cases ht : V.tri l <;> simp_all [exprCalcValue, CmpOp.holds, ofBool, Tristate.not]
      · rfl
    | _ => rfl
  · cases c <;> simp [transformComp, hl]

theorem calc_transformed (e : Expr σ) :
    exprCalcValue V (transformed S e) = exprCalcValue V e := by
  induction e with
  | symbol s => rfl
  | not e ih => rw [transformed, calc_negated, ih, exprCalcValue]
  | bin type l r ihl ihr => rw [transformed, exprCalcValue, ihl, ihr, exprCalcValue]
  | comp c l r => exact calc_transformComp V c l r

variable (S) in
/-- `expr_transform` ends, in a normal form of the same value, which it leaves as it is. -/
theorem exprTransform_returns (e : Expr σ) :
    ∃ r, Settles (exprTransform S · e) r ∧ Normal S r ∧
      (∀ V : Values S, exprCalcValue V r = exprCalcValue V e) ∧ Settles (exprTransform S · r) r :=
  ⟨transformed S e, exprTransform_settles e, normal_transformed e, fun V => calc_transformed V e,
    exprTransform_normal (normal_transformed e)⟩

end Ysyx.Kconfig
