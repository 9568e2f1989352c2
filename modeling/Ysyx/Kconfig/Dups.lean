import Ysyx.Kconfig.Join

/-! `expr_eliminate_dups` ends and keeps the value: every join shortens the tree by the next
`expr_eliminate_yn`, wherever in the tree it happens. -/

namespace Ysyx.Kconfig

variable {σ : Type} {S : Symbols σ}

/-- The operand at place `p` of an expression of this type, seen as one level. -/
inductive OpPlace (type : BinOp) : Expr σ → Place → Expr σ → Prop
  | here (e : Expr σ) : OpPlace type e [] e
  | left {l r x : Expr σ} {p : Place} (h : OpPlace type l p x) :
      OpPlace type (.bin type l r) (false :: p) x
  | right {l r x : Expr σ} {p : Place} (h : OpPlace type r p x) :
      OpPlace type (.bin type l r) (true :: p) x

namespace OpPlace

variable {type : BinOp} {e x y z l r : Expr σ} {p q : Place}

theorem at_eq (h : OpPlace type e p x) : e.at p = some x := by
  induction h with
  | here e => exact e.at_nil
  | left _ ih => exact ih
  | right _ ih => exact ih

theorem set_self (h : OpPlace type e p x) : e.set p x = e := by
  induction h with
  | here e => simp
  | left _ ih => simp [ih]
  | right _ ih => simp [ih]

theorem set_set (h : OpPlace type e p x) (y z : Expr σ) : (e.set p y).set p z = e.set p z := by
  induction h with
  | here e => simp
  | left _ ih => simp [ih]
  | right _ ih => simp [ih]

theorem at_set (h : OpPlace type e p x) (y : Expr σ) : OpPlace type (e.set p y) p y := by
  induction h with
  | here e =>
    rw [Expr.set_nil]
    exact .here y
  | left _ ih => exact .left ih
  | right _ ih => exact .right ih

theorem size_set (h : OpPlace type e p x) (y : Expr σ) :
    (e.set p y).size + x.size = e.size + y.size := by
  induction h with
  | here e => rw [Expr.set_nil, Nat.add_comm]
  | left _ ih => simp only [Expr.set_left, Expr.size]; omega
  | right _ ih => simp only [Expr.set_right, Expr.size]; omega

theorem child_left (h : OpPlace type e p (.bin type l r)) : OpPlace type e (p ++ [false]) l := by
  generalize hx : Expr.bin type l r = x at h
  induction h with
  | here e =>
    subst hx
    exact .left (.here l)
  | left _ ih => exact .left (ih hx)
  | right _ ih => exact .right (ih hx)

theorem child_right (h : OpPlace type e p (.bin type l r)) : OpPlace type e (p ++ [true]) r := by
  generalize hx : Expr.bin type l r = x at h
  induction h with
  | here e =>
    subst hx
    exact .right (.here r)
  | left _ ih => exact .left (ih hx)
  | right _ ih => exact .right (ih hx)

/-- Of two leaves neither place is above the other. -/
theorem other (hp : OpPlace type e p x) (hq : OpPlace type e q y) (hx : x.operands type = none)
    (hy : y.operands type = none) (hne : p ≠ q) (z : Expr σ) : OpPlace type (e.set p z) q y := by
  induction hp generalizing q with
  | here e =>
    cases hq with
    | here => exact absurd rfl hne
    | left | right => simp at hx
  | left _ ih =>
    cases hq with
    | here => simp at hy
    | left hq => exact .left (ih hq hx fun h => hne (congrArg _ h))
    | right hq => exact .right hq
  | right _ ih =>
    cases hq with
    | here => simp at hy
    | left hq => exact .left hq
    | right hq => exact .right (ih hq hx fun h => hne (congrArg _ h))

theorem size_lt (hp : OpPlace type e p x) (hne : p ≠ []) : x.size < e.size := by
  have hle {e x : Expr σ} {p : Place} (h : OpPlace type e p x) : x.size ≤ e.size := by
    induction h with
    | here e => exact le_rfl
    | left _ ih => simp only [Expr.size]; omega
    | right _ ih => simp only [Expr.size]; omega
  cases hp with
  | here => exact absurd rfl hne
  | left h => have := hle h; simp only [Expr.size]; omega
  | right h => have := hle h; simp only [Expr.size]; omega

theorem ne_nil (hp : OpPlace type e p x) (hq : OpPlace type e q y) (hx : x.operands type = none)
    (hne : p ≠ q) : p ≠ [] := by
  rintro rfl
  cases hp
  cases hq with
  | here => exact hne rfl
  | left | right => simp at hx

theorem calc_set (h : OpPlace type e p x) (V : Values S) :
    ∃ c, ∀ z, exprCalcValue V (e.set p z) = type.eval c (exprCalcValue V z) := by
  induction h with
  | here e => exact ⟨V.tri (type.unit S), fun z => by rw [Expr.set_nil, BinOp.unit_eval]⟩
  | @left l r x p h ih =>
    obtain ⟨c, hc⟩ := ih
    refine ⟨type.eval (exprCalcValue V r) c, fun z => ?_⟩
    rw [BinOp.eval_assoc, ← hc z, type.eval_comm]
    rfl
  | @right l r x p h ih =>
    obtain ⟨c, hc⟩ := ih
    refine ⟨type.eval (exprCalcValue V l) c, fun z => ?_⟩
    rw [BinOp.eval_assoc, ← hc z]
    rfl

theorem calc_set_eq (h : OpPlace type e p x) (V : Values S)
    (hz : exprCalcValue V z = exprCalcValue V x) :
    exprCalcValue V (e.set p z) = exprCalcValue V e := by
  obtain ⟨c, hc⟩ := h.calc_set V
  rw [hc, hz, ← hc, h.set_self]

theorem plain_set (h : OpPlace type e p x) (he : Plain S e) :
    Plain S x ∧ (Plain S z → Plain S (e.set p z)) := by
  induction h with
  | here e => exact ⟨he, fun hz => by rwa [Expr.set_nil]⟩
  | left _ ih => exact ⟨(ih he.1).1, fun hz => ⟨(ih he.1).2 hz, he.2⟩⟩
  | right _ ih => exact ⟨(ih he.2).1, fun hz => ⟨he.1, (ih he.2).2 hz⟩⟩

end OpPlace

theorem calc_join {type : BinOp} {e x y tmp : Expr σ} {p q : Place} (V : Values S)
    (hp : OpPlace type e p x) (hq : OpPlace type e q y) (hx : x.operands type = none)
    (hy : y.operands type = none) (hne : p ≠ q)
    (ht : exprCalcValue V tmp = type.eval (exprCalcValue V x) (exprCalcValue V y)) :
    exprCalcValue V ((e.set p (.symbol (type.unit S))).set q tmp) = exprCalcValue V e := by
  have htwo : ∃ c, ∀ a b, exprCalcValue V ((e.set p a).set q b) =
      type.eval c (type.eval (exprCalcValue V a) (exprCalcValue V b)) := by
    induction hp generalizing q with
    | here e =>
      cases hq with
      | here => exact absurd rfl hne
      | left | right => simp at hx
    | @left l r x p hp ih =>
      cases hq with
      | here => simp at hy
      | left hq =>
        obtain ⟨c, hc⟩ := ih hq hx (fun h => hne (congrArg _ h)) ht
        refine ⟨type.eval (exprCalcValue V r) c, fun a b => ?_⟩
        rw [BinOp.eval_assoc, ← hc a b, type.eval_comm]
        rfl
      | right hq =>
        obtain ⟨c, hc⟩ := hp.calc_set V
        obtain ⟨d, hd⟩ := hq.calc_set V
        refine ⟨type.eval c d, fun a b => ?_⟩
        rw [Expr.set_left, Expr.set_right, exprCalcValue, hc, hd, BinOp.eval_assoc,
          BinOp.eval_assoc, type.eval_left_comm d]
    | @right l r x p hp ih =>
      cases hq with
      | here => simp at hy
      | left hq =>
        obtain ⟨c, hc⟩ := hp.calc_set V
        obtain ⟨d, hd⟩ := hq.calc_set V
        refine ⟨type.eval c d, fun a b => ?_⟩
        rw [Expr.set_right, Expr.set_left, exprCalcValue, hc, hd, type.eval_comm (type.eval d _),
          BinOp.eval_assoc, BinOp.eval_assoc, type.eval_left_comm d]
      | right hq =>
        obtain ⟨c, hc⟩ := ih hq hx (fun h => hne (congrArg _ h)) ht
        refine ⟨type.eval (exprCalcValue V l) c, fun a b => ?_⟩
        rw [BinOp.eval_assoc, ← hc a b]
        rfl
  obtain ⟨c, hc⟩ := htwo
  have hsame : (e.set p x).set q y = e := by rw [hp.set_self, hq.set_self]
  rw [hc, ht, exprCalcValue, BinOp.unit_eval, ← hc, hsame]

inductive SameShape (type : BinOp) : Expr σ → Expr σ → Prop
  | leaf {x y : Expr σ} (hx : x.operands type = none) (hy : y.operands type = none) :
      SameShape type x y
  | node {l r l' r' : Expr σ} (hl : SameShape type l l') (hr : SameShape type r r') :
      SameShape type (.bin type l r) (.bin type l' r')

def opNodes (type : BinOp) : Expr σ → ℕ
  | .bin t l r => if t = type then opNodes type l + opNodes type r + 1 else 0
  | _ => 0

namespace SameShape

variable {type : BinOp} {e e' e'' x y : Expr σ} {p : Place}

theorem refl (type : BinOp) (e : Expr σ) : SameShape type e e := by
  induction e with
  | bin t l r ihl ihr =>
    by_cases ht : t = type
    · subst ht
      exact .node ihl ihr
    · have hleaf : (Expr.bin t l r).operands type = none := if_neg ht
      exact .leaf hleaf hleaf
  | _ => exact .leaf rfl rfl

theorem trans (h : SameShape type e e') (h' : SameShape type e' e'') : SameShape type e e'' := by
  induction h generalizing e'' with
  | leaf hx hy =>
    cases h' with
    | leaf _ hy' => exact .leaf hx hy'
    | node => simp at hy
  | node _ _ ihl ihr =>
    cases h' with
    | leaf hx => simp at hx
    | node hl hr => exact .node (ihl hl) (ihr hr)

theorem place (h : SameShape type e e') (hp : OpPlace type e p x) :
    ∃ x', OpPlace type e' p x' ∧ SameShape type x x' := by
  induction hp generalizing e' with
  | here e => exact ⟨e', .here e', h⟩
  | left _ ih =>
    cases h with
    | leaf hx => simp at hx
    | node hl hr =>
      obtain ⟨x', hx, hs⟩ := ih hl
      exact ⟨x', .left hx, hs⟩
  | right _ ih =>
    cases h with
    | leaf hx => simp at hx
    | node hl hr =>
      obtain ⟨x', hx, hs⟩ := ih hr
      exact ⟨x', .right hx, hs⟩

theorem set (hp : OpPlace type e p x) (hx : x.operands type = none) (hy : y.operands type = none) :
    SameShape type e (e.set p y) := by
  induction hp with
  | here e =>
    rw [Expr.set_nil]
    exact .leaf hx hy
  | left _ ih => exact .node (ih hx) (.refl _ _)
  | right _ ih => exact .node (.refl _ _) (ih hx)

theorem opNodes_eq (h : SameShape type e e') : opNodes type e = opNodes type e' := by
  induction h with
  | @leaf x y hx hy =>
    have hzero {x : Expr σ} (hx : x.operands type = none) : opNodes type x = 0 := by
      cases x with
      | bin t l r =>
        have ht : t ≠ type := fun ht => by simp [ht] at hx
        exact if_neg ht
      | _ => rfl
    rw [hzero hx, hzero hy]
  | node _ _ ihl ihr => simp [opNodes, ihl, ihr]

theorem leaf_of_ne {t : BinOp} (h : SameShape t e e') (ht : (e.operands t).isSome) (hne : t ≠ type) :
    e'.operands type = none := by
  cases h with
  | leaf hx => rw [hx] at ht; cases ht
  | node => exact if_neg hne

end SameShape

theorem zero_ne_unit (type : BinOp) : type.zero S ≠ type.unit S := by
  have h (t u : Tristate) (hne : t ≠ u) : S.of t ≠ S.of u := fun he => hne (S.of_inj.mp he)
  cases type
  · exact h .yes .no (by decide)
  · exact h .no .yes (by decide)

variable [DecidableEq σ]

/-- The next `expr_eliminate_yn` makes it smaller. -/
def Reducible (S : Symbols σ) (e : Expr σ) : Prop := (exprEliminateYn S e).size < e.size

theorem Reducible.set {type : BinOp} {e x y : Expr σ} {p : Place} (hp : OpPlace type e p x)
    (hy : Reducible S y) : Reducible S (e.set p y) := by
  induction hp with
  | here e => rwa [Expr.set_nil]
  | @left l r x p _ ih =>
    have hle := size_eliminateYn_bin (S := S) type (l.set p y) r
    have hr := size_eliminateYn (S := S) r
    unfold Reducible at ih ⊢
    simp only [Expr.set_left, Expr.size]
    omega
  | @right l r x p _ ih =>
    have hle := size_eliminateYn_bin (S := S) type l (r.set p y)
    have hl := size_eliminateYn (S := S) l
    unfold Reducible at ih ⊢
    simp only [Expr.set_right, Expr.size]
    omega

theorem reducible_unit {type : BinOp} {e x : Expr σ} {p : Place} (hp : OpPlace type e p x)
    (hne : p ≠ []) : Reducible S (e.set p (.symbol (type.unit S))) := by
  induction hp with
  | here e => exact absurd rfl hne
  | @left l r x p h ih =>
    have hle := size_eliminateYn (S := S) r
    by_cases hp : p = []
    · subst hp
      have hz := (zero_ne_unit (S := S) type).symm
      simp only [Reducible, Expr.set_left, Expr.set_nil, exprEliminateYn, Expr.symbol.injEq, hz,
        if_false, if_true, Expr.size]
      omega
    · rw [Expr.set_left]
      have hat : OpPlace type (.bin type l r) [false] l := .left (.here l)
      have hl := Reducible.set hat (ih hp)
      rwa [Expr.set_left, Expr.set_nil] at hl
  | @right l r x p h ih =>
    have hle := size_eliminateYn (S := S) l
    by_cases hp : p = []
    · subst hp
      have hz := (zero_ne_unit (S := S) type).symm
      have hpos := l.size_pos
      simp only [Reducible, Expr.set_right, Expr.set_nil, exprEliminateYn, Expr.symbol.injEq, hz,
        if_false, if_true, Expr.size]
      split_ifs
      · simp only [Expr.size]; omega
      · simp only [Expr.size]; omega
      · omega
    · rw [Expr.set_right]
      have hat : OpPlace type (.bin type l r) [true] r := .right (.here r)
      have hr := Reducible.set hat (ih hp)
      rwa [Expr.set_right, Expr.set_nil] at hr

/-- What any number of comparisons does to the tree and to `trans_count`. -/
structure Pass (S : Symbols σ) (type : BinOp) (s s' : Expr σ × ℕ) : Prop where
  shape : SameShape type s.1 s'.1
  size : s'.1.size ≤ s.1.size
  count : s' = s ∨ s.2 < s'.2 ∧ Reducible S s'.1
  plain : Plain S s.1 → Plain S s'.1
  value : Plain S s.1 → ∀ V : Values S, exprCalcValue V s'.1 = exprCalcValue V s.1

namespace Pass

variable {type : BinOp} {s s' s'' : Expr σ × ℕ}

theorem refl (type : BinOp) (s : Expr σ × ℕ) : Pass S type s s :=
  ⟨.refl _ _, le_rfl, .inl rfl, id, fun _ _ => rfl⟩

theorem trans (h : Pass S type s s') (h' : Pass S type s' s'') : Pass S type s s'' := by
  refine ⟨h.shape.trans h'.shape, h'.size.trans h.size, ?_, fun hp => h'.plain (h.plain hp),
    fun hp V => (h'.value (h.plain hp) V).trans (h.value hp V)⟩
  obtain rfl | ⟨hlt', hred'⟩ := h'.count
  · exact h.count
  · obtain rfl | ⟨hlt, -⟩ := h.count
    · exact .inr ⟨hlt', hred'⟩
    · exact .inr ⟨hlt.trans hlt', hred'⟩

/-- A pass within one leaf. -/
theorem within {t : BinOp} {e x : Expr σ} {p : Place} {c : ℕ} (hp : OpPlace type e p x)
    (hx : x.operands type = none) (ht : (x.operands t).isSome) (h : Pass S t (x, c) s) :
    Pass S type (e, c) (e.set p s.1, s.2) := by
  have hne : t ≠ type := by
    rintro rfl
    rw [hx] at ht
    cases ht
  have hsize := hp.size_set s.1
  have hle : s.1.size ≤ x.size := h.size
  refine ⟨.set hp hx (h.shape.leaf_of_ne ht hne), ?_, ?_, ?_, ?_⟩
  · show (e.set p s.1).size ≤ e.size
    omega
  · obtain rfl | ⟨hlt, hred⟩ := h.count
    · exact .inl (by rw [hp.set_self])
    · exact .inr ⟨hlt, Reducible.set hp hred⟩
  · intro he
    have hset := hp.plain_set (z := s.1) he
    exact hset.2 (h.plain hset.1)
  · intro he V
    exact hp.calc_set_eq V (h.value (hp.plain_set (z := s.1) he).1 V)

/-- One operand in the place of two. -/
theorem join {e x y tmp : Expr σ} {p q : Place} {c : ℕ} (hp : OpPlace type e p x)
    (hq : OpPlace type e q y) (hx : x.operands type = none) (hy : y.operands type = none)
    (hne : p ≠ q) (h : Joined S type x y tmp) :
    Pass S type (e, c) ((e.set p (.symbol (type.unit S))).set q tmp, c + 1) := by
  have hq' := hp.other hq hx hy hne (.symbol (type.unit S))
  have hleaf : tmp.operands type = none := by
    obtain rfl | h1 := h.single
    · exact hx
    · cases tmp with
      | bin t l r =>
        have := l.size_pos
        simp only [Expr.size] at h1
        omega
      | _ => rfl
  have hsp := hp.size_set (.symbol (type.unit S))
  have hsq := hq'.size_set tmp
  have hxpos := x.size_pos
  have hypos := y.size_pos
  have htmp : tmp.size + 1 ≤ x.size + y.size := by
    obtain rfl | h1 := h.single <;> omega
  refine ⟨(SameShape.set hp hx rfl).trans (.set hq' hy hleaf), ?_, .inr ⟨Nat.lt_succ_self c, ?_⟩,
    ?_, ?_⟩
  · simp only [Expr.size] at hsp ⊢
    omega
  · -- The unit is still at its place.
    have hunit := (hp.at_set (.symbol (type.unit S)))
    have hback := hq'.other hunit hy rfl hne.symm tmp
    have hred := reducible_unit (S := S) hback (hp.ne_nil hq hx hne)
    rwa [hback.set_self] at hred
  · intro he
    have h1 := hp.plain_set (z := .symbol (type.unit S)) he
    have h2 := hq'.plain_set (z := tmp) (h1.2 trivial)
    exact h2.2 (h.plain h1.1 h2.1)
  · intro he V
    have hpx := (hp.plain_set (z := tmp) he).1
    have hpy := (hq.plain_set (z := tmp) he).1
    exact calc_join V hp hq hx hy hne (h.value hpx hpy V)

end Pass

section Runs

variable {n : ℕ} {type : BinOp} {e x y l r : Expr σ} {p q : Place} {c : ℕ}

def dupsLeaf (S : Symbols σ) (n : ℕ) (type : BinOp) (p q : Place) (s : Expr σ × ℕ) (x y : Expr σ) :
    Option (Expr σ × ℕ) := do
  let t ← (match x.binType with
    | some type1 => exprEliminateDups1 S n type1 [] [] (x, s.2)
    | none => some (x, s.2))
  let tmp ← (match type with
    | .or => exprJoinOr S n t.1 y
    | .and => exprJoinAnd S n t.1 y)
  return (match tmp with
    | some tmp => ((s.1.set p (.symbol (type.unit S))).set q tmp, t.2 + 1)
    | none => (s.1.set p t.1, t.2))

theorem dups1_left (hp : OpPlace type e p (.bin type l r)) (hq : OpPlace type e q y) :
    exprEliminateDups1 S (n + 1) type p q (e, c) =
      exprEliminateDups1 S n type (p ++ [false]) q (e, c) >>= fun s =>
        exprEliminateDups1 S n type (p ++ [true]) q s := by
  rw [exprEliminateDups1, hp.at_eq, hq.at_eq]
  simp

theorem dups1_right (hp : OpPlace type e p x) (hx : x.operands type = none)
    (hq : OpPlace type e q (.bin type l r)) :
    exprEliminateDups1 S (n + 1) type p q (e, c) =
      exprEliminateDups1 S n type p (q ++ [false]) (e, c) >>= fun s =>
        exprEliminateDups1 S n type p (q ++ [true]) s := by
  rw [exprEliminateDups1, hp.at_eq, hq.at_eq]
  simp [hx]

theorem dups1_leaf (hp : OpPlace type e p x) (hx : x.operands type = none)
    (hq : OpPlace type e q y) (hy : y.operands type = none) :
    exprEliminateDups1 S (n + 1) type p q (e, c) =
      if p = q then some (e, c) else dupsLeaf S n type p q (e, c) x y := by
  rw [exprEliminateDups1, hp.at_eq, hq.at_eq]
  simp only [Option.bind_eq_bind, Option.bind_some, hx, hy, Option.isSome_none, Bool.false_eq_true,
    if_false]
  rfl

theorem leaf_pass (ih : ∀ t (e : Expr σ) c s', exprEliminateDups1 S n t [] [] (e, c) = some s' →
      Pass S t (e, c) s') {s' : Expr σ × ℕ}
    (hp : OpPlace type e p x) (hx : x.operands type = none) (hq : OpPlace type e q y)
    (hy : y.operands type = none) (hne : p ≠ q)
    (h : dupsLeaf S n type p q (e, c) x y = some s') : Pass S type (e, c) s' := by
  simp only [dupsLeaf, Option.bind_eq_bind, Option.bind_eq_some_iff] at h
  obtain ⟨t, ht, tmp, htmp, h⟩ := h
  have hwithin : Pass S type (e, c) (e.set p t.1, t.2) ∧ t.1.operands type = none := by
    cases hb : x.binType with
    | none =>
      rw [hb] at ht
      cases ht
      rw [hp.set_self]
      exact ⟨.refl _ _, hx⟩
    | some u =>
      rw [hb] at ht
      have hop := operands_of_binType hb
      have hne' : u ≠ type := by
        rintro rfl
        rw [hx] at hop
        cases hop
      have hpass := ih u x c t ht
      exact ⟨.within hp hx hop hpass, hpass.shape.leaf_of_ne hop hne'⟩
  obtain ⟨hpass, hleaf⟩ := hwithin
  cases tmp with
  | none =>
    cases h
    exact hpass
  | some tmp =>
    cases h
    have hjoined : Joined S type t.1 y tmp := by
      cases type with
      | or => exact exprJoin_joined (fun _ _ => joinOrOf_joined) htmp
      | and => exact exprJoin_joined (fun _ _ => joinAndOf_joined) htmp
    have hjoin := Pass.join (c := t.2) (hp.at_set t.1) (hp.other hq hx hy hne t.1) hleaf hy hne hjoined
    rw [hp.set_set] at hjoin
    exact hpass.trans hjoin

theorem dups1_pass {s' : Expr σ × ℕ} (hp : OpPlace type e p x) (hq : OpPlace type e q y)
    (h : exprEliminateDups1 S n type p q (e, c) = some s') : Pass S type (e, c) s' := by
  induction n generalizing type e p q x y c s' with
  | zero => rw [exprEliminateDups1] at h; cases h
  | succ n ih =>
    cases hx : x.operands type with
    | some lr =>
      obtain ⟨l, r⟩ := lr
      obtain rfl := Expr.operands_eq_some.mp hx
      rw [dups1_left hp hq, Option.bind_eq_bind, Option.bind_eq_some_iff] at h
      obtain ⟨s, hs, h⟩ := h
      have h1 := ih hp.child_left hq hs
      obtain ⟨_, hp', _⟩ := h1.shape.place hp.child_right
      obtain ⟨_, hq', _⟩ := h1.shape.place hq
      exact h1.trans (ih hp' hq' h)
    | none =>
      cases hy : y.operands type with
      | some lr =>
        obtain ⟨l, r⟩ := lr
        obtain rfl := Expr.operands_eq_some.mp hy
        rw [dups1_right hp hx hq, Option.bind_eq_bind, Option.bind_eq_some_iff] at h
        obtain ⟨s, hs, h⟩ := h
        have h1 := ih hp hq.child_left hs
        obtain ⟨_, hp', _⟩ := h1.shape.place hp
        obtain ⟨_, hq', _⟩ := h1.shape.place hq.child_right
        exact h1.trans (ih hp' hq' h)
      | none =>
        rw [dups1_leaf hp hx hq hy] at h
        split_ifs at h with hpq
        · cases h
          exact .refl _ _
        · exact leaf_pass (fun t e c s' => ih (.here e) (.here e)) hp hx hq hy hpq h

theorem leaf_settles (ih : ∀ t (e' : Expr σ) c, e'.size < e.size →
      ∃ s, Settles (exprEliminateDups1 S · t [] [] (e', c)) s)
    (hp : OpPlace type e p x) (hx : x.operands type = none) (hq : OpPlace type e q y)
    (hne : p ≠ q) : ∃ s, Settles (dupsLeaf S · type p q (e, c) x y) s := by
  have hlt := hp.size_lt (hp.ne_nil hq hx hne)
  have hwithin : ∃ t, Settles (fun n => match x.binType with
      | some type1 => exprEliminateDups1 S n type1 [] [] (x, c)
      | none => some (x, c)) t := by
    cases hb : x.binType with
    | none => exact ⟨_, .of_some _⟩
    | some t => exact ih t x c hlt
  obtain ⟨t, ht⟩ := hwithin
  have hjoin : ∃ tmp, Settles (fun n => match type with
      | .or => exprJoinOr S n t.1 y
      | .and => exprJoinAnd S n t.1 y) tmp := by
    cases type with
    | or => exact exprJoin_settles _ _ _
    | and => exact exprJoin_settles _ _ _
  obtain ⟨tmp, htmp⟩ := hjoin
  exact ⟨_, ht.bind (htmp.map _)⟩

/-- By the size of the whole, and below it by the connectives between the two places and leaves. -/
theorem dups1_settles (k : ℕ) : ∀ type (e x y : Expr σ) p q c, e.size ≤ k → OpPlace type e p x →
    OpPlace type e q y → ∃ s, Settles (exprEliminateDups1 S · type p q (e, c)) s := by
  induction k using Nat.strong_induction_on with
  | _ k hk =>
    intro type e x y p q c hek hp hq
    have hnested (e : Expr σ) (hek : e.size ≤ k) : ∀ t (e' : Expr σ) c, e'.size < e.size →
        ∃ s, Settles (exprEliminateDups1 S · t [] [] (e', c)) s := fun t e' c hlt =>
      hk e'.size (by omega) t e' e' e' [] [] c le_rfl (.here e') (.here e')
    generalize hm : opNodes type x + opNodes type y = m
    induction m using Nat.strong_induction_on generalizing e x y p q c with
    | _ m ih =>
      cases hx : x.operands type with
      | some lr =>
        obtain ⟨l, r⟩ := lr
        obtain rfl := Expr.operands_eq_some.mp hx
        simp only [opNodes, if_true] at hm
        obtain ⟨s, hs⟩ := ih _ (by omega) e l y _ q c hek hp.child_left hq rfl
        have h1 := hs.result (P := fun s => Pass S type (e, c) s)
          fun n s h => dups1_pass hp.child_left hq h
        obtain ⟨r', hp', hr⟩ := h1.shape.place hp.child_right
        obtain ⟨y', hq', hy⟩ := h1.shape.place hq
        have hr' := hr.opNodes_eq
        have hy' := hy.opNodes_eq
        obtain ⟨s', hs'⟩ := ih (opNodes type r' + opNodes type y') (by omega) s.1 r' y' _ q s.2
          (h1.size.trans hek) hp' hq' rfl
        exact ⟨s', (hs.bind hs').succ fun n => dups1_left hp hq⟩
      | none =>
        cases hy : y.operands type with
        | some lr =>
          obtain ⟨l, r⟩ := lr
          obtain rfl := Expr.operands_eq_some.mp hy
          simp only [opNodes, if_true] at hm
          obtain ⟨s, hs⟩ := ih _ (by omega) e x l p _ c hek hp hq.child_left rfl
          have h1 := hs.result (P := fun s => Pass S type (e, c) s)
            fun n s h => dups1_pass hp hq.child_left h
          obtain ⟨x', hp', hx'⟩ := h1.shape.place hp
          obtain ⟨r', hq', hr⟩ := h1.shape.place hq.child_right
          have hx'' := hx'.opNodes_eq
          have hr' := hr.opNodes_eq
          obtain ⟨s', hs'⟩ := ih (opNodes type x' + opNodes type r') (by omega) s.1 x' r' p _ s.2
            (h1.size.trans hek) hp' hq' rfl
          exact ⟨s', (hs.bind hs').succ fun n => dups1_right hp hx hq⟩
        | none =>
          by_cases hpq : p = q
          · exact ⟨(e, c), (Settles.of_some _).succ fun n => by
              rw [dups1_leaf hp hx hq hy, if_pos hpq]⟩
          · obtain ⟨s, hs⟩ := leaf_settles (c := c) (hnested e hek) hp hx hq hpq
            exact ⟨s, hs.succ fun n => by rw [dups1_leaf hp hx hq hy, if_neg hpq]⟩

end Runs

/-- A pass leaves the tree alone, or what follows makes it smaller. -/
theorem dupsPass_settles (e : Expr σ) :
    ∃ s, Settles (exprDupsPass S · e) s ∧ s.1.size ≤ e.size ∧
      (s = (e, 0) ∨ 0 < s.2 ∧ Reducible S s.1) ∧ (Plain S e → Plain S s.1) ∧
      (Plain S e → ∀ V : Values S, exprCalcValue V s.1 = exprCalcValue V e) := by
  cases hb : e.binType with
  | none =>
    refine ⟨(e, 0), (Settles.of_some _).congr fun n => ?_, le_rfl, .inl rfl, id, fun _ _ => rfl⟩
    rw [exprDupsPass, hb]
  | some type =>
    obtain ⟨s, hs⟩ := dups1_settles (S := S) e.size type e e e [] [] 0 le_rfl (.here e) (.here e)
    have hpass := hs.result (P := fun s => Pass S type (e, 0) s)
      fun n s h => dups1_pass (.here e) (.here e) h
    refine ⟨s, hs.congr fun n => ?_, hpass.size, hpass.count, hpass.plain, hpass.value⟩
    rw [exprDupsPass, hb]

theorem plain_eliminateYn {e : Expr σ} (h : Plain S e) : Plain S (exprEliminateYn S e) := by
  induction e with
  | bin type l r ihl ihr =>
    rw [exprEliminateYn]
    split_ifs
    · trivial
    · exact ihr h.2
    · trivial
    · exact ihl h.1
    · exact ⟨ihl h.1, ihr h.2⟩
  | _ => exact h

variable (S) in
/-- `expr_eliminate_dups` ends with an expression it finds nothing more in. -/
theorem exprEliminateDups_settles (e : Expr σ) :
    ∃ r, Settles (exprEliminateDups S · e) r ∧ Settles (exprEliminateDups S · r) r ∧
      r.size ≤ e.size ∧
      (Plain S e → Plain S r ∧ ∀ V : Values S, exprCalcValue V r = exprCalcValue V e) := by
  generalize hk : e.size = k
  induction k using Nat.strong_induction_on generalizing e with
  | _ k ih =>
    obtain ⟨s, hs, hsize, hcount, hplain, hvalue⟩ := dupsPass_settles (S := S) e
    obtain rfl | ⟨hpos, hred⟩ := hcount
    · have hstop : Settles (exprEliminateDups S · e) e :=
        (hs.bind (.of_some e)).succ fun n => rfl
      exact ⟨e, hstop, hstop, hk.le, fun hp => ⟨hp, fun _ => rfl⟩⟩
    · unfold Reducible at hred
      obtain ⟨r, hr, hrr, hle, hmean⟩ := ih _ (by omega) (exprEliminateYn S s.1) rfl
      refine ⟨r, (hs.bind (k := fun n s => if s.2 = 0 then some s.1
        else exprEliminateDups S n (exprEliminateYn S s.1)) (hr.congr fun n => ?_)).succ fun n => rfl,
        hrr, by omega, fun hp => ?_⟩
      · exact if_neg (by omega)
      · obtain ⟨hpr, hval⟩ := hmean (plain_eliminateYn (hplain hp))
        exact ⟨hpr, fun V => by rw [hval V, calc_eliminateYn, hvalue hp V]⟩

end Ysyx.Kconfig
