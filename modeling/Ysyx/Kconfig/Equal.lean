import Ysyx.Kconfig.Value

/-! `expr_eq` and `expr_eliminate_eq` end, and what they find equal has the same value. -/

namespace Ysyx.Kconfig

variable {σ : Type} {S : Symbols σ}

namespace BinOp

variable (op : BinOp) (t u v : Tristate)

theorem eval_comm : op.eval t u = op.eval u t := by
  cases op
  · exact max_comm t u
  · exact min_comm t u

theorem eval_assoc : op.eval (op.eval t u) v = op.eval t (op.eval u v) := by
  cases op
  · exact max_assoc t u v
  · exact min_assoc t u v

theorem eval_left_comm : op.eval t (op.eval u v) = op.eval u (op.eval t v) := by
  rw [← eval_assoc, op.eval_comm t u, eval_assoc]

variable {op t u} in
theorem eval_mono (h : t ≤ u) : op.eval v t ≤ op.eval v u := by
  cases op
  · exact max_le_max_left v h
  · exact min_le_min_left v h

theorem eval_self : op.eval t t = t := by
  cases op
  · exact max_self t
  · exact min_self t

variable (V : Values S)

@[simp] theorem eval_unit : op.eval t (V.tri (op.unit S)) = t := by
  cases op <;> cases t <;> simp [unit] <;> rfl

@[simp] theorem unit_eval : op.eval (V.tri (op.unit S)) t = t := by
  rw [eval_comm, eval_unit]

@[simp] theorem eval_zero : op.eval t (V.tri (op.zero S)) = V.tri (op.zero S) := by
  cases op <;> cases t <;> simp [zero] <;> rfl

@[simp] theorem zero_eval : op.eval (V.tri (op.zero S)) t = V.tri (op.zero S) := by
  rw [eval_comm, eval_zero]

end BinOp

section

variable [DecidableEq σ]

theorem calc_eliminateYn (V : Values S) (e : Expr σ) :
    exprCalcValue V (exprEliminateYn S e) = exprCalcValue V e := by
  induction e with
  | bin type l r ihl ihr =>
    simp only [exprCalcValue, ← ihl, ← ihr, exprEliminateYn]
    split_ifs with h1 h2 h3 h4
    · simp [h1, exprCalcValue]
    · simp [h2, exprCalcValue]
    · simp [h3, exprCalcValue]
    · simp [h4, exprCalcValue]
    · rfl
  | _ => rfl

theorem size_eliminateYn_bin (type : BinOp) (l r : Expr σ) :
    (exprEliminateYn S (.bin type l r)).size ≤
      (exprEliminateYn S l).size + (exprEliminateYn S r).size + 1 := by
  have hl := (exprEliminateYn S l).size_pos
  simp only [exprEliminateYn]
  split_ifs
  · simp only [Expr.size]; omega
  · omega
  · simp only [Expr.size]; omega
  · omega
  · exact le_rfl

theorem size_eliminateYn (e : Expr σ) : (exprEliminateYn S e).size ≤ e.size := by
  induction e with
  | bin type l r ihl ihr =>
    have h := size_eliminateYn_bin (S := S) type l r
    simp only [Expr.size]
    omega
  | _ => exact le_rfl

end

/-- A common part `c` of both expressions. -/
def CommonPart (type : BinOp) (e1 e2 x y : Expr σ) : Prop :=
  ∀ V : Values S, ∃ c, exprCalcValue V e1 = type.eval c (exprCalcValue V x) ∧
    exprCalcValue V e2 = type.eval c (exprCalcValue V y)

namespace CommonPart

variable {type : BinOp} {e1 e2 e3 x y z l r : Expr σ}

theorem refl : CommonPart (S := S) type e1 e2 e1 e2 :=
  fun V => ⟨V.tri (type.unit S), by simp, by simp⟩

theorem symm (h : CommonPart (S := S) type e1 e2 x y) : CommonPart (S := S) type e2 e1 y x := by
  intro V
  obtain ⟨c, h1, h2⟩ := h V
  exact ⟨c, h2, h1⟩

theorem mono (h : CommonPart (S := S) type e1 e2 x y) (V : Values S)
    (hxy : exprCalcValue V x ≤ exprCalcValue V y) : exprCalcValue V e1 ≤ exprCalcValue V e2 := by
  obtain ⟨c, h1, h2⟩ := h V
  rw [h1, h2]
  exact BinOp.eval_mono c hxy

/-- First the left operand against the other side, then the right one against what is left. -/
theorem operands (hl : CommonPart (S := S) type l e2 x y) (hr : CommonPart (S := S) type r y e3 z) :
    CommonPart (S := S) type (.bin type l r) e2 (.bin type x e3) z := by
  intro V
  obtain ⟨c, hl1, hl2⟩ := hl V
  obtain ⟨d, hr1, hr2⟩ := hr V
  refine ⟨type.eval c d, ?_, ?_⟩
  · rw [exprCalcValue, hl1, hr1, exprCalcValue, BinOp.eval_assoc, BinOp.eval_assoc,
      type.eval_left_comm d]
  · rw [hl2, hr2, BinOp.eval_assoc]

end CommonPart

section

variable {type : BinOp} {e1 e2 a b x y : Expr σ}

/-- A comparison of `x` and `y` holds of `e1` and `e2`. -/
structure Decides (S : Symbols σ) (e1 e2 x y : Expr σ) : Prop where
  le : ∀ V : Values S, exprCalcValue V x ≤ exprCalcValue V y →
    exprCalcValue V e1 ≤ exprCalcValue V e2
  ge : ∀ V : Values S, exprCalcValue V y ≤ exprCalcValue V x →
    exprCalcValue V e2 ≤ exprCalcValue V e1

theorem CommonPart.decides (h : CommonPart (S := S) type e1 e2 x y) : Decides S e1 e2 x y :=
  ⟨h.mono, h.symm.mono⟩

namespace Decides

theorem trans (h : Decides S e1 e2 a b) (h' : Decides S a b x y) : Decides S e1 e2 x y :=
  ⟨fun V hxy => h.le V (h'.le V hxy), fun V hyx => h.ge V (h'.ge V hyx)⟩

theorem equal (h : Decides S e1 e2 x y) (V : Values S)
    (hxy : exprCalcValue V x = exprCalcValue V y) : exprCalcValue V e1 = exprCalcValue V e2 :=
  le_antisymm (h.le V hxy.le) (h.ge V hxy.ge)

end Decides

theorem operands_of_binType {e : Expr σ} (h : e.binType = some type) : (e.operands type).isSome := by
  cases e with
  | bin t l r =>
    cases h
    rw [Expr.operands_bin]
    rfl
  | _ => cases h

end

section Runs

variable [DecidableEq σ] {n : ℕ} {type : BinOp} {e1 e2 x y : Expr σ}

theorem eliminateEq1_left (l r : Expr σ) :
    exprEliminateEq1 S (n + 1) type (.bin type l r) e2 =
      exprEliminateEq1 S n type l e2 >>= fun p => exprEliminateEq1 S n type r p.2 >>= fun q =>
        some (.bin type p.1 q.1, q.2) := by
  rw [exprEliminateEq1, Expr.operands_bin]
  rfl

theorem eliminateEq1_right (h : e1.operands type = none) (l r : Expr σ) :
    exprEliminateEq1 S (n + 1) type e1 (.bin type l r) =
      exprEliminateEq1 S n type e1 l >>= fun p => exprEliminateEq1 S n type p.1 r >>= fun q =>
        some (q.1, .bin type p.2 q.2) := by
  rw [exprEliminateEq1, h, Expr.operands_bin]
  rfl

theorem eliminateEq1_leaf (h1 : e1.operands type = none) (h2 : e2.operands type = none) :
    exprEliminateEq1 S (n + 1) type e1 e2 =
      if e1 = e2 ∧ (e1 = .symbol S.yes ∨ e1 = .symbol S.no) then some (e1, e2)
      else exprEq S n e1 e2 >>= fun b =>
        some (if b then (.symbol (type.unit S), .symbol (type.unit S)) else (e1, e2)) := by
  rw [exprEliminateEq1, h1, h2]
  split_ifs with h
  · simp [h]
  · cases exprEq S n e1 e2 with
    | none => simp
    | some b => cases b <;> simp

/-- All that a call of `__expr_eliminate_eq()` can do. -/
inductive EliminateEq1 (S : Symbols σ) (n : ℕ) (type : BinOp) :
    Expr σ → Expr σ → Expr σ → Expr σ → Prop
  | left {l r l' r' e2 y z : Expr σ} (hl : exprEliminateEq1 S n type l e2 = some (l', y))
      (hr : exprEliminateEq1 S n type r y = some (r', z)) :
      EliminateEq1 S n type (.bin type l r) e2 (.bin type l' r') z
  | right {l r l' r' e1 x z : Expr σ} (hl : exprEliminateEq1 S n type e1 l = some (x, l'))
      (hr : exprEliminateEq1 S n type x r = some (z, r')) :
      EliminateEq1 S n type e1 (.bin type l r) z (.bin type l' r')
  | keep (e1 e2 : Expr σ) : EliminateEq1 S n type e1 e2 e1 e2
  | drop {e1 e2 : Expr σ} (h : exprEq S n e1 e2 = some true) :
      EliminateEq1 S n type e1 e2 (.symbol (type.unit S)) (.symbol (type.unit S))

theorem eliminateEq1_cases (h : exprEliminateEq1 S (n + 1) type e1 e2 = some (x, y)) :
    EliminateEq1 S n type e1 e2 x y := by
  cases h1 : e1.operands type with
  | some p =>
    obtain ⟨l, r⟩ := p
    obtain rfl := Expr.operands_eq_some.mp h1
    rw [eliminateEq1_left, Option.bind_eq_bind, Option.bind_eq_some_iff] at h
    obtain ⟨⟨l', y'⟩, hl, h⟩ := h
    rw [Option.bind_eq_some_iff] at h
    obtain ⟨⟨r', z⟩, hr, h⟩ := h
    cases h
    exact .left hl hr
  | none =>
    cases h2 : e2.operands type with
    | some p =>
      obtain ⟨l, r⟩ := p
      obtain rfl := Expr.operands_eq_some.mp h2
      rw [eliminateEq1_right h1, Option.bind_eq_bind, Option.bind_eq_some_iff] at h
      obtain ⟨⟨x', l'⟩, hl, h⟩ := h
      rw [Option.bind_eq_some_iff] at h
      obtain ⟨⟨z, r'⟩, hr, h⟩ := h
      cases h
      exact .right hl hr
    | none =>
      rw [eliminateEq1_leaf h1 h2] at h
      split_ifs at h with hyn
      · cases h
        exact .keep e1 e2
      · rw [Option.bind_eq_bind, Option.bind_eq_some_iff] at h
        obtain ⟨b, hb, h⟩ := h
        cases b
        · cases h
          exact .keep e1 e2
        · cases h
          exact .drop hb

theorem eliminateEq1_size (h : exprEliminateEq1 S n type e1 e2 = some (x, y)) :
    x.size ≤ e1.size ∧ y.size ≤ e2.size := by
  induction n generalizing e1 e2 x y with
  | zero => rw [exprEliminateEq1] at h; cases h
  | succ n ih =>
    cases eliminateEq1_cases h with
    | left hl hr =>
      have h1 := ih hl
      have h2 := ih hr
      simp only [Expr.size]
      omega
    | right hl hr =>
      have h1 := ih hl
      have h2 := ih hr
      simp only [Expr.size]
      omega
    | keep => exact ⟨le_rfl, le_rfl⟩
    | drop => exact ⟨e1.size_pos, e2.size_pos⟩

theorem eliminateEq_cases (h : exprEliminateEq S (n + 1) e1 e2 = some (x, y)) :
    ∃ a b c d, (a = e1 ∧ b = e2 ∨ ∃ t, exprEliminateEq1 S n t e1 e2 = some (a, b)) ∧
      (c = a ∧ d = b ∨ ∃ t, exprEliminateEq1 S n t a b = some (c, d)) ∧
      x = exprEliminateYn S c ∧ y = exprEliminateYn S d := by
  simp only [exprEliminateEq, Option.bind_eq_bind, Option.bind_eq_some_iff] at h
  obtain ⟨⟨a, b⟩, hab, ⟨c, d⟩, hcd, h⟩ := h
  cases h
  refine ⟨a, b, c, d, ?_, ?_, rfl, rfl⟩
  · cases ht : e1.binType with
    | none =>
      rw [ht] at hab
      cases hab
      exact .inl ⟨rfl, rfl⟩
    | some t =>
      rw [ht] at hab
      exact .inr ⟨t, hab⟩
  · cases ht : b.binType with
    | none =>
      simp only [ht] at hcd
      cases hcd
      exact .inl ⟨rfl, rfl⟩
    | some t =>
      simp only [ht] at hcd
      split_ifs at hcd
      · cases hcd
        exact .inl ⟨rfl, rfl⟩
      · exact .inr ⟨t, hcd⟩

theorem eliminateEq_size (n : ℕ) (p : Expr σ × Expr σ) (h : exprEliminateEq S n e1 e2 = some p) :
    p.1.size ≤ e1.size ∧ p.2.size ≤ e2.size := by
  have hpass {e1 e2 a b : Expr σ} {n : ℕ}
      (h : a = e1 ∧ b = e2 ∨ ∃ t, exprEliminateEq1 S n t e1 e2 = some (a, b)) :
      a.size ≤ e1.size ∧ b.size ≤ e2.size := by
    obtain ⟨rfl, rfl⟩ | ⟨t, ht⟩ := h
    · exact ⟨le_rfl, le_rfl⟩
    · exact eliminateEq1_size ht
  cases n with
  | zero => rw [exprEliminateEq] at h; cases h
  | succ n =>
    obtain ⟨a, b, c, d, h1, h2, hx, hy⟩ := eliminateEq_cases (x := p.1) (y := p.2) h
    have ha := hpass h1
    have hc := hpass h2
    rw [hx, hy]
    have hyn := size_eliminateYn (S := S) c
    have hyn' := size_eliminateYn (S := S) d
    omega

/-- What holds of every comparison and elimination that ends within `n` steps. -/
structure SoundFor (S : Symbols σ) (n : ℕ) : Prop where
  equal : ∀ e1 e2, exprEq S n e1 e2 = some true → ∀ V : Values S,
    exprCalcValue V e1 = exprCalcValue V e2
  leaves : ∀ type e1 e2 x y, exprEliminateEq1 S n type e1 e2 = some (x, y) →
    CommonPart (S := S) type e1 e2 x y
  common : ∀ e1 e2 x y, exprEliminateEq S n e1 e2 = some (x, y) → Decides S e1 e2 x y

theorem SoundFor.leaves_step (hn : SoundFor S n)
    (h : exprEliminateEq1 S (n + 1) type e1 e2 = some (x, y)) :
    CommonPart (S := S) type e1 e2 x y := by
  cases eliminateEq1_cases h with
  | left hl hr => exact (hn.leaves _ _ _ _ _ hl).operands (hn.leaves _ _ _ _ _ hr)
  | right hl hr =>
    exact ((hn.leaves _ _ _ _ _ hl).symm.operands (hn.leaves _ _ _ _ _ hr).symm).symm
  | keep => exact .refl
  | drop he => exact fun V => ⟨exprCalcValue V e1, by simp [exprCalcValue],
      by simp [exprCalcValue, hn.equal _ _ he V]⟩

theorem SoundFor.common_step (hn : SoundFor S n)
    (h : exprEliminateEq S (n + 1) e1 e2 = some (x, y)) : Decides S e1 e2 x y := by
  have hpass {e1 e2 a b : Expr σ}
      (h : a = e1 ∧ b = e2 ∨ ∃ t, exprEliminateEq1 S n t e1 e2 = some (a, b)) :
      Decides S e1 e2 a b := by
    obtain ⟨rfl, rfl⟩ | ⟨t, ht⟩ := h
    · exact ⟨fun _ => id, fun _ => id⟩
    · exact (hn.leaves _ _ _ _ _ ht).decides
  obtain ⟨a, b, c, d, h1, h2, rfl, rfl⟩ := eliminateEq_cases h
  refine (hpass h1).trans ((hpass h2).trans ⟨fun V hle => ?_, fun V hle => ?_⟩)
  · rwa [calc_eliminateYn, calc_eliminateYn] at hle
  · rwa [calc_eliminateYn, calc_eliminateYn] at hle

theorem SoundFor.equal_step (hn : SoundFor S n) (h : exprEq S (n + 1) e1 e2 = some true)
    (V : Values S) : exprCalcValue V e1 = exprCalcValue V e2 := by
  cases e1 <;> cases e2 <;> simp only [exprEq, Option.some.injEq, decide_eq_true_eq,
    reduceCtorEq] at h
  case symbol.symbol => rw [h]
  case not.not e e' => rw [exprCalcValue, exprCalcValue, hn.equal e e' h V]
  case comp.comp => rw [h.1, h.2.1, h.2.2]
  case bin.bin t1 l1 r1 t2 l2 r2 =>
    split_ifs at h with ht
    · cases h
    · rw [Option.bind_eq_bind, Option.bind_eq_some_iff] at h
      obtain ⟨⟨x, y⟩, hp, h⟩ := h
      refine (hn.common _ _ x y hp).equal V ?_
      cases x <;> cases y <;> simp [sameSymbol] at h
      rw [h]

theorem soundFor (n : ℕ) : SoundFor S n := by
  induction n with
  | zero =>
    refine ⟨fun e1 e2 h => ?_, fun type e1 e2 x y h => ?_, fun e1 e2 x y h => ?_⟩
    · rw [exprEq] at h; cases h
    · rw [exprEliminateEq1] at h; cases h
    · rw [exprEliminateEq] at h; cases h
  | succ n hn =>
    exact ⟨fun _ _ => hn.equal_step, fun _ _ _ _ _ => hn.leaves_step, fun _ _ _ _ => hn.common_step⟩

/-- What ends, of two expressions of this size together. -/
structure EndsAt (S : Symbols σ) (k : ℕ) : Prop where
  equal : ∀ e1 e2 : Expr σ, e1.size + e2.size = k → ∃ b, Settles (exprEq S · e1 e2) b
  leaves : ∀ type (e1 e2 : Expr σ), e1.size + e2.size = k →
    ∃ p, Settles (exprEliminateEq1 S · type e1 e2) p

variable {k : ℕ}

theorem ends_connective (hk : ∀ m < k, EndsAt S m) (hs : e1.size + e2.size ≤ k)
    (hop : (e1.operands type).isSome ∨ (e2.operands type).isSome) :
    ∃ p, Settles (exprEliminateEq1 S · type e1 e2) p := by
  cases h1 : e1.operands type with
  | some p =>
    obtain ⟨l, r⟩ := p
    obtain rfl := Expr.operands_eq_some.mp h1
    rw [Expr.size] at hs
    obtain ⟨p, hp⟩ := (hk (l.size + e2.size) (by omega)).leaves type l e2 rfl
    have hsize := hp.result (P := fun p => p.1.size ≤ l.size ∧ p.2.size ≤ e2.size)
      fun n _ h => eliminateEq1_size h
    obtain ⟨q, hq⟩ := (hk (r.size + p.2.size) (by omega)).leaves type r p.2 rfl
    exact ⟨_, (hp.bind (hq.map _)).succ fun n => eliminateEq1_left l r⟩
  | none =>
    obtain ⟨⟨l, r⟩, h2⟩ := Option.isSome_iff_exists.mp (hop.resolve_left (by simp [h1]))
    obtain rfl := Expr.operands_eq_some.mp h2
    rw [Expr.size] at hs
    obtain ⟨p, hp⟩ := (hk (e1.size + l.size) (by omega)).leaves type e1 l rfl
    have hsize := hp.result (P := fun p => p.1.size ≤ e1.size ∧ p.2.size ≤ l.size)
      fun n _ h => eliminateEq1_size h
    obtain ⟨q, hq⟩ := (hk (p.1.size + r.size) (by omega)).leaves type p.1 r rfl
    exact ⟨_, (hp.bind (hq.map _)).succ fun n => eliminateEq1_right h1 l r⟩

theorem exprEliminateEq_succ (n : ℕ) : exprEliminateEq S (n + 1) e1 e2 =
    (e1.binType.elim (some (e1, e2)) fun type => exprEliminateEq1 S n type e1 e2) >>= fun p =>
      (p.2.binType.elim (some p) fun type =>
        if p.1.binType = some type then some p else exprEliminateEq1 S n type p.1 p.2) >>= fun q =>
          some (exprEliminateYn S q.1, exprEliminateYn S q.2) := by
  rw [exprEliminateEq]
  refine congrArg₂ (· >>= ·) ?_ (funext fun p => congrArg (· >>= _) ?_)
  · cases e1.binType <;> rfl
  · cases p.2.binType <;> rfl

theorem ends_eliminateEq (hk : ∀ m < k, EndsAt S m) (hs : e1.size + e2.size ≤ k) :
    ∃ p, Settles (exprEliminateEq S · e1 e2) p := by
  have h1 : ∃ p, Settles (fun n => e1.binType.elim (some (e1, e2)) fun type =>
      exprEliminateEq1 S n type e1 e2) p ∧ p.1.size + p.2.size ≤ k := by
    cases ht : e1.binType with
    | none => exact ⟨(e1, e2), .of_some _, hs⟩
    | some t =>
      obtain ⟨p, hp⟩ := ends_connective hk hs (.inl (operands_of_binType ht))
      have hsize := hp.result (P := fun p => p.1.size ≤ e1.size ∧ p.2.size ≤ e2.size)
        fun n _ h => eliminateEq1_size h
      exact ⟨p, hp, by omega⟩
  obtain ⟨⟨a, b⟩, hab, hle⟩ := h1
  have h2 : ∃ p, Settles (fun n => b.binType.elim (some (a, b)) fun type =>
      if a.binType = some type then some (a, b) else exprEliminateEq1 S n type a b) p := by
    cases ht : b.binType with
    | none => exact ⟨(a, b), .of_some _⟩
    | some t =>
      by_cases hat : a.binType = some t
      · exact ⟨(a, b), (Settles.of_some _).congr fun n => by simp [hat]⟩
      · obtain ⟨p, hp⟩ := ends_connective hk hle (.inr (operands_of_binType ht))
        exact ⟨p, hp.congr fun n => by simp [hat]⟩
  obtain ⟨p, hp⟩ := h2
  exact ⟨_, (hab.bind (hp.map _)).succ exprEliminateEq_succ⟩

theorem ends_equal (hk : ∀ m < k, EndsAt S m) (hs : e1.size + e2.size ≤ k) :
    ∃ b, Settles (exprEq S · e1 e2) b := by
  have hfalse (h : ∀ n, exprEq S (n + 1) e1 e2 = some false) :
      ∃ b, Settles (exprEq S · e1 e2) b := ⟨false, (Settles.of_some _).succ h⟩
  cases e1 <;> cases e2 <;> try exact hfalse fun _ => rfl
  case symbol.symbol => exact ⟨_, (Settles.of_some _).succ fun _ => rfl⟩
  case comp.comp => exact ⟨_, (Settles.of_some _).succ fun _ => rfl⟩
  case not.not e e' =>
    rw [Expr.size, Expr.size] at hs
    obtain ⟨b, hb⟩ := (hk (e.size + e'.size) (by omega)).equal e e' rfl
    exact ⟨b, hb.succ fun _ => rfl⟩
  case bin.bin t1 l1 r1 t2 l2 r2 =>
    by_cases ht : t1 = t2
    · obtain ⟨p, hp⟩ := ends_eliminateEq hk hs
      refine ⟨_, (hp.map fun p => sameSymbol p.1 p.2).succ fun n => ?_⟩
      rw [exprEq, if_neg (by simp [ht])]
      rfl
    · exact hfalse fun n => by rw [exprEq, if_pos ht]

theorem endsAt (k : ℕ) : EndsAt S k := by
  induction k using Nat.strong_induction_on with
  | _ k hk =>
    refine ⟨fun e1 e2 hs => ends_equal hk hs.le, fun type e1 e2 hs => ?_⟩
    by_cases hop : (e1.operands type).isSome ∨ (e2.operands type).isSome
    · exact ends_connective hk hs.le hop
    · rw [not_or, Option.not_isSome_iff_eq_none, Option.not_isSome_iff_eq_none] at hop
      by_cases hyn : e1 = e2 ∧ (e1 = .symbol S.yes ∨ e1 = .symbol S.no)
      · refine ⟨(e1, e2), (Settles.of_some _).succ fun n => ?_⟩
        rw [eliminateEq1_leaf hop.1 hop.2, if_pos hyn]
      · obtain ⟨b, hb⟩ := ends_equal hk hs.le
        exact ⟨_, (hb.map _).succ fun n => (eliminateEq1_leaf hop.1 hop.2).trans (if_neg hyn)⟩

theorem exprEq_settles (e1 e2 : Expr σ) : ∃ b, Settles (exprEq S · e1 e2) b :=
  (endsAt _).equal e1 e2 rfl

variable (S)

/-- `expr_eq` ends on every two expressions, and those it finds equal have the same value. -/
theorem exprEqNull_settles (e1 e2 : Option (Expr σ)) :
    ∃ b, Settles (exprEqNull S · e1 e2) b ∧
      (b = true → ∀ V : Values S, exprCalcValueNull V e1 = exprCalcValueNull V e2) := by
  have hyes {e : Option (Expr σ)} (h : exprIsYes S e = true) (V : Values S) :
      exprCalcValueNull V e = .yes := by
    cases e with
    | none => rfl
    | some e =>
      obtain rfl := of_decide_eq_true h
      exact V.tri_of .yes
  match e1, e2 with
  | some e1, some e2 =>
    obtain ⟨b, hb⟩ := exprEq_settles (S := S) e1 e2
    refine ⟨b, hb, ?_⟩
    rintro rfl V
    exact hb.result (P := fun b => b = true → exprCalcValue V e1 = exprCalcValue V e2)
      (fun n b h hb => (soundFor n).equal e1 e2 (hb ▸ h) V) rfl
  | none, e2 =>
    refine ⟨_, .of_some _, fun h V => ?_⟩
    rw [Bool.and_eq_true] at h
    rw [hyes h.1, hyes h.2]
  | some e1, none =>
    refine ⟨_, .of_some _, fun h V => ?_⟩
    rw [Bool.and_eq_true] at h
    rw [hyes h.1, hyes h.2]

theorem exprEliminateEq_settles (e1 e2 : Expr σ) :
    ∃ x y, Settles (exprEliminateEq S · e1 e2) (x, y) ∧ x.size ≤ e1.size ∧ y.size ≤ e2.size ∧
      Decides S e1 e2 x y := by
  obtain ⟨⟨x, y⟩, hp⟩ := ends_eliminateEq (S := S) (fun m _ => endsAt m) (le_refl (e1.size + e2.size))
  have hsize := hp.result (P := fun p => p.1.size ≤ e1.size ∧ p.2.size ≤ e2.size) eliminateEq_size
  have hvalue := hp.result (P := fun p => Decides S e1 e2 p.1 p.2)
    fun n p h => (soundFor n).common e1 e2 p.1 p.2 h
  exact ⟨x, y, hp, hsize.1, hsize.2, hvalue⟩

/-- Both ways to compare end on every two expressions. What `expr_eq` finds equal has the same value,
and a comparison of the results of `expr_eliminate_eq` holds of the two expressions. -/
theorem comparisons_return :
    (∀ e1 e2 : Option (Expr σ), ∃ b, Settles (exprEqNull S · e1 e2) b ∧
      (b = true → ∀ V : Values S, exprCalcValueNull V e1 = exprCalcValueNull V e2)) ∧
    ∀ e1 e2 : Expr σ, ∃ x y, Settles (exprEliminateEq S · e1 e2) (x, y) ∧ x.size ≤ e1.size ∧
      y.size ≤ e2.size ∧ Decides S e1 e2 x y :=
  ⟨exprEqNull_settles S, exprEliminateEq_settles S⟩

end Runs
end Ysyx.Kconfig
