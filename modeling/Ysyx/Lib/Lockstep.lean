import Ysyx.Lib.Outcome

/-! Two sequences of calls side by side: both fail alike, or both return, with related results. -/

namespace Ysyx

variable {ε α α' β β' : Type}

inductive Lockstep (R : α → α' → Prop) : Except ε α → Except ε α' → Prop
  | ok {a : α} {a' : α'} (h : R a a') : Lockstep R (.ok a) (.ok a')
  | error (e : ε) : Lockstep R (.error e) (.error e)

namespace Lockstep

variable {R : α → α' → Prop} {S : β → β' → Prop} {x : Except ε α} {x' : Except ε α'}

theorem bind {f : α → Except ε β} {f' : α' → Except ε β'} (h : Lockstep R x x')
    (hf : ∀ a a', R a a' → Lockstep S (f a) (f' a')) : Lockstep S (x >>= f) (x' >>= f') := by
  cases h with
  | ok h => exact hf _ _ h
  | error e => exact .error e

theorem mono {R' : α → α' → Prop} (h : Lockstep R x x') (hR : ∀ a a', R a a' → R' a a') :
    Lockstep R' x x' := by
  cases h with
  | ok h => exact .ok (hR _ _ h)
  | error e => exact .error e

theorem with_results (h : Lockstep R x x') :
    Lockstep (fun a a' => R a a' ∧ x = .ok a ∧ x' = .ok a') x x' := by
  cases h with
  | ok h => exact .ok ⟨h, rfl, rfl⟩
  | error e => exact .error e

/-- The same call on both sides. -/
theorem same {f : α → Except ε β} {f' : α → Except ε β'} {x : Except ε α}
    (hf : ∀ a, x = .ok a → Lockstep S (f a) (f' a)) : Lockstep S (x >>= f) (x >>= f') := by
  cases x with
  | ok a => exact hf a rfl
  | error e => exact .error e

theorem map_eq {f : α → α'} (h : Lockstep (fun a a' => f a = a') x x') : f <$> x = x' := by
  cases h with
  | ok h => exact congrArg Except.ok h
  | error e => rfl

theorem foldlM {γ : Type} {f : α → γ → Except ε α} {f' : α' → γ → Except ε α'}
    (hf : ∀ a a' c, R a a' → Lockstep R (f a c) (f' a' c)) (l : List γ) {a : α} {a' : α'}
    (h : R a a') : Lockstep R (l.foldlM f a) (l.foldlM f' a') := by
  induction l generalizing a a' with
  | nil => exact .ok h
  | cons c l ih =>
    rw [List.foldlM_cons, List.foldlM_cons]
    exact (hf a a' c h).bind fun _ _ => ih

end Lockstep

end Ysyx
