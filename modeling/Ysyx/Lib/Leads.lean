import Mathlib.Logic.Relation
import Mathlib.Tactic

/-! Total correctness on a transition relation: from a state some run gets to a state with a
property. A proof about a program is put together from these rules for sequences and loops. -/

namespace Ysyx

variable {σ : Type} {step : σ → σ → Prop} {s s' : σ} {P Q : σ → Prop}

/-- Some run from `s` gets to a state of `Q`. -/
def Leads (step : σ → σ → Prop) (s : σ) (Q : σ → Prop) : Prop :=
  ∃ s', Relation.ReflTransGen step s s' ∧ Q s'

theorem Leads.here (h : Q s) : Leads step s Q := ⟨s, .refl, h⟩

theorem Leads.head (h : step s s') (hs : Leads step s' Q) : Leads step s Q := by
  obtain ⟨t, run, ht⟩ := hs
  exact ⟨t, run.head h, ht⟩

theorem Leads.mono (h : Leads step s P) (hPQ : ∀ t, P t → Q t) : Leads step s Q := by
  obtain ⟨t, run, ht⟩ := h
  exact ⟨t, run, hPQ t ht⟩

theorem Leads.bind (h : Leads step s P) (hPQ : ∀ t, P t → Leads step t Q) :
    Leads step s Q := by
  obtain ⟨t, run, ht⟩ := h
  obtain ⟨u, run', hu⟩ := hPQ t ht
  exact ⟨u, run.trans run', hu⟩

/-- A loop: from the invariant a run either leaves the loop or is back in it with a smaller
variant. -/
theorem Leads.loop {I : σ → Prop} (variant : σ → ℕ)
    (hturn : ∀ t, I t → Leads step t fun u => Q u ∨ I u ∧ variant u < variant t) (hs : I s) :
    Leads step s Q := by
  suffices h : ∀ n t, variant t = n → I t → Leads step t Q from h _ s rfl hs
  intro n
  induction n using Nat.strong_induction_on with
  | _ n ih =>
    intro t hn ht
    refine (hturn t ht).bind ?_
    rintro u (hu | ⟨hu, hlt⟩)
    · exact .here hu
    · exact ih _ (hn ▸ hlt) u rfl hu

end Ysyx
