import Mathlib.Logic.Function.Basic
import Mathlib.Data.Set.Basic
import Mathlib.Tactic

/-! Singly linked lists in a heap. A list is finite when the links from its head
spell it out; pushing a node that is not on it keeps it finite, and pushing one
that is closes a cycle that no later push opens again. -/

namespace Ysyx.Chain

variable {α : Type} {next next' : α → Option α} {h : Option α} {p : α} {l l' : List α}

/-- The links from `h` spell `l` and end. -/
def Linked (next : α → Option α) : Option α → List α → Prop
  | h, [] => h = none
  | h, p :: l => h = some p ∧ Linked next (next p) l

@[simp] theorem linked_nil : Linked next h [] ↔ h = none := Iff.rfl

@[simp] theorem linked_cons : Linked next h (p :: l) ↔ h = some p ∧ Linked next (next p) l := Iff.rfl

/-- A head has one list. -/
theorem Linked.unique (hl : Linked next h l) (hl' : Linked next h l') : l = l' := by
  induction l generalizing h l' with
  | nil =>
    cases l' with
    | nil => rfl
    | cons q l' => cases hl.symm.trans hl'.1
  | cons p l ih =>
    cases l' with
    | nil => cases hl.1.symm.trans hl'
    | cons q l' =>
      cases hl.1.symm.trans hl'.1
      rw [ih hl.2 hl'.2]

theorem Linked.congr (hl : Linked next h l) (heq : ∀ p ∈ l, next' p = next p) :
    Linked next' h l := by
  induction l generalizing h with
  | nil => exact hl
  | cons p l ih =>
    refine ⟨hl.1, ?_⟩
    rw [heq p List.mem_cons_self]
    exact ih hl.2 fun q hq => heq q (List.mem_cons_of_mem p hq)

theorem Linked.suffix (hl : Linked next h l) (hp : p ∈ l) :
    ∃ s, Linked next (next p) s ∧ s.length < l.length := by
  induction l generalizing h with
  | nil => cases hp
  | cons q l ih =>
    rcases List.mem_cons.mp hp with rfl | hp
    · exact ⟨l, hl.2, Nat.lt_succ_self _⟩
    · obtain ⟨s, hs, hlen⟩ := ih hl.2 hp
      exact ⟨s, hs, hlen.trans (Nat.lt_succ_self _)⟩

theorem Linked.nodup (hl : Linked next h l) : l.Nodup := by
  induction l generalizing h with
  | nil => exact List.nodup_nil
  | cons p l ih =>
    refine List.nodup_cons.mpr ⟨fun hp => ?_, ih hl.2⟩
    obtain ⟨s, hs, hlen⟩ := hl.2.suffix hp
    rw [hs.unique hl.2] at hlen
    exact absurd hlen (lt_irrefl _)

theorem Linked.head_mem (hl : Linked next h (l ++ l')) (hne : l ≠ []) : ∃ p ∈ l, h = some p := by
  cases l with
  | nil => exact absurd rfl hne
  | cons p l => exact ⟨p, List.mem_cons_self, hl.1⟩

theorem Linked.exists_head (hl : Linked next h l) (hne : l ≠ []) : ∃ p, h = some p := by
  rw [← List.append_nil l] at hl
  obtain ⟨p, -, hp⟩ := hl.head_mem hne
  exact ⟨p, hp⟩

instance decidableLinked [DecidableEq α] (next : α → Option α) :
    ∀ (h : Option α) (l : List α), Decidable (Linked next h l)
  | h, [] => inferInstanceAs (Decidable (h = none))
  | h, p :: l =>
    have := decidableLinked next (next p) l
    inferInstanceAs (Decidable (h = some p ∧ Linked next (next p) l))

section Push

variable [DecidableEq α]

theorem Linked.unlink {q : α} (hl : Linked next h (l ++ q :: p :: l')) :
    Linked (Function.update next q (next p)) h (l ++ q :: l') := by
  induction l generalizing h with
  | nil =>
    have hq : q ∉ l' := fun hq =>
      (List.nodup_cons.mp hl.nodup).1 (List.mem_cons_of_mem p hq)
    refine ⟨hl.1, ?_⟩
    rw [Function.update_self]
    exact hl.2.2.congr fun r hr => Function.update_of_ne (ne_of_mem_of_not_mem hr hq) _ _
  | cons r l ih =>
    have hr : r ≠ q := by
      rintro rfl
      exact (List.nodup_cons.mp hl.nodup).1 (List.mem_append_right l List.mem_cons_self)
    refine ⟨hl.1, ?_⟩
    rw [Function.update_of_ne hr]
    exact ih hl.2

theorem Linked.push (hl : Linked next h l) (hp : p ∉ l) :
    Linked (Function.update next p h) (some p) (p :: l) := by
  refine ⟨rfl, ?_⟩
  rw [Function.update_self]
  exact hl.congr fun q hq => Function.update_of_ne (ne_of_mem_of_not_mem hq hp) _ _

/-- The links from `h` never leave the nodes of `D` and never end. -/
def Cyclic (D : Set α) (next : α → Option α) (h : Option α) : Prop :=
  ∃ S ⊆ D, (∃ q ∈ S, h = some q) ∧ ∀ p ∈ S, ∃ q ∈ S, next p = some q

omit [DecidableEq α] in
theorem Cyclic.not_linked {D : Set α} (hc : Cyclic D next h) : ¬ Linked next h l := by
  obtain ⟨S, -, hh, hS⟩ := hc
  intro hl
  induction l generalizing h with
  | nil =>
    obtain ⟨q, -, hq⟩ := hh
    cases hl.symm.trans hq
  | cons p l ih =>
    obtain ⟨q, hq, hhq⟩ := hh
    cases hl.1.symm.trans hhq
    exact ih (hS p hq) hl.2

omit [DecidableEq α] in
theorem Cyclic.congr {D D' : Set α} (hc : Cyclic D next h) (hD : D ⊆ D')
    (heq : ∀ p ∈ D, next' p = next p) : Cyclic D' next' h := by
  obtain ⟨S, hSD, hh, hS⟩ := hc
  refine ⟨S, hSD.trans hD, hh, fun p hp => ?_⟩
  rw [heq p (hSD hp)]
  exact hS p hp

theorem Cyclic.push {D : Set α} (hc : Cyclic D next h) (hp : p ∈ D) :
    Cyclic D (Function.update next p h) (some p) := by
  obtain ⟨S, hSD, ⟨q, hq, rfl⟩, hS⟩ := hc
  refine ⟨insert p S, Set.insert_subset hp hSD, ⟨p, Set.mem_insert p S, rfl⟩, ?_⟩
  intro r hr
  by_cases hrp : r = p
  · subst hrp
    exact ⟨q, Set.mem_insert_of_mem r hq, Function.update_self _ _ _⟩
  · obtain ⟨q', hq', hn⟩ := hS r (Set.mem_of_mem_insert_of_ne hr hrp)
    exact ⟨q', Set.mem_insert_of_mem p hq', by rw [Function.update_of_ne hrp, hn]⟩

omit [DecidableEq α] in
/-- The nodes from the head of a list to one of its nodes lead from one to the next. -/
theorem Linked.path (hl : Linked next h l) (hp : p ∈ l) :
    ∃ S : Set α, (∀ q ∈ S, q ∈ l) ∧ p ∈ S ∧ (∃ q ∈ S, h = some q) ∧
      ∀ q ∈ S, q ≠ p → ∃ r ∈ S, next q = some r := by
  induction l generalizing h with
  | nil => cases hp
  | cons q l ih =>
    by_cases hq : q = p
    · subst hq
      exact ⟨{q}, by simp, rfl, ⟨q, rfl, hl.1⟩, fun r hr hne => absurd hr hne⟩
    obtain ⟨S, hS, hpS, ⟨r, hr, hnext⟩, hstep⟩ :=
      ih hl.2 ((List.mem_cons.mp hp).resolve_left fun he => hq he.symm)
    refine ⟨insert q S, ?_, Set.mem_insert_of_mem q hpS, ⟨q, Set.mem_insert q S, hl.1⟩, ?_⟩
    · rintro x (rfl | hx)
      · exact List.mem_cons_self
      · exact List.mem_cons_of_mem q (hS x hx)
    · rintro x (rfl | hx) hxp
      · exact ⟨r, Set.mem_insert_of_mem x hr, hnext⟩
      · obtain ⟨y, hy, hxy⟩ := hstep x hx hxp
        exact ⟨y, Set.mem_insert_of_mem q hy, hxy⟩

/-- Pushing a node that is on the list already. -/
theorem Linked.push_mem {D : Set α} (hl : Linked next h l) (hp : p ∈ l) (hD : ∀ q ∈ l, q ∈ D) :
    Cyclic D (Function.update next p h) (some p) := by
  -- the nodes from the head to `p` now lead from one to the next and back
  obtain ⟨S, hS, hpS, hh, hstep⟩ := hl.path hp
  refine ⟨S, fun q hq => hD q (hS q hq), ⟨p, hpS, rfl⟩, fun q hq => ?_⟩
  by_cases hqp : q = p
  · subst hqp
    obtain ⟨r, hr, rfl⟩ := hh
    exact ⟨r, hr, Function.update_self _ _ _⟩
  · rw [Function.update_of_ne hqp]
    exact hstep q hq hqp

end Push

end Ysyx.Chain
