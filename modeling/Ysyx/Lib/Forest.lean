import Mathlib.Logic.Function.Basic
import Mathlib.Data.List.Nodup
import Mathlib.Data.List.Flatten
import Mathlib.Tactic

/-! Forests of tables. A forest names the table at each path of each tree; no two
places share a table, and a table hangs from one. Planting a root and hanging a
fresh table keep that, and the tables of a tree are collected once each. -/

namespace Ysyx.Tables

variable {κ ι α : Type}

/-- The table at a path, read from the root. -/
abbrev Places (κ ι α : Type) := κ → List ι → Option α

variable {f : Places κ ι α} {k k' : κ} {p q : List ι} {i : ι} {b c : α}

/-- The tables of one tree. -/
def Has (f : Places κ ι α) (k : κ) (b : α) : Prop := ∃ p, f k p = some b

structure Forest (f : Places κ ι α) : Prop where
  inj : ∀ k k' p q b, f k p = some b → f k' q = some b → k = k' ∧ p = q
  closed : ∀ k p i b, f k (p ++ [i]) = some b → ∃ c, f k p = some c

theorem forest_none : Forest (fun _ _ => none : Places κ ι α) :=
  ⟨fun _ _ _ _ _ h => (nomatch h), fun _ _ _ _ h => (nomatch h)⟩

/-- The prefixes of a place are places. -/
theorem Forest.prefix (hf : Forest f) (h : f k (p ++ q) = some b) : ∃ c, f k p = some c := by
  induction q using List.reverseRecOn generalizing b with
  | nil => exact ⟨b, by rwa [List.append_nil] at h⟩
  | append_singleton q i ih =>
    rw [← List.append_assoc] at h
    obtain ⟨c, hc⟩ := hf.closed k (p ++ q) i b h
    exact ih hc

section Update

variable [DecidableEq κ] [DecidableEq ι]

def plant (f : Places κ ι α) (k : κ) (c : α) : Places κ ι α :=
  Function.update f k fun p => if p = [] then some c else none

/-- A table hung below a path. -/
def graft (f : Places κ ι α) (k : κ) (p : List ι) (i : ι) (c : α) : Places κ ι α :=
  Function.update f k (Function.update (f k) (p ++ [i]) (some c))

omit [DecidableEq ι] in
theorem plant_self (f : Places κ ι α) (k : κ) (c : α) (p : List ι) :
    plant f k c k p = if p = [] then some c else none := by
  rw [plant, Function.update_self]

omit [DecidableEq ι] in
theorem plant_of_ne (f : Places κ ι α) (c : α) (h : k' ≠ k) : plant f k c k' = f k' :=
  Function.update_of_ne h _ _

theorem graft_self (f : Places κ ι α) (k : κ) (p : List ι) (i : ι) (c : α) :
    graft f k p i c k (p ++ [i]) = some c := by
  rw [graft, Function.update_self, Function.update_self]

theorem graft_of_ne (f : Places κ ι α) (c : α) (h : k' ≠ k) : graft f k p i c k' = f k' :=
  Function.update_of_ne h _ _

theorem graft_of_path_ne (f : Places κ ι α) (c : α) (h : q ≠ p ++ [i]) :
    graft f k p i c k q = f k q := by
  rw [graft, Function.update_self, Function.update_of_ne h]

theorem graft_cases (h : graft f k p i c k' q = some b) :
    f k' q = some b ∨ k' = k ∧ q = p ++ [i] ∧ b = c := by
  by_cases hk : k' = k
  · subst hk
    by_cases hq : q = p ++ [i]
    · subst hq
      rw [graft_self] at h
      exact .inr ⟨rfl, rfl, (Option.some.inj h).symm⟩
    · rw [graft_of_path_ne f c hq] at h
      exact .inl h
  · rw [graft_of_ne f c hk] at h
    exact .inl h

theorem graft_mono (hnone : f k (p ++ [i]) = none) (h : f k' q = some b) :
    graft f k p i c k' q = some b := by
  by_cases hk : k' = k
  · subst hk
    rw [graft_of_path_ne f c fun hq => ?_, h]
    rw [hq, hnone] at h
    cases h
  · rw [graft_of_ne f c hk, h]

omit [DecidableEq ι] in
theorem Forest.plant (hf : Forest f) (hc : ∀ k, ¬ Has f k c) : Forest (plant f k c) := by
  have hcase : ∀ k' p b, Tables.plant f k c k' p = some b →
      (k' ≠ k ∧ f k' p = some b) ∨ (k' = k ∧ p = [] ∧ b = c) := by
    intro k' p b h
    by_cases hk : k' = k
    · subst hk
      rw [plant_self] at h
      split_ifs at h with hp
      exact .inr ⟨rfl, hp, (Option.some.inj h).symm⟩
    · rw [plant_of_ne f c hk] at h
      exact .inl ⟨hk, h⟩
  refine ⟨fun k₁ k₂ p q b h₁ h₂ => ?_, fun k' p i b h => ?_⟩
  · rcases hcase k₁ p b h₁ with ⟨-, g₁⟩ | ⟨hk₁, hp, hb⟩ <;>
      rcases hcase k₂ q b h₂ with ⟨-, g₂⟩ | ⟨hk₂, hq, hb'⟩
    · exact hf.inj k₁ k₂ p q b g₁ g₂
    · exact absurd ⟨p, hb' ▸ g₁⟩ (hc k₁)
    · exact absurd ⟨q, hb ▸ g₂⟩ (hc k₂)
    · exact ⟨hk₁.trans hk₂.symm, hp.trans hq.symm⟩
  · rcases hcase k' _ b h with ⟨hk, h⟩ | ⟨-, hp, -⟩
    · obtain ⟨c', hc'⟩ := hf.closed k' p i b h
      exact ⟨c', by rw [plant_of_ne f c hk, hc']⟩
    · exact absurd hp (List.append_ne_nil_of_right_ne_nil _ (List.cons_ne_nil _ _))

theorem Forest.graft (hf : Forest f) (hp : f k p = some b) (hnone : f k (p ++ [i]) = none)
    (hc : ∀ k, ¬ Has f k c) : Forest (graft f k p i c) := by
  refine ⟨fun k₁ k₂ p₁ p₂ b' h₁ h₂ => ?_, fun k' q j b' h => ?_⟩
  · rcases graft_cases h₁ with g₁ | ⟨hk₁, hp₁, hb₁⟩ <;>
      rcases graft_cases h₂ with g₂ | ⟨hk₂, hp₂, hb₂⟩
    · exact hf.inj k₁ k₂ p₁ p₂ b' g₁ g₂
    · exact absurd ⟨p₁, hb₂ ▸ g₁⟩ (hc k₁)
    · exact absurd ⟨p₂, hb₁ ▸ g₂⟩ (hc k₂)
    · exact ⟨hk₁.trans hk₂.symm, hp₁.trans hp₂.symm⟩
  · rcases graft_cases h with h | ⟨rfl, hq, -⟩
    · obtain ⟨c', hc'⟩ := hf.closed k' q j b' h
      exact ⟨c', graft_mono hnone hc'⟩
    · rw [(List.append_inj_left' hq rfl)]
      exact ⟨b, graft_mono hnone hp⟩

theorem has_graft (hnone : f k (p ++ [i]) = none) :
    Has (graft f k p i c) k' b ↔ Has f k' b ∨ k' = k ∧ b = c := by
  constructor
  · rintro ⟨q, hq⟩
    rcases graft_cases hq with h | ⟨hk, -, hb⟩
    · exact .inl ⟨q, h⟩
    · exact .inr ⟨hk, hb⟩
  · rintro (⟨q, hq⟩ | ⟨rfl, rfl⟩)
    · exact ⟨q, graft_mono hnone hq⟩
    · exact ⟨p ++ [i], graft_self f _ p i _⟩

end Update

/-- The tables at and below a path, down to a depth, the lower ones first. -/
def collect (f : Places κ ι α) (k : κ) (is : List ι) : ℕ → List ι → List α
  | 0, _ => []
  | n + 1, p =>
    match f k p with
    | none => []
    | some b => (is.flatMap fun i => collect f k is n (p ++ [i])) ++ [b]

theorem collect_none {is : List ι} (n : ℕ) (h : f k p = none) : collect f k is n p = [] := by
  cases n with
  | zero => rfl
  | succ n => simp only [collect, h]

theorem exists_of_mem_collect {is : List ι} {n : ℕ} (h : b ∈ collect f k is n p) :
    ∃ q, f k (p ++ q) = some b := by
  induction n generalizing p with
  | zero => cases h
  | succ n ih =>
    cases hp : f k p with
    | none =>
      rw [collect_none _ hp] at h
      cases h
    | some c =>
      simp only [collect, hp, List.mem_append, List.mem_flatMap, List.mem_singleton] at h
      rcases h with ⟨i, -, hi⟩ | rfl
      · obtain ⟨q, hq⟩ := ih hi
        exact ⟨i :: q, by rwa [List.append_assoc] at hq⟩
      · exact ⟨[], by rwa [List.append_nil]⟩

theorem mem_collect {is : List ι} {n : ℕ} (hf : Forest f) (hq : f k (p ++ q) = some b)
    (hlen : q.length < n) (his : ∀ i ∈ q, i ∈ is) : b ∈ collect f k is n p := by
  induction n generalizing p q with
  | zero => exact absurd hlen (Nat.not_lt_zero _)
  | succ n ih =>
    obtain ⟨c, hc⟩ := hf.prefix hq
    simp only [collect, hc, List.mem_append, List.mem_flatMap, List.mem_singleton]
    cases q with
    | nil =>
      rw [List.append_nil, hc] at hq
      exact .inr (Option.some.inj hq).symm
    | cons i q =>
      refine .inl ⟨i, his i List.mem_cons_self, ih (q := q) ?_ (Nat.lt_of_succ_lt_succ hlen) ?_⟩
      · rwa [List.append_assoc]
      · exact fun j hj => his j (List.mem_cons_of_mem i hj)

theorem collect_nodup {is : List ι} (hf : Forest f) (his : is.Nodup) (n : ℕ) (p : List ι) :
    (collect f k is n p).Nodup := by
  induction n generalizing p with
  | zero => exact List.nodup_nil
  | succ n ih =>
    cases hp : f k p with
    | none =>
      rw [collect_none _ hp]
      exact List.nodup_nil
    | some b =>
      simp only [collect, hp]
      refine List.Nodup.append ?_ (List.nodup_singleton b) ?_
      · refine List.nodup_flatMap.mpr ⟨fun i _ => ih (p ++ [i]), ?_⟩
        -- two subtrees hang from different indices
        refine his.imp_of_mem fun {i j} _ _ hij c hi hj => ?_
        obtain ⟨q, hq⟩ := exists_of_mem_collect hi
        obtain ⟨r, hr⟩ := exists_of_mem_collect hj
        have heq := (hf.inj k k _ _ c hq hr).2
        rw [List.append_assoc, List.append_assoc] at heq
        exact hij (List.cons.inj (List.append_cancel_left heq)).1
      · intro c hc hcb
        obtain rfl := List.mem_singleton.mp hcb
        obtain ⟨i, -, hi⟩ := List.mem_flatMap.mp hc
        obtain ⟨q, hq⟩ := exists_of_mem_collect hi
        have heq := (hf.inj k k _ _ c hq hp).2
        rw [List.append_assoc] at heq
        exact absurd (List.append_right_eq_self.mp heq) (List.cons_ne_nil i q)

end Ysyx.Tables
