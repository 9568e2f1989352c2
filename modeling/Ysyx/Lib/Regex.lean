import Mathlib.Data.List.Basic
import Mathlib.Data.List.MinMax
import Mathlib.Tactic

/-! The part of POSIX extended regular expressions that a table of token rules needs:
alternatives of sequences of repeated character classes and word boundaries, and
the longest match at the start of a string. -/

namespace Ysyx.Regex

/-- A class repeated from `lo` to `hi` times, or `\b`. -/
inductive Item where
  | run (p : Char → Bool) (lo : ℕ) (hi : Option ℕ)
  | wordBound

/-- The alternatives of a pattern. -/
abbrev Pattern := List (List Item)

/-- `\w` -/
def isWord (c : Char) : Bool := c.isAlphanum || c == '_'

/-- A word, character by character. -/
def lit (w : String) : List Item := w.toList.map fun c => .run (· == c) 1 (some 1)

/-- How many characters a repeated class may take from a string. -/
def runs (p : Char → Bool) (lo : ℕ) (hi : Option ℕ) (s : List Char) : List ℕ :=
  (List.range (min (s.takeWhile p).length (hi.getD s.length) + 1)).filter (lo ≤ ·)

/-- The lengths of the matches of a sequence at the start of `s`, where `prev` is the
character before it. -/
def lens : List Item → Option Char → List Char → List ℕ
  | [], _, _ => [0]
  | .wordBound :: items, prev, s =>
    if prev.any isWord != s.head?.any isWord then lens items prev s else []
  | .run p lo hi :: items, prev, s =>
    (runs p lo hi s).flatMap fun n =>
      (lens items (if n = 0 then prev else s[n - 1]?) (s.drop n)).map (n + ·)

/-- `regexec` at the start of a string, where a match is the longest one. -/
def longest (r : Pattern) (s : List Char) : Option ℕ :=
  (r.flatMap fun items => lens items none s).max?

/-- The least number of characters that a sequence takes. -/
def minLen : List Item → ℕ
  | [] => 0
  | .wordBound :: items => minLen items
  | .run _ lo _ :: items => lo + minLen items

theorem mem_runs {p : Char → Bool} {lo : ℕ} {hi : Option ℕ} {s : List Char} {n : ℕ}
    (h : n ∈ runs p lo hi s) : lo ≤ n ∧ n ≤ s.length := by
  simp only [runs, List.mem_filter, List.mem_range, decide_eq_true_eq] at h
  have hlen := (List.takeWhile_sublist p (l := s)).length_le
  omega

theorem mem_lens {items : List Item} {prev : Option Char} {s : List Char} {n : ℕ}
    (h : n ∈ lens items prev s) : minLen items ≤ n ∧ n ≤ s.length := by
  induction items generalizing prev s n with
  | nil =>
    rw [lens, List.mem_singleton] at h
    rw [h]
    exact ⟨le_rfl, Nat.zero_le _⟩
  | cons item items ih =>
    cases item with
    | wordBound =>
      rw [lens] at h
      split_ifs at h
      · exact ih h
      · cases h
    | run p lo hi =>
      obtain ⟨k, hk, h⟩ := List.mem_flatMap.mp h
      obtain ⟨j, hj, rfl⟩ := List.mem_map.mp h
      obtain ⟨hlo, hlen⟩ := mem_runs hk
      obtain ⟨hmin, hrest⟩ := ih hj
      rw [List.length_drop] at hrest
      rw [minLen]
      omega

theorem longest_bounds {r : Pattern} {s : List Char} {n m : ℕ} (h : longest r s = some n)
    (hm : ∀ items ∈ r, m ≤ minLen items) : m ≤ n ∧ n ≤ s.length := by
  obtain ⟨items, hitems, hn⟩ := List.mem_flatMap.mp (List.max?_mem h)
  obtain ⟨hmin, hlen⟩ := mem_lens hn
  exact ⟨(hm items hitems).trans hmin, hlen⟩

theorem longest_eq_some_iff {r : Pattern} {s : List Char} {n : ℕ} :
    longest r s = some n ↔ (∃ items ∈ r, n ∈ lens items none s) ∧
      ∀ items ∈ r, ∀ k ∈ lens items none s, k ≤ n := by
  simp only [longest, List.max?_eq_some_iff, List.mem_flatMap]
  refine and_congr_right' ⟨fun h items hi k hk => h k ⟨items, hi, hk⟩, ?_⟩
  rintro h k ⟨items, hi, hk⟩
  exact h items hi k hk

theorem mem_runs_iff {p : Char → Bool} {lo : ℕ} {hi : Option ℕ} {s : List Char} {n : ℕ} :
    n ∈ runs p lo hi s ↔ lo ≤ n ∧ n ≤ (s.takeWhile p).length ∧ ∀ h ∈ hi, n ≤ h := by
  have hlen := (List.takeWhile_sublist p (l := s)).length_le
  simp only [runs, List.mem_filter, List.mem_range, decide_eq_true_eq]
  cases hi with
  | none =>
    simp only [Option.getD_none, Option.mem_def, reduceCtorEq, false_imp_iff, implies_true,
      and_true]
    omega
  | some h =>
    simp only [Option.getD_some, Option.mem_def, Option.some.injEq, forall_eq']
    omega

theorem mem_lens_last {p : Char → Bool} {lo n : ℕ} {prev : Option Char} {s : List Char} :
    n ∈ lens [.run p lo none] prev s ↔ lo ≤ n ∧ n ≤ (s.takeWhile p).length := by
  simp only [lens, List.map_cons, List.map_nil, Nat.add_zero, List.mem_flatMap,
    List.mem_singleton, exists_eq_right', mem_runs_iff, Option.mem_def, reduceCtorEq,
    false_imp_iff, implies_true, and_true]

theorem mem_lens_one {p : Char → Bool} {items : List Item} {prev : Option Char} {s : List Char}
    {n : ℕ} : n ∈ lens (.run p 1 (some 1) :: items) prev s ↔
      ∃ c s' j, s = c :: s' ∧ p c = true ∧ n = j + 1 ∧ j ∈ lens items (some c) s' := by
  simp only [lens, List.mem_flatMap, List.mem_map, mem_runs_iff, Option.mem_def,
    Option.some.injEq, forall_eq']
  constructor
  · rintro ⟨k, ⟨hlo, htake, hhi⟩, j, hj, rfl⟩
    obtain rfl : k = 1 := by omega
    match s with
    | [] => simp at htake
    | c :: s' =>
      have hc : p c = true := by
        by_contra hc
        simp [List.takeWhile_cons_of_neg hc] at htake
      exact ⟨c, s', j, rfl, hc, Nat.add_comm 1 j, hj⟩
  · rintro ⟨c, s', j, rfl, hc, rfl, hj⟩
    refine ⟨1, ⟨le_rfl, ?_, le_rfl⟩, j, hj, Nat.add_comm 1 j⟩
    rw [List.takeWhile_cons_of_pos hc]
    exact Nat.succ_le_succ (Nat.zero_le _)

/-- Whether a match of a sequence that is not empty can begin with `c`. -/
def starts : List Item → Char → Bool
  | [], _ => true
  | .wordBound :: items, c => starts items c
  | .run p lo _ :: _, c => lo == 0 || p c

theorem lens_of_starts {items : List Item} {c : Char} (h : starts items c = false)
    (prev : Option Char) (s : List Char) : lens items prev (c :: s) = [] := by
  induction items with
  | nil => cases h
  | cons item items ih =>
    cases item with
    | wordBound =>
      rw [lens]
      split_ifs
      · exact ih h
      · rfl
    | run p lo hi =>
      simp only [starts, Bool.or_eq_false_iff, beq_eq_false_iff_ne] at h
      have hruns : runs p lo hi (c :: s) = [] := by
        refine List.eq_nil_iff_forall_not_mem.mpr fun n hn => ?_
        have hle := mem_runs_iff.mp hn
        rw [List.takeWhile_cons_of_neg (by rw [h.2]; exact Bool.false_ne_true)] at hle
        simp only [List.length_nil] at hle
        omega
      rw [lens, hruns]
      rfl

theorem longest_of_starts {r : Pattern} {c : Char} (h : r.any (starts · c) = false)
    (s : List Char) : longest r (c :: s) = none := by
  have hnil : (r.flatMap fun items => lens items none (c :: s)) = [] := by
    rw [List.flatMap_eq_nil_iff]
    intro items hitems
    exact lens_of_starts (by simpa using List.any_eq_false.mp h items hitems) none s
  rw [longest, hnil]
  rfl

/-- Rules whose patterns cannot begin with the first character play no part. -/
theorem findSome?_starts {α : Type} {c : Char} (s : List Char) (rs : List (Pattern × α)) :
    (rs.findSome? fun rule => (longest rule.1 (c :: s)).map fun len => (rule.2, len)) =
      (rs.filter fun rule => rule.1.any (starts · c)).findSome? fun rule =>
        (longest rule.1 (c :: s)).map fun len => (rule.2, len) := by
  induction rs with
  | nil => rfl
  | cons rule rs ih =>
    cases h : rule.1.any (starts · c) with
    | true => rw [List.filter_cons, if_pos h, List.findSome?_cons, List.findSome?_cons, ih]
    | false =>
      rw [List.filter_cons, if_neg (by rw [h]; exact Bool.false_ne_true), List.findSome?_cons,
        longest_of_starts h, Option.map_none, ih]

/-- The string does not begin with a character of the class. -/
def Stops (p : Char → Bool) (s : List Char) : Prop := ∀ c ∈ s.head?, p c = false

theorem takeWhile_stops {p : Char → Bool} {w s : List Char} (hw : ∀ c ∈ w, p c = true)
    (hs : Stops p s) : (w ++ s).takeWhile p = w := by
  rw [List.takeWhile_append_of_pos hw]
  match s with
  | [] => exact List.append_nil w
  | c :: s => rw [List.takeWhile_cons_of_neg (by rw [hs c rfl]; exact Bool.false_ne_true),
      List.append_nil]

theorem Stops.mono {p q : Char → Bool} {s : List Char} (h : Stops q s)
    (hpq : ∀ c, p c = true → q c = true) : Stops p s := by
  intro c hc
  by_contra hp
  have hq := h c hc
  rw [hpq c (by simpa using hp)] at hq
  cases hq

/-- Every class of a sequence is part of `q`. -/
def Within (q : Char → Bool) (items : List Item) : Prop :=
  ∀ p lo hi, Item.run p lo hi ∈ items → ∀ c, p c = true → q c = true

theorem length_takeWhile_drop {p q : Char → Bool} (hpq : ∀ c, p c = true → q c = true) :
    ∀ {s : List Char} {k : ℕ}, k ≤ (s.takeWhile p).length →
      (s.takeWhile q).length = k + ((s.drop k).takeWhile q).length
  | _, 0, _ => by rw [Nat.zero_add, List.drop_zero]
  | [], k + 1, h => absurd h (by simp)
  | c :: s, k + 1, h => by
    by_cases hc : p c = true
    · rw [List.takeWhile_cons_of_pos hc, List.length_cons] at h
      rw [List.takeWhile_cons_of_pos (hpq c hc), List.length_cons, List.drop_succ_cons,
        length_takeWhile_drop hpq (Nat.le_of_succ_le_succ h)]
      omega
    · rw [List.takeWhile_cons_of_neg hc] at h
      exact absurd h (by simp)

theorem lens_le_takeWhile {q : Char → Bool} {items : List Item} (hq : Within q items)
    {prev : Option Char} {s : List Char} {n : ℕ} (h : n ∈ lens items prev s) :
    n ≤ (s.takeWhile q).length := by
  induction items generalizing prev s n with
  | nil =>
    rw [lens, List.mem_singleton] at h
    rw [h]
    exact Nat.zero_le _
  | cons item items ih =>
    have hrest : Within q items := fun p lo hi hm => hq p lo hi (List.mem_cons_of_mem item hm)
    cases item with
    | wordBound =>
      rw [lens] at h
      split_ifs at h
      · exact ih hrest h
      · cases h
    | run p lo hi =>
      obtain ⟨k, hk, h⟩ := List.mem_flatMap.mp h
      obtain ⟨j, hj, rfl⟩ := List.mem_map.mp h
      rw [length_takeWhile_drop (hq p lo hi List.mem_cons_self) (mem_runs_iff.mp hk).2.1]
      exact Nat.add_le_add_left (ih hrest hj) k

end Ysyx.Regex
