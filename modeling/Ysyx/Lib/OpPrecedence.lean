import Mathlib.Data.List.Basic
import Mathlib.Tactic

/-! Operator-precedence grammars: binary operators of several levels, all
left-associative, prefix operators that bind tighter, and parentheses. A string
is derived by splitting it at its last operator of the lowest level outside
parentheses, which is the only way to derive it. -/

namespace Ysyx.OpPrecedence

variable {τ : Type}

inductive Kind where
  | opening | closing | atom | unary | binary (level : ℕ) | other
  deriving DecidableEq, Repr

/-- The lowest level is 1; prefix operators have the level above `top`. -/
structure Grammar (τ : Type) where
  kind : τ → Kind
  top : ℕ
  bounds : ∀ t n, kind t = .binary n → 1 ≤ n ∧ n ≤ top

inductive ExprTree (τ : Type) where
  | leaf (t : τ)
  | unary (op : τ) (e : ExprTree τ)
  | binary (a : ExprTree τ) (op : τ) (b : ExprTree τ)
  deriving DecidableEq, Repr

/-- The strings of each level with their trees. -/
inductive Derives (G : Grammar τ) : ℕ → List τ → ExprTree τ → Prop
  | lift {n : ℕ} {ts : List τ} {e : ExprTree τ} (h : Derives G (n + 1) ts e) : Derives G n ts e
  | binary {n : ℕ} {l r : List τ} {op : τ} {a b : ExprTree τ} (hop : G.kind op = .binary n)
      (hl : Derives G n l a) (hr : Derives G (n + 1) r b) :
      Derives G n (l ++ op :: r) (.binary a op b)
  | unary {ts : List τ} {op : τ} {e : ExprTree τ} (hop : G.kind op = .unary)
      (h : Derives G (G.top + 1) ts e) : Derives G (G.top + 1) (op :: ts) (.unary op e)
  | atom {t : τ} (ht : G.kind t = .atom) : Derives G (G.top + 2) [t] (.leaf t)
  | paren {o c : τ} {ts : List τ} {e : ExprTree τ} (ho : G.kind o = .opening)
      (hc : G.kind c = .closing) (h : Derives G 1 ts e) :
      Derives G (G.top + 2) (o :: ts ++ [c]) e

variable {G : Grammar τ} {n k d : ℕ} {l r l' r' ts : List τ} {op op' o c t : τ} {e e' : ExprTree τ}

def Grammar.level (G : Grammar τ) (t : τ) : Option ℕ :=
  match G.kind t with
  | .unary => some (G.top + 1)
  | .binary n => some n
  | _ => none

/-- The parentheses that are open after a token, unless it closes one too many. -/
def step (G : Grammar τ) (d : ℕ) (t : τ) : Option ℕ :=
  match G.kind t with
  | .opening => some (d + 1)
  | .closing => if d = 0 then none else some (d - 1)
  | _ => some d

def scan (G : Grammar τ) : ℕ → List τ → Option ℕ
  | d, [] => some d
  | d, t :: ts => (step G d t).bind fun d' => scan G d' ts

def Balanced (G : Grammar τ) (ts : List τ) : Prop := scan G 0 ts = some 0

/-- An operator of the string outside parentheses. -/
def Top (G : Grammar τ) (ts : List τ) (op : τ) (n : ℕ) : Prop :=
  ∃ l r, ts = l ++ op :: r ∧ Balanced G l ∧ G.level op = some n

theorem level_le (h : G.level op = some n) : n ≤ G.top + 1 := by
  unfold Grammar.level at h
  split at h
  · exact (Option.some.inj h).ge
  · next hk => exact (Option.some.inj h) ▸ ((G.bounds op _ hk).2.trans (Nat.le_succ _))
  · cases h

theorem level_eq_top (h : G.level op = some (G.top + 1)) : G.kind op = .unary := by
  unfold Grammar.level at h
  split at h
  · assumption
  · next hk =>
    have hle := (G.bounds op _ hk).2
    rw [Option.some.inj h] at hle
    exact absurd hle (by omega)
  · cases h

theorem level_unary (h : G.kind op = .unary) : G.level op = some (G.top + 1) := by
  rw [Grammar.level, h]

theorem level_binary (h : G.kind op = .binary n) : G.level op = some n := by
  rw [Grammar.level, h]

theorem step_opening (h : G.kind o = .opening) : step G d o = some (d + 1) := by
  rw [step, h]

theorem step_closing (h : G.kind c = .closing) : step G (d + 1) c = some d := by
  rw [step, h]
  rfl

theorem step_closing_zero (h : G.kind c = .closing) : step G 0 c = none := by
  rw [step, h]
  rfl

theorem step_other (ho : G.kind t ≠ .opening) (hc : G.kind t ≠ .closing) :
    step G d t = some d := by
  rw [step]
  split
  · contradiction
  · contradiction
  · rfl

theorem step_op (h : G.level op = some n) : step G d op = some d := by
  refine step_other (fun hk => ?_) (fun hk => ?_) <;>
    · rw [Grammar.level, hk] at h
      cases h

theorem scan_cons (t : τ) (ts : List τ) (d : ℕ) :
    scan G d (t :: ts) = (step G d t).bind fun d' => scan G d' ts := rfl

theorem scan_append (l r : List τ) (d : ℕ) :
    scan G d (l ++ r) = (scan G d l).bind fun d' => scan G d' r := by
  induction l generalizing d with
  | nil => rfl
  | cons t l ih =>
    rw [List.cons_append, scan_cons, scan_cons, Option.bind_assoc]
    exact Option.bind_congr fun d' _ => ih d'

theorem scan_add {m : ℕ} (h : scan G d ts = some m) (k : ℕ) :
    scan G (d + k) ts = some (m + k) := by
  induction ts generalizing d with
  | nil =>
    rw [scan] at h ⊢
    rw [Option.some.inj h]
  | cons t ts ih =>
    rw [scan_cons] at h ⊢
    obtain ⟨d', hstep, h⟩ := Option.bind_eq_some_iff.mp h
    have hstep' : step G (d + k) t = some (d' + k) := by
      by_cases ho : G.kind t = .opening
      · rw [step_opening ho] at hstep ⊢
        rw [← Option.some.inj hstep, Nat.add_right_comm]
      by_cases hc : G.kind t = .closing
      · cases d with
        | zero =>
          rw [step_closing_zero hc] at hstep
          cases hstep
        | succ d =>
          rw [step_closing hc] at hstep
          rw [Nat.add_right_comm, step_closing hc, Option.some.inj hstep]
      · rw [step_other ho hc] at hstep ⊢
        rw [Option.some.inj hstep]
    rw [hstep']
    exact ih h

theorem Balanced.append_iff (hl : Balanced G l) : Balanced G (l ++ r) ↔ Balanced G r := by
  rw [Balanced, scan_append, hl]
  rfl

theorem Balanced.op_iff (hl : Balanced G l) (hop : G.level op = some n) :
    Balanced G (l ++ op :: r) ↔ Balanced G r := by
  rw [hl.append_iff, Balanced, scan_cons, step_op hop]
  rfl

/-- A last token that opens and closes nothing can be taken away. -/
theorem Balanced.init (h : Balanced G (ts ++ [t])) (ht : ∀ d, step G d t = some d) :
    Balanced G ts := by
  rw [Balanced, scan_append] at h
  obtain ⟨d, hd, hlast⟩ := Option.bind_eq_some_iff.mp h
  rw [scan_cons, ht d] at hlast
  rw [Balanced, hd, ← hlast]
  rfl

theorem Balanced.wrap (h : Balanced G ts) (ho : G.kind o = .opening) (hc : G.kind c = .closing) :
    Balanced G (o :: ts ++ [c]) := by
  rw [Balanced, List.cons_append, scan_cons, step_opening ho]
  change scan G (0 + 1) (ts ++ [c]) = some 0
  rw [scan_append, scan_add h 1]
  change scan G (0 + 1) [c] = some 0
  rw [scan_cons, step_closing hc]
  rfl

theorem split_cases (h : l ++ op :: r = l' ++ op' :: r') :
    (∃ m, l' = l ++ op :: m ∧ r = m ++ op' :: r') ∨ (l = l' ∧ op = op' ∧ r = r') ∨
      ∃ m, l = l' ++ op' :: m ∧ r' = m ++ op :: r := by
  rcases List.append_eq_append_iff.mp h with ⟨m, rfl, hm⟩ | ⟨m, rfl, hm⟩
  · cases m with
    | nil =>
      obtain ⟨rfl, rfl⟩ := List.cons.inj hm
      exact .inr (.inl ⟨by rw [List.append_nil], rfl, rfl⟩)
    | cons x m =>
      obtain ⟨rfl, rfl⟩ := List.cons.inj hm
      exact .inl ⟨m, rfl, rfl⟩
  · cases m with
    | nil =>
      obtain ⟨rfl, rfl⟩ := List.cons.inj hm
      exact .inr (.inl ⟨by rw [List.append_nil], rfl, rfl⟩)
    | cons x m =>
      obtain ⟨rfl, rfl⟩ := List.cons.inj hm
      exact .inr (.inr ⟨m, rfl, rfl⟩)

theorem top_op (hl : Balanced G l) (hop : G.level op = some n) : Top G (l ++ op :: r) op n :=
  ⟨l, r, rfl, hl, hop⟩

theorem top_split (hl : Balanced G l) (hop : G.level op = some n)
    (h : Top G (l ++ op :: r) op' k) : Top G l op' k ∨ (op' = op ∧ k = n) ∨ Top G r op' k := by
  obtain ⟨l', r', heq, hl', hop'⟩ := h
  rcases split_cases heq with ⟨m, rfl, rfl⟩ | ⟨rfl, rfl, rfl⟩ | ⟨m, rfl, rfl⟩
  · exact .inr (.inr (top_op ((hl.op_iff hop).mp hl') hop'))
  · exact .inr (.inl ⟨rfl, Option.some.inj (hop'.symm.trans hop)⟩)
  · exact .inl (top_op hl' hop')

theorem top_snoc :
    Top G (ts ++ [t]) op n ↔ Top G ts op n ∨ (op = t ∧ Balanced G ts ∧ G.level t = some n) := by
  constructor
  · rintro ⟨l, r, heq, hl, hop⟩
    rcases split_cases heq with ⟨m, -, hm⟩ | ⟨rfl, rfl, -⟩ | ⟨m, rfl, -⟩
    · exact absurd hm.symm (List.append_ne_nil_of_right_ne_nil m (List.cons_ne_nil _ _))
    · exact .inr ⟨rfl, hl, hop⟩
    · exact .inl (top_op hl hop)
  · rintro (⟨l, r, rfl, hl, hop⟩ | ⟨rfl, hts, hop⟩)
    · exact ⟨l, r ++ [t], by rw [List.append_assoc, List.cons_append], hl, hop⟩
    · exact ⟨ts, [], rfl, hts, hop⟩

theorem not_top_nil : ¬ Top G [] op n := by
  rintro ⟨l, r, h, -⟩
  exact List.append_ne_nil_of_right_ne_nil l (List.cons_ne_nil op r) h.symm

theorem not_top_wrapped (ho : G.kind o = .opening) (hts : Balanced G ts) :
    ¬ Top G (o :: ts ++ [c]) op n := by
  rintro ⟨l, r, heq, hl, hop⟩
  cases l with
  | nil =>
    rw [← (List.cons.inj heq).1, Grammar.level, ho] at hop
    cases hop
  | cons x l =>
    obtain ⟨rfl, htail⟩ := List.cons.inj heq
    have hinner : ∃ m, ts = l ++ m := by
      rcases split_cases htail with ⟨m, -, hm⟩ | ⟨rfl, -, -⟩ | ⟨m, rfl, -⟩
      · exact absurd hm.symm (List.append_ne_nil_of_right_ne_nil m (List.cons_ne_nil _ _))
      · exact ⟨[], (List.append_nil _).symm⟩
      · exact ⟨_, rfl⟩
    obtain ⟨m, rfl⟩ := hinner
    rw [Balanced, scan_append] at hts
    obtain ⟨d, hd, -⟩ := Option.bind_eq_some_iff.mp hts
    rw [Balanced, scan_cons, step_opening ho] at hl
    have hopen := (scan_add hd 1).symm.trans hl
    cases hopen

theorem Derives.lower (h : Derives G n ts e) (hk : k ≤ n) : Derives G k ts e := by
  induction hk with
  | refl => exact h
  | step _ ih => exact ih h.lift

/-- The last production that is not a lift. -/
theorem Derives.shape (h : Derives G n ts e) :
    (∃ t, G.kind t = .atom ∧ ts = [t] ∧ e = .leaf t) ∨
    (∃ o ts' c, G.kind o = .opening ∧ G.kind c = .closing ∧ ts = o :: ts' ++ [c] ∧
      Derives G 1 ts' e) ∨
    (∃ k l op r a b, n ≤ k ∧ G.kind op = .binary k ∧ ts = l ++ op :: r ∧ e = .binary a op b ∧
      Derives G k l a ∧ Derives G (k + 1) r b) ∨
    ∃ op ts' e', n ≤ G.top + 1 ∧ G.kind op = .unary ∧ ts = op :: ts' ∧ e = .unary op e' ∧
      Derives G (G.top + 1) ts' e' := by
  induction h with
  | lift _ ih =>
    rcases ih with h | h | ⟨k, l, op, r, a, b, hk, h⟩ | ⟨op, ts', e', hk, h⟩
    · exact .inl h
    · exact .inr (.inl h)
    · exact .inr (.inr (.inl ⟨k, l, op, r, a, b, (Nat.le_succ _).trans hk, h⟩))
    · exact .inr (.inr (.inr ⟨op, ts', e', (Nat.le_succ _).trans hk, h⟩))
  | binary hop hl hr => exact .inr (.inr (.inl ⟨_, _, _, _, _, _, le_rfl, hop, rfl, rfl, hl, hr⟩))
  | unary hop h => exact .inr (.inr (.inr ⟨_, _, _, le_rfl, hop, rfl, rfl, h⟩))
  | atom ht => exact .inl ⟨_, ht, rfl, rfl⟩
  | paren ho hc h => exact .inr (.inl ⟨_, _, _, ho, hc, rfl, h⟩)

theorem Derives.balanced (h : Derives G n ts e) : Balanced G ts := by
  induction h with
  | lift _ ih => exact ih
  | binary hop _ _ ihl ihr => exact (ihl.op_iff (level_binary hop)).mpr ihr
  | unary hop _ ih =>
    rw [Balanced, scan_cons, step_op (level_unary hop)]
    exact ih
  | atom ht =>
    rw [Balanced, scan_cons, step, ht]
    rfl
  | paren ho hc _ ih => exact ih.wrap ho hc

/-- Every token of a derived string plays a part. -/
theorem Derives.kind_ne_other (h : Derives G n ts e) : ∀ t ∈ ts, G.kind t ≠ .other := by
  induction h with
  | lift h ih => exact ih
  | binary hop hl hr ihl ihr =>
    intro t ht
    rcases List.mem_append.mp ht with ht | ht
    · exact ihl t ht
    rcases List.mem_cons.mp ht with rfl | ht
    · rw [hop]
      exact nofun
    · exact ihr t ht
  | unary hop h ih =>
    refine List.forall_mem_cons.mpr ⟨?_, ih⟩
    rw [hop]
    exact nofun
  | atom ht =>
    refine List.forall_mem_singleton.mpr ?_
    rw [ht]
    exact nofun
  | paren ho hc h ih =>
    rw [List.cons_append, List.forall_mem_cons, List.forall_mem_append, List.forall_mem_singleton]
    exact ⟨by rw [ho]; exact nofun, ih, by rw [hc]; exact nofun⟩

theorem not_derives_nil : ¬ Derives G n [] e := by
  intro h
  rcases h.shape with ⟨t, -, h, -⟩ | ⟨o, ts, c, -, -, h, -⟩ | ⟨k, l, op, r, a, b, -, -, h, -⟩ |
    ⟨op, ts, e', -, -, h, -⟩
  · cases h
  · cases h
  · exact List.append_ne_nil_of_right_ne_nil l (List.cons_ne_nil op r) h.symm
  · cases h

theorem not_top_atom (ht : G.kind t = .atom) : ¬ Top G [t] op n := by
  rintro ⟨l, r, heq, -, hop⟩
  cases l with
  | nil =>
    rw [← (List.cons.inj heq).1, Grammar.level, ht] at hop
    cases hop
  | cons x l =>
    exact List.append_ne_nil_of_right_ne_nil l (List.cons_ne_nil op r) (List.cons.inj heq).2.symm

/-- Outside parentheses a string of a level has operators of that level and above. -/
theorem Derives.le_of_top (h : Derives G n ts e) (htop : Top G ts op k) : n ≤ k := by
  induction h with
  | lift _ ih => exact (Nat.le_succ _).trans (ih htop)
  | binary hop hl hr ihl ihr =>
    rcases top_split hl.balanced (level_binary hop) htop with h | ⟨-, h⟩ | h
    · exact ihl h
    · exact h.ge
    · exact (Nat.le_succ _).trans (ihr h)
  | unary hop h ih =>
    rcases top_split (l := []) rfl (level_unary hop) htop with h | ⟨-, h⟩ | h
    · exact absurd h not_top_nil
    · exact h.ge
    · exact ih h
  | atom ht => exact absurd htop (not_top_atom ht)
  | paren ho hc h => exact absurd htop (not_top_wrapped ho h.balanced)

/-- A string with no operator below a level outside parentheses is of that level. -/
theorem Derives.raise (h : Derives G n ts e) (htop : ∀ op m, Top G ts op m → k ≤ m)
    (hk : k ≤ G.top + 2) : Derives G k ts e := by
  rcases h.shape with ⟨t, ht, rfl, rfl⟩ | ⟨o, ts', c, ho, hc, rfl, hts⟩ |
    ⟨m, l, op, r, a, b, -, hop, rfl, rfl, hl, hr⟩ | ⟨op, ts', e', -, hop, rfl, rfl, hts⟩
  · exact (Derives.atom ht).lower hk
  · exact (Derives.paren ho hc hts).lower hk
  · exact (Derives.binary hop hl hr).lower
      (htop op m (top_op hl.balanced (level_binary hop)))
  · exact (Derives.unary hop hts).lower
      (htop op _ (top_op (l := []) rfl (level_unary hop)))

/-- The operator of the lowest level outside parentheses: the last one if it is binary,
the first one if it is a prefix. -/
structure Lowest (G : Grammar τ) (l : List τ) (op : τ) (r : List τ) (n : ℕ) : Prop where
  level : G.level op = some n
  left : Balanced G l
  right : Balanced G r
  before : ∀ op' m, Top G l op' m → n ≤ m ∧ G.kind op ≠ .unary
  after : ∀ op' m, Top G r op' m → n < m ∨ n = m ∧ G.kind op = .unary

theorem Lowest.unique (h : Lowest G l op r n) (h' : Lowest G l' op' r' k)
    (heq : l ++ op :: r = l' ++ op' :: r') : l = l' ∧ op = op' ∧ r = r' := by
  have hlater : ∀ {l op r n l' op' r' k}, Lowest G l op r n → Lowest G l' op' r' k →
      ∀ m, l' = l ++ op :: m → r = m ++ op' :: r' → False := by
    rintro l op r n l' op' r' k h h' m rfl rfl
    obtain ⟨hle, hunary⟩ := h'.before op n (top_op h.left h.level)
    rcases h.after op' k (top_op ((h.left.op_iff h.level).mp h'.left) h'.level) with
      hlt | ⟨rfl, hu⟩
    · exact absurd hle (not_le.mpr hlt)
    · have htop := h.level
      rw [level_unary hu] at htop
      exact hunary (level_eq_top (h'.level.trans htop.symm))
  rcases split_cases heq with ⟨m, hl, hr⟩ | hsame | ⟨m, hl, hr⟩
  · exact (hlater h h' m hl hr).elim
  · exact hsame
  · exact (hlater h' h m hl hr).elim

theorem Lowest.top (h : Lowest G l op r n) : Top G (l ++ op :: r) op n := top_op h.left h.level

theorem lowest_of_binary {a b : ExprTree τ} (hop : G.kind op = .binary n) (hl : Derives G n l a)
    (hr : Derives G (n + 1) r b) : Lowest G l op r n where
  level := level_binary hop
  left := hl.balanced
  right := hr.balanced
  before _ _ htop := ⟨hl.le_of_top htop, by rw [hop]; exact Kind.noConfusion⟩
  after _ _ htop := .inl (hr.le_of_top htop)

theorem lowest_of_unary (hop : G.kind op = .unary) (h : Derives G (G.top + 1) ts e) :
    Lowest G [] op ts (G.top + 1) where
  level := level_unary hop
  left := rfl
  right := h.balanced
  before _ _ htop := absurd htop not_top_nil
  after _ m htop := by
    obtain ⟨-, -, -, -, hlevel⟩ := id htop
    exact .inr ⟨(h.le_of_top htop).antisymm (level_le hlevel), hop⟩

theorem derives_single : Derives G 1 [t] e ↔ G.kind t = .atom ∧ e = .leaf t := by
  constructor
  · intro h
    rcases h.shape with ⟨t', ht, heq, rfl⟩ | ⟨o, ts, c, -, -, heq, -⟩ |
      ⟨k, l, op, r, a, b, -, -, heq, -, hl, hr⟩ | ⟨op, ts, e', -, -, heq, -, h⟩
    · obtain rfl := (List.cons.inj heq).1
      exact ⟨ht, rfl⟩
    · exact absurd (List.cons.inj heq).2.symm
        (List.append_ne_nil_of_right_ne_nil ts (List.cons_ne_nil c []))
    · cases l with
      | nil => exact absurd hl not_derives_nil
      | cons x l =>
        exact absurd (List.cons.inj heq).2.symm
          (List.append_ne_nil_of_right_ne_nil l (List.cons_ne_nil op r))
    · rw [← (List.cons.inj heq).2] at h
      exact absurd h not_derives_nil
  · rintro ⟨ht, rfl⟩
    exact (Derives.atom ht).lower (by omega)

theorem derives_wrapped (ho : G.kind o = .opening) (hc : G.kind c = .closing)
    (hts : Balanced G ts) : Derives G 1 (o :: ts ++ [c]) e ↔ Derives G 1 ts e := by
  constructor
  · intro h
    rcases h.shape with ⟨t, -, heq, -⟩ | ⟨o', ts', c', -, -, heq, h⟩ |
      ⟨k, l, op, r, a, b, -, hop, heq, -, hl, -⟩ | ⟨op, ts', e', -, hop, heq, -, -⟩
    · exact absurd (List.cons.inj heq).2
        (List.append_ne_nil_of_right_ne_nil ts (List.cons_ne_nil c []))
    · rwa [(List.append_inj' (List.cons.inj heq).2 rfl).1]
    · exact absurd (heq ▸ top_op hl.balanced (level_binary hop)) (not_top_wrapped ho hts)
    · rw [← (List.cons.inj heq).1, ho] at hop
      cases hop
  · intro h
    exact (Derives.paren ho hc h).lower (by omega)

theorem derives_binary (h : Lowest G l op r n) (hop : G.kind op = .binary n) :
    Derives G 1 (l ++ op :: r) e ↔
      ∃ a b, e = .binary a op b ∧ Derives G 1 l a ∧ Derives G 1 r b := by
  constructor
  · intro hd
    rcases hd.shape with ⟨t, ht, heq, -⟩ | ⟨o, ts, c, ho, hc, heq, hts⟩ |
      ⟨k, l', op', r', a, b, hk, hop', heq, rfl, hl, hr⟩ | ⟨op', ts, e', -, hop', heq, -, hts⟩
    · exact absurd (heq ▸ h.top) (not_top_atom ht)
    · exact absurd (heq ▸ h.top) (not_top_wrapped ho hts.balanced)
    · obtain ⟨rfl, rfl, rfl⟩ := h.unique (lowest_of_binary hop' hl hr) heq
      exact ⟨a, b, rfl, hl.lower hk, hr.lower (by omega)⟩
    · obtain ⟨-, rfl, -⟩ := h.unique (lowest_of_unary hop' hts) heq
      cases hop.symm.trans hop'
  · rintro ⟨a, b, rfl, hl, hr⟩
    obtain ⟨hpos, hle⟩ := G.bounds op n hop
    refine (Derives.binary hop (hl.raise (fun op' m hm => (h.before op' m hm).1) (by omega))
      (hr.raise (fun op' m hm => ?_) (by omega))).lower hpos
    rcases h.after op' m hm with hlt | ⟨-, hu⟩
    · exact hlt
    · cases hop.symm.trans hu

theorem derives_unary (h : Lowest G [] op r n) (hop : G.kind op = .unary) :
    Derives G 1 (op :: r) e ↔ ∃ e', e = .unary op e' ∧ Derives G 1 r e' := by
  constructor
  · intro hd
    rcases hd.shape with ⟨t, ht, heq, -⟩ | ⟨o, ts, c, ho, hc, heq, hts⟩ |
      ⟨k, l', op', r', a, b, -, hop', heq, rfl, hl, hr⟩ | ⟨op', ts, e', -, hop', heq, rfl, hts⟩
    · exact absurd (heq ▸ h.top) (not_top_atom ht)
    · exact absurd (heq ▸ h.top) (not_top_wrapped ho hts.balanced)
    · obtain ⟨-, rfl, -⟩ := h.unique (lowest_of_binary hop' hl hr) heq
      cases hop.symm.trans hop'
    · obtain ⟨rfl, rfl⟩ := List.cons.inj heq
      exact ⟨e', rfl, hts.lower (by omega)⟩
  · rintro ⟨e', rfl, hr⟩
    refine (Derives.unary hop (hr.raise (fun op' m hm => ?_) (by omega))).lower (by omega)
    have hlevel := Option.some.inj (h.level.symm.trans (level_unary hop))
    rcases h.after op' m hm with hlt | ⟨heq, -⟩ <;> omega

/-- Without an operator outside parentheses there are only atoms and parentheses. -/
theorem not_derives_of_no_top (htop : ∀ op m, ¬ Top G ts op m) (hatom : ∀ t, ts ≠ [t])
    (hwrap : ∀ o ts' c, G.kind o = .opening → G.kind c = .closing → Balanced G ts' →
      ts ≠ o :: ts' ++ [c]) : ¬ Derives G n ts e := by
  intro h
  rcases h.shape with ⟨t, -, heq, -⟩ | ⟨o, ts', c, ho, hc, heq, h⟩ |
    ⟨k, l, op, r, a, b, -, hop, rfl, -, hl, -⟩ | ⟨op, ts', e', -, hop, rfl, -, -⟩
  · exact hatom t heq
  · exact hwrap o ts' c ho hc h.balanced heq
  · exact htop op k (top_op hl.balanced (level_binary hop))
  · exact htop op _ (top_op (l := []) rfl (level_unary hop))

/-- A string has one tree. -/
theorem Derives.unique (h : Derives G 1 ts e) (h' : Derives G 1 ts e') : e = e' := by
  induction hlen : ts.length using Nat.strong_induction_on generalizing ts e e' with
  | _ len ih =>
    rcases h.shape with ⟨t, ht, rfl, rfl⟩ | ⟨o, ts', c, ho, hc, rfl, hts⟩ |
      ⟨m, l, op, r, a, b, hm, hop, rfl, rfl, hl, hr⟩ | ⟨op, ts', e₁, -, hop, rfl, rfl, hts⟩
    · exact ((derives_single.mp h').2).symm
    · refine ih ts'.length ?_ hts ((derives_wrapped ho hc hts.balanced).mp h') rfl
      simp only [List.cons_append, List.length_cons, List.length_append, List.length_nil] at hlen
      omega
    · obtain ⟨a', b', rfl, hl', hr'⟩ := (derives_binary (lowest_of_binary hop hl hr) hop).mp h'
      simp only [List.length_append, List.length_cons] at hlen
      rw [ih l.length (by omega) (hl.lower hm) hl' rfl,
        ih r.length (by omega) (hr.lower (by omega)) hr' rfl]
    · obtain ⟨e₂, rfl, h₂⟩ := (derives_unary (lowest_of_unary hop hts) hop).mp h'
      rw [List.length_cons] at hlen
      rw [ih ts'.length (by omega) (hts.lower (by omega)) h₂ rfl]

/-- Two strings of a level with an operator of the level between them, or of a higher one. The
operator ends up inside the last operand of the left string and the first of the right. -/
theorem Derives.join {d : ℕ} (hop : G.kind op = .binary k) (hk : n + d = k)
    (hl : Derives G n l e) (hr : Derives G n r e') : ∃ e, Derives G n (l ++ op :: r) e := by
  have htop := (G.bounds op k hop).2
  induction hm : r.length + d using Nat.strong_induction_on generalizing n d l r e e' with
  | _ m ih =>
    cases hr with
    | lift hr =>
      cases d with
      | zero =>
        obtain rfl : n = k := hk
        exact ⟨_, .binary hop hl hr⟩
      | succ d =>
        cases hl with
        | lift hl =>
          obtain ⟨e₁, he₁⟩ := ih (r.length + d) (by omega) (by omega) hl hr rfl
          exact ⟨e₁, .lift he₁⟩
        | @binary _ l₁ l₂ op' a b hop' hl₁ hl₂ =>
          obtain ⟨e₁, he₁⟩ := ih (r.length + d) (by omega) (by omega) hl₂ hr rfl
          rw [List.append_assoc, List.cons_append]
          exact ⟨_, .binary hop' hl₁ he₁⟩
        | unary | atom | paren => omega
    | @binary _ r₁ r₂ op' a b hop' hr₁ hr₂ =>
      rw [List.length_append, List.length_cons] at hm
      obtain ⟨e₁, he₁⟩ := ih (r₁.length + d) (by omega) hk hl hr₁ rfl
      have hjoin := Derives.binary hop' he₁ hr₂
      rw [List.append_assoc, List.cons_append] at hjoin
      exact ⟨_, hjoin⟩
    | unary | atom | paren => omega

end Ysyx.OpPrecedence
