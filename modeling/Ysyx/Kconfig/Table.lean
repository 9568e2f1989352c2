import Ysyx.Kconfig.Expr
import Ysyx.Lib.Bytes

/-! The symbol table of kconfig: over any sequence of lookups a name stands for one symbol, once as a
constant, once as a symbol and once as a choice. -/

namespace Ysyx.Kconfig

open Bytes

abbrev Name := List Byte

def SYMBOL_CONST : BitVec 32 := 0x0001
def SYMBOL_CHOICE : BitVec 32 := 0x0010
def SYMBOL_HASHSIZE : ℕ := 9973

/-- `strhash()`, where a `char` has a sign. -/
def strhash (s : Name) : BitVec 32 :=
  s.foldl (fun hash c => (hash ^^^ c.signExtend 32) * 0x01000193) 2166136261

structure Sym where
  name : Option Name
  flags : BitVec 32

/-- A `struct symbol *`: one of the three static symbols, or one that was allocated. -/
inductive Ref
  | of (t : Tristate)
  | heap (i : ℕ)
  deriving DecidableEq

/-- The allocated symbols, and `symbol_hash`. -/
structure SymbolTable where
  syms : List Sym
  hash : ℕ → List ℕ

def SymbolTable.empty : SymbolTable := ⟨[], fun _ => []⟩

def constName (name : Name) : Option Tristate :=
  if name = [0x79] then some .yes
  else if name = [0x6d] then some .mod
  else if name = [0x6e] then some .no
  else none

def bucket : Option Name → ℕ
  | some name => (strhash name).toNat % SYMBOL_HASHSIZE
  | none => 0

/-- The test of the loop in `sym_lookup()`. -/
def Sym.found (name : Name) (flags : BitVec 32) (s : Sym) : Bool :=
  s.name = some name ∧
    (if flags ≠ 0 then s.flags &&& flags ≠ 0 else s.flags &&& (SYMBOL_CONST ||| SYMBOL_CHOICE) = 0)

def SymbolTable.search (t : SymbolTable) (name : Name) (p : Sym → Bool) : Option ℕ :=
  (t.hash (bucket (some name))).find? fun i => t.syms[i]?.any p

def SymbolTable.add (t : SymbolTable) (name : Option Name) (flags : BitVec 32) : SymbolTable where
  syms := t.syms ++ [⟨name, flags⟩]
  hash h := if h = bucket name then t.syms.length :: t.hash h else t.hash h

def symLookup (t : SymbolTable) (name : Option Name) (flags : BitVec 32) : SymbolTable × Ref :=
  match name.bind constName with
  | some c => (t, .of c)
  | none =>
    match name.bind fun n => t.search n (Sym.found n flags) with
    | some i => (t, .heap i)
    | none => (t.add name flags, .heap t.syms.length)

def symFind (t : SymbolTable) (name : Name) : Option Ref :=
  match constName name with
  | some c => some (.of c)
  | none => (t.search name fun s => s.name = some name ∧ s.flags &&& SYMBOL_CONST = 0).map .heap

/-- The three ways the parser and the reader of `.config` look a name up. -/
inductive Kind
  | plain | const | choice
  deriving DecidableEq, Repr

def Kind.flags : Kind → BitVec 32
  | plain => 0
  | const => SYMBOL_CONST
  | choice => SYMBOL_CHOICE

def kindBits (flags : BitVec 32) : BitVec 32 := flags &&& (SYMBOL_CONST ||| SYMBOL_CHOICE)

/-- The other flags of a symbol change. -/
def SymbolTable.touch (t : SymbolTable) (i : ℕ) (flags : BitVec 32) : SymbolTable :=
  { t with syms := t.syms.modify i fun s =>
      { s with flags := kindBits s.flags ||| flags &&& ~~~(SYMBOL_CONST ||| SYMBOL_CHOICE) } }

inductive TableOp
  | lookup (name : Option Name) (kind : Kind)
  | touch (i : ℕ) (flags : BitVec 32)

/-- The calls in the order they are made, each with its result. -/
def runTable (t : SymbolTable) : List TableOp → SymbolTable × List ((Option Name × Kind) × Ref)
  | [] => (t, [])
  | .lookup name kind :: ops =>
    let (t, r) := symLookup t name kind.flags
    let (t, log) := runTable t ops
    (t, ((name, kind), r) :: log)
  | .touch i flags :: ops => runTable (t.touch i flags) ops

theorem kind_of_bits {a b : Kind} (h : a.flags = b.flags) : a = b := by
  cases a <;> cases b <;> first | rfl | exact absurd h (by decide)

theorem kindBits_touch (s f : BitVec 32) :
    kindBits (kindBits s ||| f &&& ~~~(SYMBOL_CONST ||| SYMBOL_CHOICE)) = kindBits s := by
  unfold kindBits
  generalize SYMBOL_CONST ||| SYMBOL_CHOICE = mask
  ext i hi
  simp only [BitVec.getElem_and, BitVec.getElem_or, BitVec.getElem_not]
  cases s[i] <;> cases f[i] <;> cases mask[i] <;> rfl

theorem kindBits_flags (k : Kind) : kindBits k.flags = k.flags := by cases k <;> decide

theorem found_iff {s : Sym} {name : Name} {k k' : Kind} (hs : kindBits s.flags = k'.flags) :
    s.found name k.flags = true ↔ s.name = some name ∧ k' = k := by
  have hconst : s.flags &&& SYMBOL_CONST = kindBits s.flags &&& SYMBOL_CONST := by
    rw [kindBits, BitVec.and_assoc]
    rfl
  have hchoice : s.flags &&& SYMBOL_CHOICE = kindBits s.flags &&& SYMBOL_CHOICE := by
    rw [kindBits, BitVec.and_assoc]
    rfl
  rw [Sym.found, decide_eq_true_eq]
  refine and_congr_right fun _ => ?_
  cases k with
  | plain =>
    rw [if_neg (by decide), show s.flags &&& (SYMBOL_CONST ||| SYMBOL_CHOICE) = k'.flags from hs]
    cases k' <;> decide
  | const =>
    rw [if_pos (by decide), show Kind.const.flags = SYMBOL_CONST from rfl, hconst, hs]
    cases k' <;> decide
  | choice =>
    rw [if_pos (by decide), show Kind.choice.flags = SYMBOL_CHOICE from rfl, hchoice, hs]
    cases k' <;> decide

structure Interned (t : SymbolTable) : Prop where
  kinds : ∀ (i : ℕ) (s : Sym), t.syms[i]? = some s → ∃ k : Kind, kindBits s.flags = k.flags
  listed : ∀ (i : ℕ) (s : Sym), t.syms[i]? = some s → i ∈ t.hash (bucket s.name)
  words : ∀ (i : ℕ) (s : Sym) n, t.syms[i]? = some s → s.name = some n → constName n = none
  unique : ∀ (i j : ℕ) (s s' : Sym) n, t.syms[i]? = some s → t.syms[j]? = some s' → s.name = some n →
    s'.name = some n → kindBits s.flags = kindBits s'.flags → i = j

/-- `r` is what this name stands for in a lookup of this kind. -/
def Known (t : SymbolTable) (name : Name) (k : Kind) : Ref → Prop
  | .of c => constName name = some c
  | .heap i => ∃ s : Sym, t.syms[i]? = some s ∧ s.name = some name ∧ kindBits s.flags = k.flags

/-- Nothing that was allocated goes away or is renamed. -/
def Later (t t' : SymbolTable) : Prop :=
  ∀ (i : ℕ) (s : Sym), t.syms[i]? = some s → ∃ s' : Sym, t'.syms[i]? = some s' ∧ s'.name = s.name ∧
    kindBits s'.flags = kindBits s.flags

theorem Later.refl (t : SymbolTable) : Later t t := fun _ s h => ⟨s, h, rfl, rfl⟩

theorem Later.trans {t t' t'' : SymbolTable} (h : Later t t') (h' : Later t' t'') : Later t t'' := by
  intro i s hs
  obtain ⟨s', hs', hn, hk⟩ := h i s hs
  obtain ⟨s'', hs'', hn', hk'⟩ := h' i s' hs'
  exact ⟨s'', hs'', hn'.trans hn, hk'.trans hk⟩

theorem Known.later {t t' : SymbolTable} {name : Name} {k : Kind} {r : Ref} (h : Known t name k r)
    (hl : Later t t') : Known t' name k r := by
  cases r with
  | of c => exact h
  | heap i =>
    obtain ⟨s, hs, hn, hk⟩ := h
    obtain ⟨s', hs', hn', hk'⟩ := hl i s hs
    exact ⟨s', hs', hn'.trans hn, hk'.trans hk⟩

theorem Known.eq_iff {t : SymbolTable} (ht : Interned t) {n m : Name} {k l : Kind} {r r' : Ref}
    (h : Known t n k r) (h' : Known t m l r') :
    r = r' ↔ n = m ∧ (k = l ∨ (constName n).isSome) := by
  have hname {n m : Name} {c : Tristate} (hn : constName n = some c) (hm : constName m = some c) :
      n = m := by
    unfold constName at hn hm
    split_ifs at hn hm
    all_goals subst n
    all_goals subst m
    all_goals first | rfl | (cases hn; cases hm)
  cases r with
  | of c =>
    cases r' with
    | of d =>
      rw [Known] at h h'
      constructor
      · rintro ⟨⟩
        exact ⟨hname h h', .inr (by rw [h]; rfl)⟩
      · rintro ⟨rfl, -⟩
        rw [h] at h'
        rw [Option.some.inj h']
    | heap j =>
      obtain ⟨s, hs, hn, -⟩ := h'
      refine ⟨fun he => Ref.noConfusion he, ?_⟩
      rintro ⟨rfl, -⟩
      rw [Known, ht.words j s n hs hn] at h
      cases h
  | heap i =>
    obtain ⟨s, hs, hn, hk⟩ := h
    have hword := ht.words i s n hs hn
    cases r' with
    | of d =>
      refine ⟨fun he => Ref.noConfusion he, ?_⟩
      rintro ⟨rfl, -⟩
      rw [Known, hword] at h'
      cases h'
    | heap j =>
      obtain ⟨s', hs', hn', hk'⟩ := h'
      constructor
      · rintro ⟨⟩
        obtain rfl := Option.some.inj (hs.symm.trans hs')
        exact ⟨Option.some.inj (hn.symm.trans hn'), .inl (kind_of_bits (hk.symm.trans hk'))⟩
      · rintro ⟨rfl, rfl | hc⟩
        · rw [ht.unique i j s s' n hs hs' hn hn' (hk.trans hk'.symm)]
        · rw [hword] at hc
          cases hc

theorem search_some {t : SymbolTable} {name : Name} {p : Sym → Bool} {i : ℕ}
    (h : t.search name p = some i) : ∃ s, t.syms[i]? = some s ∧ p s = true := by
  have hp := List.find?_some h
  rwa [Option.any_eq_true] at hp

/-- The loop finds a symbol when there is one: it is in the bucket of its name. -/
theorem search_none {t : SymbolTable} (ht : Interned t) {name : Name} {p : Sym → Bool}
    (h : t.search name p = none) {i : ℕ} {s : Sym} (hs : t.syms[i]? = some s)
    (hn : s.name = some name) : p s = false := by
  have hmem := ht.listed i s hs
  rw [hn] at hmem
  have hno := List.find?_eq_none.mp h i hmem
  rw [hs, Option.any_some, Bool.not_eq_true] at hno
  exact hno

theorem add_getElem? {t : SymbolTable} {name : Option Name} {flags : BitVec 32} {i : ℕ} {s : Sym}
    (h : (t.add name flags).syms[i]? = some s) :
    t.syms[i]? = some s ∨ i = t.syms.length ∧ s = ⟨name, flags⟩ := by
  rw [SymbolTable.add, List.getElem?_append] at h
  split_ifs at h with hi
  · exact .inl h
  · rw [List.getElem?_singleton] at h
    split_ifs at h with h0
    cases h
    exact .inr ⟨by omega, rfl⟩

theorem Interned.add {t : SymbolTable} (ht : Interned t) (name : Option Name) (k : Kind)
    (hword : ∀ n, name = some n → constName n = none)
    (hnew : ∀ (n : Name) (i : ℕ) (s : Sym), name = some n → t.syms[i]? = some s → s.name = some n →
      kindBits s.flags ≠ k.flags) : Interned (t.add name k.flags) := by
  have hk := kindBits_flags k
  refine ⟨fun i s h => ?_, fun i s h => ?_, fun i s n h hn => ?_,
    fun i j s s' n h h' hn hn' hb => ?_⟩
  · obtain h | ⟨rfl, rfl⟩ := add_getElem? h
    · exact ht.kinds i s h
    · exact ⟨k, hk⟩
  · obtain h | ⟨rfl, rfl⟩ := add_getElem? h
    · have hmem := ht.listed i s h
      simp only [SymbolTable.add]
      split_ifs
      · exact List.mem_cons_of_mem _ hmem
      · exact hmem
    · simp [SymbolTable.add]
  · obtain h | ⟨rfl, rfl⟩ := add_getElem? h
    · exact ht.words i s n h hn
    · exact hword n hn
  · obtain h | ⟨rfl, rfl⟩ := add_getElem? h <;> obtain h' | ⟨rfl, rfl⟩ := add_getElem? h'
    · exact ht.unique i j s s' n h h' hn hn' hb
    · exact absurd (hb.trans hk) (hnew n i s hn' h hn)
    · exact absurd (hb.symm.trans hk) (hnew n j s' hn h' hn')
    · rfl

theorem later_add (t : SymbolTable) (name : Option Name) (flags : BitVec 32) :
    Later t (t.add name flags) := by
  intro i s h
  have hi : i < t.syms.length := (List.getElem?_eq_some_iff.mp h).1
  exact ⟨s, by rw [SymbolTable.add, List.getElem?_append_left hi, h], rfl, rfl⟩

/-- What a lookup does: the table keeps its invariant and its symbols, and the result is the symbol
of the name, or a new one when there is no name. -/
structure Looked (t : SymbolTable) (name : Option Name) (k : Kind) (t' : SymbolTable) (r : Ref) :
    Prop where
  interned : Interned t'
  later : Later t t'
  known : ∀ n, name = some n → Known t' n k r
  added : ∀ (i : ℕ) (s : Sym), t'.syms[i]? = some s →
    t.syms[i]? = some s ∨ i = t.syms.length ∧ s = ⟨name, k.flags⟩ ∧ r = .heap i
  fresh : name = none → r = .heap t.syms.length ∧ t'.syms[t.syms.length]? = some ⟨none, k.flags⟩

theorem symLookup_looked {t : SymbolTable} (ht : Interned t) (name : Option Name) (k : Kind) :
    Looked t name k (symLookup t name k.flags).1 (symLookup t name k.flags).2 := by
  have hkk := kindBits_flags k
  have hlast (name : Option Name) :
      (t.add name k.flags).syms[t.syms.length]? = some ⟨name, k.flags⟩ := by
    simp [SymbolTable.add]
  have hnew (name : Option Name) (i : ℕ) (s : Sym) (h : (t.add name k.flags).syms[i]? = some s) :
      t.syms[i]? = some s ∨
        i = t.syms.length ∧ s = ⟨name, k.flags⟩ ∧ Ref.heap t.syms.length = .heap i :=
    (add_getElem? h).imp_right fun h => ⟨h.1, h.2, by rw [h.1]⟩
  cases name with
  | none =>
    have hadd := ht.add none k (fun _ h => nomatch h) (fun _ _ _ h => nomatch h)
    exact ⟨hadd, later_add _ _ _, fun _ h => (nomatch h), fun i s h => hnew none i s h,
      fun _ => ⟨rfl, hlast none⟩⟩
  | some n =>
    rw [symLookup, Option.bind_some, Option.bind_some]
    cases hc : constName n with
    | some c =>
      refine ⟨ht, .refl t, fun m hm => ?_, fun _ _ h => .inl h, fun h => by cases h⟩
      cases hm
      exact hc
    | none =>
      cases hf : t.search n (Sym.found n k.flags) with
      | some i =>
        refine ⟨ht, .refl t, fun m hm => ?_, fun _ _ h => .inl h, fun h => by cases h⟩
        cases hm
        obtain ⟨s, hs, hp⟩ := search_some hf
        obtain ⟨k', hk'⟩ := ht.kinds i s hs
        obtain ⟨hn, rfl⟩ := (found_iff hk').mp hp
        exact ⟨s, hs, hn, hk'⟩
      | none =>
        have hadd := ht.add (some n) k (fun m hm => by cases hm; exact hc)
          fun m i s hm hs hn hb => by
            cases hm
            have hno := search_none ht hf hs hn
            rw [(found_iff hb).mpr ⟨hn, rfl⟩] at hno
            cases hno
        refine ⟨hadd, later_add _ _ _, fun m hm => ?_, fun i s h => hnew (some n) i s h,
          fun h => by cases h⟩
        cases hm
        exact ⟨_, hlast (some n), rfl, hkk⟩

theorem touch_getElem? (t : SymbolTable) (i j : ℕ) (flags : BitVec 32) {s : Sym}
    (h : (t.touch i flags).syms[j]? = some s) :
    ∃ s' : Sym, t.syms[j]? = some s' ∧ s.name = s'.name ∧ kindBits s.flags = kindBits s'.flags := by
  rw [SymbolTable.touch, List.getElem?_modify, Option.map_eq_map, Option.map_eq_some_iff] at h
  obtain ⟨s', hs', rfl⟩ := h
  refine ⟨s', hs', ?_, ?_⟩
  · split_ifs <;> rfl
  · split_ifs
    · exact kindBits_touch _ _
    · rfl

theorem later_touch (t : SymbolTable) (i : ℕ) (flags : BitVec 32) : Later t (t.touch i flags) := by
  intro j s hs
  rw [SymbolTable.touch, List.getElem?_modify, hs]
  refine ⟨_, rfl, ?_, ?_⟩
  · split_ifs <;> rfl
  · split_ifs
    · exact kindBits_touch _ _
    · rfl

theorem Interned.touch {t : SymbolTable} (ht : Interned t) (i : ℕ) (flags : BitVec 32) :
    Interned (t.touch i flags) := by
  refine ⟨fun j s h => ?_, fun j s h => ?_, fun j s n h hn => ?_,
    fun j j' s s' n h h' hn hn' hb => ?_⟩
  · obtain ⟨s', hs', -, hk⟩ := touch_getElem? t i j flags h
    obtain ⟨k, hk'⟩ := ht.kinds j s' hs'
    exact ⟨k, hk.trans hk'⟩
  · obtain ⟨s', hs', hn, -⟩ := touch_getElem? t i j flags h
    rw [hn]
    exact ht.listed j s' hs'
  · obtain ⟨s', hs', hn', -⟩ := touch_getElem? t i j flags h
    exact ht.words j s' n hs' (hn'.symm.trans hn)
  · obtain ⟨u, hu, hun, huk⟩ := touch_getElem? t i j flags h
    obtain ⟨v, hv, hvn, hvk⟩ := touch_getElem? t i j' flags h'
    exact ht.unique j j' u v n hu hv (hun.symm.trans hn) (hvn.symm.trans hn')
      (huk.symm.trans (hb.trans hvk))

/-- A call of the log, as the last table has it. -/
def Stands (t : SymbolTable) (a : (Option Name × Kind) × Ref) : Prop :=
  (∀ n, a.1.1 = some n → Known t n a.1.2 a.2) ∧
    (a.1.1 = none → ∃ (i : ℕ) (s : Sym), a.2 = .heap i ∧ t.syms[i]? = some s ∧ s.name = none)

theorem Stands.later {t t' : SymbolTable} {a : (Option Name × Kind) × Ref} (h : Stands t a)
    (hl : Later t t') : Stands t' a := by
  refine ⟨fun n hn => (h.1 n hn).later hl, fun hn => ?_⟩
  obtain ⟨i, s, hi, hs, hnone⟩ := h.2 hn
  obtain ⟨s', hs', hname, -⟩ := hl i s hs
  exact ⟨i, s', hi, hs', hname.trans hnone⟩

theorem Looked.stands {t t' : SymbolTable} {name : Option Name} {k : Kind} {r : Ref}
    (h : Looked t name k t' r) : Stands t' ((name, k), r) :=
  ⟨h.known, fun hn => ⟨_, _, (h.fresh hn).1, (h.fresh hn).2, rfl⟩⟩

theorem length_le_of_later {t t' : SymbolTable} (h : Later t t') :
    t.syms.length ≤ t'.syms.length := by
  by_contra hlt
  have hi : t'.syms.length < t.syms.length := by omega
  obtain ⟨s', hs', -⟩ := h _ _ (List.getElem?_eq_getElem hi)
  simp at hs'

/-- A call of the log has allocated this symbol. -/
def Logged (log : List ((Option Name × Kind) × Ref)) (i : ℕ) (s : Sym) : Prop :=
  ∃ a ∈ log, a.1.1 = s.name ∧ kindBits s.flags = a.1.2.flags ∧ a.2 = .heap i

/-- The table, the results as it has them, that what has no name is allocated anew, and that the
calls have allocated all there is. -/
structure RunKeeps (t : SymbolTable) (u : SymbolTable × List ((Option Name × Kind) × Ref)) :
    Prop where
  interned : Interned u.1
  later : Later t u.1
  stands : ∀ a ∈ u.2, Stands u.1 a
  fresh : ∀ a ∈ u.2, a.1.1 = none → ∃ i, t.syms.length ≤ i ∧ a.2 = .heap i
  logged : ∀ (i : ℕ) (s : Sym), u.1.syms[i]? = some s → i < t.syms.length ∨ Logged u.2 i s

theorem runTable_keeps (ops : List TableOp) {t : SymbolTable} (ht : Interned t) :
    RunKeeps t (runTable t ops) := by
  induction ops generalizing t with
  | nil =>
    exact ⟨ht, .refl t, by simp [runTable], by simp [runTable],
      fun i s h => .inl (List.getElem?_eq_some_iff.mp h).1⟩
  | cons op ops ih =>
    cases op with
    | touch i flags =>
      have h := ih (ht.touch i flags)
      have hlater := later_touch t i flags
      refine ⟨h.interned, hlater.trans h.later, h.stands, fun a ha hn => ?_, fun j s hs => ?_⟩
      · obtain ⟨j, hj, hr⟩ := h.fresh a ha hn
        exact ⟨j, (length_le_of_later hlater).trans hj, hr⟩
      · have hlen : (t.touch i flags).syms.length = t.syms.length := List.length_modify _ _ _
        rw [← hlen]
        exact h.logged j s hs
    | lookup name k =>
      have hlook := symLookup_looked ht name k
      have h := ih hlook.interned
      refine ⟨h.interned, hlook.later.trans h.later, fun a ha => ?_, fun a ha hn => ?_,
        fun i s hs => ?_⟩
      · obtain rfl | ha := List.mem_cons.mp ha
        · exact hlook.stands.later h.later
        · exact h.stands a ha
      · obtain rfl | ha := List.mem_cons.mp ha
        · exact ⟨_, le_rfl, (hlook.fresh hn).1⟩
        · obtain ⟨j, hj, hr⟩ := h.fresh a ha hn
          exact ⟨j, (length_le_of_later hlook.later).trans hj, hr⟩
      · obtain hi | ⟨a, ha, hname, hkind, hr⟩ := h.logged i s hs
        swap
        · exact .inr ⟨a, List.mem_cons_of_mem _ ha, hname, hkind, hr⟩
        -- the symbol as this call has left it
        have hs₀ := List.getElem?_eq_getElem hi
        obtain ⟨s', hs', hname, hkind⟩ := h.later i _ hs₀
        obtain rfl := Option.some.inj (hs.symm.trans hs')
        obtain hold | ⟨-, hsym, hr⟩ := hlook.added i _ hs₀
        · exact .inl (List.getElem?_eq_some_iff.mp hold).1
        · rw [hsym] at hname hkind
          exact .inr ⟨_, List.mem_cons_self, hname.symm, hkind.trans (kindBits_flags k), hr⟩

/-- Two calls give one symbol exactly when they are about one name. -/
def OneName (a b : (Option Name × Kind) × Ref) : Prop :=
  a.2 = b.2 ↔ ∃ n, a.1.1 = some n ∧ b.1.1 = some n ∧ (a.1.2 = b.1.2 ∨ (constName n).isSome)

theorem Known.ne_unnamed {t : SymbolTable} {n : Name} {k : Kind} {r r' : Ref} (h : Known t n k r)
    (h' : ∃ (i : ℕ) (s : Sym), r' = .heap i ∧ t.syms[i]? = some s ∧ s.name = none) : r ≠ r' := by
  rintro rfl
  obtain ⟨i, s, rfl, hs, hnone⟩ := h'
  obtain ⟨s', hs', hn, -⟩ := h
  obtain rfl := Option.some.inj (hs.symm.trans hs')
  rw [hnone] at hn
  cases hn

theorem runTable_pairwise (ops : List TableOp) {t : SymbolTable} (ht : Interned t) :
    (runTable t ops).2.Pairwise OneName := by
  induction ops generalizing t with
  | nil => exact .nil
  | cons op ops ih =>
    cases op with
    | touch i flags => exact ih (ht.touch i flags)
    | lookup name k =>
      have hlook := symLookup_looked ht name k
      have hrun := runTable_keeps ops hlook.interned
      refine List.pairwise_cons.mpr ⟨fun b hb => ?_, ih hlook.interned⟩
      have ha := hlook.stands.later hrun.later
      have hb' := hrun.stands b hb
      obtain ⟨⟨name', l⟩, r'⟩ := b
      cases name with
      | some n =>
        cases name' with
        | some m =>
          refine (Known.eq_iff hrun.interned (ha.1 n rfl) (hb'.1 m rfl)).trans ⟨?_, ?_⟩
          · rintro ⟨rfl, h⟩
            exact ⟨n, rfl, rfl, h⟩
          · rintro ⟨n', hn, hm, h⟩
            cases hn
            cases hm
            exact ⟨rfl, h⟩
        | none =>
          refine iff_of_false ((ha.1 n rfl).ne_unnamed (hb'.2 rfl)) ?_
          rintro ⟨n', -, hm, -⟩
          cases hm
      | none =>
        refine iff_of_false ?_ ?_
        · cases name' with
          | some m => exact ((hb'.1 m rfl).ne_unnamed (ha.2 rfl)).symm
          | none =>
            obtain ⟨hr, hs⟩ := hlook.fresh rfl
            obtain ⟨j, hj, hr'⟩ := hrun.fresh _ hb rfl
            have hlt := (List.getElem?_eq_some_iff.mp hs).1
            intro he
            have heq := (hr.symm.trans he).trans hr'
            injection heq with heq
            omega
        · rintro ⟨n', hn, -, -⟩
          cases hn

theorem interned_empty : Interned .empty :=
  ⟨fun _ _ h => by simp [SymbolTable.empty] at h, fun _ _ h => by simp [SymbolTable.empty] at h,
    fun _ _ _ h => by simp [SymbolTable.empty] at h, fun _ _ _ _ _ h => by simp [SymbolTable.empty] at h⟩

theorem const_bits {s : Sym} {k : Kind} (hs : kindBits s.flags = k.flags) :
    s.flags &&& SYMBOL_CONST = 0 ↔ k ≠ .const := by
  have hconst : s.flags &&& SYMBOL_CONST = kindBits s.flags &&& SYMBOL_CONST := by
    rw [kindBits, BitVec.and_assoc]
    rfl
  rw [hconst, hs]
  cases k <;> decide

/-- `sym_find` gives `y`, `m` or `n`, or what a lookup of the name other than as a constant has given,
and nothing only if there was none. -/
def FindsName (t : SymbolTable) (log : List ((Option Name × Kind) × Ref)) (n : Name) : Prop :=
  match symFind t n with
  | some r => constName n = none ∧ (∃ a ∈ log, a.1.1 = some n ∧ a.1.2 ≠ .const ∧ a.2 = r) ∨
      ∃ c, constName n = some c ∧ r = .of c
  | none => constName n = none ∧ ∀ a ∈ log, a.1.1 = some n → a.1.2 = .const

theorem symFind_finds {t : SymbolTable} (ht : Interned t) {log : List ((Option Name × Kind) × Ref)}
    (hlog : ∀ a ∈ log, Stands t a)
    (hall : ∀ (i : ℕ) (s : Sym), t.syms[i]? = some s → Logged log i s) (n : Name) :
    FindsName t log n := by
  unfold FindsName symFind
  cases hc : constName n with
  | some c => exact .inr ⟨c, rfl, rfl⟩
  | none =>
    simp only
    cases hf : t.search n fun s => s.name = some n ∧ s.flags &&& SYMBOL_CONST = 0 with
    | some i =>
      obtain ⟨s, hs, hp⟩ := search_some hf
      obtain ⟨hn, hflag⟩ := of_decide_eq_true hp
      obtain ⟨a, ha, hname, hkind, hr⟩ := hall i s hs
      exact .inl ⟨trivial, a, ha, hname.trans hn, (const_bits hkind).mp hflag, hr⟩
    | none =>
      refine ⟨trivial, fun a ha hname => ?_⟩
      have hknown := (hlog a ha).1 n hname
      by_contra hne
      cases hr : a.2 with
      | of c =>
        rw [hr, Known, hc] at hknown
        cases hknown
      | heap i =>
        rw [hr] at hknown
        obtain ⟨s, hs, hn, hk⟩ := hknown
        have hno := search_none ht hf hs hn
        exact of_decide_eq_false hno ⟨hn, (const_bits hk).mpr hne⟩

/-- In every run of lookups, with the other flags changing in between: two calls give one symbol
exactly when they are about one name, in the same way or about `y`, `m` or `n`; each result keeps
its name to the end; and `sym_find` then finds what was ever looked up other than as a constant. -/
theorem symbols_interned (ops : List TableOp) :
    (runTable .empty ops).2.Pairwise OneName ∧
      (∀ a ∈ (runTable .empty ops).2, ∀ n, a.1.1 = some n →
        Known (runTable .empty ops).1 n a.1.2 a.2) ∧
      ∀ n, FindsName (runTable .empty ops).1 (runTable .empty ops).2 n := by
  have hrun := runTable_keeps ops interned_empty
  have hall : ∀ (i : ℕ) (s : Sym), (runTable .empty ops).1.syms[i]? = some s →
      Logged (runTable .empty ops).2 i s := fun i s hs =>
    (hrun.logged i s hs).resolve_left (Nat.not_lt_zero i)
  exact ⟨runTable_pairwise ops interned_empty, fun a ha => (hrun.stands a ha).1,
    symFind_finds hrun.interned hrun.stands hall⟩

end Ysyx.Kconfig
