import Ysyx.Nemu.ExprCorrect

/-! What `make_token` reads off a string: the rule that a first character selects, the length
it takes there, and one turn of the loop for a lexeme that stands before something else. -/

namespace Ysyx.Nemu

open Regex TokenType

section Chars

variable {c : Char}

theorem isWord_of_digit (h : isDecDigit c = true) : isWord c = true := by
  simp only [isDecDigit] at h
  simp [isWord, Char.isAlphanum, h]

theorem isAlpha_iff : c.isAlpha = true ↔
    (65 ≤ c.toNat ∧ c.toNat ≤ 90) ∨ (97 ≤ c.toNat ∧ c.toNat ≤ 122) := by
  change (decide (65 ≤ c.val ∧ c.val ≤ 90) ||
    (decide (97 ≤ c.val) && decide (c.val ≤ 122))) = true ↔ _
  simp only [Bool.or_eq_true, Bool.and_eq_true, decide_eq_true_eq, UInt32.le_iff_toNat_le]
  rfl

theorem isDecDigit_iff : isDecDigit c = true ↔ 48 ≤ c.toNat ∧ c.toNat ≤ 57 := by
  change (decide (48 ≤ c.val) && decide (c.val ≤ 57)) = true ↔ _
  simp only [Bool.and_eq_true, decide_eq_true_eq, UInt32.le_iff_toNat_le]
  rfl

theorem isWord_of_hex (h : isHexDigit c = true) : isWord c = true := by
  have hle (d d' : Char) : d ≤ d' ↔ d.toNat ≤ d'.toNat := UInt32.le_iff_toNat_le
  have hword : c.isAlpha = true → isWord c = true := fun ha => by
    simp only [isWord, Char.isAlphanum, ha, Bool.true_or]
  simp only [isHexDigit, Bool.or_eq_true, Bool.and_eq_true, decide_eq_true_eq, hle] at h
  rcases h with (hdigit | hupper) | hlower
  · exact isWord_of_digit hdigit
  · have hF : 'F'.toNat = 70 := rfl
    have hA : 'A'.toNat = 65 := rfl
    exact hword (isAlpha_iff.mpr (by omega))
  · have hf : 'f'.toNat = 102 := rfl
    have ha : 'a'.toNat = 97 := rfl
    exact hword (isAlpha_iff.mpr (by omega))

theorem beq_eq_false_of_class {p : Char → Bool} {d : Char} (h : p c = true) (hd : p d = false) :
    (c == d) = false := by
  rw [beq_eq_false_iff_ne]
  rintro rfl
  rw [h] at hd
  cases hd

end Chars

def numPattern : Pattern :=
  [[.run (· == '0') 1 (some 1), .run (fun c => c == 'x' || c == 'X') 1 (some 1),
      .run isHexDigit 1 none],
    [.wordBound, .run isDecDigit 1 none, .wordBound]]

def regPattern : Pattern := [[.run (· == '$') 1 (some 2), .run isWord 1 none]]

/-- The rules of one character, which no earlier rule shadows. -/
def charRules : List (Char × TokenType) :=
  [('(', lparen), (')', rparen), ('+', plus), ('-', minus), ('*', asterisk), ('/', slash),
    ('<', TK_LT), ('>', TK_GT)]

def pairRules : List ((Char × Char) × TokenType) :=
  [(('=', '='), TK_EQ), (('!', '='), TK_NEQ), (('&', '&'), TK_AND), (('|', '|'), TK_OR)]

section MatchRule

variable {c d : Char} {s : List Char} {type : TokenType}

theorem longest_char {p : Char → Bool} (h : p c = true) :
    longest [[.run p 1 (some 1)]] (c :: s) = some 1 := by
  rw [longest_eq_some_iff]
  refine ⟨⟨_, List.mem_singleton_self _, ?_⟩, fun items hi k hk => ?_⟩
  · exact mem_lens_one.mpr ⟨c, s, 0, rfl, h, rfl, List.mem_singleton_self _⟩
  · rw [List.mem_singleton.mp hi] at hk
    obtain ⟨_, _, j, -, -, rfl, hj⟩ := mem_lens_one.mp hk
    rw [lens, List.mem_singleton] at hj
    omega

theorem longest_pair {p q : Char → Bool} (hp : p c = true) (hq : q d = true) :
    longest [[.run p 1 (some 1), .run q 1 (some 1)]] (c :: d :: s) = some 2 := by
  rw [longest_eq_some_iff]
  refine ⟨⟨_, List.mem_singleton_self _, ?_⟩, fun items hi k hk => ?_⟩
  · exact mem_lens_one.mpr ⟨c, d :: s, 1, rfl, hp, rfl,
      mem_lens_one.mpr ⟨d, s, 0, rfl, hq, rfl, List.mem_singleton_self _⟩⟩
  · rw [List.mem_singleton.mp hi] at hk
    obtain ⟨_, _, j, -, -, rfl, hj⟩ := mem_lens_one.mp hk
    obtain ⟨_, _, i, -, -, rfl, hi⟩ := mem_lens_one.mp hj
    rw [lens, List.mem_singleton] at hi
    omega

theorem longest_pair_none {p q : Char → Bool} (h : Stops q s) :
    longest [[.run p 1 (some 1), .run q 1 (some 1)]] (c :: s) = none := by
  by_contra hne
  obtain ⟨n, hn⟩ := Option.ne_none_iff_exists'.mp hne
  obtain ⟨⟨items, hi, hk⟩, -⟩ := longest_eq_some_iff.mp hn
  rw [List.mem_singleton.mp hi] at hk
  obtain ⟨_, _, j, he, -, -, hj⟩ := mem_lens_one.mp hk
  cases he
  obtain ⟨d, s', _, rfl, hd, -⟩ := mem_lens_one.mp hj
  rw [h d rfl] at hd
  cases hd

/-- The first of the rules whose patterns can begin with the first character, if it matches. -/
theorem matchRule_of_filter {r : Pattern} {rs : List (Pattern × TokenType)} {n : ℕ}
    (h : (rules.filter fun rule => rule.1.any (starts · c)) = (r, type) :: rs)
    (hr : longest r (c :: s) = some n) : matchRule (c :: s) = some (type, n) := by
  rw [matchRule, findSome?_starts, h, List.findSome?_cons, hr]
  rfl

theorem matchRule_none_of_filter {r : Pattern}
    (h : (rules.filter fun rule => rule.1.any (starts · c)) = [(r, type)])
    (hr : longest r (c :: s) = none) : matchRule (c :: s) = none := by
  rw [matchRule, findSome?_starts, h, List.findSome?_cons, hr]
  rfl

theorem matchRule_char (h : (c, type) ∈ charRules) (s : List Char) :
    matchRule (c :: s) = some (type, 1) := by
  simp only [charRules, List.mem_cons, Prod.mk.injEq, List.not_mem_nil, or_false] at h
  rcases h with ⟨rfl, rfl⟩ | ⟨rfl, rfl⟩ | ⟨rfl, rfl⟩ | ⟨rfl, rfl⟩ | ⟨rfl, rfl⟩ | ⟨rfl, rfl⟩ |
    ⟨rfl, rfl⟩ | ⟨rfl, rfl⟩ <;> exact matchRule_of_filter rfl (longest_char rfl)

theorem matchRule_pair (h : ((c, d), type) ∈ pairRules) (s : List Char) :
    matchRule (c :: d :: s) = some (type, 2) := by
  simp only [pairRules, List.mem_cons, Prod.mk.injEq, List.not_mem_nil, or_false] at h
  rcases h with ⟨⟨rfl, rfl⟩, rfl⟩ | ⟨⟨rfl, rfl⟩, rfl⟩ | ⟨⟨rfl, rfl⟩, rfl⟩ | ⟨⟨rfl, rfl⟩, rfl⟩ <;>
    exact matchRule_of_filter rfl (longest_pair rfl rfl)

/-- A lone `=` is no lexeme. -/
theorem matchRule_eq_none (h : Stops (· == '=') s) : matchRule ('=' :: s) = none :=
  matchRule_none_of_filter rfl (longest_pair_none h)

theorem longest_run {p : Char → Bool} (h : p c = true) :
    longest [[.run p 1 none]] (c :: s) = some ((c :: s).takeWhile p).length := by
  rw [longest_eq_some_iff]
  refine ⟨⟨_, List.mem_singleton_self _, mem_lens_last.mpr ⟨?_, le_rfl⟩⟩, fun items hi k hk => ?_⟩
  · rw [List.takeWhile_cons_of_pos h]
    exact Nat.succ_le_succ (Nat.zero_le _)
  · rw [List.mem_singleton.mp hi] at hk
    exact (mem_lens_last.mp hk).2

theorem matchRule_space (s : List Char) : matchRule (' ' :: s) =
    some (TK_NOTYPE, ((' ' :: s).takeWhile (· == ' ')).length) :=
  matchRule_of_filter rfl (longest_run rfl)

theorem isAlpha_of_digit (h : isDecDigit c = true) : c.isAlpha = false := by
  have hdigit := isDecDigit_iff.mp h
  rw [← Bool.not_eq_true, isAlpha_iff]
  omega

theorem filter_digit (h : isDecDigit c = true) :
    (rules.filter fun rule => rule.1.any (starts · c)) = [(numPattern, TK_NUM)] := by
  have hne (d : Char) (hd : isDecDigit d = false) : (c == d) = false :=
    beq_eq_false_of_class h hd
  simp (disch := decide) [rules, lit, List.filter_cons, starts, hne, h, isAlpha_of_digit h,
    numPattern]

end MatchRule

/-- Decimal digits, or `0x` or `0X` and hexadecimal digits. -/
inductive Numeral : List Char → Prop
  | dec {s : List Char} (hne : s ≠ []) (hd : ∀ c ∈ s, isDecDigit c = true) : Numeral s
  | hex {x : Char} {h : List Char} (hx : (x == 'x' || x == 'X') = true) (hne : h ≠ [])
      (hh : ∀ c ∈ h, isHexDigit c = true) : Numeral ('0' :: x :: h)

inductive RegName : List Char → Prop
  | one {w : List Char} (hne : w ≠ []) (hw : ∀ c ∈ w, isWord c = true) : RegName ('$' :: w)
  | two {w : List Char} (hne : w ≠ []) (hw : ∀ c ∈ w, isWord c = true) : RegName ('$' :: '$' :: w)

def isReg (c : Char) : Bool := c == '$' || isWord c

section Words

variable {w s : List Char}

theorem Numeral.isWord (h : Numeral w) : ∀ c ∈ w, isWord c = true := by
  cases h with
  | dec hne hd => exact fun c hc => isWord_of_digit (hd c hc)
  | @hex x h hx hne hh =>
    intro c hc
    rcases List.mem_cons.mp hc with rfl | hc
    · rfl
    rcases List.mem_cons.mp hc with rfl | hc
    · simp only [Bool.or_eq_true, beq_iff_eq] at hx
      rcases hx with rfl | rfl <;> rfl
    · exact isWord_of_hex (hh c hc)

theorem Numeral.head (h : Numeral w) : ∃ c w', w = c :: w' ∧ isDecDigit c = true := by
  cases h with
  | dec hne hd =>
    obtain ⟨c, w', rfl⟩ := List.exists_cons_of_ne_nil hne
    exact ⟨c, w', rfl, hd c List.mem_cons_self⟩
  | @hex x h hx hne hh => exact ⟨'0', x :: h, rfl, rfl⟩

theorem numPattern_within : ∀ items ∈ numPattern, Within isWord items := by
  intro items hi p lo hi' hp c hc
  simp only [numPattern, List.mem_cons, List.not_mem_nil, or_false] at hi
  rcases hi with rfl | rfl
  · simp only [List.mem_cons, Item.run.injEq, List.not_mem_nil, or_false] at hp
    rcases hp with ⟨rfl, -⟩ | ⟨rfl, -⟩ | ⟨rfl, -⟩
    · rw [beq_iff_eq.mp hc]
      rfl
    · simp only [Bool.or_eq_true, beq_iff_eq] at hc
      rcases hc with rfl | rfl <;> rfl
    · exact isWord_of_hex hc
  · simp only [List.mem_cons, Item.run.injEq, List.not_mem_nil, or_false, reduceCtorEq,
      false_or] at hp
    obtain ⟨rfl, -⟩ := hp
    exact isWord_of_digit hc

theorem mem_lens_dec (hne : w ≠ []) (hd : ∀ c ∈ w, isDecDigit c = true) (hs : Stops isWord s) :
    w.length ∈ lens [.wordBound, .run isDecDigit 1 none, .wordBound] none (w ++ s) := by
  have hpos : 0 < w.length := List.length_pos_iff.mpr hne
  have hhead : (w ++ s).head?.any isWord = true := by
    obtain ⟨c, w', rfl⟩ := List.exists_cons_of_ne_nil hne
    exact isWord_of_digit (hd c List.mem_cons_self)
  have hlast : ((w ++ s)[w.length - 1]?).any isWord = true := by
    rw [List.getElem?_append_left (by omega), List.getElem?_eq_getElem (by omega)]
    exact isWord_of_digit (hd _ (List.getElem_mem _))
  have hnext : s.head?.any isWord = false := by
    cases h : s.head? with
    | none => rfl
    | some c => exact hs c h
  have hstops : Stops isDecDigit s := hs.mono fun c hc => isWord_of_digit hc
  rw [lens, hhead, if_pos (by decide), lens, List.mem_flatMap]
  refine ⟨w.length, mem_runs_iff.mpr ⟨hpos, ?_, by simp⟩, List.mem_map.mpr ⟨0, ?_, rfl⟩⟩
  · rw [takeWhile_stops hd hstops]
  · rw [if_neg (by omega), List.drop_left, lens, hlast, hnext]
    exact List.mem_singleton_self 0

theorem longest_numeral (h : Numeral w) (hs : Stops isWord s) :
    longest numPattern (w ++ s) = some w.length := by
  rw [longest_eq_some_iff]
  refine ⟨?_, fun items hi k hk => ?_⟩
  · cases h with
    | dec hne hd => exact ⟨_, by simp [numPattern], mem_lens_dec hne hd hs⟩
    | @hex x h hx hne hh =>
      refine ⟨_, List.mem_cons_self, mem_lens_one.mpr ⟨'0', _, _, rfl, rfl, rfl,
        mem_lens_one.mpr ⟨x, _, h.length, rfl, hx, rfl, mem_lens_last.mpr ⟨?_, ?_⟩⟩⟩⟩
      · exact List.length_pos_iff.mpr hne
      · change _ ≤ ((h ++ s).takeWhile isHexDigit).length
        rw [List.takeWhile_append_of_pos hh, List.length_append]
        exact Nat.le_add_right _ _
  · have hle := lens_le_takeWhile (numPattern_within items hi) hk
    rwa [takeWhile_stops h.isWord hs] at hle

theorem longest_regName (h : RegName w) (hs : Stops isReg s) :
    longest regPattern (w ++ s) = some w.length := by
  have hwithin : Within isReg [.run (· == '$') 1 (some 2), .run isWord 1 none] := by
    intro p lo hi hp c hc
    simp only [List.mem_cons, Item.run.injEq, List.not_mem_nil, or_false] at hp
    rcases hp with ⟨rfl, -⟩ | ⟨rfl, -⟩ <;> simp only [isReg, hc, Bool.true_or, Bool.or_true]
  have hall : ∀ c ∈ w, isReg c = true := by
    cases h with
    | one hne hw =>
      intro c hc
      rcases List.mem_cons.mp hc with rfl | hc
      · rfl
      · simp only [isReg, hw c hc, Bool.or_true]
    | two hne hw =>
      intro c hc
      rcases List.mem_cons.mp hc with rfl | hc
      · rfl
      rcases List.mem_cons.mp hc with rfl | hc
      · rfl
      · simp only [isReg, hw c hc, Bool.or_true]
  rw [longest_eq_some_iff]
  refine ⟨⟨_, List.mem_singleton_self _, ?_⟩, fun items hi k hk => ?_⟩
  · -- the dollar signs, then the name
    have hname {v : List Char} (prev : Option Char) (hne : v ≠ [])
        (hv : ∀ c ∈ v, isWord c = true) : v.length ∈ lens [.run isWord 1 none] prev (v ++ s) := by
      refine mem_lens_last.mpr ⟨List.length_pos_iff.mpr hne, ?_⟩
      rw [List.takeWhile_append_of_pos hv, List.length_append]
      exact Nat.le_add_right _ _
    cases h with
    | @one v hne hw =>
      exact List.mem_flatMap.mpr ⟨1, mem_runs_iff.mpr ⟨le_rfl, by simp, by simp⟩,
        List.mem_map.mpr ⟨v.length, hname _ hne hw, Nat.add_comm 1 v.length⟩⟩
    | @two v hne hw =>
      exact List.mem_flatMap.mpr ⟨2, mem_runs_iff.mpr ⟨by decide, by simp, by simp⟩,
        List.mem_map.mpr ⟨v.length, hname _ hne hw, Nat.add_comm 2 v.length⟩⟩
  · rw [List.mem_singleton.mp hi] at hk
    have hle := lens_le_takeWhile hwithin hk
    rwa [takeWhile_stops hall hs] at hle

theorem matchRule_numeral (h : Numeral w) (hs : Stops isWord s) :
    matchRule (w ++ s) = some (TK_NUM, w.length) := by
  have hlong := longest_numeral h hs
  obtain ⟨c, w', rfl, hc⟩ := h.head
  exact matchRule_of_filter (filter_digit hc) hlong

theorem matchRule_regName (h : RegName w) (hs : Stops isReg s) :
    matchRule (w ++ s) = some (TK_REG, w.length) := by
  have hlong := longest_regName h hs
  cases h <;> exact matchRule_of_filter rfl hlong

end Words

def textTypes : List TokenType := [TK_NUM, TK_REG, TK_VAR]

/-- The token that `make_token` stores behind `last`. -/
def storedToken (last : Option Token) (type : TokenType) (w : List Char) : Token :=
  if type ∈ textTypes then ⟨type, w⟩
  else if last.any fun t => oftypes t.type boundTypes then ⟨type, []⟩
  else ⟨unaryOf type, []⟩

section Store

variable {tokens : List Token} {type : TokenType} {w : List Char}

/-- There is room in `tokens`, and in `str` for a text and its terminator. -/
def HasRoom (tokens : List Token) (type : TokenType) (w : List Char) : Prop :=
  tokens.length < NR_TOKENS ∧ (type ∈ textTypes → w.length < 32)

theorem putToken_ok (h : HasRoom tokens type w) :
    putToken tokens type w = .ok (tokens ++ [storedToken tokens.getLast? type w]) := by
  obtain ⟨hlen, htext⟩ := h
  unfold putToken
  rw [if_neg (by omega)]
  by_cases hmem : type ∈ textTypes
  · have hw := htext hmem
    rw [storedToken, if_pos hmem]
    simp only [textTypes, List.mem_cons, List.not_mem_nil, or_false] at hmem
    rcases hmem with rfl | rfl | rfl <;> exact if_pos hw
  · rw [storedToken, if_neg hmem]
    cases hlast : tokens.getLast?.any fun t => oftypes t.type boundTypes <;>
      cases type <;> first | rfl | exact absurd (by decide) hmem

theorem putToken_overflow (h : ¬ HasRoom tokens type w) :
    putToken tokens type w = .error .overflow := by
  unfold putToken
  by_cases hlen : NR_TOKENS ≤ tokens.length
  · rw [if_pos hlen]
  · have htext : ¬ (type ∈ textTypes → w.length < 32) := fun ht => h ⟨by omega, ht⟩
    obtain ⟨hmem, hw⟩ := Classical.not_imp.mp htext
    rw [if_neg hlen]
    simp only [textTypes, List.mem_cons, List.not_mem_nil, or_false] at hmem
    rcases hmem with rfl | rfl | rfl <;> exact if_neg hw

end Store

section Loop

variable {e w s : List Char} {tokens : List Token} {type : TokenType} {n m : ℕ}

/-- The loop of `make_token` on what is left of the string, with the tokens stored so far. -/
def lexFrom (e : List Char) (tokens : List Token) : Except ExprFault (Option (List Token)) :=
  makeTokenFrom e.length e tokens

theorem makeTokenFrom_eq (hn : e.length ≤ n) (hm : e.length ≤ m) :
    makeTokenFrom n e tokens = makeTokenFrom m e tokens := by
  induction n generalizing e tokens m with
  | zero =>
    obtain rfl : e = [] := List.length_eq_zero_iff.mp (by omega)
    cases m <;> rfl
  | succ n ih =>
    match e, m with
    | [], 0 => rfl
    | [], m + 1 => rfl
    | c :: e, m + 1 =>
      simp only [makeTokenFrom]
      cases hrule : matchRule (c :: e) with
      | none => rfl
      | some r =>
        obtain ⟨type, len⟩ := r
        have hlen := matchRule_length hrule
        have hdrop : ((c :: e).drop len).length < (c :: e).length := by
          rw [List.length_drop]
          omega
        simp only [ih (by omega : ((c :: e).drop len).length ≤ n)
          (by omega : ((c :: e).drop len).length ≤ m)]

theorem makeToken_eq (e : List Char) : makeToken e = lexFrom e [] := rfl

@[simp] theorem lexFrom_nil : lexFrom [] tokens = .ok (some tokens) := rfl

theorem lexFrom_none (he : e ≠ []) (h : matchRule e = none) : lexFrom e tokens = .ok none := by
  obtain ⟨c, e, rfl⟩ := List.exists_cons_of_ne_nil he
  simp only [lexFrom, List.length_cons, makeTokenFrom, h]

theorem lexFrom_some (h : matchRule (w ++ s) = some (type, w.length)) :
    lexFrom (w ++ s) tokens =
      if type = TK_NOTYPE then lexFrom s tokens
      else putToken tokens type w >>= lexFrom s := by
  have hlen := matchRule_length h
  obtain ⟨c, e, he⟩ := List.exists_cons_of_ne_nil
    (List.ne_nil_of_length_pos (by omega : 0 < (w ++ s).length))
  have hs : s.length ≤ e.length := by
    have := congrArg List.length he
    rw [List.length_append, List.length_cons] at this
    omega
  have hdrop : (c :: e).drop w.length = s := by rw [← he, List.drop_left]
  have htake : (c :: e).take w.length = w := by rw [← he, List.take_left]
  have hrest (ts : List Token) : makeTokenFrom e.length s ts = lexFrom s ts :=
    makeTokenFrom_eq hs le_rfl
  rw [he] at h
  rw [lexFrom, he]
  simp only [List.length_cons, makeTokenFrom, h, hdrop, htake, hrest]

theorem lexFrom_token (h : matchRule (w ++ s) = some (type, w.length)) (ht : type ≠ TK_NOTYPE) :
    lexFrom (w ++ s) tokens = putToken tokens type w >>= lexFrom s := by
  rw [lexFrom_some h, if_neg ht]

theorem lexFrom_put (h : matchRule (w ++ s) = some (type, w.length)) (ht : type ≠ TK_NOTYPE)
    (hroom : HasRoom tokens type w) :
    lexFrom (w ++ s) tokens = lexFrom s (tokens ++ [storedToken tokens.getLast? type w]) := by
  rw [lexFrom_token h ht, putToken_ok hroom]
  rfl

theorem lexFrom_overflow (h : matchRule (w ++ s) = some (type, w.length)) (ht : type ≠ TK_NOTYPE)
    (hroom : ¬ HasRoom tokens type w) : lexFrom (w ++ s) tokens = .error .overflow := by
  rw [lexFrom_token h ht, putToken_overflow hroom]
  rfl

theorem all_replicate (k : ℕ) : ∀ c ∈ List.replicate k ' ', (c == ' ') = true := fun c hc => by
  rw [List.eq_of_mem_replicate hc]
  rfl

theorem lexFrom_blanks_stops (k : ℕ) (hs : Stops (· == ' ') s) :
    lexFrom (List.replicate k ' ' ++ s) tokens = lexFrom s tokens := by
  cases k with
  | zero => rfl
  | succ k =>
    have hrule := matchRule_space (List.replicate k ' ' ++ s)
    rw [← List.cons_append, ← List.replicate_succ, takeWhile_stops (all_replicate _) hs] at hrule
    rw [lexFrom_some hrule, if_pos rfl]

theorem blanks_append (s : List Char) : ∃ j s', s = List.replicate j ' ' ++ s' ∧
    Stops (· == ' ') s' := by
  induction s with
  | nil => exact ⟨0, [], rfl, fun c hc => nomatch hc⟩
  | cons c s ih =>
    by_cases hc : c = ' '
    · obtain ⟨j, s', rfl, hs⟩ := ih
      exact ⟨j + 1, s', by rw [hc, List.replicate_succ, List.cons_append], hs⟩
    · refine ⟨0, c :: s, rfl, fun d hd => ?_⟩
      cases Option.mem_some.mp hd
      simpa using hc

theorem lexFrom_blanks (k : ℕ) (s : List Char) :
    lexFrom (List.replicate k ' ' ++ s) tokens = lexFrom s tokens := by
  obtain ⟨j, s', rfl, hs⟩ := blanks_append s
  rw [← List.append_assoc, ← List.replicate_add, lexFrom_blanks_stops _ hs,
    lexFrom_blanks_stops _ hs]

theorem length_of_lexFrom {tokens' : List Token} (h : lexFrom e tokens = .ok (some tokens'))
    (hlen : tokens.length ≤ NR_TOKENS) : tokens'.length ≤ NR_TOKENS := by
  induction hn : e.length using Nat.strong_induction_on generalizing e tokens with
  | _ n ih =>
    match e with
    | [] =>
      cases h
      exact hlen
    | c :: e =>
      cases hrule : matchRule (c :: e) with
      | none =>
        rw [lexFrom_none (List.cons_ne_nil c e) hrule] at h
        cases h
      | some r =>
        obtain ⟨type, len⟩ := r
        have hbounds := matchRule_length hrule
        obtain ⟨w, s, hsplit, hw⟩ : ∃ w s, c :: e = w ++ s ∧ w.length = len :=
          ⟨_, _, (List.take_append_drop len (c :: e)).symm, List.length_take_of_le hbounds.2⟩
        have hlt : s.length < n := by
          have := congrArg List.length hsplit
          rw [List.length_append] at this
          omega
        rw [hsplit, ← hw] at hrule
        rw [hsplit, lexFrom_some hrule] at h
        split_ifs at h with ht
        · exact ih _ hlt h hlen rfl
        · obtain ⟨tokens₁, hput, h⟩ := bind_eq_ok.mp h
          by_cases hroom : HasRoom tokens type w
          · rw [putToken_ok hroom] at hput
            cases hput
            refine ih _ hlt h ?_ rfl
            rw [List.length_append, List.length_singleton]
            exact hroom.1
          · rw [putToken_overflow hroom] at hput
            cases hput

end Loop

end Ysyx.Nemu
