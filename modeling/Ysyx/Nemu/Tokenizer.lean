import Ysyx.Nemu.Lexer

/-! The tokenizer against the sequences of lexemes it is meant for: a rendering of a sequence,
with blanks between neighbours, comes back as the tokens of the sequence. The rules `<` and
`>` stand before `<=` and `>=`, so the latter two never come back. -/

namespace Ysyx.Nemu

open Regex TokenType

def signTypes : List TokenType :=
  [lparen, rparen, plus, minus, asterisk, slash, TK_LT, TK_GT, TK_LE, TK_GE, TK_EQ, TK_NEQ,
    TK_AND, TK_OR]

def signText : TokenType → List Char
  | lparen => ['(']
  | rparen => [')']
  | plus => ['+']
  | minus => ['-']
  | asterisk => ['*']
  | slash => ['/']
  | TK_LT => ['<']
  | TK_GT => ['>']
  | TK_LE => ['<', '=']
  | TK_GE => ['>', '=']
  | TK_EQ => ['=', '=']
  | TK_NEQ => ['!', '=']
  | TK_AND => ['&', '&']
  | TK_OR => ['|', '|']
  | _ => []

/-- An operator or a parenthesis, or a number or register that fits into `str`. -/
inductive Lexeme where
  | sign (type : TokenType) (h : type ∈ signTypes)
  | num (w : List Char) (h : Numeral w) (hlen : w.length < 32)
  | reg (w : List Char) (h : RegName w) (hlen : w.length < 32)

namespace Lexeme

def text : Lexeme → List Char
  | sign type _ => signText type
  | num w _ _ => w
  | reg w _ _ => w

def type : Lexeme → TokenType
  | sign type _ => type
  | num _ _ _ => TK_NUM
  | reg _ _ _ => TK_REG

/-- What an operand ends with: a right parenthesis, a number or a register. -/
def ends : Lexeme → Bool
  | sign type _ => type == rparen
  | num _ _ _ => true
  | reg _ _ _ => true

/-- The token of a lexeme behind `prev`: `+`, `-` and `*` are prefix operators unless `prev`
ends an operand. -/
def token (prev : Option Lexeme) : Lexeme → Token
  | sign type _ => if prev.any ends then ⟨type, []⟩ else ⟨unaryOf type, []⟩
  | num w _ _ => ⟨TK_NUM, w⟩
  | reg w _ _ => ⟨TK_REG, w⟩

/-- The rule of the lexeme is not shadowed by an earlier one. -/
def Clear (l : Lexeme) : Prop := l.type ≠ TK_LE ∧ l.type ≠ TK_GE

/-- What follows cannot be taken for a part of the lexeme. -/
def Apart (l : Lexeme) (s : List Char) : Prop := (∃ type h, l = sign type h) ∨ Stops isReg s

end Lexeme

def tokensOf : Option Lexeme → List Lexeme → List Token
  | _, [] => []
  | prev, l :: ls => l.token prev :: tokensOf (some l) ls

/-- The lexemes in order, with at least `gap` blanks between neighbours. -/
inductive Rendered (gap : ℕ) : List Lexeme → List Char → Prop
  | nil (k : ℕ) : Rendered gap [] (List.replicate k ' ')
  | single (l : Lexeme) (k : ℕ) : Rendered gap [l] (l.text ++ List.replicate k ' ')
  | cons (l : Lexeme) {l' : Lexeme} {ls : List Lexeme} {s : List Char} (k : ℕ) (hk : gap ≤ k)
      (h : Rendered gap (l' :: ls) s) :
      Rendered gap (l :: l' :: ls) (l.text ++ (List.replicate k ' ' ++ s))

/-- A rendering in which no lexeme runs into the next. -/
inductive Spaced : List Lexeme → List Char → Prop
  | nil (k : ℕ) : Spaced [] (List.replicate k ' ')
  | cons (l : Lexeme) {ls : List Lexeme} {s : List Char} (k : ℕ)
      (ha : l.Apart (List.replicate k ' ' ++ s)) (h : Spaced ls s) :
      Spaced (l :: ls) (l.text ++ (List.replicate k ' ' ++ s))

section Step

variable {l : Lexeme} {ls : List Lexeme} {prev : Option Lexeme} {tokens : List Token}
  {s : List Char} {type : TokenType} {k gap : ℕ}

theorem matchRule_sign (h : type ∈ signTypes) (hle : type ≠ TK_LE) (hge : type ≠ TK_GE)
    (s : List Char) : matchRule (signText type ++ s) = some (type, (signText type).length) := by
  cases type with
  | TK_LE => exact absurd rfl hle
  | TK_GE => exact absurd rfl hge
  | lparen | rparen | plus | minus | asterisk | slash | TK_LT | TK_GT =>
    exact matchRule_char (by decide) s
  | TK_EQ | TK_NEQ | TK_AND | TK_OR => exact matchRule_pair (by decide) s
  | _ => exact absurd h (by decide)

theorem matchRule_lexeme (hc : l.Clear) (ha : l.Apart s) :
    matchRule (l.text ++ s) = some (l.type, l.text.length) := by
  cases l with
  | sign type h => exact matchRule_sign h hc.1 hc.2 s
  | num w h hlen =>
    have hs : Stops isReg s := ha.resolve_left (by simp)
    exact matchRule_numeral h (hs.mono fun c hc => by simp only [isReg, hc, Bool.or_true])
  | reg w h hlen => exact matchRule_regName h (ha.resolve_left (by simp))

theorem type_ne_blank (l : Lexeme) : l.type ≠ TK_NOTYPE := by
  cases l with
  | sign type h =>
    rintro rfl
    exact absurd h (by decide)
  | num | reg => exact fun h => nomatch h

theorem hasRoom_lexeme (h : tokens.length < NR_TOKENS) : HasRoom tokens l.type l.text := by
  refine ⟨h, fun ht => ?_⟩
  cases l with
  | sign type h =>
    revert ht h
    cases type <;> decide
  | num w h hlen => exact hlen
  | reg w h hlen => exact hlen

/-- What `make_token` reads off the last token is whether the last lexeme ends an operand. -/
def Ends (prev : Option Lexeme) (last : Option Token) : Prop :=
  (last.any fun t => oftypes t.type boundTypes) = prev.any Lexeme.ends

theorem storedToken_lexeme {last : Option Token} (h : Ends prev last) :
    storedToken last l.type l.text = l.token prev := by
  cases l with
  | sign type hsign =>
    have hmem : type ∉ textTypes := by
      revert hsign
      cases type <;> decide
    have htype : (Lexeme.sign type hsign).type = type := rfl
    rw [storedToken, htype, if_neg hmem, h]
    rfl
  | num | reg => rfl

theorem ends_token (l : Lexeme) (prev : Option Lexeme) : Ends (some l) (some (l.token prev)) := by
  cases l with
  | sign type h =>
    unfold Ends Lexeme.token
    cases prev.any Lexeme.ends <;> revert h <;> cases type <;> decide
  | num | reg => rfl

theorem lexFrom_lexeme (hc : l.Clear) (ha : l.Apart s) (hlen : tokens.length < NR_TOKENS)
    (hends : Ends prev tokens.getLast?) :
    lexFrom (l.text ++ s) tokens = lexFrom s (tokens ++ [l.token prev]) := by
  rw [lexFrom_put (matchRule_lexeme hc ha) (type_ne_blank l) (hasRoom_lexeme hlen),
    storedToken_lexeme hends]

theorem lexFrom_spaced (h : Spaced ls s) (hc : ∀ l ∈ ls, l.Clear)
    (hlen : tokens.length + ls.length ≤ NR_TOKENS) (hends : Ends prev tokens.getLast?) :
    lexFrom s tokens = .ok (some (tokens ++ tokensOf prev ls)) := by
  induction h generalizing tokens prev with
  | nil k =>
    rw [← List.append_nil (List.replicate k ' '), lexFrom_blanks, tokensOf, List.append_nil]
    rfl
  | @cons l ls s k ha h ih =>
    rw [List.length_cons] at hlen
    have hends' : Ends (some l) (tokens ++ [l.token prev]).getLast? := by
      rw [List.getLast?_concat]
      exact ends_token l prev
    have hlen' : (tokens ++ [l.token prev]).length + ls.length ≤ NR_TOKENS := by
      rw [List.length_append, List.length_singleton]
      omega
    rw [lexFrom_lexeme (hc l List.mem_cons_self) ha (by omega) hends, lexFrom_blanks,
      ih (fun l' hl' => hc l' (List.mem_cons_of_mem l hl')) hlen' hends', tokensOf,
      List.append_assoc]
    rfl

/-- Without room for all tokens the array is overrun. -/
theorem lexFrom_spaced_overflow (h : Spaced ls s) (hc : ∀ l ∈ ls, l.Clear)
    (hlen : NR_TOKENS < tokens.length + ls.length) (htokens : tokens.length ≤ NR_TOKENS)
    (hends : Ends prev tokens.getLast?) : lexFrom s tokens = .error .overflow := by
  induction h generalizing tokens prev with
  | nil k => exact absurd hlen (Nat.not_lt.mpr htokens)
  | @cons l ls s k ha h ih =>
    rw [List.length_cons] at hlen
    by_cases hroom : tokens.length < NR_TOKENS
    · have hends' : Ends (some l) (tokens ++ [l.token prev]).getLast? := by
        rw [List.getLast?_concat]
        exact ends_token l prev
      have hlen' : (tokens ++ [l.token prev]).length = tokens.length + 1 := List.length_append
      rw [lexFrom_lexeme (hc l List.mem_cons_self) ha hroom hends, lexFrom_blanks,
        ih (fun l' hl' => hc l' (List.mem_cons_of_mem l hl')) (by omega) (by omega) hends']
    · exact lexFrom_overflow (matchRule_lexeme (hc l List.mem_cons_self) ha) (type_ne_blank l)
        fun h => hroom h.1

end Step

section Renderings

variable {ls : List Lexeme} {s : List Char} {gap : ℕ}

theorem stops_blanks {p : Char → Bool} (hp : p ' ' = false) (k : ℕ) (h : 1 ≤ k ∨ s = []) :
    Stops p (List.replicate k ' ' ++ s) := by
  intro c hc
  cases k with
  | zero =>
    rw [h.resolve_left (by omega)] at hc
    cases hc
  | succ k =>
    cases hc
    exact hp

theorem apart_blanks (l : Lexeme) (k : ℕ) (s : List Char) (h : 1 ≤ k ∨ s = []) :
    l.Apart (List.replicate k ' ' ++ s) := .inr (stops_blanks rfl k h)

theorem spaced_single (l : Lexeme) (k : ℕ) : Spaced [l] (l.text ++ List.replicate k ' ') := by
  have hone : Spaced [l] (l.text ++ (List.replicate k ' ' ++ List.replicate 0 ' ')) :=
    .cons l k (apart_blanks l k _ (.inr rfl)) (.nil 0)
  rwa [List.replicate_zero, List.append_nil] at hone

theorem Rendered.spaced (h : Rendered gap ls s) (hgap : 1 ≤ gap) : Spaced ls s := by
  induction h with
  | nil k => exact .nil k
  | single l k => exact spaced_single l k
  | cons l k hk h ih => exact .cons l k (apart_blanks l k _ (.inl (hgap.trans hk))) ih

theorem length_tokensOf (prev : Option Lexeme) (ls : List Lexeme) :
    (tokensOf prev ls).length = ls.length := by
  induction ls generalizing prev with
  | nil => rfl
  | cons l ls ih => rw [tokensOf, List.length_cons, List.length_cons, ih]

/-- `<=` and `>=` are taken apart, and nothing matches their second character. -/
theorem lexFrom_not_clear {l : Lexeme} {tokens : List Token} (hl : ¬ l.Clear)
    (hs : Stops (· == '=') s) : ∀ ts, lexFrom (l.text ++ s) tokens ≠ .ok (some ts) := by
  intro ts h
  obtain ⟨c, type, hrule, ht, htext⟩ : ∃ c type, (c, type) ∈ charRules ∧ type ≠ TK_NOTYPE ∧
      l.text = [c, '='] := by
    cases l with
    | sign type hsign =>
      rcases not_and_or.mp hl with hle | hge
      · obtain rfl : type = TK_LE := not_not.mp hle
        exact ⟨'<', TK_LT, by decide, by decide, rfl⟩
      · obtain rfl : type = TK_GE := not_not.mp hge
        exact ⟨'>', TK_GT, by decide, by decide, rfl⟩
    | num | reg => exact absurd ⟨nofun, nofun⟩ hl
  have hfirst : matchRule ([c] ++ ('=' :: s)) = some (type, [c].length) := matchRule_char hrule _
  rw [htext, show [c, '='] ++ s = [c] ++ ('=' :: s) from rfl] at h
  by_cases hroom : HasRoom tokens type [c]
  · rw [lexFrom_put hfirst ht hroom, lexFrom_none (List.cons_ne_nil '=' s) (matchRule_eq_none hs)]
      at h
    cases h
  · rw [lexFrom_overflow hfirst ht hroom] at h
    cases h

/-- A rendering with `<=` or `>=` in it is not accepted. -/
theorem lexFrom_rendered_not_clear {tokens : List Token} (h : Rendered gap ls s) (hgap : 1 ≤ gap)
    (hl : ∃ l ∈ ls, ¬ l.Clear) : ∀ ts, lexFrom s tokens ≠ .ok (some ts) := by
  induction h generalizing tokens with
  | nil k =>
    obtain ⟨l, hmem, -⟩ := hl
    cases hmem
  | single l k =>
    obtain ⟨l', hmem, hnot⟩ := hl
    cases List.mem_singleton.mp hmem
    have hs := stops_blanks (p := (· == '=')) rfl k (.inr (rfl : ([] : List Char) = []))
    rw [List.append_nil] at hs
    exact lexFrom_not_clear hnot hs
  | @cons l l' ls s k hk h ih =>
    have hk' : 1 ≤ k := hgap.trans hk
    by_cases hclear : l.Clear
    · obtain ⟨l₁, hmem, hnot⟩ := hl
      have hrest : ∃ l₂ ∈ l' :: ls, ¬ l₂.Clear := by
        rcases List.mem_cons.mp hmem with rfl | hmem
        · exact absurd hclear hnot
        · exact ⟨l₁, hmem, hnot⟩
      have hrule := matchRule_lexeme hclear (apart_blanks l k s (.inl hk'))
      by_cases hroom : HasRoom tokens l.type l.text
      · rw [lexFrom_put hrule (type_ne_blank l) hroom, lexFrom_blanks]
        exact ih hrest
      · rw [lexFrom_overflow hrule (type_ne_blank l) hroom]
        exact nofun
    · exact lexFrom_not_clear hclear (stops_blanks rfl k (.inl hk'))

end Renderings

/-- A rendering with blanks between neighbours comes back exactly when `<=` and `>=` are not in
it and there is room for all tokens. -/
theorem tokenizer_roundtrip_iff (ls : List Lexeme) (s : List Char) (h : Rendered 1 ls s) :
    makeToken s = .ok (some (tokensOf none ls)) ↔
      (∀ l ∈ ls, l.Clear) ∧ ls.length ≤ NR_TOKENS := by
  rw [makeToken_eq]
  constructor
  · intro hok
    refine ⟨fun l hl => ?_, ?_⟩
    · by_contra hnot
      exact lexFrom_rendered_not_clear h le_rfl ⟨l, hl, hnot⟩ _ hok
    · rw [← length_tokensOf none ls]
      exact length_of_lexFrom hok (Nat.zero_le _)
  · rintro ⟨hc, hlen⟩
    exact lexFrom_spaced (h.spaced le_rfl) hc (by simpa using hlen) rfl

/-- The lexemes `1`, `<` and `2`, or `<=` in the middle. -/
def compared (type : TokenType) (h : type ∈ signTypes) : List Lexeme :=
  [.num ['1'] (.dec (by decide) (List.forall_mem_singleton.mpr rfl)) (by decide), .sign type h,
    .num ['2'] (.dec (by decide) (List.forall_mem_singleton.mpr rfl)) (by decide)]

theorem rendered_compared (type : TokenType) (h : type ∈ signTypes) :
    Rendered 1 (compared type h) ('1' :: ' ' :: (signText type ++ [' ', '2'])) :=
  .cons _ 1 le_rfl (.cons _ 1 le_rfl (.single _ 0))

theorem tokenizer_roundtrip_iff_lt :
    makeToken ['1', ' ', '<', ' ', '2'] =
        .ok (some (tokensOf none (compared TK_LT (by decide)))) ↔
      (∀ l ∈ compared TK_LT (by decide), l.Clear) ∧
        (compared TK_LT (by decide)).length ≤ NR_TOKENS :=
  tokenizer_roundtrip_iff _ _ (rendered_compared TK_LT (by decide))

/-- The string `1 <= 2`. -/
theorem le_not_tokenized : ¬ ∀ (ls : List Lexeme) (s : List Char), Rendered 1 ls s →
    makeToken s = .ok (some (tokensOf none ls)) := by
  intro h
  have hle := h _ _ (rendered_compared TK_LE (by decide))
  exact absurd hle (by decide)

end Ysyx.Nemu
