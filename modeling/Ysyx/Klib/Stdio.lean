import Ysyx.Klib.Copy
import Mathlib.Data.Nat.Digits.Defs

/-! `vprintf` and `sprintf` of klib. A string is the list of its characters, the output routine is
any function of a byte on a state of its own, and `va_arg` takes the next of a list of arguments. -/

namespace Ysyx.Klib

open Bytes Region

/-- How a call of `vprintf` can go wrong: it reads or writes outside an array, an `int` or
`int64_t` does not hold a result, `va_arg` finds no argument of its type, an assertion fails. -/
inductive PrintError
  | outside
  | overflow
  | argument
  | assertion
deriving DecidableEq, Repr

/-- An argument as it is passed: `int32_t` and `uint32_t` are one word, their 64-bit versions two. -/
inductive Arg
  | word (x : BitVec 32)
  | dword (x : BitVec 64)
  | str (s : List Byte)

def ch (c : Char) : Byte := BitVec.ofNat 8 c.toNat

section Model

variable {σ : Type} {w : ℕ}

structure VprintfState (σ : Type) where
  inFormat : Bool
  longFlags : ℕ
  pos : ℕ
  ap : List Arg
  out : σ

namespace VprintfState

variable (put : σ → Byte → σ) (v : VprintfState σ)

/-- `gputch(c);pos++;` -/
def gputch (c : Byte) : Except PrintError (VprintfState σ) :=
  if v.pos + 1 < 2 ^ 31 then .ok { v with out := put v.out c, pos := v.pos + 1 }
  else .error .overflow

/-- The same for each character in turn. -/
def gputs (v : VprintfState σ) : List Byte → Except PrintError (VprintfState σ)
  | [] => .ok v
  | c :: s => do (← v.gputch put c).gputs s

def vaWord : Except PrintError (BitVec 32 × VprintfState σ) :=
  match v.ap with
  | .word x :: ap => .ok (x, { v with ap := ap })
  | _ => .error .argument

def vaDword : Except PrintError (BitVec 64 × VprintfState σ) :=
  match v.ap with
  | .dword x :: ap => .ok (x, { v with ap := ap })
  | _ => .error .argument

def vaStr : Except PrintError (List Byte × VprintfState σ) :=
  match v.ap with
  | .str s :: ap => .ok (s, { v with ap := ap })
  | _ => .error .argument

def assert (b : Bool) : Except PrintError Unit := if b then .ok () else .error .assertion

end VprintfState

open VprintfState

def MAXDEC : ℕ := 64

def digit (d : ℕ) : Byte := BitVec.ofNat 8 (d + 48)

/-- `for( ; u != 0 ; i++ , u/=10) invert[i] = u%10 + '0';` with `free` slots of `invert` left. -/
def invertLoop : ℕ → ℕ → Except PrintError (List Byte)
  | _, 0 => .ok []
  | 0, _ + 1 => .error .outside
  | free + 1, u + 1 => do
    let invert ← invertLoop free ((u + 1) / 10)
    .ok (digit ((u + 1) % 10) :: invert)

/-- The digits of a number that is not negative: the single zero is printed by itself, the others
are put into `invert` and printed from its end. -/
def putNumber (put : σ → Byte → σ) (v : VprintfState σ) (u : ℕ) :
    Except PrintError (VprintfState σ) := do
  let v ← if u = 0 then v.gputch put (ch '0') else .ok v
  let invert ← invertLoop MAXDEC u
  v.gputs put invert.reverse

/-- `if(d < 0){ d = -d; gputch('-');pos++; }` and the digits. -/
def putSigned (put : σ → Byte → σ) (v : VprintfState σ) (d : ℤ) :
    Except PrintError (VprintfState σ) := do
  if d < 0 then
    if -d < 2 ^ 63 then putNumber put (← v.gputch put (ch '-')) (-d).toNat
    else .error .overflow
  else
    putNumber put v d.toNat

/-- The `switch` on a character of a directive. -/
def directive (put : σ → Byte → σ) (v : VprintfState σ) (c : Byte) :
    Except PrintError (VprintfState σ) :=
  if c = ch 'l' then
    .ok { v with longFlags := v.longFlags + 1 }
  else if c = ch 's' then do
    assert (v.longFlags = 0)
    let (s, v) ← v.vaStr
    let v ← v.gputs put s
    .ok { v with inFormat := false }
  else if c = ch 'c' then do
    assert (v.longFlags = 0)
    let (c, v) ← v.vaWord
    let v ← v.gputch put (c.setWidth 8)
    .ok { v with inFormat := false }
  else if c = ch 'd' then do
    assert (v.longFlags ≤ 2)
    let (d, v) ← if v.longFlags = 2 then do
        let (x, v) ← v.vaDword
        pure (x.toInt, v)
      else do
        let (x, v) ← v.vaWord
        pure (x.toInt, v)
    let v ← putSigned put v d
    .ok { v with longFlags := 0, inFormat := false }
  else if c = ch 'u' then do
    assert (v.longFlags ≤ 2)
    let (u, v) ← if v.longFlags = 2 then do
        let (x, v) ← v.vaDword
        pure (x.toNat, v)
      else do
        let (x, v) ← v.vaWord
        pure (x.toNat, v)
    let v ← putNumber put v u
    .ok { v with longFlags := 0, inFormat := false }
  else if c = ch '%' then
    -- `gputch('%')` without `pos++`
    .ok { v with out := put v.out (ch '%'), inFormat := false }
  else
    .ok v

/-- `for( ;*fmt != '\0';fmt++)` -/
def vprintfLoop (put : σ → Byte → σ) (v : VprintfState σ) :
    List Byte → Except PrintError (VprintfState σ)
  | [] => .ok v
  | c :: fmt =>
    if c ≠ ch '%' ∧ v.inFormat = false then do
      vprintfLoop put (← v.gputch put c) fmt
    else if v.inFormat = false ∧ c = ch '%' then
      match fmt with
      -- `fmt++` steps onto the NUL and that of the loop over it
      | [] => .error .outside
      | c :: fmt => do
        vprintfLoop put (← directive put { v with inFormat := true } c) fmt
    else do
      vprintfLoop put (← directive put v c) fmt

/-- What `gputch` has done in the end, and the result. -/
def vprintf (put : σ → Byte → σ) (out : σ) (fmt : List Byte) (ap : List Arg) :
    Except PrintError (σ × ℕ) := do
  let v ← vprintfLoop put ⟨false, 0, 0, ap, out⟩ fmt
  .ok (v.out, v.pos)

/-- `*__out++ = ch;` on the memory and `__out`. -/
def sputch (s : Mem w × BitVec w) (ch : Byte) : Mem w × BitVec w :=
  (Function.update s.1 s.2 ch, s.2 + 1)

def sprintf (mem : Mem w) (out : BitVec w) (fmt : List Byte) (ap : List Arg) :
    Except PrintError (Mem w × ℕ) := do
  let (s, res) ← vprintf sputch (mem, out) fmt ap
  let s := sputch s 0
  -- `return res++;`
  if res + 1 < 2 ^ 31 then .ok (s.1, res) else .error .overflow

end Model

/-- A number in decimal. -/
def decimal (n : ℕ) : List Byte :=
  if n = 0 then [ch '0'] else ((Nat.digits 10 n).map digit).reverse

def signedDecimal (d : ℤ) : List Byte :=
  if d < 0 then ch '-' :: decimal (-d).toNat else decimal d.toNat

/-- A piece of a format string, with the argument it takes. -/
inductive Piece
  | lit (c : Byte) (h : c ≠ 0 ∧ c ≠ ch '%')
  | d (x : BitVec 32)
  | u (x : BitVec 32)
  | c (x : BitVec 32)
  | s (t : List Byte) (h : 0 ∉ t)
  | percent
  | lld (x : BitVec 64)
  | llu (x : BitVec 64)

/-- How it is written. -/
def Piece.fmt : Piece → List Byte
  | .lit b _ => [b]
  | .d _ => [ch '%', ch 'd']
  | .u _ => [ch '%', ch 'u']
  | .c _ => [ch '%', ch 'c']
  | .s _ _ => [ch '%', ch 's']
  | .percent => [ch '%', ch '%']
  | .lld _ => [ch '%', ch 'l', ch 'l', ch 'd']
  | .llu _ => [ch '%', ch 'l', ch 'l', ch 'u']

def Piece.args : Piece → List Arg
  | .lit _ _ => []
  | .d x => [.word x]
  | .u x => [.word x]
  | .c x => [.word x]
  | .s t _ => [.str t]
  | .percent => []
  | .lld x => [.dword x]
  | .llu x => [.dword x]

def Piece.text : Piece → List Byte
  | .lit b _ => [b]
  | .d x => signedDecimal x.toInt
  | .u x => decimal x.toNat
  | .c x => [x.setWidth 8]
  | .s t _ => t
  | .percent => [ch '%']
  | .lld x => signedDecimal x.toInt
  | .llu x => decimal x.toNat

def format (ps : List Piece) : List Byte := ps.flatMap Piece.fmt

def arguments (ps : List Piece) : List Arg := ps.flatMap Piece.args

def text (ps : List Piece) : List Byte := ps.flatMap Piece.text

/-- What C says of the two functions on a format: `vprintf` passes the text to the output routine
and returns its length, `sprintf` stores the text with a NUL after it and returns the same. -/
structure Prints {σ : Type} {w : ℕ} (put : σ → Byte → σ) (out : σ) (mem : Mem w) (dst : BitVec w)
    (ps : List Piece) : Prop where
  vprintf : vprintf put out (format ps) (arguments ps) =
    .ok ((text ps).foldl put out, (text ps).length)
  sprintf : ∃ mem', sprintf mem dst (format ps) (arguments ps) = .ok (mem', (text ps).length) ∧
    (∀ k (h : k < (text ps).length), mem' (off dst k) = (text ps)[k]) ∧
    mem' (off dst (text ps).length) = 0 ∧
    ∀ a, (∀ k ≤ (text ps).length, a ≠ off dst k) → mem' a = mem a

section Numbers

variable {σ : Type} (put : σ → Byte → σ) (v : VprintfState σ)

theorem gputs_eq (hpos : v.pos < 2 ^ 31) (s : List Byte) :
    v.gputs put s = if v.pos + s.length < 2 ^ 31 then
      .ok { v with out := s.foldl put v.out, pos := v.pos + s.length } else .error .overflow := by
  induction s generalizing v with
  | nil => exact (if_pos hpos).symm
  | cons c s ih =>
    simp only [VprintfState.gputs, VprintfState.gputch]
    by_cases h1 : v.pos + 1 < 2 ^ 31
    · have hlen : v.pos + 1 + s.length = v.pos + (s.length + 1) := by omega
      simp only [if_pos h1]
      change VprintfState.gputs put _ s = _
      rw [ih _ h1]
      simp only [List.foldl_cons, List.length_cons, hlen]
    · rw [if_neg h1, if_neg (by rw [List.length_cons]; omega)]
      rfl

theorem gputs_single (c : Byte) : v.gputs put [c] = v.gputch put c := by
  exact bind_pure (v.gputch put c)

theorem invertLoop_eq {free u : ℕ} (hu : u < 10 ^ free) :
    invertLoop free u = .ok ((Nat.digits 10 u).map digit) := by
  induction free generalizing u with
  | zero =>
    obtain rfl : u = 0 := by omega
    simp [invertLoop]
  | succ free ih =>
    cases u with
    | zero => simp [invertLoop]
    | succ u =>
      have hdiv : (u + 1) / 10 < 10 ^ free := by
        rw [pow_succ] at hu
        omega
      rw [invertLoop, ih hdiv, Nat.digits_def' (by decide) (Nat.succ_pos u)]
      rfl

theorem putNumber_eq {u : ℕ} (hu : u < 10 ^ 64) :
    putNumber put v u = v.gputs put (decimal u) := by
  rw [putNumber, MAXDEC, invertLoop_eq hu, decimal]
  split_ifs with h0
  · subst h0
    rfl
  · rfl

theorem putSigned_eq {d : ℤ} (hd : d < 2 ^ 63) (hmin : -2 ^ 63 < d) :
    putSigned put v d = v.gputs put (signedDecimal d) := by
  rw [putSigned, signedDecimal]
  split_ifs with h0 h1
  · simp only [VprintfState.gputs]
    congr 1
    funext v
    exact putNumber_eq put v (by omega)
  · omega
  · exact putNumber_eq put v (by omega)

theorem putSigned_min : putSigned put v (-2 ^ 63) = .error .overflow := by
  rw [putSigned, if_pos (by decide), if_neg (by decide)]

end Numbers

/-- What adds to `pos`: the text of every piece but `%%`. -/
def Piece.counted : Piece → ℕ
  | .percent => 0
  | p => p.text.length

/-- `d = -d` is defined. -/
def Piece.fits : Piece → Bool
  | .lld x => decide (x.toInt ≠ -2 ^ 63)
  | _ => true

def counted (ps : List Piece) : ℕ := (ps.map Piece.counted).sum

section Formats

variable {σ : Type} (put : σ → Byte → σ)

theorem vprintfLoop_enter (lf pos : ℕ) (ap : List Arg) (out : σ) (c : Byte) (fmt : List Byte) :
    vprintfLoop put ⟨false, lf, pos, ap, out⟩ (ch '%' :: c :: fmt) =
      (directive put ⟨true, lf, pos, ap, out⟩ c >>= fun v => vprintfLoop put v fmt) := by
  rw [vprintfLoop, if_neg fun h => h.1 rfl, if_pos ⟨rfl, rfl⟩]

theorem vprintfLoop_inside (lf pos : ℕ) (ap : List Arg) (out : σ) (c : Byte) (fmt : List Byte) :
    vprintfLoop put ⟨true, lf, pos, ap, out⟩ (c :: fmt) =
      (directive put ⟨true, lf, pos, ap, out⟩ c >>= fun v => vprintfLoop put v fmt) := by
  cases fmt <;> rw [vprintfLoop, if_neg (by simp), if_neg (by simp)]

variable (pos : ℕ) (ap : List Arg) (out : σ)

theorem directive_l (lf : ℕ) :
    directive put ⟨true, lf, pos, ap, out⟩ (ch 'l') = .ok ⟨true, lf + 1, pos, ap, out⟩ := rfl

theorem directive_s (t : List Byte) : directive put ⟨true, 0, pos, .str t :: ap, out⟩ (ch 's') =
    (VprintfState.gputs put ⟨true, 0, pos, ap, out⟩ t >>= fun v => .ok { v with inFormat := false }) :=
  rfl

theorem directive_c (x : BitVec 32) : directive put ⟨true, 0, pos, .word x :: ap, out⟩ (ch 'c') =
    (VprintfState.gputch put ⟨true, 0, pos, ap, out⟩ (x.setWidth 8) >>=
      fun v => .ok { v with inFormat := false }) := rfl

theorem directive_d (x : BitVec 32) : directive put ⟨true, 0, pos, .word x :: ap, out⟩ (ch 'd') =
    (putSigned put ⟨true, 0, pos, ap, out⟩ x.toInt >>=
      fun v => .ok { v with longFlags := 0, inFormat := false }) := rfl

theorem directive_lld (x : BitVec 64) : directive put ⟨true, 2, pos, .dword x :: ap, out⟩ (ch 'd') =
    (putSigned put ⟨true, 2, pos, ap, out⟩ x.toInt >>=
      fun v => .ok { v with longFlags := 0, inFormat := false }) := rfl

theorem directive_u (x : BitVec 32) : directive put ⟨true, 0, pos, .word x :: ap, out⟩ (ch 'u') =
    (putNumber put ⟨true, 0, pos, ap, out⟩ x.toNat >>=
      fun v => .ok { v with longFlags := 0, inFormat := false }) := rfl

theorem directive_llu (x : BitVec 64) : directive put ⟨true, 2, pos, .dword x :: ap, out⟩ (ch 'u') =
    (putNumber put ⟨true, 2, pos, ap, out⟩ x.toNat >>=
      fun v => .ok { v with longFlags := 0, inFormat := false }) := rfl

theorem vprintfLoop_ll (c : Byte) (fmt : List Byte) :
    vprintfLoop put ⟨false, 0, pos, ap, out⟩ (ch '%' :: ch 'l' :: ch 'l' :: c :: fmt) =
      (directive put ⟨true, 2, pos, ap, out⟩ c >>= fun v => vprintfLoop put v fmt) := by
  rw [vprintfLoop_enter, directive_l]
  change vprintfLoop put ⟨true, 1, pos, ap, out⟩ (ch 'l' :: c :: fmt) = _
  rw [vprintfLoop_inside, directive_l]
  exact vprintfLoop_inside put 2 pos ap out c fmt

theorem piece_of_gputs {p : Piece} {fmt : List Byte} {ap ap' : List Arg} {pos l : ℕ} {b : Bool}
    {out : σ} {f : VprintfState σ → VprintfState σ} (hpos : pos < 2 ^ 31) (hfits : p.fits = true)
    (hcounted : p.counted = p.text.length)
    (hf : ∀ pos out, f ⟨b, l, pos, ap, out⟩ = ⟨false, 0, pos, ap, out⟩)
    (hrun : vprintfLoop put ⟨false, 0, pos, ap', out⟩ (p.fmt ++ fmt) =
      ((VprintfState.gputs put ⟨b, l, pos, ap, out⟩ p.text >>= fun v => .ok (f v)) >>=
        fun v => vprintfLoop put v fmt)) :
    vprintfLoop put ⟨false, 0, pos, ap', out⟩ (p.fmt ++ fmt) =
      if p.fits ∧ pos + p.counted < 2 ^ 31 then
        vprintfLoop put ⟨false, 0, pos + p.counted, ap, p.text.foldl put out⟩ fmt
      else .error .overflow := by
  rw [hrun, gputs_eq put _ hpos, hfits, hcounted]
  by_cases hlen : pos + p.text.length < 2 ^ 31
  · rw [if_pos hlen, if_pos ⟨rfl, hlen⟩]
    exact congrArg (vprintfLoop put · fmt) (hf _ _)
  · rw [if_neg hlen, if_neg fun h => hlen h.2]
    rfl

theorem vprintfLoop_piece (p : Piece) (fmt : List Byte) (hpos : pos < 2 ^ 31) :
    vprintfLoop put ⟨false, 0, pos, p.args ++ ap, out⟩ (p.fmt ++ fmt) =
      if p.fits ∧ pos + p.counted < 2 ^ 31 then
        vprintfLoop put ⟨false, 0, pos + p.counted, ap, p.text.foldl put out⟩ fmt
      else .error .overflow := by
  have hpow : (2 : ℕ) ^ 64 ≤ 10 ^ 64 := by decide
  cases p with
  | lit b hb =>
    refine piece_of_gputs put (f := id) (b := false) (l := 0) hpos rfl rfl (fun _ _ => rfl) ?_
    rw [Piece.text, gputs_single]
    have hloop : vprintfLoop put ⟨false, 0, pos, ap, out⟩ (b :: fmt) =
        (VprintfState.gputch put ⟨false, 0, pos, ap, out⟩ b >>= fun v => vprintfLoop put v fmt) := by
      cases fmt <;> exact if_pos ⟨hb.2, rfl⟩
    exact hloop.trans (by rw [bind_assoc]; rfl)
  | d x =>
    have hlt := x.toInt_lt
    have hle := x.le_toInt
    refine piece_of_gputs put (f := fun v => { v with longFlags := 0, inFormat := false })
      (b := true) (l := 0) hpos rfl rfl (fun _ _ => rfl) ?_
    rw [Piece.text, ← putSigned_eq put _ (by omega) (by omega), ← directive_d]
    exact vprintfLoop_enter put 0 pos _ out _ fmt
  | u x =>
    have hlt := x.isLt
    refine piece_of_gputs put (f := fun v => { v with longFlags := 0, inFormat := false })
      (b := true) (l := 0) hpos rfl rfl (fun _ _ => rfl) ?_
    rw [Piece.text, ← putNumber_eq put _ (by omega), ← directive_u]
    exact vprintfLoop_enter put 0 pos _ out _ fmt
  | c x =>
    refine piece_of_gputs put (f := fun v => { v with inFormat := false }) (b := true) (l := 0)
      hpos rfl rfl (fun _ _ => rfl) ?_
    rw [Piece.text, gputs_single, ← directive_c]
    exact vprintfLoop_enter put 0 pos _ out _ fmt
  | s t ht =>
    refine piece_of_gputs put (f := fun v => { v with inFormat := false }) (b := true) (l := 0)
      hpos rfl rfl (fun _ _ => rfl) ?_
    rw [Piece.text, ← directive_s]
    exact vprintfLoop_enter put 0 pos _ out _ fmt
  | percent =>
    rw [if_pos ⟨rfl, hpos⟩]
    exact vprintfLoop_enter put 0 pos ap out (ch '%') fmt
  | lld x =>
    have hlt := x.toInt_lt
    have hle := x.le_toInt
    by_cases hmin : x.toInt = -2 ^ 63
    · have hdir : directive put ⟨true, 2, pos, .dword x :: ap, out⟩ (ch 'd') = .error .overflow := by
        rw [directive_lld, hmin, putSigned_min]
        rfl
      have hfits : ¬ (Piece.lld x).fits = true := fun h => of_decide_eq_true h hmin
      rw [if_neg fun h => hfits h.1]
      refine (vprintfLoop_ll put pos _ out _ fmt).trans ?_
      rw [Piece.args, List.singleton_append, hdir]
      rfl
    · refine piece_of_gputs put (f := fun v => { v with longFlags := 0, inFormat := false })
        (b := true) (l := 2) hpos (decide_eq_true hmin) rfl (fun _ _ => rfl) ?_
      rw [Piece.text, ← putSigned_eq put _ (by omega) (by omega), ← directive_lld]
      exact vprintfLoop_ll put pos _ out _ fmt
  | llu x =>
    have hlt := x.isLt
    refine piece_of_gputs put (f := fun v => { v with longFlags := 0, inFormat := false })
      (b := true) (l := 2) hpos rfl rfl (fun _ _ => rfl) ?_
    rw [Piece.text, ← putNumber_eq put _ (by omega), ← directive_llu]
    exact vprintfLoop_ll put pos _ out _ fmt

/-- A format is printed while no piece of it is out of range and the count is an `int`. -/
theorem vprintfLoop_format (ps : List Piece) {pos : ℕ} (hpos : pos < 2 ^ 31) (out : σ) :
    vprintfLoop put ⟨false, 0, pos, arguments ps, out⟩ (format ps) =
      if (∀ p ∈ ps, p.fits) ∧ pos + counted ps < 2 ^ 31 then
        .ok ⟨false, 0, pos + counted ps, [], (text ps).foldl put out⟩
      else .error .overflow := by
  induction ps generalizing pos out with
  | nil => exact (if_pos ⟨by simp, hpos⟩).symm
  | cons p ps ih =>
    have hcount : pos + counted (p :: ps) = pos + p.counted + counted ps := by
      simp [counted, Nat.add_assoc]
    rw [arguments, format, List.flatMap_cons, List.flatMap_cons,
      vprintfLoop_piece put pos _ out p _ hpos, hcount]
    by_cases hp : p.fits ∧ pos + p.counted < 2 ^ 31
    · rw [if_pos hp]
      refine (ih hp.2 _).trans ?_
      by_cases hps : (∀ q ∈ ps, q.fits) ∧ pos + p.counted + counted ps < 2 ^ 31
      · rw [if_pos hps, if_pos ⟨List.forall_mem_cons.2 ⟨hp.1, hps.1⟩, hps.2⟩, text, text,
          List.flatMap_cons, List.foldl_append]
      · rw [if_neg hps, if_neg fun h => hps ⟨(List.forall_mem_cons.1 h.1).2, h.2⟩]
    · rw [if_neg hp, if_neg fun h => hp ⟨h.1 p List.mem_cons_self, by omega⟩]

theorem vprintf_format (ps : List Piece) (out : σ) :
    vprintf put out (format ps) (arguments ps) =
      if (∀ p ∈ ps, p.fits) ∧ counted ps < 2 ^ 31 then
        .ok ((text ps).foldl put out, counted ps)
      else .error .overflow := by
  rw [vprintf, vprintfLoop_format put ps (by decide) out, Nat.zero_add]
  split_ifs <;> rfl

theorem Piece.counted_eq {p : Piece} (h : p ≠ .percent) : p.counted = p.text.length := by
  cases p with
  | percent => exact absurd rfl h
  | _ => rfl

theorem counted_le (ps : List Piece) : counted ps ≤ (text ps).length := by
  induction ps with
  | nil => simp [counted]
  | cons p ps ih =>
    have hp : p.counted ≤ p.text.length := by
      by_cases h : p = .percent
      · subst h
        exact Nat.zero_le _
      · exact le_of_eq (Piece.counted_eq h)
    simp only [counted, text, List.map_cons, List.sum_cons, List.flatMap_cons, List.length_append]
      at ih ⊢
    omega

/-- The count is the length of the text when there is no `%%`, and short of it otherwise. -/
theorem counted_eq_iff (ps : List Piece) :
    counted ps = (text ps).length ↔ .percent ∉ ps := by
  induction ps with
  | nil => simp [counted, text]
  | cons p ps ih =>
    have hle := counted_le ps
    have hcounted : counted (p :: ps) = p.counted + counted ps := by simp [counted]
    have htext : (text (p :: ps)).length = p.text.length + (text ps).length := by simp [text]
    rw [hcounted, htext, List.mem_cons, not_or, ← ih]
    by_cases h : p = .percent
    · subst h
      have hzero : Piece.percent.counted = 0 := rfl
      have hone : Piece.percent.text.length = 1 := rfl
      rw [hzero, hone]
      exact iff_of_false (by omega) fun hne => hne.1 rfl
    · rw [Piece.counted_eq h, Nat.add_left_cancel_iff]
      exact ⟨fun heq => ⟨fun he => h he.symm, heq⟩, fun hne => hne.2⟩

end Formats

section Output

variable {w : ℕ}

theorem sputch_foldl (mem : Mem w) (dst : BitVec w) (i : ℕ) (s : List Byte)
    (hroom : dst.toNat + i + s.length ≤ 2 ^ w) :
    ∃ mem', s.foldl sputch (mem, off dst i) = (mem', off dst (i + s.length)) ∧
      (∀ k (h : k < s.length), mem' (off dst (i + k)) = s[k]) ∧
      ∀ a, (∀ k < s.length, a ≠ off dst (i + k)) → mem' a = mem a := by
  induction s generalizing i mem with
  | nil => exact ⟨mem, rfl, fun k h => absurd h (Nat.not_lt_zero k), fun _ _ => rfl⟩
  | cons c s ih =>
    rw [List.length_cons] at hroom
    obtain ⟨mem', hfold, hbytes, hframe⟩ := ih (Function.update mem (off dst i) c) (i + 1) (by omega)
    have hsucc : ∀ k, i + 1 + k = i + (k + 1) := fun k => by omega
    simp only [hsucc] at hfold hbytes hframe
    refine ⟨mem', ?_, fun k hk => ?_, fun a ha => ?_⟩
    · rw [List.foldl_cons, sputch, off_add_one, hfold, List.length_cons]
    · cases k with
      | zero =>
        rw [Nat.add_zero, hframe _ fun k hk he => ?_, Function.update_self, List.getElem_cons_zero]
        rw [off_eq_off (by omega) (by omega)] at he
        omega
      | succ k =>
        rw [List.getElem_cons_succ]
        exact hbytes k (by simpa using hk)
    · have hne : a ≠ off dst i := ha 0 (by simp)
      rw [hframe a fun k hk => ha (k + 1) (by simpa using hk), Function.update_of_ne hne]

theorem sprintf_eq {mem : Mem w} {dst : BitVec w} {fmt : List Byte} {ap : List Arg}
    {s : Mem w × BitVec w} {res : ℕ} (h : vprintf sputch (mem, dst) fmt ap = .ok (s, res)) :
    sprintf mem dst fmt ap =
      if res + 1 < 2 ^ 31 then .ok ((sputch s 0).1, res) else .error .overflow := by
  rw [sprintf, h]
  rfl

end Output

/-- No `%%`, no `%lld` of the least value, and a text that with its NUL an `int` can count. -/
structure Printable (ps : List Piece) : Prop where
  noPercent : .percent ∉ ps
  fits : ∀ p ∈ ps, p.fits
  short : (text ps).length + 1 < 2 ^ 31

section Printable

variable {σ : Type} {w : ℕ}

theorem prints_iff (put : σ → Byte → σ) (out : σ) (mem : Mem w) (dst : BitVec w) (ps : List Piece)
    (hroom : dst.toNat + (text ps).length + 1 ≤ 2 ^ w) :
    Prints put out mem dst ps ↔ Printable ps := by
  constructor
  · intro h
    have hv := h.vprintf
    obtain ⟨mem', hs, -⟩ := h.sprintf
    rw [vprintf_format] at hv
    split_ifs at hv with hc
    obtain ⟨-, hcount⟩ := Prod.mk.inj (Except.ok.inj hv)
    refine ⟨(counted_eq_iff ps).1 hcount, hc.1, ?_⟩
    by_contra hlong
    rw [sprintf_eq ((vprintf_format sputch ps (mem, dst)).trans (if_pos hc)), hcount,
      if_neg hlong] at hs
    cases hs
  · intro h
    have hcount := (counted_eq_iff ps).2 h.noPercent
    have hshort := h.short
    have hprintable : (∀ p ∈ ps, p.fits) ∧ counted ps < 2 ^ 31 := ⟨h.fits, by omega⟩
    have hprinted := (vprintf_format sputch ps (mem, dst)).trans (if_pos hprintable)
    obtain ⟨mem', hfold, hbytes, hframe⟩ :=
      sputch_foldl mem dst 0 (text ps ++ [0]) (by
        rw [List.length_append, List.length_singleton]
        omega)
    rw [off_zero, List.foldl_append] at hfold
    simp only [List.length_append, List.length_singleton, Nat.zero_add] at hbytes hframe
    refine ⟨?_, mem', ?_, fun k hk => ?_, ?_, fun a ha => hframe a fun k hk => ha k (by omega)⟩
    · rw [vprintf_format, if_pos hprintable, hcount]
    · rw [sprintf_eq hprinted, hcount, if_pos hshort]
      exact congrArg (fun s : Mem w × BitVec w => Except.ok (s.1, (text ps).length)) hfold
    · rw [hbytes k (by omega), List.getElem_append_left hk]
    · rw [hbytes (text ps).length (by omega), List.getElem_concat_length rfl]

/-- A format of every kind of piece but `%%`. -/
theorem prints_hello : Prints (fun s c => s ++ [c]) ([] : List Byte) (fun _ : BitVec 32 => 0) 0x100#32
    [.lit (ch 'x') (by decide), .d 0x80000000#32, .c 33#32, .u 7#32,
      .s [ch 'h', ch 'i'] (by decide), .lld 0#64, .llu (BitVec.allOnes 64)] := by
  refine (prints_iff _ _ _ _ _ (by decide)).2 ⟨by simp, by simp [Piece.fits], by decide⟩

/-- `%%` is printed and not counted. -/
theorem vprintf_percent :
    vprintf (fun (s : List Byte) c => s ++ [c]) [] (format [.percent]) (arguments [.percent]) =
      .ok ([ch '%'], 0) := rfl

theorem prints_fails : ¬ ∀ (mem : Mem 32) (dst : BitVec 32) (ps : List Piece),
    dst.toNat + (text ps).length + 1 ≤ 2 ^ 32 →
      Prints (fun (s : List Byte) c => s ++ [c]) [] mem dst ps := by
  intro h
  have hv := (h (fun _ => 0) 0x100#32 [.percent] (by decide)).vprintf
  rw [vprintf_percent] at hv
  cases hv

end Printable

end Ysyx.Klib
