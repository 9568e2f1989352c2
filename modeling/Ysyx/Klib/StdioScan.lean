import Ysyx.Klib.Stdio
import Ysyx.Lib.Outcome

/-! Where `vprintf` reads its format: `fmt` moves on once for each turn of the loop and once more
when a directive opens, so a `%` that opens one at the end of the string takes it past the NUL. -/

namespace Ysyx.Klib

open Bytes

/-- The characters after which a directive is over. -/
def closes (c : Byte) : Bool :=
  c == ch 's' || c == ch 'c' || c == ch 'd' || c == ch 'u' || c == ch '%'

/-- The rest of a format string, read inside or outside a directive, ends in a `%` that opens one. -/
def opensAtEnd (inFormat : Bool) : List Byte → Bool
  | [] => false
  | c :: fmt =>
    if inFormat then opensAtEnd (!closes c) fmt
    else if c = ch '%' then fmt.isEmpty || opensAtEnd true fmt
    else opensAtEnd false fmt

section Directive

variable {σ : Type} (put : σ → Byte → σ) (v : VprintfState σ)

theorem gputch_ne_outside (c : Byte) : v.gputch put c ≠ .error .outside := by
  unfold VprintfState.gputch
  split_ifs <;> exact fun h => nomatch h

theorem gputs_ne_outside (s : List Byte) : v.gputs put s ≠ .error .outside := by
  induction s generalizing v with
  | nil => exact fun h => nomatch h
  | cons c s ih => exact bind_ne_error (gputch_ne_outside put v c) fun v _ => ih v

theorem assert_ne_outside (b : Bool) : VprintfState.assert b ≠ .error .outside := by
  cases b <;> exact fun h => nomatch h

theorem vaWord_ne_outside : v.vaWord ≠ .error .outside := by
  unfold VprintfState.vaWord
  split <;> exact fun h => nomatch h

theorem vaDword_ne_outside : v.vaDword ≠ .error .outside := by
  unfold VprintfState.vaDword
  split <;> exact fun h => nomatch h

theorem vaStr_ne_outside : v.vaStr ≠ .error .outside := by
  unfold VprintfState.vaStr
  split <;> exact fun h => nomatch h

theorem putNumber_ne_outside {u : ℕ} (hu : u ≤ 2 ^ 64) : putNumber put v u ≠ .error .outside := by
  have hpow : (2 : ℕ) ^ 64 < 10 ^ 64 := by decide
  rw [putNumber_eq put v (by omega)]
  exact gputs_ne_outside put v _

theorem putSigned_ne_outside {d : ℤ} (hd : d < 2 ^ 63) : putSigned put v d ≠ .error .outside := by
  unfold putSigned
  split_ifs with hneg hmin
  · exact bind_ne_error (gputch_ne_outside put v _) fun v _ => putNumber_ne_outside put v (by omega)
  · exact fun h => nomatch h
  · exact putNumber_ne_outside put v (by omega)

theorem directive_ne_outside (c : Byte) : directive put v c ≠ .error .outside := by
  unfold directive
  split_ifs
  · exact fun h => nomatch h
  · refine bind_ne_error (assert_ne_outside _) fun _ _ => ?_
    refine bind_ne_error (vaStr_ne_outside v) fun p _ => ?_
    exact bind_ne_error (gputs_ne_outside put p.2 p.1) fun _ _ h => nomatch h
  · refine bind_ne_error (assert_ne_outside _) fun _ _ => ?_
    refine bind_ne_error (vaWord_ne_outside v) fun p _ => ?_
    exact bind_ne_error (gputch_ne_outside put p.2 _) fun _ _ h => nomatch h
  · refine bind_ne_error (assert_ne_outside _) fun _ _ => ?_
    refine bind_ne_error (vaDword_ne_outside v) fun ⟨x, v'⟩ _ => ?_
    have hlt : x.toInt < 2 ^ 63 := x.toInt_lt
    change (putSigned put v' x.toInt >>= fun _ => _) ≠ _
    exact bind_ne_error (putSigned_ne_outside put v' hlt) fun _ _ h => nomatch h
  · refine bind_ne_error (assert_ne_outside _) fun _ _ => ?_
    refine bind_ne_error (vaWord_ne_outside v) fun ⟨x, v'⟩ _ => ?_
    have hlt := x.toInt_lt
    change (putSigned put v' x.toInt >>= fun _ => _) ≠ _
    exact bind_ne_error (putSigned_ne_outside put v' (by omega)) fun _ _ h => nomatch h
  · refine bind_ne_error (assert_ne_outside _) fun _ _ => ?_
    refine bind_ne_error (vaDword_ne_outside v) fun ⟨x, v'⟩ _ => ?_
    change (putNumber put v' x.toNat >>= fun _ => _) ≠ _
    exact bind_ne_error (putNumber_ne_outside put v' x.isLt.le) fun _ _ h => nomatch h
  · refine bind_ne_error (assert_ne_outside _) fun _ _ => ?_
    refine bind_ne_error (vaWord_ne_outside v) fun ⟨x, v'⟩ _ => ?_
    have hlt := x.isLt
    change (putNumber put v' x.toNat >>= fun _ => _) ≠ _
    exact bind_ne_error (putNumber_ne_outside put v' (by omega)) fun _ _ h => nomatch h
  · exact fun h => nomatch h
  · exact fun h => nomatch h

/-- A directive is over exactly after a conversion. -/
theorem directive_inFormat {v v' : VprintfState σ} {c : Byte} (hin : v.inFormat = true)
    (h : directive put v c = .ok v') : v'.inFormat = !closes c := by
  unfold directive at h
  split_ifs at h with hl hs hc hd hll hu hll hp
  · rw [← Except.ok.inj h, hl]
    exact hin
  · obtain ⟨_, -, h⟩ := bind_eq_ok.1 h
    obtain ⟨_, -, h⟩ := bind_eq_ok.1 h
    obtain ⟨_, -, h⟩ := bind_eq_ok.1 h
    rw [← Except.ok.inj h, hs]
    rfl
  · obtain ⟨_, -, h⟩ := bind_eq_ok.1 h
    obtain ⟨_, -, h⟩ := bind_eq_ok.1 h
    obtain ⟨_, -, h⟩ := bind_eq_ok.1 h
    rw [← Except.ok.inj h, hc]
    rfl
  · obtain ⟨_, -, h⟩ := bind_eq_ok.1 h
    obtain ⟨⟨x, v1⟩, -, h⟩ := bind_eq_ok.1 h
    change (putSigned put v1 x.toInt >>= fun _ => _) = _ at h
    obtain ⟨_, -, h⟩ := bind_eq_ok.1 h
    rw [← Except.ok.inj h, hd]
    rfl
  · obtain ⟨_, -, h⟩ := bind_eq_ok.1 h
    obtain ⟨⟨x, v1⟩, -, h⟩ := bind_eq_ok.1 h
    change (putSigned put v1 x.toInt >>= fun _ => _) = _ at h
    obtain ⟨_, -, h⟩ := bind_eq_ok.1 h
    rw [← Except.ok.inj h, hd]
    rfl
  · obtain ⟨_, -, h⟩ := bind_eq_ok.1 h
    obtain ⟨⟨x, v1⟩, -, h⟩ := bind_eq_ok.1 h
    change (putNumber put v1 x.toNat >>= fun _ => _) = _ at h
    obtain ⟨_, -, h⟩ := bind_eq_ok.1 h
    rw [← Except.ok.inj h, hu]
    rfl
  · obtain ⟨_, -, h⟩ := bind_eq_ok.1 h
    obtain ⟨⟨x, v1⟩, -, h⟩ := bind_eq_ok.1 h
    change (putNumber put v1 x.toNat >>= fun _ => _) = _ at h
    obtain ⟨_, -, h⟩ := bind_eq_ok.1 h
    rw [← Except.ok.inj h, hu]
    rfl
  · rw [← Except.ok.inj h, hp]
    rfl
  · rw [← Except.ok.inj h, hin]
    simp [closes, *]

end Directive

section Scan

variable {σ : Type} (put : σ → Byte → σ)

theorem gputch_inFormat {v v' : VprintfState σ} {c : Byte} (h : v.gputch put c = .ok v') :
    v'.inFormat = v.inFormat := by
  unfold VprintfState.gputch at h
  split_ifs at h
  rw [← Except.ok.inj h]

theorem vprintfLoop_plain (lf pos : ℕ) (ap : List Arg) (out : σ) {c : Byte} (hc : c ≠ ch '%')
    (fmt : List Byte) :
    vprintfLoop put ⟨false, lf, pos, ap, out⟩ (c :: fmt) =
      (VprintfState.gputch put ⟨false, lf, pos, ap, out⟩ c >>= fun v => vprintfLoop put v fmt) := by
  cases fmt <;> exact if_pos ⟨hc, rfl⟩

/-- What a turn of the loop does to the flag is what `opensAtEnd` reads off the string. -/
theorem vprintfLoop_scan (fmt : List Byte) (v : VprintfState σ) :
    (opensAtEnd v.inFormat fmt = false → vprintfLoop put v fmt ≠ .error .outside) ∧
    (opensAtEnd v.inFormat fmt = true → ∀ r, vprintfLoop put v fmt ≠ .ok r) := by
  induction fmt generalizing v with
  | nil => exact ⟨fun _ h => (nomatch h), fun h => (nomatch h)⟩
  | cons c fmt ih =>
    obtain ⟨inFormat, lf, pos, ap, out⟩ := v
    cases inFormat with
    | true =>
      rw [vprintfLoop_inside]
      constructor
      · intro hopen
        refine bind_ne_error (directive_ne_outside put _ c) fun v' hv' => (ih v').1 ?_
        rw [directive_inFormat put rfl hv']
        exact hopen
      · intro hopen r h
        obtain ⟨v', hv', h⟩ := bind_eq_ok.1 h
        refine (ih v').2 ?_ r h
        rw [directive_inFormat put rfl hv']
        exact hopen
    | false =>
      by_cases hc : c = ch '%'
      · subst hc
        cases fmt with
        | nil => exact ⟨fun h => (nomatch h), fun _ r h => (nomatch h)⟩
        | cons c fmt =>
          -- stepping over the `%` leaves the loop inside a directive
          rw [vprintfLoop_enter, ← vprintfLoop_inside]
          exact ih ⟨true, lf, pos, ap, out⟩
      · have hscan : opensAtEnd false (c :: fmt) = opensAtEnd false fmt := by
          rw [opensAtEnd, if_neg Bool.false_ne_true, if_neg hc]
        rw [vprintfLoop_plain put lf pos ap out hc, hscan]
        constructor
        · intro hopen
          refine bind_ne_error (gputch_ne_outside put _ c) fun v' hv' => (ih v').1 ?_
          rw [gputch_inFormat put hv']
          exact hopen
        · intro hopen r h
          obtain ⟨v', hv', h⟩ := bind_eq_ok.1 h
          refine (ih v').2 ?_ r h
          rw [gputch_inFormat put hv']
          exact hopen

variable (out : σ) (fmt : List Byte) (ap : List Arg)

theorem vprintf_inside (h : opensAtEnd false fmt = false) :
    vprintf put out fmt ap ≠ .error .outside :=
  bind_ne_error ((vprintfLoop_scan put fmt ⟨false, 0, 0, ap, out⟩).1 h) fun _ _ h => nomatch h

theorem vprintf_not_ok (h : opensAtEnd false fmt = true) (r : σ × ℕ) :
    vprintf put out fmt ap ≠ .ok r := by
  intro hr
  obtain ⟨v, hv, -⟩ := bind_eq_ok.1 hr
  exact (vprintfLoop_scan put fmt ⟨false, 0, 0, ap, out⟩).2 h v hv

/-- `vprintf` stays inside a format that does not end in an opening `%`, whatever its arguments
are; where nothing else goes wrong it leaves every other format. -/
theorem vprintf_inside_iff :
    (opensAtEnd false fmt = false → vprintf put out fmt ap ≠ .error .outside) ∧
    ((∀ e, vprintf put out fmt ap = .error e → e = .outside) →
      (vprintf put out fmt ap ≠ .error .outside ↔ opensAtEnd false fmt = false)) := by
  refine ⟨vprintf_inside put out fmt ap, fun hfail => ⟨fun h => ?_, vprintf_inside put out fmt ap⟩⟩
  rw [Bool.eq_false_iff]
  intro hopen
  rcases hr : vprintf put out fmt ap with e | r
  · rw [hfail e hr] at hr
    exact h hr
  · exact vprintf_not_ok put out fmt ap hopen r hr

end Scan

theorem vprintf_lone_percent (ap : List Arg) :
    vprintf (fun (s : List Byte) c => s ++ [c]) [] [ch '%'] ap = .error .outside := rfl

/-- An unknown conversion, flags, a width and `%%` at the end; and a lone `%`. -/
theorem vprintf_inside_iff_malformed :
    vprintf (fun (s : List Byte) c => s ++ [c]) []
        [ch '%', ch '-', ch '5', ch 'q', ch 'l', ch '%', ch 'x', ch '%', ch '%'] [] ≠
      .error .outside ∧
    (vprintf (fun (s : List Byte) c => s ++ [c]) [] [ch '%'] [] ≠ .error .outside ↔
      opensAtEnd false [ch '%'] = false) := by
  refine ⟨(vprintf_inside_iff _ [] _ []).1 (by decide), (vprintf_inside_iff _ [] _ []).2 ?_⟩
  intro e he
  rw [vprintf_lone_percent] at he
  exact (Except.error.inj he).symm

/-- `"%"` fails no assertion and is left. -/
theorem lone_percent_outside : ¬ ∀ (fmt : List Byte) (ap : List Arg), 0 ∉ fmt →
    vprintf (fun (s : List Byte) c => s ++ [c]) [] fmt ap ≠ .error .assertion →
    vprintf (fun (s : List Byte) c => s ++ [c]) [] fmt ap ≠ .error .outside := by
  intro h
  refine h [ch '%'] [] (by decide) ?_ (vprintf_lone_percent [])
  rw [vprintf_lone_percent]
  exact fun h => nomatch h

end Ysyx.Klib
