import Ysyx.Nemu.Device

/-! The timer: `rtc_io_handler` latches both halves of the time when the upper one is read, and the
two readers of the abstract machine read that one first. -/

namespace Ysyx.Nemu

open Bytes

/-- `get_time`, asking the host at `t₀` if there is no boot time yet, and at `t`; the time and
`boot_time`. -/
def getTime (getTimeInternal : ℕ → BitVec 64) (bootTime : BitVec 64) (t₀ t : ℕ) :
    BitVec 64 × BitVec 64 :=
  let bootTime := if bootTime = 0 then getTimeInternal t₀ else bootTime
  (getTimeInternal t - bootTime, bootTime)

/-- The device's variable is `boot_time`; `t₀` and `t` are the host times of its `get_time()`. -/
def rtcIoHandler (getTimeInternal : ℕ → BitVec 64) (t₀ t space : ℕ) (offset : Word) (_len : ℕ)
    (isWrite : Bool) (s : BitVec 64 × IoSpace) : Except BusFault (BitVec 64 × IoSpace) :=
  if offset = 0 ∨ offset = 4 then
    if isWrite = false ∧ offset = 4 then
      let (us, bootTime) := getTime getTimeInternal s.1 t₀ t
      let io := setReg s.2 space 0 (us.setWidth 32)
      .ok (bootTime, setReg io space 1 ((us >>> 32).setWidth 32))
    else .ok s
  else .error .assertion

/-- What `init_timer` registers. -/
def rtcMap (getTimeInternal : ℕ → BitVec 64) (t₀ t : ℕ) (low : Word) (space : ℕ) :
    DevMap (BitVec 64) :=
  ⟨low, low + 8 - 1, space, rtcIoHandler getTimeInternal t₀ t space⟩

/-- `RTC_ADDR` of the guest, which is also Kconfig's `RTC_MMIO`. -/
def RTC_ADDR : Word := 0xa0000048

/-- The host times of one call of `__am_timer_uptime`: those at which its first load may ask the host,
and those at which its second one may. -/
structure UptimeCall where
  t₀ : ℕ
  t : ℕ
  t₀' : ℕ
  t' : ℕ

def UptimeCall.times (c : UptimeCall) : List ℕ := [c.t₀, c.t, c.t₀', c.t']

section Guest

variable (cfg : Config) (mem : Mem) (getTimeInternal : ℕ → BitVec 64) (addr : Word) (space : ℕ)

/-- A load of the guest. -/
def inl (t₀ t : ℕ) (s : BitVec 64 × IoSpace) (a : Word) :
    Except BusFault (Word × (BitVec 64 × IoSpace)) :=
  (rtcMap getTimeInternal t₀ t addr space).paddrRead cfg mem s a 4

/-- `__am_timer_uptime` of `platform/nemu/ioe/timer.c`, for a timer at `addr`. -/
def amTimerUptimeNemu (c : UptimeCall) (s : BitVec 64 × IoSpace) :
    Except BusFault (BitVec 64 × (BitVec 64 × IoSpace)) := do
  let (d, s) ← inl cfg mem getTimeInternal addr space c.t₀ c.t s (addr + 4)
  let us := d.setWidth 64
  let us := us <<< 32
  let (d, s) ← inl cfg mem getTimeInternal addr space c.t₀' c.t' s addr
  return (us + d.setWidth 64, s)

/-- `__am_timer_uptime` of `riscv/npc/timer.c`. -/
def amTimerUptimeNpc (c : UptimeCall) (s : BitVec 64 × IoSpace) :
    Except BusFault (BitVec 64 × (BitVec 64 × IoSpace)) := do
  let (timeHigh, s) ← inl cfg mem getTimeInternal addr space c.t₀ c.t s (addr + 4)
  let (timeLow, s) ← inl cfg mem getTimeInternal addr space c.t₀' c.t' s addr
  return (timeHigh.setWidth 64 <<< 32 + timeLow.setWidth 64, s)

inductive Platform
  | nemu
  | npc

def amTimerUptime : Platform → UptimeCall → BitVec 64 × IoSpace →
    Except BusFault (BitVec 64 × (BitVec 64 × IoSpace))
  | .nemu => amTimerUptimeNemu cfg mem getTimeInternal addr space
  | .npc => amTimerUptimeNpc cfg mem getTimeInternal addr space

/-- One call after the other. -/
def uptimes (p : Platform) : List UptimeCall → BitVec 64 × IoSpace →
    Except BusFault (List (BitVec 64) × (BitVec 64 × IoSpace))
  | [], s => .ok ([], s)
  | c :: cs, s => do
    let (us, s) ← amTimerUptime cfg mem getTimeInternal addr space p c s
    let (rest, s) ← uptimes p cs s
    return (us :: rest, s)

end Guest

/-- What `get_time()` returns at the first load of each call. -/
def samples (getTimeInternal : ℕ → BitVec 64) (bootTime : BitVec 64) :
    List UptimeCall → List (BitVec 64)
  | [] => []
  | c :: cs =>
    let (us, bootTime) := getTime getTimeInternal bootTime c.t₀ c.t
    us :: samples getTimeInternal bootTime cs

/-- The calls return, each the whole value of its sample, and the results never decrease. -/
def NotTorn (cfg : Config) (mem : Mem) (getTimeInternal : ℕ → BitVec 64) (addr : Word) (space : ℕ)
    (p : Platform) (cs : List UptimeCall) (s : BitVec 64 × IoSpace) : Prop :=
  ∃ results s', uptimes cfg mem getTimeInternal addr space p cs s = .ok (results, s') ∧
    results = samples getTimeInternal s.1 cs ∧
    results.Pairwise fun us us' => us.toNat ≤ us'.toNat

/-- Of two calls, the first of which reads the clock at zero, so that `boot_time` looks unset to the
second: if that one sets it, no less time has passed since then than the first one returned. -/
def BootKept (getTimeInternal : ℕ → BitVec 64) (c c' : UptimeCall) : Prop :=
  getTimeInternal c.t₀ = 0 → getTimeInternal c'.t₀ ≠ 0 →
    (getTimeInternal c.t).toNat ≤ (getTimeInternal c'.t).toNat - (getTimeInternal c'.t₀).toNat

theorem halves_add (us : BitVec 64) :
    ((us >>> 32).setWidth 32).setWidth 64 <<< 32 + (us.setWidth 32).setWidth 64 = us := by
  have hhigh : ((us >>> 32).setWidth 32).setWidth 64 <<< 32 =
      BitVec.ofNat 64 (us.toNat / 2 ^ 32 * 2 ^ 32) := by
    apply BitVec.eq_of_toNat_eq
    have := us.isLt
    simp only [BitVec.toNat_shiftLeft, BitVec.toNat_setWidth, BitVec.toNat_ushiftRight,
      BitVec.toNat_ofNat, Nat.shiftRight_eq_div_pow, Nat.shiftLeft_eq]
    omega
  apply BitVec.eq_of_toNat_eq
  have := us.isLt
  rw [hhigh, BitVec.toNat_add, BitVec.toNat_ofNat, BitVec.toNat_setWidth, BitVec.toNat_setWidth]
  omega

section Access

variable {cfg : Config} {mem : Mem} {getTimeInternal : ℕ → BitVec 64} {low : Word} {space : ℕ}
  (hlow : low.toNat + 8 ≤ 2 ^ 32) (t₀ t : ℕ) (s : BitVec 64 × IoSpace)

include hlow

theorem toNat_rtc_high : (rtcMap getTimeInternal t₀ t low space).high.toNat = low.toNat + 7 := by
  change (low + 8 - 1).toNat = _
  rw [show low + 8 - 1 = low + 7 by ring, BitVec.toNat_add, show (7 : Word).toNat = 7 from rfl,
    Nat.mod_eq_of_lt (by omega)]

/-- The load of the upper half latches the time. -/
theorem inl_high (hpmem : inPmem cfg (low + 4) = .ok false) :
    inl cfg mem getTimeInternal low space t₀ t s (low + 4) =
      .ok (((getTime getTimeInternal s.1 t₀ t).1 >>> 32).setWidth 32,
        ((getTime getTimeInternal s.1 t₀ t).2,
          setReg (setReg s.2 space 0 ((getTime getTimeInternal s.1 t₀ t).1.setWidth 32)) space 1
            (((getTime getTimeInternal s.1 t₀ t).1 >>> 32).setWidth 32))) := by
  have hhigh := @toNat_rtc_high getTimeInternal low space hlow t₀ t
  have h4 : (4 : Word).toNat = 4 := rfl
  have hread : (rtcMap getTimeInternal t₀ t low space).read s (low + 4) 4 = _ :=
    DevMap.read_eq _ (by change low.toNat + _ < _; omega) (by change low.toNat + _ ≤ _; omega)
      (by decide) _
  rw [inl, DevMap.paddrRead_of_false _ hpmem, hread]
  have hreg := reg_setReg (setReg s.2 space 0 ((getTime getTimeInternal s.1 t₀ t).1.setWidth 32))
    space 1 (((getTime getTimeInternal s.1 t₀ t).1 >>> 32).setWidth 32)
  exact congrArg (fun d => Except.ok (d, _)) hreg

/-- The load of the lower half takes what was latched. -/
theorem inl_low (hpmem : inPmem cfg low = .ok false) :
    inl cfg mem getTimeInternal low space t₀ t s low = .ok (reg s.2 space 0, s) := by
  have hhigh := @toNat_rtc_high getTimeInternal low space hlow t₀ t
  have h0 : (0 : Word).toNat = 0 := rfl
  have hread : (rtcMap getTimeInternal t₀ t low space).read s (low + 0) 4 = _ :=
    DevMap.read_eq _ (by change low.toNat + _ < _; omega) (by change low.toNat + _ ≤ _; omega)
      (by decide) _
  rw [add_zero] at hread
  rw [inl, DevMap.paddrRead_of_false _ hpmem, hread]
  rfl

variable (hhigh : inPmem cfg (low + 4) = .ok false) (hzero : inPmem cfg low = .ok false)

include hhigh hzero

/-- One call, of either platform: the time at its first load, whatever the clock does then. -/
theorem amTimerUptime_eq (p : Platform) (c : UptimeCall) :
    ∃ io', amTimerUptime cfg mem getTimeInternal low space p c s =
      .ok ((getTime getTimeInternal s.1 c.t₀ c.t).1,
        ((getTime getTimeInternal s.1 c.t₀ c.t).2, io')) := by
  generalize hus : getTime getTimeInternal s.1 c.t₀ c.t = us
  have hfirst := @inl_high cfg mem getTimeInternal low space hlow c.t₀ c.t s hhigh
  have hsecond := fun s => @inl_low cfg mem getTimeInternal low space hlow c.t₀' c.t' s hzero
  rw [hus] at hfirst
  have hlatched : reg (setReg (setReg s.2 space 0 (us.1.setWidth 32)) space 1
      ((us.1 >>> 32).setWidth 32)) space 0 = us.1.setWidth 32 := by
    rw [reg_setReg_ne _ _ _ (by decide), reg_setReg]
  refine ⟨setReg (setReg s.2 space 0 (us.1.setWidth 32)) space 1 ((us.1 >>> 32).setWidth 32), ?_⟩
  cases p with
  | nemu =>
    rw [amTimerUptime, amTimerUptimeNemu, hfirst]
    change (inl cfg mem getTimeInternal low space c.t₀' c.t' _ low >>= fun _ => _) = _
    rw [hsecond, hlatched]
    exact congrArg (fun us => Except.ok (us, _)) (halves_add us.1)
  | npc =>
    rw [amTimerUptime, amTimerUptimeNpc, hfirst]
    change (inl cfg mem getTimeInternal low space c.t₀' c.t' _ low >>= fun _ => _) = _
    rw [hsecond, hlatched]
    exact congrArg (fun us => Except.ok (us, _)) (halves_add us.1)

theorem uptimes_eq (p : Platform) (cs : List UptimeCall) :
    ∃ s', uptimes cfg mem getTimeInternal low space p cs s =
      .ok (samples getTimeInternal s.1 cs, s') := by
  induction cs generalizing s with
  | nil => exact ⟨s, rfl⟩
  | cons c cs ih =>
    obtain ⟨io₁, hcall⟩ := @amTimerUptime_eq cfg mem getTimeInternal low space hlow s hhigh hzero p c
    obtain ⟨s₂, hrest⟩ := ih ((getTime getTimeInternal s.1 c.t₀ c.t).2, io₁)
    refine ⟨s₂, ?_⟩
    rw [uptimes, hcall]
    change (uptimes cfg mem getTimeInternal low space p cs _ >>= fun _ => _) = _
    rw [hrest]
    rfl

end Access

theorem inPmem_of_amTimerUptime {cfg : Config} {mem : Mem} {getTimeInternal : ℕ → BitVec 64}
    {addr : Word} {space : ℕ} {p : Platform} {c : UptimeCall} {s : BitVec 64 × IoSpace}
    {r : BitVec 64 × (BitVec 64 × IoSpace)} (hhigh : inPmem cfg (addr + 4) ≠ .ok true)
    (hlow : inPmem cfg addr ≠ .ok true)
    (h : amTimerUptime cfg mem getTimeInternal addr space p c s = .ok r) :
    inPmem cfg (addr + 4) = .ok false ∧ inPmem cfg addr = .ok false := by
  have hload {a : Word} (ha : inPmem cfg a ≠ .ok true) {t₀ t : ℕ} {s : BitVec 64 × IoSpace}
      {r : Word × (BitVec 64 × IoSpace)}
      (h : inl cfg mem getTimeInternal addr space t₀ t s a = .ok r) : inPmem cfg a = .ok false := by
    rcases (rtcMap getTimeInternal t₀ t addr space).paddrRead_cases ha with hfalse | ⟨f, herror⟩
    · exact hfalse
    · rw [inl, herror] at h
      cases h
  cases p with
  | nemu =>
    obtain ⟨r₁, hfirst, h⟩ := bind_eq_ok.mp h
    obtain ⟨r₂, hsecond, -⟩ := bind_eq_ok.mp h
    exact ⟨hload hhigh hfirst, hload hlow hsecond⟩
  | npc =>
    obtain ⟨r₁, hfirst, h⟩ := bind_eq_ok.mp h
    obtain ⟨r₂, hsecond, -⟩ := bind_eq_ok.mp h
    exact ⟨hload hhigh hfirst, hload hlow hsecond⟩

section Clock

variable {getTimeInternal : ℕ → BitVec 64}

theorem bootKept_of_ne_zero {cs : List UptimeCall} (h : ∀ c ∈ cs, getTimeInternal c.t₀ ≠ 0) :
    cs.IsChain (BootKept getTimeInternal) := by
  induction cs with
  | nil => exact .nil
  | cons c cs ih =>
    have hcs := ih fun c' hc' => h c' (List.mem_cons_of_mem c hc')
    cases cs with
    | nil => exact .singleton c
    | cons c' cs =>
      exact List.isChain_cons_cons.mpr ⟨fun h0 => absurd h0 (h c List.mem_cons_self), hcs⟩

/-- Each sample is at least the one before it, except for one that sets `boot_time` anew. -/
theorem samples_chain {bootTime : BitVec 64} {cs : List UptimeCall}
    (hclock : ∀ t t', t ≤ t' → (getTimeInternal t).toNat ≤ (getTimeInternal t').toNat)
    (hown : ∀ c ∈ cs, c.t₀ ≤ c.t) (hpair : cs.Pairwise fun c c' => c.t ≤ c'.t₀)
    (hboot : ∀ c ∈ cs, bootTime.toNat ≤ (getTimeInternal c.t₀).toNat) :
    (samples getTimeInternal bootTime cs).IsChain (fun us us' => us.toNat ≤ us'.toNat) ↔
      (bootTime = 0 → cs.IsChain (BootKept getTimeInternal)) := by
  induction cs generalizing bootTime with
  | nil => exact iff_of_true .nil fun _ => .nil
  | cons c cs ih =>
    cases cs with
    | nil => exact iff_of_true (.singleton _) fun _ => .singleton c
    | cons c' cs =>
      rw [List.pairwise_cons] at hpair
      have hc := hclock _ _ (hown c List.mem_cons_self)
      have hc' := hclock _ _ (hown c' (by simp))
      have hcc' := hclock _ _ (hpair.1 c' List.mem_cons_self)
      have hb := hboot c List.mem_cons_self
      have hown' (d : UptimeCall) (hd : d ∈ c' :: cs) : d.t₀ ≤ d.t :=
        hown d (List.mem_cons_of_mem c hd)
      have hfrom (d : UptimeCall) (hd : d ∈ c' :: cs) :
          (getTimeInternal c.t₀).toNat ≤ (getTimeInternal d.t₀).toNat :=
        hclock _ _ ((hown c List.mem_cons_self).trans (hpair.1 d hd))
      have hsub {x y : BitVec 64} (h : y.toNat ≤ x.toNat) : (x - y).toNat = x.toNat - y.toNat :=
        BitVec.toNat_sub_of_le h
      by_cases h0 : bootTime = 0
      · subst h0
        have htail := @ih (getTimeInternal c.t₀) hown' hpair.2 hfrom
        by_cases hz : getTimeInternal c.t₀ = 0
        · -- `boot_time` stays zero, and the next call looks at it again
          rw [hz] at htail
          simp only [samples, getTime, if_true, hz, List.isChain_cons_cons] at htail ⊢
          rw [htail, true_imp_iff, true_imp_iff]
          refine and_congr_left fun _ => ?_
          rw [hsub (Nat.zero_le _), hsub hc']
          unfold BootKept
          rw [imp_iff_right hz]
          constructor
          · exact fun h _ => h
          · intro h
            by_cases hz' : getTimeInternal c'.t₀ = 0
            · rw [hz']
              exact hcc'.trans (hc'.trans' le_rfl)
            · exact h hz'
        · have hchain : (c' :: cs).IsChain (BootKept getTimeInternal) := by
            refine bootKept_of_ne_zero fun d hd hd0 => hz ?_
            have hle := hfrom d hd
            rw [hd0] at hle
            exact BitVec.eq_of_toNat_eq (Nat.le_zero.mp hle)
          simp only [samples, getTime, if_true, if_neg hz, List.isChain_cons_cons] at htail ⊢
          refine iff_of_true ⟨?_, htail.mpr fun h => absurd h hz⟩
            fun _ => ⟨fun h => absurd h hz, hchain⟩
          rw [hsub hc, hsub (hc.trans (hcc'.trans hc'))]
          exact Nat.sub_le_sub_right (hcc'.trans hc') _
      · have htail := @ih bootTime hown' hpair.2 fun d hd => hb.trans (hfrom d hd)
        simp only [samples, getTime, if_neg h0, List.isChain_cons_cons] at htail ⊢
        refine iff_of_true ⟨?_, htail.mpr fun h => absurd h h0⟩ fun h => absurd h h0
        rw [hsub (hb.trans hc), hsub (hb.trans (hc.trans (hcc'.trans hc')))]
        exact Nat.sub_le_sub_right (hcc'.trans hc') _

variable {cfg : Config} {mem : Mem} {addr : Word} {space : ℕ} {s : BitVec 64 × IoSpace}
  {cs : List UptimeCall}

/-- On a clock that does not decrease, uptimes are whole and never decrease exactly when none is asked
for or `in_pmem` answers for both words of the timer, and `boot_time`, which is unset while it is
zero, is not set in the middle of the run to a time that the clock had left by less than an earlier
result. -/
theorem uptime_not_torn_iff (mem : Mem) (p : Platform)
    (hclock : ∀ t t', t ≤ t' → (getTimeInternal t).toNat ≤ (getTimeInternal t').toNat)
    (haddr : addr.toNat + 8 ≤ 2 ^ 32) (hhigh : inPmem cfg (addr + 4) ≠ .ok true)
    (hlow : inPmem cfg addr ≠ .ok true) (space : ℕ)
    (htimes : (cs.flatMap UptimeCall.times).Pairwise (· ≤ ·))
    (hboot : ∀ c ∈ cs, s.1.toNat ≤ (getTimeInternal c.t₀).toNat) :
    NotTorn cfg mem getTimeInternal addr space p cs s ↔
      cs = [] ∨ ((inPmem cfg (addr + 4) = .ok false ∧ inPmem cfg addr = .ok false) ∧
        (s.1 = 0 → cs.IsChain (BootKept getTimeInternal))) := by
  obtain ⟨hown, hpair⟩ := List.pairwise_flatMap.mp htimes
  have hchain := samples_chain hclock
    (fun c hc => (List.pairwise_cons.mp (hown c hc)).1 c.t (by simp))
    (hpair.imp fun h => h _ (by simp [UptimeCall.times]) _ (by simp [UptimeCall.times])) hboot
  constructor
  · rintro ⟨results, s', hrun, rfl, hsorted⟩
    cases cs with
    | nil => exact .inl rfl
    | cons c cs =>
      obtain ⟨r, hcall, -⟩ := bind_eq_ok.mp hrun
      exact .inr ⟨inPmem_of_amTimerUptime hhigh hlow hcall, hchain.mp hsorted.isChain⟩
  · rintro (rfl | ⟨⟨hhigh', hlow'⟩, hkept⟩)
    · exact ⟨[], s, rfl, rfl, .nil⟩
    · obtain ⟨s', hrun⟩ := uptimes_eq haddr s hhigh' hlow' p cs
      exact ⟨_, s', hrun, rfl, List.isChain_iff_pairwise.mp (hchain.mpr hkept)⟩

end Clock

theorem inPmem_RTC_ADDR (cfg : Config) : inPmem cfg (RTC_ADDR + 4) = .error .assertion := by
  unfold inPmem
  rw [if_neg (by decide), if_neg (by decide)]

/-- A host clock that goes on for a while from `2 ^ 32`. -/
def wrapClock (t : ℕ) : BitVec 64 := BitVec.ofNat 64 (2 ^ 32 + min t 9)

theorem wrapClock_mono {t t' : ℕ} (h : t ≤ t') : (wrapClock t).toNat ≤ (wrapClock t').toNat := by
  rw [wrapClock, wrapClock, BitVec.toNat_ofNat, BitVec.toNat_ofNat]
  omega

/-- A boot time of 1; the low half of the uptime wraps between the two loads of the first call. -/
theorem uptime_not_torn_iff_wrap :
    NotTorn defaultMem (fun _ _ => 0) wrapClock 0x38000048 0 .npc [⟨0, 0, 1, 2⟩, ⟨3, 3, 4, 4⟩]
        (1, fun _ => 0) ↔
      [UptimeCall.mk 0 0 1 2, ⟨3, 3, 4, 4⟩] = [] ∨
        ((inPmem defaultMem (0x38000048 + 4) = .ok false ∧
            inPmem defaultMem 0x38000048 = .ok false) ∧
          ((1 : BitVec 64) = 0 → [UptimeCall.mk 0 0 1 2, ⟨3, 3, 4, 4⟩].IsChain (BootKept wrapClock))) :=
  uptime_not_torn_iff (s := (1, fun _ => 0)) (fun _ _ => 0) .npc (fun _ _ => wrapClock_mono)
    (by decide) (by decide) (by decide) 0 (by decide) (by decide)

/-- One uptime where the guest has its timer. -/
theorem uptime_torn : ¬ ∀ (cfg : Config) (mem : Mem) (p : Platform) (getTimeInternal : ℕ → BitVec 64)
    (space : ℕ) (cs : List UptimeCall) (s : BitVec 64 × IoSpace),
    (∀ t t', t ≤ t' → (getTimeInternal t).toNat ≤ (getTimeInternal t').toNat) →
    (cs.flatMap UptimeCall.times).Pairwise (· ≤ ·) →
    (∀ c ∈ cs, s.1.toNat ≤ (getTimeInternal c.t₀).toNat) →
      NotTorn cfg mem getTimeInternal RTC_ADDR space p cs s := by
  intro h
  obtain ⟨results, s', hrun, -⟩ := h defaultMem (fun _ _ => 0) .nemu wrapClock 0 [⟨0, 0, 1, 2⟩]
    (0, fun _ => 0) (fun _ _ => wrapClock_mono) (by decide) (by decide)
  have hpmem := inPmem_RTC_ADDR defaultMem
  obtain ⟨r, hcall, -⟩ := bind_eq_ok.mp hrun
  have hfalse := (inPmem_of_amTimerUptime (by rw [hpmem]; exact fun h => nomatch h) (by decide)
    hcall).1
  rw [hpmem] at hfalse
  cases hfalse

end Ysyx.Nemu
