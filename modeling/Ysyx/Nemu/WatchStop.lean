import Ysyx.Nemu.Sticky
import Ysyx.Nemu.WatchpointPool

/-! Watchpoints over debugger sessions. At the prompt every active watchpoint stores the
value it was last set or reported with, which is the value its expression has; a run
goes on as long as no instruction changes one of them, and no longer. -/

namespace Ysyx.Nemu

open Bytes Chain

variable {ρ : Type}

/-- The value last reported for each watchpoint, after the reports of a run. -/
def reported (seen : WPtr → Word) (out : List Report) : WPtr → Word :=
  out.foldl (fun s r => Function.update s r.wp r.new) seen

/-- A session, with the value each watchpoint was set or last reported with. -/
inductive WatchSession (cfg : Config) (R : RefModel ρ) : Sim ρ → (WPtr → Word) → Prop where
  | init (σ : Sim ρ) (seen : WPtr → Word) :
      WatchSession cfg R { σ with w := initWpPool σ.w } seen
  | set {σ : Sim ρ} {seen : WPtr → Word} {args : List Char} {result : Word} {p : WPtr}
      {w' : WPPool} (run : WatchSession cfg R σ seen)
      (heval : evalWp cfg σ.m args = .ok (result, true))
      (hset : wpSet σ.w args result = .ok (p, w')) :
      WatchSession cfg R { σ with w := w' } (Function.update seen p result)
  | delete {σ : Sim ρ} {seen : WPtr → Word} {no : ℤ} {w' : WPPool}
      (run : WatchSession cfg R σ seen) (hdel : wpDelete σ.w no = .ok w') :
      WatchSession cfg R { σ with w := w' } seen
  | exec {σ σ' : Sim ρ} {seen : WPtr → Word} {n : BitVec 64} {out : List Report}
      (run : WatchSession cfg R σ seen) (hexec : cpuExec cfg R n σ = .ok σ')
      (hout : σ'.out = σ.out ++ out) : WatchSession cfg R σ' (reported seen out)

/-- At the prompt: the lists are in order, and each active node stores its last reported
value, which its expression has now. -/
structure Watching (cfg : Config) (σ : Sim ρ) (seen : WPtr → Word) (a f : List WPtr) : Prop where
  spells : Spells σ.w a f
  seen : ∀ p ∈ a, (σ.w.wp p).old = seen p
  current : ∀ p ∈ a, ∃ b, evalWp cfg σ.m (σ.w.wp p).expr = .ok ((σ.w.wp p).old, b)

section Pass

variable {cfg : Config} {m m' : Machine} {w w' : WPPool} {a f : List WPtr} {out : List Report}

theorem reported_map (g : WPtr → Report) (hg : ∀ p, (g p).wp = p) {b : List WPtr} (hb : b.Nodup)
    (seen : WPtr → Word) (q : WPtr) :
    reported seen (b.map g) q = if q ∈ b then (g q).new else seen q := by
  induction b generalizing seen with
  | nil => rfl
  | cons p b ih =>
    obtain ⟨hp, hb⟩ := List.nodup_cons.mp hb
    have hstep : reported seen ((p :: b).map g) =
        reported (Function.update seen p (g p).new) (b.map g) := by
      rw [List.map_cons, reported, List.foldl_cons, hg]
      rfl
    rw [hstep, ih hb]
    by_cases hq : q = p
    · subst hq
      simp [hp]
    · simp [hq]

theorem reported_append (seen : WPtr → Word) (out out' : List Report) :
    reported seen (out ++ out') = reported (reported seen out) out' := List.foldl_append

/-- A pass reports what it stores. -/
theorem WatchPass.reported (h : WatchPass cfg m w a m' w' out) (ha : a.Nodup)
    {seen : WPtr → Word} (hseen : ∀ p ∈ a, (w.wp p).old = seen p) :
    ∀ p ∈ a, (w'.wp p).old = reported seen out p := by
  intro p hp
  rw [h.out, reported_map _ (fun _ => rfl) (ha.filter _)]
  split_ifs with hnew
  · rfl
  · rw [List.mem_filter, not_and, decide_eq_true_eq, not_not] at hnew
    rw [← hseen p hp, hnew hp]

theorem WatchPass.spells (h : WatchPass cfg m w a m' w' out) (hs : Spells w a f) :
    Spells w' a f where
  head := by
    rw [h.next, h.head]
    exact hs.head
  free := by
    rw [h.next, h.free]
    exact hs.free
  apart := hs.apart
  all := hs.all
  NO p := by
    rw [h.node p]
    exact hs.NO p

end Pass

section Iter

variable {cfg : Config} {R : RefModel ρ} {it : IterStates ρ} {a f : List WPtr}

theorem difftestHook_frame {s : Decode} {d : Word} {σ σ' : Sim ρ}
    (h : difftestHook cfg R s d σ = .ok σ') : σ'.w = σ.w ∧ σ'.out = σ.out := by
  unfold difftestHook at h
  split_ifs at h
  · obtain ⟨⟨m, r⟩, -, h⟩ := bind_eq_ok.mp h
    cases h
    exact ⟨rfl, rfl⟩
  · cases h
    exact ⟨rfl, rfl⟩

theorem checkregs_ns {m m' : Machine} {ref : CPUState} {pc : Word}
    (h : checkregs cfg m ref pc = .ok m') :
    m'.nemuState = m.nemuState ∨ m'.nemuState.state = .ABORT := by
  obtain ⟨b, -, h⟩ := bind_eq_ok.mp h
  cases b with
  | true =>
    cases h
    exact .inl rfl
  | false =>
    cases h
    exact .inr rfl

theorem difftestStep_ns {m m' : Machine} {r r' : ρ} {pc npc : Word}
    (h : difftestStep cfg R m r pc npc = .ok (m', r')) :
    m'.nemuState = m.nemuState ∨ m'.nemuState.state = .ABORT := by
  rcases difftestStep_cases cfg R h with
    ⟨-, -, -, hcheck⟩ | ⟨-, -, -, -, rfl⟩ | ⟨-, -, -, rfl⟩ | ⟨-, -, -, hcheck⟩
  · have hns := checkregs_ns hcheck
    exact hns
  · exact .inl rfl
  · exact .inl rfl
  · exact checkregs_ns hcheck

theorem difftestHook_ns {s : Decode} {d : Word} {σ σ' : Sim ρ}
    (h : difftestHook cfg R s d σ = .ok σ') : σ'.ns = σ.ns ∨ σ'.ns.state = .ABORT := by
  unfold difftestHook at h
  split_ifs at h
  · obtain ⟨⟨m, r⟩, hstep, h⟩ := bind_eq_ok.mp h
    cases h
    exact difftestStep_ns (ofCpu_eq_ok.mp hstep)
  · cases h
    exact .inl rfl

theorem IsIteration.diffed_cases (h : IsIteration cfg R it) (hrun : it.start.ns.state = .RUNNING) :
    it.diffed.ns.state = .RUNNING ∨ Terminal it.diffed.ns ∨
      it.s.inst = EBREAK ∧ it.diffed.ns.state = .STOP := by
  rcases difftestHook_ns h.diffed with hns | habort
  · rw [hns]
    by_cases hword : it.s.inst = EBREAK
    · exact .inr (.inr ⟨hword, (h.ebreak hword).2⟩)
    · obtain ⟨m, hexec, hm⟩ := h.exec
      rw [Sim.ns, (h.tested_ns hword).nemuState, hm]
      rcases (isaExecOnce_effect hexec).1 with ⟨-, hq⟩ | ⟨he, -⟩ | ⟨-, hinv⟩
      · rw [hq.nemuState]
        exact .inl hrun
      · exact absurd he hword
      · rw [hinv.nemuState]
        exact .inr (.inl (.inr rfl))
  · exact .inr (.inl (.inr habort))

/-- The pass that an iteration ends with. -/
theorem IsIteration.pass (h : IsIteration cfg R it) (hwp : cfg.WATCHPOINT = true)
    (hs : Spells it.start.w a f) : ∃ out, it.watched.out = it.start.out ++ out ∧
      WatchPass cfg it.diffed.m it.start.w a it.watched.m it.watched.w out := by
  obtain ⟨m, -, hm⟩ := h.exec
  obtain ⟨hw, ho⟩ := difftestHook_frame h.diffed
  have hw' : it.diffed.w = it.start.w := by rw [hw, h.tested, hm]
  have ho' : it.diffed.out = it.start.out := by rw [ho, h.tested, hm]
  have hwatch := h.watched
  rw [watchHook, if_pos hwp] at hwatch
  obtain ⟨⟨m', w', out⟩, hd, hwatch⟩ := bind_eq_ok.mp hwatch
  obtain ⟨a', ha', hpass⟩ := wpDifftest_pass (ofWp_eq_ok.mp hd)
  rw [hw'] at ha' hpass
  rw [ha'.unique hs.head] at hpass
  injection hwatch with hwatch
  rw [← hwatch]
  exact ⟨out, by rw [ho'], hpass⟩

end Iter

section Runs

variable {cfg : Config} {R : RefModel ρ} {σ σ' τ : Sim ρ} {seen : WPtr → Word} {a f : List WPtr}
  {its : List (IterStates ρ)} {n : ℕ}

/-- What a run of the loop keeps of the watchpoints, and what it has reported. -/
structure Kept (σ τ : Sim ρ) (seen : WPtr → Word) (a f : List WPtr)
    (printed : List Report) : Prop where
  out : τ.out = σ.out ++ printed
  spells : Spells τ.w a f
  expr : ∀ p, (τ.w.wp p).expr = (σ.w.wp p).expr
  seen : ∀ p ∈ a, (τ.w.wp p).old = reported seen printed p

theorem IsIteration.kept {it : IterStates ρ} (h : IsIteration cfg R it)
    (hwp : cfg.WATCHPOINT = true) (hs : Spells it.start.w a f)
    (hseen : ∀ p ∈ a, (it.start.w.wp p).old = seen p) :
    ∃ out, Kept it.start it.watched seen a f out ∧
      WatchPass cfg it.diffed.m it.start.w a it.watched.m it.watched.w out := by
  obtain ⟨out, ho, hpass⟩ := h.pass hwp hs
  exact ⟨out, ⟨ho, hpass.spells hs, hpass.expr, hpass.reported hs.head.nodup hseen⟩, hpass⟩

theorem Kept.trans {τ' : Sim ρ} {out out' : List Report} (h : Kept σ τ seen a f out)
    (h' : Kept τ τ' (reported seen out) a f out') : Kept σ τ' seen a f (out ++ out') where
  out := by rw [h'.out, h.out, List.append_assoc]
  spells := h'.spells
  expr p := (h'.expr p).trans (h.expr p)
  seen p hp := by
    rw [h'.seen p hp, reported_append]

theorem Executes.eq_of_nil (run : Executes cfg R n σ [] τ) : n = 0 ∧ τ = σ := by
  cases run
  exact ⟨rfl, rfl⟩

theorem Executes.kept (run : Executes cfg R n σ its τ) (hwp : cfg.WATCHPOINT = true)
    (hs : Spells σ.w a f) (hseen : ∀ p ∈ a, (σ.w.wp p).old = seen p) :
    ∃ out, Kept σ τ seen a f out ∧
      (its ≠ [] → ∀ p ∈ a, ∃ b, evalWp cfg τ.m (τ.w.wp p).expr = .ok ((τ.w.wp p).old, b)) := by
  induction run generalizing seen with
  | done σ =>
    exact ⟨[], ⟨(List.append_nil _).symm, hs, fun _ => rfl, hseen⟩, fun hne => absurd rfl hne⟩
  | stop it h hstop =>
    obtain ⟨out, hk, hpass⟩ := h.kept hwp hs hseen
    exact ⟨out, hk, fun _ p hp => hpass.value' hp⟩
  | @next n its' τ it h hrun rest ih =>
    obtain ⟨out, hk, hpass⟩ := h.kept hwp hs hseen
    obtain ⟨out', hk', hcur⟩ := ih hk.spells hk.seen
    refine ⟨out ++ out', hk.trans hk', fun _ => ?_⟩
    by_cases hnil : its' = []
    · subst hnil
      rw [rest.eq_of_nil.2]
      exact fun p hp => hpass.value' hp
    · exact hcur hnil

theorem afterExecute_frame (τ : Sim ρ) :
    (afterExecute τ).w = τ.w ∧ (afterExecute τ).out = τ.out ∧ (afterExecute τ).m.cpu = τ.m.cpu ∧
      (afterExecute τ).m.mem = τ.m.mem := by
  unfold afterExecute
  split_ifs <;> exact ⟨rfl, rfl, rfl, rfl⟩

theorem Watching.exec {N : BitVec 64} (h : Watching cfg σ seen a f) (hwp : cfg.WATCHPOINT = true)
    {out : List Report} (hexec : cpuExec cfg R N σ = .ok σ') (hout : σ'.out = σ.out ++ out) :
    Watching cfg σ' (reported seen out) a f := by
  rcases cpuExec_cases hexec with ⟨-, rfl⟩ | ⟨-, its, τ, run, rfl⟩
  · rw [List.self_eq_append_right.mp hout]
    exact h
  obtain ⟨hw, ho, hcpu, hmem⟩ := afterExecute_frame τ
  obtain ⟨out', hk, hcur⟩ := run.kept hwp (σ := σ.setState .RUNNING) h.spells h.seen
  have hoo : out' = out := by
    have hτ : τ.out = σ.out ++ out' := hk.out
    rw [ho, hτ] at hout
    exact List.append_cancel_left hout
  subst hoo
  refine ⟨by rw [hw]; exact hk.spells, fun p hp => by rw [hw]; exact hk.seen p hp,
    fun p hp => ?_⟩
  rw [hw, evalWp_congr hcpu hmem]
  by_cases hnil : its = []
  · subst hnil
    obtain ⟨b, hb⟩ := h.current p hp
    have hcpu' : (σ.setState .RUNNING).m.cpu = σ.m.cpu := rfl
    have hmem' : (σ.setState .RUNNING).m.mem = σ.m.mem := rfl
    rw [run.eq_of_nil.2, evalWp_congr hcpu' hmem']
    exact ⟨b, hb⟩
  · exact hcur hnil p hp

theorem Watching.set {args : List Char} {result : Word} {p : WPtr} {w' : WPPool}
    (h : Watching cfg σ seen a f) (heval : evalWp cfg σ.m args = .ok (result, true))
    (hset : wpSet σ.w args result = .ok (p, w')) :
    ∃ f', Watching cfg { σ with w := w' } (Function.update seen p result) (p :: a) f' := by
  obtain ⟨f', rfl, hs, hother, hexpr, hold, -⟩ := h.spells.set hset
  have hpa : p ∉ a := (List.nodup_cons.mp hs.head.nodup).1
  refine ⟨f', hs, fun q hq => ?_, fun q hq => ?_⟩
  · rcases List.mem_cons.mp hq with rfl | hq
    · rw [Function.update_self]
      exact hold
    · have hne : q ≠ p := ne_of_mem_of_not_mem hq hpa
      rw [Function.update_of_ne hne, hother q hne]
      exact h.seen q hq
  · rcases List.mem_cons.mp hq with rfl | hq
    · exact ⟨true, by rw [hexpr, hold]; exact heval⟩
    · rw [hother q (ne_of_mem_of_not_mem hq hpa)]
      exact h.current q hq

/-- Whatever the commands before it, the prompt finds the watchpoints in order. -/
theorem WatchSession.watching (run : WatchSession cfg R σ seen) (hwp : cfg.WATCHPOINT = true) :
    ∃ a f, Watching cfg σ seen a f := by
  induction run with
  | init σ seen =>
    exact ⟨[], _, spells_init σ.w, fun p hp => (List.not_mem_nil hp).elim,
      fun p hp => (List.not_mem_nil hp).elim⟩
  | set _ heval hset ih =>
    obtain ⟨a, f, h⟩ := ih
    obtain ⟨f', h'⟩ := h.set heval hset
    exact ⟨_, f', h'⟩
  | delete _ hdel ih =>
    obtain ⟨a, f, h⟩ := ih
    obtain ⟨a', f', hs, hsub, hd⟩ := h.spells.delete hdel
    refine ⟨a', f', hs, fun p hp => ?_, fun p hp => ?_⟩
    · rw [hd p]
      exact h.seen p (hsub p hp)
    · rw [hd p]
      exact h.current p (hsub p hp)
  | exec _ hexec hout ih =>
    obtain ⟨a, f, h⟩ := ih
    exact ⟨a, f, h.exec hwp hexec hout⟩

/-- The expression of a node has this value. -/
def HasWpValue (cfg : Config) (m : Machine) (e : List Char) (v : Word) : Prop :=
  ∃ b, evalWp cfg m e = .ok (v, b)

theorem HasWpValue.success {m : Machine} {e : List Char} {v : Word} (h : HasWpValue cfg m e v)
    (hs : ∃ v', evalWp cfg m e = .ok (v', true)) : evalWp cfg m e = .ok (v, true) := by
  obtain ⟨b, hb⟩ := h
  obtain ⟨v', hv'⟩ := hs
  cases hb.symm.trans hv'
  exact hv'

/-- What the end of an iteration says about the watched values. -/
structure IterStops (cfg : Config) (it : IterStates ρ) (seen : WPtr → Word) (a : List WPtr) :
    Prop where
  running : it.watched.ns.state = .RUNNING → ∀ p ∈ a,
    HasWpValue cfg it.diffed.m (it.start.w.wp p).expr (seen p) ∧ (it.watched.w.wp p).old = seen p
  stopped : it.watched.ns.state ≠ .RUNNING → it.watched.ns.state = .STOP ∧
    ((∃ p ∈ a, ∃ v ≠ seen p, HasWpValue cfg it.diffed.m (it.start.w.wp p).expr v) ∨
      it.s.inst = EBREAK) ∨ Terminal it.watched.ns

theorem IsIteration.stops {it : IterStates ρ} (h : IsIteration cfg R it)
    (hrun : it.start.ns.state = .RUNNING) (hwp : cfg.WATCHPOINT = true)
    (hs : Spells it.start.w a f) (hseen : ∀ p ∈ a, (it.start.w.wp p).old = seen p) :
    IterStops cfg it seen a := by
  obtain ⟨out, -, hpass⟩ := h.pass hwp hs
  have hvalue : ∀ p ∈ a, HasWpValue cfg it.diffed.m (it.start.w.wp p).expr
      (it.watched.w.wp p).old := hpass.value
  by_cases hout : out = []
  · have hm : it.watched.ns = it.diffed.ns := by
      rw [Sim.ns, hpass.state, stopIf, if_pos hout]
      rfl
    have hsame := hpass.out_eq_nil_iff.mp hout
    refine ⟨fun _ p hp => ?_, fun hne => ?_⟩
    · have hold : (it.watched.w.wp p).old = seen p := (hsame p hp).symm.trans (hseen p hp)
      have hv := hvalue p hp
      rw [hold] at hv
      exact ⟨hv, hold⟩
    · rw [hm] at hne ⊢
      rcases h.diffed_cases hrun with hr | ht | ⟨hword, hstop⟩
      · exact absurd hr hne
      · exact .inr ht
      · exact .inl ⟨hstop, .inr hword⟩
  · have hstop : it.watched.ns.state = .STOP := by
      rw [Sim.ns, hpass.state, stopIf, if_neg hout]
      rfl
    refine ⟨fun hr => (by cases hr.symm.trans hstop), fun _ => .inl ⟨hstop, .inl ?_⟩⟩
    have hnew : ∃ p ∈ a, (it.start.w.wp p).old ≠ (it.watched.w.wp p).old := by
      by_contra hc
      push Not at hc
      exact hout (hpass.out_eq_nil_iff.mpr hc)
    obtain ⟨p, hp, hne⟩ := hnew
    exact ⟨p, hp, _, fun he => hne ((hseen p hp).trans he.symm), hvalue p hp⟩

/-- What a run of the loop says about the watched values. -/
structure RunStops (cfg : Config) (w : WPPool) (seen : WPtr → Word) (a : List WPtr) (n : ℕ)
    (its : List (IterStates ρ)) (τ : Sim ρ) : Prop where
  inner : ∀ l it r, its = l ++ it :: r → r ≠ [] → ∀ p ∈ a,
    HasWpValue cfg it.diffed.m (w.wp p).expr (seen p)
  last : ∀ l it, its = l ++ [it] → its.length < n → ¬ Terminal τ.ns →
    (∃ p ∈ a, ∃ v ≠ seen p, HasWpValue cfg it.diffed.m (w.wp p).expr v) ∨ it.s.inst = EBREAK
  state : τ.ns.state = .RUNNING ∨ τ.ns.state = .STOP ∨ Terminal τ.ns

theorem Executes.stops (run : Executes cfg R n σ its τ) (hrun : σ.ns.state = .RUNNING)
    (hwp : cfg.WATCHPOINT = true) (hs : Spells σ.w a f)
    (hseen : ∀ p ∈ a, (σ.w.wp p).old = seen p) : RunStops cfg σ.w seen a n its τ := by
  induction run with
  | done σ =>
    exact ⟨fun l it r hits => absurd hits.symm (by simp),
      fun l it hits => absurd hits.symm (by simp), .inl hrun⟩
  | stop it h hne =>
    have hstops := (h.stops hrun hwp hs hseen).stopped hne
    refine ⟨fun l it' r hits hr => ?_, fun l it' hits _ hterm => ?_, ?_⟩
    · cases l with
      | nil =>
        cases hits
        exact absurd rfl hr
      | cons x l => simp at hits
    · cases l with
      | nil =>
        cases hits
        rcases hstops with ⟨-, hc⟩ | ht
        · exact hc
        · exact absurd ht hterm
      | cons x l => simp at hits
    · rcases hstops with ⟨hstop, -⟩ | ht
      · exact .inr (.inl hstop)
      · exact .inr (.inr ht)
  | @next n its' τ it h hr rest ih =>
    have hrunning := (h.stops hrun hwp hs hseen).running hr
    obtain ⟨out, hk, -⟩ := h.kept hwp hs hseen
    have hrest := ih hr hk.spells fun p hp => (hrunning p hp).2
    refine ⟨fun l it' r hits hne => ?_, fun l it' hits hlen hterm => ?_, hrest.state⟩
    · cases l with
      | nil =>
        cases hits
        exact fun p hp => (hrunning p hp).1
      | cons x l =>
        obtain ⟨-, hits⟩ := List.cons.inj hits
        intro p hp
        rw [← hk.expr p]
        exact hrest.inner l it' r hits hne p hp
    · cases l with
      | nil =>
        -- the loop has come to its end while the machine still runs
        cases hits
        rw [rest.eq_of_nil.1] at hlen
        exact absurd hlen (lt_irrefl _)
      | cons x l =>
        obtain ⟨-, hits⟩ := List.cons.inj hits
        have hlen' : its'.length < n := by simpa using hlen
        rcases hrest.last l it' hits hlen' hterm with ⟨p, hp, v, hv, hval⟩ | hword
        · exact .inl ⟨p, hp, v, hv, by rw [← hk.expr p]; exact hval⟩
        · exact .inr hword

/-- A run that stops at the first change: it goes on while the watched values are the ones
last seen, it stops early only on a change or on `ebreak`, and the prompt finds the stored
values current. -/
structure StopsAtFirstChange (cfg : Config) (w : WPPool) (seen : WPtr → Word) (a f : List WPtr)
    (n : ℕ) (its : List (IterStates ρ)) (σ' : Sim ρ) : Prop where
  notLater : ∀ l it r, its = l ++ it :: r → r ≠ [] → ∀ p ∈ a,
    evalWp cfg it.diffed.m (w.wp p).expr = .ok (seen p, true)
  notEarlier : ∀ l it, its = l ++ [it] → its.length < n →
    (∃ p ∈ a, ∃ v ≠ seen p, evalWp cfg it.diffed.m (w.wp p).expr = .ok (v, true)) ∨
      it.s.inst = EBREAK
  state : σ'.ns.state = .STOP
  spells : Spells σ'.w a f
  current : ∀ p ∈ a, evalWp cfg σ'.m (σ'.w.wp p).expr = .ok ((σ'.w.wp p).old, true)

theorem watchHook_frame (h : watchHook cfg σ = .ok σ') :
    σ'.m.cpu = σ.m.cpu ∧ σ'.m.mem = σ.m.mem := by
  unfold watchHook at h
  split_ifs at h
  · obtain ⟨⟨m', w', out⟩, hd, h⟩ := bind_eq_ok.mp h
    cases h
    obtain ⟨a, -, hpass⟩ := wpDifftest_pass (ofWp_eq_ok.mp hd)
    exact ⟨hpass.cpu, hpass.mem⟩
  · cases h
    exact ⟨rfl, rfl⟩

/-- A run of the loop ends where it started or with the end of its last iteration. -/
theorem Executes.ends (run : Executes cfg R n σ its τ) :
    its = [] ∨ ∃ l it, its = l ++ [it] ∧ τ = it.watched ∧ IsIteration cfg R it := by
  induction run with
  | done σ => exact .inl rfl
  | stop it h hs => exact .inr ⟨[], it, rfl, rfl, h⟩
  | next it h hs rest ih =>
    rcases ih with hnil | ⟨l, it', hits, hτ, h'⟩
    · subst hnil
      exact .inr ⟨[], it, rfl, rest.eq_of_nil.2, h⟩
    · rw [hits]
      exact .inr ⟨it :: l, it', rfl, hτ, h'⟩

/-- With `CONFIG_WATCHPOINT`, in every session: a run of `cpu_exec` in which all active
expressions evaluate, and which does not end in a terminal state, stops at the first change. -/
theorem watchpoints_stop_at_first_change {N : BitVec 64} (hwp : cfg.WATCHPOINT = true)
    (sess : WatchSession cfg R σ seen) (ha : Linked σ.w.next σ.w.head a)
    (hlive : ¬ Terminal σ.ns)
    (run : Executes cfg R N.toNat (σ.setState .RUNNING) its τ)
    (heval : ∀ m ∈ σ.m :: its.map (fun it => it.diffed.m), ∀ p ∈ a,
      ∃ v, evalWp cfg m (σ.w.wp p).expr = .ok (v, true))
    (hterm : ¬ Terminal τ.ns) :
    cpuExec cfg R N σ = .ok (afterExecute τ) ∧
      ∃ f, StopsAtFirstChange cfg σ.w seen a f N.toNat its (afterExecute τ) := by
  obtain ⟨a', f, hw⟩ := sess.watching hwp
  have haa : a' = a := hw.spells.head.unique ha
  subst haa
  have hcpu : cpuExec cfg R N σ = .ok (afterExecute τ) := by
    rw [cpuExec_eq hlive, execute_eq_ok.mpr ⟨its, run⟩]
    rfl
  obtain ⟨out, hk, -⟩ := run.kept hwp (σ := σ.setState .RUNNING) hw.spells hw.seen
  have hstops := run.stops rfl hwp (σ := σ.setState .RUNNING) hw.spells hw.seen
  obtain ⟨hfw, hfo, hfcpu, hfmem⟩ := afterExecute_frame τ
  have hsuccess : ∀ it ∈ its, ∀ p ∈ a', ∃ v, evalWp cfg it.diffed.m (σ.w.wp p).expr =
      .ok (v, true) := fun it hit =>
    heval _ (List.mem_cons_of_mem _ (List.mem_map_of_mem hit))
  refine ⟨hcpu, f, fun l it r hits hr p hp => ?_, fun l it hits hlen => ?_, ?_, ?_, fun p hp => ?_⟩
  · exact (hstops.inner l it r hits hr p hp).success (hsuccess it (by simp [hits]) p hp)
  · rcases hstops.last l it hits hlen hterm with ⟨p, hp, v, hv, hval⟩ | hword
    · exact .inl ⟨p, hp, v, hv, hval.success (hsuccess it (by simp [hits]) p hp)⟩
    · exact .inr hword
  · rcases hstops.state with hr | hstop | ht
    · rw [afterExecute_of_running hr]
      rfl
    · rw [afterExecute_of_ne (by rw [hstop]; decide)]
      exact hstop
    · exact absurd ht hterm
  · rw [hfw]
    exact hk.spells
  · have hcur := (hw.exec hwp hcpu (by rw [hfo]; exact hk.out)).current p hp
    refine HasWpValue.success hcur ?_
    -- the state has the registers and the memory of the last instruction, or of the prompt
    rw [hfw, hk.expr p, evalWp_congr hfcpu hfmem]
    rcases run.ends with hnil | ⟨l, it, hits, hτ, hit⟩
    · subst hnil
      rw [run.eq_of_nil.2]
      obtain ⟨v, hv⟩ := heval σ.m List.mem_cons_self p hp
      have hcpu' : (σ.setState .RUNNING).m.cpu = σ.m.cpu := rfl
      have hmem' : (σ.setState .RUNNING).m.mem = σ.m.mem := rfl
      exact ⟨v, by rw [evalWp_congr hcpu' hmem']; exact hv⟩
    · obtain ⟨hc, hm⟩ := watchHook_frame hit.watched
      rw [hτ, evalWp_congr hc hm]
      exact hsuccess it (by simp [hits]) p hp

end Runs

def watchConfig : Config := { defaultConfig with WATCHPOINT := true }

def raExpr : List Char := ['$', 'r', 'a']

theorem NR_WP_pos : 0 < NR_WP := by decide

def raSet : WPPool := onePool.fill ⟨0, NR_WP_pos⟩ raExpr 0

def watchSim : Sim Unit := { codeSim twoAddi with w := raSet }

/-- The second instruction has changed `ra`. -/
def raChanged : Sim Unit :=
  let σ := (secondAddi watchSim).tested
  { σ with m := σ.m.stop, w := raSet.setOld ⟨0, NR_WP_pos⟩ 5, out := [⟨⟨0, NR_WP_pos⟩, 0, 5⟩] }

theorem watchSession_watchSim : WatchSession watchConfig noRef watchSim (fun _ => 0) := by
  have heval : evalWp watchConfig (codeSim twoAddi).m raExpr = .ok (0, true) := rfl
  have hset : wpSet (initWpPool blankPool) raExpr 0 = .ok (0, raSet) := rfl
  have hinit : WatchSession watchConfig noRef { codeSim twoAddi with w := initWpPool blankPool }
      (fun _ => 0) := .init { codeSim twoAddi with w := blankPool } _
  have h : WatchSession watchConfig noRef watchSim (Function.update (fun _ => 0) 0 0) :=
    hinit.set heval hset
  rwa [Function.update_eq_self_iff.mpr rfl] at h

/-- Of three steps the second one is the last. -/
theorem watchpoints_stop_at_first_change_ra :
    cpuExec watchConfig noRef 3 watchSim = .ok (afterExecute raChanged) ∧
      ∃ f, StopsAtFirstChange watchConfig raSet (fun _ => 0) [0] f 3
        [firstAddi watchSim, { secondAddi watchSim with watched := raChanged }]
        (afterExecute raChanged) := by
  have h₁ : IsIteration watchConfig noRef (firstAddi watchSim) :=
    isIteration_addi rfl rfl (twoAddi_fetch (k := 0) rfl rfl rfl) rfl
  have h₂ : IsIteration watchConfig noRef { secondAddi watchSim with watched := raChanged } :=
    isIteration_addi rfl rfl (twoAddi_fetch (k := 1) rfl rfl rfl) rfl
  have run : Executes watchConfig noRef 3 (watchSim.setState .RUNNING)
      [firstAddi watchSim, { secondAddi watchSim with watched := raChanged }] raChanged :=
    .next _ h₁ rfl (.stop _ h₂ (by decide))
  refine watchpoints_stop_at_first_change (N := 3) rfl watchSession_watchSim ⟨rfl, rfl⟩
    (by rintro (h | h) <;> cases h) run (fun m hm p hp => ?_) (by rintro (h | h) <;> cases h)
  rw [List.mem_singleton] at hp
  subst hp
  simp only [List.map_cons, List.map_nil, List.mem_cons, List.not_mem_nil, or_false] at hm
  rcases hm with rfl | rfl | rfl
  · exact ⟨0, rfl⟩
  · exact ⟨0, rfl⟩
  · exact ⟨5, rfl⟩

end Ysyx.Nemu
