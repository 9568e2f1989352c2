import Ysyx.Npc.Phase

/-! The bus and pipeline protocol of the core. A run starts in reset and then
keeps it low; from the first reset edge on its registers follow `Phase.next`,
and between two fetch requests the rank of the phase only grows, so that every
handshake event is the crossing of one threshold. -/

namespace Ysyx.Npc

open Bytes Rv32 Sync

/-- A run with `reset` high for its first `n` cycles and low afterwards. -/
structure Run (inp : ℕ → Inputs) (core : ℕ → Core) (n : ℕ) : Prop where
  trace : Trace (fun i c => c.next i) inp core
  pos : 0 < n
  resetHigh : ∀ t < n, (inp t).reset = true
  resetLow : ∀ t ≥ n, (inp t).reset = false

/-- The progress of an instruction, from its fetch request to the next one. -/
def Phase.rank : Phase → ℕ
  | .fetch true => 0
  | .fetch false => 1
  | .dispatch => 2
  | .access true => 3
  | .access false => 4
  | .accessDone => 5
  | .retire | .accessRetire => 6
  | .start => 7

section Rank

variable (p : Phase) (w x y : Bool)

attribute [local simp] Phase.rank Phase.next Phase.control

theorem rank_next (hp : p ≠ .start) : p.rank ≤ (p.next w x y).rank := by
  cases p with
  | start => exact absurd rfl hp
  | fetch b => cases b <;> cases x <;> simp
  | access b => cases b <;> cases y <;> simp
  | dispatch => cases w <;> simp
  | _ => simp

theorem next_eq_fetch (h : p.next w x y = .fetch true) : p = .start := by
  cases p with
  | start => rfl
  | fetch b => cases x <;> simp at h
  | access b => cases y <;> simp at h
  | dispatch => cases w <;> simp at h
  | _ => simp at h

theorem cross_fetch :
    (p.rank < 2 ∧ 2 ≤ (p.next w x y).rank) ↔ p.control.ifuState = .wait ∧ x = true := by
  cases p with
  | fetch b => cases b <;> cases x <;> simp
  | access b => cases b <;> cases y <;> simp
  | dispatch => cases w <;> simp
  | _ => simp

theorem cross_retire :
    (p.rank < 7 ∧ 7 ≤ (p.next w x y).rank) ↔ p.control.wbu.valid = true := by
  cases p with
  | fetch b => cases b <;> cases x <;> simp
  | access b => cases b <;> cases y <;> simp
  | dispatch => cases w <;> simp
  | _ => simp

/-- An instruction that uses the LSU shows its request when it passes rank 4. -/
theorem cross_request (hw : p = .dispatch → w = true) :
    (p.rank < 4 ∧ 4 ≤ (p.next w x y).rank) ↔ p.control.lsuReqValid = true := by
  cases p with
  | fetch b => cases b <;> cases x <;> simp
  | access b => cases b <;> cases y <;> simp
  | dispatch => simp [hw rfl]
  | _ => simp

theorem cross_response (hw : p = .dispatch → w = true) :
    (p.rank < 5 ∧ 5 ≤ (p.next w x y).rank) ↔ p.control.lsuState = .wait ∧ y = true := by
  cases p with
  | fetch b => cases b <;> cases x <;> simp
  | access b => cases b <;> cases y <;> simp
  | dispatch => simp [hw rfl]
  | _ => simp

theorem next_of_accept (hp : p.control.ifuState = .wait) : p.next w true y = .dispatch := by
  cases p <;> simp at hp ⊢

end Rank

section Runs

variable {inp : ℕ → Inputs} {core : ℕ → Core} {n : ℕ}

/-- From the first reset edge on the registers are in the phase that they show. -/
theorem Run.legal (h : Run inp core n) : ∀ t ≥ 1, (core t).Legal := by
  have hstart : (core 1).Legal := by
    rw [h.trace 0]
    exact (next_reset (h.resetHigh 0 h.pos)).1.legal
  refine h.trace.invariant hstart fun t _ hleg => ?_
  cases hr : (inp t).reset with
  | true => exact (next_reset hr).1.legal
  | false => exact (hleg.step hr).legal

theorem Run.phase_reset (h : Run inp core n) {t : ℕ} (ht : 1 ≤ t) (htn : t ≤ n) :
    (core t).phase = .start := by
  obtain ⟨u, rfl⟩ : ∃ u, t = u + 1 := Nat.exists_eq_add_of_le' ht
  rw [h.trace u]
  exact (next_reset (h.resetHigh u (by omega))).1.phase_eq

theorem Run.phase_succ (h : Run inp core n) {t : ℕ} (ht : n ≤ t) :
    (core (t + 1)).phase =
      (core t).phase.next (core t).idu.working (inp t).ifuRespValid (inp t).lsuRespValid := by
  have hleg := h.legal t (by have := h.pos; omega)
  rw [h.trace t]
  exact (hleg.step (h.resetLow t ht)).phase_eq

/-- A response that the IFU is waiting for. -/
def FetchAccepted (inp : ℕ → Inputs) (core : ℕ → Core) (t : ℕ) : Prop :=
  (core t).ifu.state = .wait ∧ (inp t).ifuRespValid = true

/-- A response that the LSU is waiting for. -/
def AccessAccepted (inp : ℕ → Inputs) (core : ℕ → Core) (t : ℕ) : Prop :=
  (core t).lsu.state = .wait ∧ (inp t).lsuRespValid = true

def IsAccess (w : Word) : Prop :=
  (opcode w = 0b0000011 ∧ (funct3 w = 0b010 ∨ funct3 w = 0b100)) ∨
  (opcode w = 0b0100011 ∧ (funct3 w = 0b010 ∨ funct3 w = 0b000))

theorem working_iff (w : Word) : (idu w).working = true ↔ IsAccess w := by
  simp only [IDU.working, IDU.ren, IDU.wen, idu, IsAccess, Bool.or_eq_true, Bool.and_eq_true,
    beq_iff_eq]
  constructor
  · rintro ((⟨ho, hf⟩ | ⟨ho, hf⟩) | (⟨ho, hf⟩ | ⟨ho, hf⟩))
    · exact .inl ⟨ho, .inr hf⟩
    · exact .inl ⟨ho, .inl hf⟩
    · exact .inr ⟨ho, .inr hf⟩
    · exact .inr ⟨ho, .inl hf⟩
  · rintro (⟨ho, hf | hf⟩ | ⟨ho, hf | hf⟩)
    · exact .inl (.inr ⟨ho, hf⟩)
    · exact .inl (.inl ⟨ho, hf⟩)
    · exact .inr (.inr ⟨ho, hf⟩)
    · exact .inr (.inl ⟨ho, hf⟩)

theorem Core.Legal.ifuState {c : Core} (h : c.Legal) : c.ifu.state = c.phase.control.ifuState :=
  congrArg Control.ifuState h.control

theorem Core.Legal.ifuReqValid {c : Core} (h : c.Legal) :
    c.ifu.reqValid = c.phase.control.ifuReqValid :=
  congrArg Control.ifuReqValid h.control

theorem Core.Legal.lsuState {c : Core} (h : c.Legal) : c.lsu.state = c.phase.control.lsuState :=
  congrArg Control.lsuState h.control

theorem Core.Legal.lsuReqValid {c : Core} (h : c.Legal) :
    c.lsu.reqValid = c.phase.control.lsuReqValid :=
  congrArg Control.lsuReqValid h.control

theorem Core.Legal.wbuValid {c : Core} (h : c.Legal) : c.wbu.valid = c.phase.control.wbu.valid :=
  congrArg (fun k => k.wbu.valid) h.control

theorem reqValid_iff (p : Phase) : p.control.ifuReqValid = true ↔ p = .fetch true := by
  cases p <;> simp [Phase.control]

theorem Run.le_of_ne_start (h : Run inp core n) {t : ℕ} (ht : 1 ≤ t)
    (hp : (core t).phase ≠ .start) : n ≤ t := by
  by_contra hlt
  exact hp (h.phase_reset ht (by omega))

theorem Run.inst_succ (h : Run inp core n) {t : ℕ} (ht : n ≤ t)
    (hacc : ¬ FetchAccepted inp core t) : (core (t + 1)).ifu.inst = (core t).ifu.inst := by
  rw [h.trace t, next_inst (h.resetLow t ht)]
  exact if_neg hacc

theorem Run.pc_succ (h : Run inp core n) {t : ℕ} (ht : n ≤ t)
    (hret : (core t).wbu.valid = false) : (core (t + 1)).pc.pc = (core t).pc.pc := by
  rw [h.trace t, next_pc (h.resetLow t ht), hret]
  rfl

theorem Run.rank_succ (h : Run inp core n) {t : ℕ} (ht : n ≤ t) (hp : (core t).phase ≠ .start) :
    (core t).phase.rank ≤ (core (t + 1)).phase.rank := by
  rw [h.phase_succ ht]
  exact rank_next _ _ _ _ hp

theorem ne_start {p : Phase} (h : p.rank < 7) : p ≠ .start := by
  rintro rfl
  exact absurd h (by decide)

/-- From its accepted response until it retires, an instruction and its pc stay latched. -/
theorem Run.instr_stable (h : Run inp core n) {t : ℕ} (ht : 1 ≤ t) (hacc : FetchAccepted inp core t)
    {u : ℕ} (htu : t < u) (hret : ∀ v, t < v → v < u → (core v).wbu.valid = false) :
    (core u).pc.pc = (core t).pc.pc ∧ (core u).ifu.inst = (inp t).ifuRdata := by
  have hwait := (h.legal t ht).ifuState.symm.trans hacc.1
  have hn : n ≤ t := h.le_of_ne_start ht fun hs => by rw [hs] at hwait; cases hwait
  -- until then the rank lies between `dispatch` and `start`, so no other fetch is accepted
  suffices hmid : (2 ≤ (core u).phase.rank ∧ (core u).phase.rank < 7) ∧
      (core u).pc.pc = (core t).pc.pc ∧ (core u).ifu.inst = (inp t).ifuRdata from hmid.2
  induction u, htu using Nat.le_induction with
  | base =>
    have hphase : (core (t + 1)).phase = .dispatch := by
      rw [h.phase_succ hn, hacc.2, next_of_accept _ _ _ hwait]
    have hret : (core t).wbu.valid = false := by
      rw [(h.legal t ht).wbuValid]
      revert hwait
      cases (core t).phase <;> simp [Phase.control]
    refine ⟨by rw [hphase]; decide, h.pc_succ hn hret, ?_⟩
    rw [h.trace t, next_inst (h.resetLow t hn)]
    exact if_pos hacc
  | succ u htu ih =>
    obtain ⟨⟨hlo, hhi⟩, hpc, hinst⟩ := ih fun v hv hvu => hret v hv (by omega)
    have hnu : n ≤ u := by omega
    have hleg := h.legal u (by omega)
    have hv := hret u htu (by omega)
    have hacc' : ¬ FetchAccepted inp core u := by
      rintro ⟨hw, hx⟩
      have := ((cross_fetch _ (core u).idu.working _ (inp u).lsuRespValid).mpr
        ⟨hleg.ifuState.symm.trans hw, hx⟩).1
      omega
    have hret' := (cross_retire (core u).phase (core u).idu.working (inp u).ifuRespValid
      (inp u).lsuRespValid).not.mpr (by rw [← hleg.wbuValid, hv]; decide)
    rw [← h.phase_succ hnu] at hret'
    have hgrow := h.rank_succ hnu (ne_start hhi)
    exact ⟨by omega, (h.pc_succ hnu hv).trans hpc, (h.inst_succ hnu hacc').trans hinst⟩

end Runs

/-- Two consecutive cycles in which `io_ifu_reqValid` is high. -/
structure Window (core : ℕ → Core) (t₁ t₂ : ℕ) : Prop where
  pos : 1 ≤ t₁
  lt : t₁ < t₂
  first : (core t₁).ifu.reqValid = true
  last : (core t₂).ifu.reqValid = true
  between : ∀ t, t₁ < t → t < t₂ → (core t).ifu.reqValid = false

section Windows

variable {inp : ℕ → Inputs} {core : ℕ → Core} {n t₁ t₂ : ℕ}

theorem Run.phase_of_reqValid (h : Run inp core n) {t : ℕ} (ht : 1 ≤ t) :
    (core t).ifu.reqValid = true ↔ (core t).phase = .fetch true := by
  rw [(h.legal t ht).ifuReqValid, reqValid_iff]

/-- The window starts with a request, ends with `start`, and has no `start` before. -/
theorem Window.spec (w : Window core t₁ t₂) (h : Run inp core n) :
    n ≤ t₁ ∧ (core t₁).phase = .fetch true ∧ (core (t₂ - 1)).phase = .start ∧
      Grows (fun t => (core t).phase.rank) t₁ (t₂ - 1) := by
  have hpos := w.pos
  have hlt := w.lt
  have hfirst := (h.phase_of_reqValid w.pos).mp w.first
  have hn : n ≤ t₁ := by
    by_contra hlt
    rw [h.phase_reset w.pos (by omega)] at hfirst
    cases hfirst
  have hlast : (core (t₂ - 1)).phase = .start := by
    have := (h.phase_of_reqValid (by omega)).mp w.last
    rw [show t₂ = t₂ - 1 + 1 by omega, h.phase_succ (by omega)] at this
    exact next_eq_fetch _ _ _ _ this
  refine ⟨hn, hfirst, hlast, fun t ht htlt => h.rank_succ (by omega) fun hstart => ?_⟩
  -- a `start` inside would be followed by a request inside
  have hsucc := h.phase_succ (show n ≤ t by omega)
  rw [hstart] at hsucc
  have := (h.phase_of_reqValid (by omega)).mpr hsucc
  rw [w.between (t + 1) (by omega) (by omega)] at this
  cases this

/-- An event that is the crossing of a threshold happens once in a window. -/
theorem Window.existsUnique (w : Window core t₁ t₂) (h : Run inp core n) {P : ℕ → Prop} {k : ℕ}
    (hk : 0 < k) (hk7 : k ≤ 7)
    (hP : ∀ t, t₁ ≤ t → t < t₂ →
      ((core t).phase.rank < k ∧ k ≤ (core (t + 1)).phase.rank ↔ P t)) :
    ∃! t, (t₁ ≤ t ∧ t < t₂) ∧ P t := by
  have hlt := w.lt
  obtain ⟨hn, hfirst, hlast, hgrow⟩ := w.spec h
  have ha : (core t₁).phase.rank < k := by rw [hfirst]; exact hk
  have hb : k ≤ (core (t₂ - 1)).phase.rank := by rw [hlast]; exact hk7
  obtain ⟨t, ⟨⟨hat, htb⟩, hcross⟩, huniq⟩ := hgrow.existsUnique_cross (by omega) ha hb
  refine ⟨t, ⟨⟨hat, by omega⟩, (hP t hat (by omega)).mp hcross⟩, ?_⟩
  rintro u ⟨⟨hau, hub⟩, hPu⟩
  have hcu := (hP u hau hub).mpr hPu
  refine huniq u ⟨⟨hau, ?_⟩, hcu⟩
  by_contra hge
  rw [show u = t₂ - 1 by omega] at hcu
  omega

theorem Window.fetch (w : Window core t₁ t₂) (h : Run inp core n) :
    ∃! t, (t₁ ≤ t ∧ t < t₂) ∧ FetchAccepted inp core t := by
  refine w.existsUnique h (k := 2) (by decide) (by decide) fun t ht _ => ?_
  have hn := (w.spec h).1
  rw [h.phase_succ (by omega), cross_fetch, ← (h.legal t (by have := w.pos; omega)).ifuState]
  rfl

theorem Window.retire (w : Window core t₁ t₂) (h : Run inp core n) :
    ∃! t, (t₁ ≤ t ∧ t < t₂) ∧ (core t).wbu.valid = true := by
  refine w.existsUnique h (k := 7) (by decide) (by decide) fun t ht _ => ?_
  have hn := (w.spec h).1
  rw [h.phase_succ (by omega), cross_retire, ← (h.legal t (by have := w.pos; omega)).wbuValid]

theorem Window.inst_eq (w : Window core t₁ t₂) (h : Run inp core n) {t u : ℕ} (ht : t₁ ≤ t)
    (ht₂ : t < t₂) (hacc : FetchAccepted inp core t) (hu₁ : t₁ ≤ u) (hu : u < t₂)
    (hlo : 2 ≤ (core u).phase.rank) (hhi : (core u).phase.rank < 7) :
    (core u).ifu.inst = (inp t).ifuRdata := by
  have hpos := w.pos
  obtain ⟨hn, -, -, hgrow⟩ := w.spec h
  have hlow : (core t).phase.rank < 2 := by
    have hleg := h.legal t (by omega)
    exact ((cross_fetch _ (core t).idu.working _ (inp t).lsuRespValid).mpr
      ⟨hleg.ifuState.symm.trans hacc.1, hacc.2⟩).1
  have htu : t < u := by
    by_contra hle
    have := hgrow.le hu₁ (show u ≤ t by omega) (by omega)
    omega
  refine (h.instr_stable (by omega) hacc htu fun v htv hvu => ?_).2
  -- a retirement before `u` would have brought the rank to `start`
  by_contra hv
  have hcross := (cross_retire (core v).phase (core v).idu.working (inp v).ifuRespValid
    (inp v).lsuRespValid).mpr (by
      rw [← (h.legal v (by omega)).wbuValid]
      simpa using hv)
  rw [← h.phase_succ (by omega)] at hcross
  have := hgrow.le (show t₁ ≤ v + 1 by omega) (show v + 1 ≤ u by omega) (by omega)
  omega

theorem Window.working (w : Window core t₁ t₂) (h : Run inp core n) {t u : ℕ} (ht : t₁ ≤ t)
    (ht₂ : t < t₂) (hacc : FetchAccepted inp core t) (hu₁ : t₁ ≤ u) (hu : u < t₂)
    (hlo : 2 ≤ (core u).phase.rank) (hhi : (core u).phase.rank < 7) :
    (core u).idu.working = true ↔ IsAccess (inp t).ifuRdata := by
  rw [Core.idu, w.inst_eq h ht ht₂ hacc hu₁ hu hlo hhi, working_iff]

theorem Window.request (w : Window core t₁ t₂) (h : Run inp core n) {t : ℕ} (ht : t₁ ≤ t)
    (ht₂ : t < t₂) (hacc : FetchAccepted inp core t) (hmem : IsAccess (inp t).ifuRdata) :
    ∃! u, (t₁ ≤ u ∧ u < t₂) ∧ (core u).lsu.reqValid = true := by
  refine w.existsUnique h (k := 4) (by decide) (by decide) fun u hu hu₂ => ?_
  have hn := (w.spec h).1
  rw [h.phase_succ (by omega), cross_request, ← (h.legal u (by have := w.pos; omega)).lsuReqValid]
  intro hd
  exact (w.working h ht ht₂ hacc hu hu₂ (by rw [hd]; decide) (by rw [hd]; decide)).mpr hmem

theorem Window.response (w : Window core t₁ t₂) (h : Run inp core n) {t : ℕ} (ht : t₁ ≤ t)
    (ht₂ : t < t₂) (hacc : FetchAccepted inp core t) (hmem : IsAccess (inp t).ifuRdata) :
    ∃! u, (t₁ ≤ u ∧ u < t₂) ∧ AccessAccepted inp core u := by
  refine w.existsUnique h (k := 5) (by decide) (by decide) fun u hu hu₂ => ?_
  have hn := (w.spec h).1
  rw [h.phase_succ (by omega), cross_response, ← (h.legal u (by have := w.pos; omega)).lsuState]
  · rfl
  intro hd
  exact (w.working h ht ht₂ hacc hu hu₂ (by rw [hd]; decide) (by rw [hd]; decide)).mpr hmem

/-- The LSU waits in no window whose instruction is not an access. -/
theorem Window.no_access (w : Window core t₁ t₂) (h : Run inp core n) {t : ℕ} (ht : t₁ ≤ t)
    (ht₂ : t < t₂) (hacc : FetchAccepted inp core t) (hmem : ¬ IsAccess (inp t).ifuRdata)
    {u : ℕ} (hu : t₁ ≤ u) (hu₂ : u < t₂) :
    (core u).lsu.state = .idle ∧ (core u).lsu.reqValid = false := by
  have hleg := h.legal u (by have := w.pos; omega)
  rw [hleg.lsuState, hleg.lsuReqValid]
  cases hp : (core u).phase with
  | access b =>
    have hwork : (core u).idu.working = true := hleg.working true (by rw [hp]; rfl)
    refine absurd ((w.working h ht ht₂ hacc hu hu₂ ?_ ?_).mp hwork) hmem <;>
      rw [hp] <;> cases b <;> decide
  | _ => exact ⟨rfl, rfl⟩

end Windows

/-- What happens between two consecutive fetch requests. -/
structure OneInstruction (inp : ℕ → Inputs) (core : ℕ → Core) (t₁ t₂ : ℕ) : Prop where
  fetch : ∃! t, (t₁ ≤ t ∧ t < t₂) ∧ FetchAccepted inp core t
  retire : ∃! t, (t₁ ≤ t ∧ t < t₂) ∧ (core t).wbu.valid = true
  access : ∀ t, t₁ ≤ t → t < t₂ → FetchAccepted inp core t → IsAccess (inp t).ifuRdata →
    (∃! u, (t₁ ≤ u ∧ u < t₂) ∧ (core u).lsu.reqValid = true) ∧
      ∃! u, (t₁ ≤ u ∧ u < t₂) ∧ AccessAccepted inp core u
  noAccess : ∀ t, t₁ ≤ t → t < t₂ → FetchAccepted inp core t → ¬ IsAccess (inp t).ifuRdata →
    ∀ u, t₁ ≤ u → u < t₂ → (core u).lsu.reqValid = false ∧ ¬ AccessAccepted inp core u

/-- The protocol from the first reset edge on; cycle 0 shows the power-up registers. -/
structure BusProtocol (inp : ℕ → Inputs) (core : ℕ → Core) : Prop where
  exclusive : ∀ t ≥ 1, ¬ ((core t).ifu.state = .wait ∧ (core t).lsu.state = .wait)
  fetchPulse : ∀ t ≥ 1, (core t).ifu.reqValid = true → (core (t + 1)).ifu.reqValid = false
  accessPulse : ∀ t ≥ 1, (core t).lsu.reqValid = true → (core (t + 1)).lsu.reqValid = false
  requestStable : ∀ t ≥ 1, (core t).lsu.state = .wait → (core (t + 1)).lsu.state = .wait →
    (core (t + 1)).lsu.addr = (core t).lsu.addr ∧ (core (t + 1)).lsu.wen = (core t).lsu.wen ∧
      (core (t + 1)).lsu.wdata = (core t).lsu.wdata ∧
      (core (t + 1)).lsu.wmask = (core t).lsu.wmask ∧ (core (t + 1)).lsu.size = (core t).lsu.size
  instrStable : ∀ t ≥ 1, FetchAccepted inp core t → ∀ u > t,
    (∀ v, t < v → v < u → (core v).wbu.valid = false) →
    (core u).pc.pc = (core t).pc.pc ∧ (core u).ifu.inst = (inp t).ifuRdata
  oneInstruction : ∀ t₁ t₂, Window core t₁ t₂ → OneInstruction inp core t₁ t₂

theorem Window.oneInstruction {inp : ℕ → Inputs} {core : ℕ → Core} {n t₁ t₂ : ℕ}
    (w : Window core t₁ t₂) (h : Run inp core n) : OneInstruction inp core t₁ t₂ where
  fetch := w.fetch h
  retire := w.retire h
  access := fun _ ht ht₂ hacc hmem => ⟨w.request h ht ht₂ hacc hmem, w.response h ht ht₂ hacc hmem⟩
  noAccess := fun _ ht ht₂ hacc hmem _ hu hu₂ => by
    obtain ⟨hidle, hreq⟩ := w.no_access h ht ht₂ hacc hmem hu hu₂
    exact ⟨hreq, fun hw => by cases hidle.symm.trans hw.1⟩

theorem LSU.next_wait {rst ifuValid wbuReady respValid : Bool} {d : IDU} {aluOut r2Data rdata : Word}
    {u : LSU} (hu : u.state = .wait)
    (hnext : (u.next rst ifuValid wbuReady respValid d aluOut r2Data rdata).state = .wait) :
    u.next rst ifuValid wbuReady respValid d aluOut r2Data rdata =
      { u with ready := false, reqValid := false } := by
  unfold LSU.next at hnext ⊢
  cases rst with
  | true => cases hnext
  | false =>
    cases respValid with
    | true => simp [hu] at hnext
    | false => simp [hu]

theorem lsuReqValid_iff (p : Phase) : p.control.lsuReqValid = true ↔ p = .access true := by
  cases p <;> simp [Phase.control]

theorem busProtocol_of_run {inp : ℕ → Inputs} {core : ℕ → Core} {n : ℕ} (h : Run inp core n) :
    BusProtocol inp core where
  exclusive := by
    rintro t ht ⟨hi, hl⟩
    have hleg := h.legal t ht
    rw [hleg.ifuState] at hi
    rw [hleg.lsuState] at hl
    revert hi hl
    cases (core t).phase <;> simp [Phase.control]
  fetchPulse := by
    intro t ht hreq
    have hp := (h.phase_of_reqValid ht).mp hreq
    have hn := h.le_of_ne_start ht (by rw [hp]; decide)
    rw [(h.legal (t + 1) (by omega)).ifuReqValid, h.phase_succ hn, hp]
    cases (inp t).ifuRespValid <;> rfl
  accessPulse := by
    intro t ht hreq
    rw [(h.legal t ht).lsuReqValid, lsuReqValid_iff] at hreq
    have hn := h.le_of_ne_start ht (by rw [hreq]; decide)
    rw [(h.legal (t + 1) (by omega)).lsuReqValid, h.phase_succ hn, hreq]
    cases (inp t).lsuRespValid <;> rfl
  requestStable := by
    intro t _ hw hw'
    have heq : (core (t + 1)).lsu = { (core t).lsu with ready := false, reqValid := false } := by
      rw [h.trace t] at hw' ⊢
      exact LSU.next_wait hw hw'
    rw [heq]
    exact ⟨rfl, rfl, rfl, rfl, rfl⟩
  instrStable := fun t ht hacc u htu hret => h.instr_stable ht hacc htu hret
  oneInstruction := fun _ _ w => w.oneInstruction h

def powerUp : Core where
  ifu := ⟨.wait, 0, true, 0, true⟩
  lsu := ⟨.wait, true, true, true, true, 0, 0, 0, 0, 0⟩
  pc := ⟨false, 0⟩
  wbu := ⟨.unused, true, true⟩
  rf := fun _ => 5
  mcycle := 0

def answering (w : Word) (t : ℕ) : Inputs := ⟨t == 0, true, w, 0, true⟩

def coreOf (w : Word) : ℕ → Core := traceFrom (fun i c => c.next i) (answering w) powerUp

theorem coreOf_run (w : Word) : Run (answering w) (coreOf w) 1 where
  trace := traceFrom_trace _ _ _
  pos := by decide
  resetHigh := by
    intro t ht
    rw [show t = 0 by omega]
    rfl
  resetLow := by
    rintro (_ | t) ht
    · omega
    · rfl

/-- A program of `lw x1, 0(x2)` only. -/
theorem busProtocol_of_run_lw :
    BusProtocol (answering (Instr.load .lw 1 2 0).encode) (coreOf (Instr.load .lw 1 2 0).encode) :=
  busProtocol_of_run (coreOf_run _)

end Ysyx.Npc
