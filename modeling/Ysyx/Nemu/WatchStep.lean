import Ysyx.Nemu.Watchpoint

/-! What one call of `wp_difftest` does: every active node ends with the value that
its expression has, the nodes whose value is new are reported in list order, and
the emulator is stopped exactly when there is a report. -/

namespace Ysyx.Nemu

open Bytes Chain

section Values

variable {cfg : Config} {m m' : Machine}

theorem evalFrom_congr (hcpu : m'.cpu = m.cpu) (hmem : m'.mem = m.mem) (n : ℕ) (ts : List Token) :
    evalFrom cfg m' n ts = evalFrom cfg m n ts := by
  have hreg (s : List Char) : isaRegStr2val cfg m' s = isaRegStr2val cfg m s := by
    simp only [isaRegStr2val, hcpu]
  have hnum (t : Token) : evalNumReg cfg m' t = evalNumReg cfg m t := by
    simp only [evalNumReg, hreg]
  have hread (a : Word) : paddrRead4 cfg m' a = paddrRead4 cfg m a := by
    simp only [paddrRead4, hmem]
  have hcalc (op : TokenType) (v : Word) : calc1 cfg m' op v = calc1 cfg m op v := by
    simp only [calc1, hread]
  induction n generalizing ts with
  | zero => cases ts <;> rfl
  | succ n ih =>
    match ts with
    | [] => rfl
    | [t] => exact hnum t
    | t :: t' :: ts => simp only [evalFrom, ih, hcalc]

theorem evalWp_congr (hcpu : m'.cpu = m.cpu) (hmem : m'.mem = m.mem) (e : List Char) :
    evalWp cfg m' e = evalWp cfg m e := by
  have hexpr : expr cfg m' e = expr cfg m e := by
    simp only [expr, eval, evalFrom_congr hcpu hmem]
  rw [evalWp, evalWp, hexpr]

theorem evalWp_stop (e : List Char) : evalWp cfg m.stop e = evalWp cfg m e := by
  have hcpu : m.stop.cpu = m.cpu := rfl
  have hmem : m.stop.mem = m.mem := rfl
  exact evalWp_congr hcpu hmem e

end Values

def stopIf (m : Machine) (out : List Report) : Machine := if out = [] then m else m.stop

/-- One pass over the nodes of `a`. -/
structure WatchPass (cfg : Config) (m : Machine) (w : WPPool) (a : List WPtr) (m' : Machine)
    (w' : WPPool) (printed : List Report) : Prop where
  value : ∀ p ∈ a, ∃ b, evalWp cfg m (w.wp p).expr = .ok ((w'.wp p).old, b)
  node : ∀ p, w'.wp p = { w.wp p with old := (w'.wp p).old }
  frame : ∀ p ∉ a, w'.wp p = w.wp p
  head : w'.head = w.head
  free : w'.free_ = w.free_
  out : printed = (a.filter fun p => (w.wp p).old ≠ (w'.wp p).old).map
    fun p => ⟨p, (w.wp p).old, (w'.wp p).old⟩
  state : m' = stopIf m printed

section Pass

variable {cfg : Config} {m m' : Machine} {w w' : WPPool} {h : Option WPtr} {a : List WPtr}
  {out : List Report} {n : ℕ}

theorem linked_of_wpDifftestFrom (hd : wpDifftestFrom cfg n h m w = .ok (m', w', out)) :
    ∃ a, Linked w.next h a := by
  induction n generalizing h m w m' w' out with
  | zero =>
    cases h with
    | none => exact ⟨[], rfl⟩
    | some p => cases hd
  | succ n ih =>
    cases h with
    | none => exact ⟨[], rfl⟩
    | some p =>
      obtain ⟨⟨v, b⟩, -, hd⟩ := bind_eq_ok.mp hd
      dsimp only at hd
      split_ifs at hd with hne
      · obtain ⟨⟨m₁, w₁, out₁⟩, hrest, -⟩ := bind_eq_ok.mp hd
        rw [show (w.setOld p v).next = w.next from setOld_next w p v] at hrest
        obtain ⟨a, ha⟩ := ih hrest
        rw [setOld_next] at ha
        exact ⟨p :: a, rfl, ha⟩
      · obtain ⟨a, ha⟩ := ih hd
        exact ⟨p :: a, rfl, ha⟩

theorem stopIf_stop (r : Report) (out : List Report) : stopIf m.stop out = stopIf m (r :: out) := by
  rw [stopIf, stopIf, if_neg (List.cons_ne_nil r out)]
  split_ifs <;> rfl

theorem stopIf_cpu (m : Machine) (out : List Report) : (stopIf m out).cpu = m.cpu := by
  unfold stopIf
  split_ifs <;> rfl

theorem stopIf_mem (m : Machine) (out : List Report) : (stopIf m out).mem = m.mem := by
  unfold stopIf
  split_ifs <;> rfl

/-- The head of the list has been handled and the rest will not touch it. -/
theorem WatchPass.cons {p : WPtr} {v : Word} {b : Bool} (hp : p ∉ a)
    (hv : evalWp cfg m (w.wp p).expr = .ok (v, b)) (hne : (w.wp p).old ≠ v)
    (hpass : WatchPass cfg m.stop (w.setOld p v) a m' w' out) :
    WatchPass cfg m w (p :: a) m' w' (⟨p, (w.wp p).old, v⟩ :: out) := by
  have hself : (w'.wp p).old = v := by
    rw [hpass.frame p hp]
    simp [WPPool.setOld]
  have hother : ∀ q ≠ p, (w.setOld p v).wp q = w.wp q := fun q hq =>
    Function.update_of_ne hq _ _
  refine ⟨fun q hq => ?_, fun q => ?_, fun q hq => ?_, hpass.head, hpass.free, ?_, ?_⟩
  · rcases List.mem_cons.mp hq with rfl | hq
    · exact ⟨b, by rw [hself]; exact hv⟩
    · obtain ⟨b', hb'⟩ := hpass.value q hq
      rw [hother q (ne_of_mem_of_not_mem hq hp), evalWp_stop] at hb'
      exact ⟨b', hb'⟩
  · by_cases hq : q = p
    · subst hq
      rw [hpass.frame q hp]
      simp [WPPool.setOld]
    · have := hpass.node q
      rwa [hother q hq] at this
  · rw [List.mem_cons, not_or] at hq
    rw [hpass.frame q hq.2, hother q hq.1]
  · rw [List.filter_cons, hself, if_pos (by simpa using hne), List.map_cons, hself]
    congr 1
    rw [hpass.out]
    have hcongr : ∀ q ∈ a, ((w.setOld p v).wp q).old = (w.wp q).old := fun q hq => by
      rw [hother q (ne_of_mem_of_not_mem hq hp)]
    rw [List.filter_congr fun q hq => by rw [hcongr q hq]]
    exact List.map_congr_left fun q hq => by rw [hcongr q (List.mem_of_mem_filter hq)]
  · exact hpass.state.trans (stopIf_stop _ _)

theorem WatchPass.cons_same {p : WPtr} {b : Bool}
    (hv : evalWp cfg m (w.wp p).expr = .ok ((w.wp p).old, b)) (hp : p ∉ a)
    (hpass : WatchPass cfg m w a m' w' out) : WatchPass cfg m w (p :: a) m' w' out := by
  have hself : w'.wp p = w.wp p := hpass.frame p hp
  refine ⟨fun q hq => ?_, hpass.node, fun q hq => ?_, hpass.head, hpass.free, ?_, hpass.state⟩
  · rcases List.mem_cons.mp hq with rfl | hq
    · exact ⟨b, by rw [hself]; exact hv⟩
    · exact hpass.value q hq
  · exact hpass.frame q fun hqa => hq (List.mem_cons_of_mem p hqa)
  · rw [List.filter_cons, hself, if_neg (by simp)]
    exact hpass.out

theorem wpDifftestFrom_pass (hl : Linked w.next h a)
    (hd : wpDifftestFrom cfg n h m w = .ok (m', w', out)) :
    WatchPass cfg m w a m' w' out := by
  induction a generalizing h n m w out with
  | nil =>
    rw [show h = none from hl] at hd
    have hd : (.ok (m, w, []) : Except WPFault _) = .ok (m', w', out) := by
      rw [← hd]
      cases n <;> rfl
    cases hd
    exact ⟨fun p hp => (List.not_mem_nil hp).elim, fun _ => rfl, fun _ _ => rfl, rfl, rfl, rfl,
      rfl⟩
  | cons p a ih =>
    have hpa : p ∉ a := (List.nodup_cons.mp hl.nodup).1
    rw [hl.1] at hd
    cases n with
    | zero => cases hd
    | succ n =>
      obtain ⟨⟨v, b⟩, hv, hd⟩ := bind_eq_ok.mp hd
      dsimp only at hd
      split_ifs at hd with hne
      · obtain ⟨⟨m₁, w₁, out₁⟩, hrest, hd⟩ := bind_eq_ok.mp hd
        cases hd
        rw [setOld_next] at hrest
        refine WatchPass.cons hpa hv hne (ih ?_ hrest)
        rw [setOld_next]
        exact hl.2
      · rw [not_not] at hne
        subst hne
        exact WatchPass.cons_same hv hpa (ih hl.2 hd)

theorem wpDifftest_pass (hd : wpDifftest cfg m w = .ok (m', w', out)) :
    ∃ a, Linked w.next w.head a ∧ WatchPass cfg m w a m' w' out := by
  obtain ⟨a, ha⟩ := linked_of_wpDifftestFrom hd
  exact ⟨a, ha, wpDifftestFrom_pass ha hd⟩

end Pass

namespace WatchPass

variable {cfg : Config} {m m' : Machine} {w w' : WPPool} {a : List WPtr} {out : List Report}

/-- There is a report exactly when some value is new. -/
theorem out_eq_nil_iff (h : WatchPass cfg m w a m' w' out) :
    out = [] ↔ ∀ p ∈ a, (w.wp p).old = (w'.wp p).old := by
  rw [h.out, List.map_eq_nil_iff, List.filter_eq_nil_iff]
  simp

theorem next (h : WatchPass cfg m w a m' w' out) : w'.next = w.next := by
  funext p
  rw [WPPool.next, h.node p]
  rfl

theorem expr (h : WatchPass cfg m w a m' w' out) (p : WPtr) : (w'.wp p).expr = (w.wp p).expr := by
  rw [h.node p]

theorem cpu (h : WatchPass cfg m w a m' w' out) : m'.cpu = m.cpu := by
  rw [h.state, stopIf_cpu]

theorem mem (h : WatchPass cfg m w a m' w' out) : m'.mem = m.mem := by
  rw [h.state, stopIf_mem]

theorem value' (h : WatchPass cfg m w a m' w' out) {p : WPtr} (hp : p ∈ a) :
    ∃ b, evalWp cfg m' (w'.wp p).expr = .ok ((w'.wp p).old, b) := by
  obtain ⟨b, hb⟩ := h.value p hp
  rw [h.expr p, evalWp_congr h.cpu h.mem]
  exact ⟨b, hb⟩

end WatchPass

end Ysyx.Nemu
