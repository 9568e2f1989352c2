import Ysyx.Lib.Bytes
import Ysyx.Lib.Outcome
import Ysyx.Lib.Ring

/-! The ring buffer of the last instructions (`CONFIG_IRINGBUF` of `cpu-exec.c`): what `trace_inst`
records and `display_inst` prints. -/

namespace Ysyx.Nemu

open Bytes

def INST_NUM : ℕ := 16

structure InstBuf where
  pc : Word
  inst : Word
deriving DecidableEq, Repr

/-- `iringbuf` and `cur_inst`. -/
abbrev Iringbuf := Ring InstBuf INST_NUM

def Iringbuf.start : Iringbuf := Ring.init INST_NUM ⟨0, 0⟩

def traceInst (r : Iringbuf) (pc inst : Word) : Iringbuf := r.push ⟨pc, inst⟩

/-- A line as it is printed: the marker, the pc and the instruction. -/
structure TraceLine where
  mark : String
  pc : Word
  inst : Word
deriving DecidableEq, Repr

inductive DisplayFault
  | outside
  | running
deriving DecidableEq, Repr

/-- `iringbuf[i]` -/
def Iringbuf.read (r : Iringbuf) (i : ℕ) : Except DisplayFault InstBuf :=
  if i < INST_NUM then .ok (r.buf i) else .error .outside

/-- The `do` loop from `i` on. The `-->` that `buf` gets first is overwritten by the second
`sprintf`, which starts at `buf` again. -/
def displayLoop (r : Iringbuf) (stop : ℕ) : ℕ → ℕ → Except DisplayFault (List TraceLine)
  | 0, _ => .error .running
  | fuel + 1, i => do
    let b ← r.read i
    let line : TraceLine :=
      ⟨if (i + 1) % INST_NUM = stop then "--->  " else "      ", b.pc, b.inst⟩
    let i := (i + 1) % INST_NUM
    if i ≠ stop then return line :: (← displayLoop r stop fuel i)
    else return [line]

def displayInst (fuel : ℕ) (r : Iringbuf) : Except DisplayFault (List TraceLine) := do
  let b ← r.read (r.cur + 1)
  let i := if b.pc = 0 then 0 else r.cur
  displayLoop r r.cur fuel i

/-- What should be printed of some instructions: one line each, the arrow on the last. -/
def traceLines : List InstBuf → List TraceLine
  | [] => []
  | [b] => [⟨"--->  ", b.pc, b.inst⟩]
  | b :: bs => ⟨"      ", b.pc, b.inst⟩ :: traceLines bs

/-- The buffer after `trace_inst` was called for each of the instructions in turn. -/
def traced (xs : List InstBuf) : Iringbuf :=
  xs.foldl (fun r b => traceInst r b.pc b.inst) Iringbuf.start

/-- After the calls `xs`, `display_inst` stays inside the array and prints the last sixteen. -/
def Displays (xs : List InstBuf) : Prop :=
  ∃ fuel, displayInst fuel (traced xs) = .ok (traceLines (xs.drop (xs.length - INST_NUM)))

section Display

variable {xs : List InstBuf}

theorem traced_eq (xs : List InstBuf) : traced xs = Ring.pushes Iringbuf.start xs := rfl

theorem read_traced {k : ℕ} (hk : k < xs.length) (hlast : xs.length ≤ k + INST_NUM) :
    (traced xs).read (k % INST_NUM) = .ok xs[k] := by
  rw [Iringbuf.read, if_pos (Nat.mod_lt k (by decide)), traced_eq]
  exact congrArg _ (Ring.buf_pushes (⟨0, 0⟩ : InstBuf) hk hlast)

theorem succ_mod (k : ℕ) : (k % INST_NUM + 1) % INST_NUM = (k + 1) % INST_NUM :=
  Nat.mod_add_mod k INST_NUM 1

theorem displayLoop_last (fuel : ℕ) {k : ℕ} (hk : k + 1 = xs.length) :
    displayLoop (traced xs) (xs.length % INST_NUM) (fuel + 1) (k % INST_NUM) =
      .ok (traceLines (xs.drop k)) := by
  have hlt : k < xs.length := by omega
  have hlast : xs.length ≤ k + INST_NUM := by
    rw [INST_NUM]
    omega
  rw [displayLoop, read_traced hlt hlast, succ_mod, hk, List.drop_eq_getElem_cons hlt, hk,
    List.drop_length]
  simp only [if_pos, ne_eq, not_true_eq_false, if_neg, not_false_eq_true]
  rfl

theorem displayLoop_more (fuel : ℕ) {k : ℕ} (hk : k + 1 < xs.length)
    (hlast : xs.length ≤ k + INST_NUM) :
    displayLoop (traced xs) (xs.length % INST_NUM) (fuel + 1) (k % INST_NUM) =
      (displayLoop (traced xs) (xs.length % INST_NUM) fuel ((k + 1) % INST_NUM)).map
        (⟨"      ", xs[k].pc, xs[k].inst⟩ :: ·) := by
  have hne : (k + 1) % INST_NUM ≠ xs.length % INST_NUM := by
    intro he
    rw [INST_NUM] at he hlast
    omega
  rw [displayLoop, read_traced (by omega) hlast, succ_mod]
  simp only [if_neg hne, if_pos hne]
  rfl

theorem displayLoop_eq {m k : ℕ} (hk : k + (m + 1) = xs.length)
    (hlast : xs.length ≤ k + INST_NUM) :
    displayLoop (traced xs) (xs.length % INST_NUM) (m + 1) (k % INST_NUM) =
      .ok (traceLines (xs.drop k)) := by
  induction m generalizing k with
  | zero => exact displayLoop_last 0 hk
  | succ m ih =>
    rw [displayLoop_more (m + 1) (by omega) hlast, ih (by omega) (by omega),
      List.drop_eq_getElem_cons (show k < xs.length by omega),
      List.drop_eq_getElem_cons (show k + 1 < xs.length by omega)]
    rfl

theorem displayLoop_ne_nil {r : Iringbuf} {stop fuel i : ℕ} : displayLoop r stop fuel i ≠ .ok [] := by
  intro h
  cases fuel with
  | zero => cases h
  | succ fuel =>
    obtain ⟨b, -, h⟩ := bind_eq_ok.1 h
    dsimp only at h
    by_cases hstop : (i + 1) % INST_NUM ≠ stop
    · rw [if_pos hstop] at h
      obtain ⟨ls, -, h⟩ := bind_eq_ok.1 h
      cases h
    · rw [if_neg hstop] at h
      cases h

/-- With the write position on the last cell, the cell after it is read. -/
theorem displayInst_outside (fuel : ℕ) (h : xs.length % INST_NUM = 15) :
    displayInst fuel (traced xs) = .error .outside := by
  have hcur : (traced xs).cur = 15 := (Ring.cur_pushes _ xs).trans h
  rw [displayInst, hcur]
  rfl

/-- Where the display starts: at the first cell until the buffer is full, then at the oldest. -/
theorem displayInst_start {fuel k : ℕ} (h0 : xs ≠ []) (hpc : ∀ b ∈ xs, b.pc ≠ 0)
    (h15 : xs.length % INST_NUM ≠ 15) (hk : k = xs.length - INST_NUM) :
    displayInst fuel (traced xs) =
      displayLoop (traced xs) (xs.length % INST_NUM) fuel (k % INST_NUM) := by
  have hcur : (traced xs).cur = xs.length % INST_NUM := Ring.cur_pushes _ xs
  have hpos : 0 < xs.length := List.length_pos_iff.2 h0
  have h16 : INST_NUM = 16 := rfl
  rcases Nat.lt_or_ge xs.length INST_NUM with hlt | hge
  · have hmod : xs.length % INST_NUM = xs.length := Nat.mod_eq_of_lt hlt
    have hread : (traced xs).read (xs.length + 1) = .ok ⟨0, 0⟩ := by
      rw [Iringbuf.read, if_pos (by omega), traced_eq]
      exact congrArg _ (Ring.buf_pushes_of_le _ (by omega))
    obtain rfl : k = 0 := by omega
    rw [displayInst, hcur, hmod, hread]
    rfl
  · -- the cell after the write position holds the second oldest instruction
    obtain ⟨j, hj⟩ : ∃ j, xs.length = j + 15 := ⟨xs.length - 15, by omega⟩
    have hjmod : xs.length % INST_NUM + 1 = j % INST_NUM := by
      rw [h16] at h15 ⊢
      omega
    have hkmod : k % INST_NUM = xs.length % INST_NUM := by
      rw [h16] at hk ⊢
      omega
    have hjlt : j < xs.length := by omega
    have hread := read_traced hjlt (by omega)
    have hne : xs[j].pc ≠ 0 := hpc _ (List.getElem_mem _)
    rw [displayInst, hcur, hjmod, hread, hkmod]
    exact congrArg _ (if_neg hne)

/-- The display is right unless nothing was recorded, or the write position is on the last cell. -/
theorem displays_iff (hpc : ∀ b ∈ xs, b.pc ≠ 0) :
    Displays xs ↔ xs ≠ [] ∧ xs.length % INST_NUM ≠ 15 := by
  constructor
  · rintro ⟨fuel, h⟩
    refine ⟨?_, fun h15 => ?_⟩
    · rintro rfl
      exact displayLoop_ne_nil h
    · rw [displayInst_outside fuel h15] at h
      cases h
  · rintro ⟨h0, h15⟩
    have hpos : 0 < xs.length := List.length_pos_iff.2 h0
    refine ⟨xs.length - (xs.length - INST_NUM), ?_⟩
    rw [displayInst_start h0 hpc h15 rfl]
    have hfuel : xs.length - (xs.length - INST_NUM) =
        xs.length - (xs.length - INST_NUM) - 1 + 1 := by
      rw [INST_NUM]
      omega
    rw [hfuel]
    exact displayLoop_eq (by omega) (by omega)

/-- Seventeen instructions have filled the buffer and begun to overwrite it. -/
theorem displays_seventeen :
    Displays ((List.range 17).map fun k => ⟨BitVec.ofNat 32 (4 * k + 4), 0x13⟩) :=
  (displays_iff (by decide)).2 ⟨by decide, by decide⟩

/-- After fifteen the display reads `iringbuf[16]`. -/
theorem not_displays_fifteen : ¬ ∀ xs : List InstBuf, (∀ b ∈ xs, b.pc ≠ 0) → Displays xs := by
  intro h
  obtain ⟨fuel, hok⟩ := h ((List.range 15).map fun k => ⟨BitVec.ofNat 32 (4 * k + 4), 0x13⟩)
    (by decide)
  rw [displayInst_outside fuel (by decide)] at hok
  cases hok

end Display

end Ysyx.Nemu
