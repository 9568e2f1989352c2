import Ysyx.Lib.Bytes
import Ysyx.Lib.Loop

/-! `AM_GPU_FBDRAW` of the nemu platform and of x86-qemu. A screen of `W` by `H` pixels is an array
of `W * H` cells, row after row. -/

namespace Ysyx.Am.Gpu

open Bytes

/-- How a request can go wrong: an `int` does not hold a result, or a cell outside the array is
written. -/
inductive GpuFault
  | overflow
  | outside
  deriving DecidableEq, Repr

/-- `struct pixel` -/
structure Rgb where
  b : Byte
  g : Byte
  r : Byte
  deriving DecidableEq, Repr

def R (p : Word) : Byte := (p >>> 16).setWidth 8

def G (p : Word) : Byte := (p >>> 8).setWidth 8

def B (p : Word) : Byte := p.setWidth 8

def rgb (p : Word) : Rgb := ⟨B p, G p, R p⟩

/-- The rectangle of a request and the buffer that it shows. -/
structure Fbdraw where
  x : ℕ
  y : ℕ
  w : ℕ
  h : ℕ
  pixels : ℕ → Word
  sync : Bool

section Model

variable {α : Type} (W H : ℕ)

/-- `fb[idx] = c;` -/
def store (fb : ℕ → α) (idx : ℕ) (c : α) : Except GpuFault (ℕ → α) :=
  if idx < W * H then .ok (Function.update fb idx c) else .error .outside

/-- `fb[screen_w*i+j] = pixels[w*(i-y)+(j-x)];` with `screen_w` and the index of `fb` unsigned and
that of `pixels` an `int`. -/
def putPixel (ctl : Fbdraw) (i j : ℕ) (fb : ℕ → Word) : Except GpuFault (ℕ → Word) :=
  let screenW := BitVec.ofNat 32 W
  if ctl.w * (i - ctl.y) + (j - ctl.x) < 2 ^ 31 then
    store W H fb (screenW * BitVec.ofNat 32 i + BitVec.ofNat 32 j).toNat
      (ctl.pixels (ctl.w * (i - ctl.y) + (j - ctl.x)))
  else .error .overflow

def amGpuFbdraw (ctl : Fbdraw) (fb : ℕ → Word) : Except GpuFault (ℕ → Word) :=
  if ctl.sync = false ∧ (ctl.w = 0 ∨ ctl.h = 0) then .ok fb
  else times ctl.h (fun a => times ctl.w fun b => putPixel W H ctl (ctl.y + a) (ctl.x + b)) fb

/-- `gpu_fbdraw` of x86-qemu; the buffer moves on by `w` with every row. -/
def gpuFbdraw (draw : Fbdraw) (fb : ℕ → Rgb) : Except GpuFault (ℕ → Rgb) :=
  let len : ℤ := if draw.x + draw.w ≥ W then W - draw.x else draw.w
  times draw.h (fun j fb =>
    if draw.y + j < H then
      if draw.x + (j + draw.y) * W < 2 ^ 31 then
        times len.toNat (fun i fb =>
          store W H fb (draw.x + (j + draw.y) * W + i) (rgb (draw.pixels (draw.w * j + i)))) fb
      else .error .overflow
    else .ok fb) fb

/-- What the request means: the pixels in the rectangle and in the screen take the colours of the
buffer, and the others stay. -/
def Shows (draw : Fbdraw) (colour : α → Rgb) (fb fb' : ℕ → α) : Prop :=
  ∀ i < W, ∀ j < H,
    if draw.x ≤ i ∧ i < draw.x + draw.w ∧ draw.y ≤ j ∧ j < draw.y + draw.h then
      colour (fb' (i + j * W)) = rgb (draw.pixels (draw.w * (j - draw.y) + (i - draw.x)))
    else fb' (i + j * W) = fb (i + j * W)

/-- Both platforms do that with a rectangle, whatever is shown and was shown. -/
structure Agree (x y w h : ℕ) : Prop where
  nemu (pixels : ℕ → Word) (sync : Bool) (fb : ℕ → Word) :
    ∃ fb', amGpuFbdraw W H ⟨x, y, w, h, pixels, sync⟩ fb = .ok fb' ∧
      Shows W H ⟨x, y, w, h, pixels, sync⟩ rgb fb fb'
  qemu (pixels : ℕ → Word) (sync : Bool) (fb : ℕ → Rgb) :
    ∃ fb', gpuFbdraw W H ⟨x, y, w, h, pixels, sync⟩ fb = .ok fb' ∧
      Shows W H ⟨x, y, w, h, pixels, sync⟩ id fb fb'

/-- The rectangle is empty or lies in the screen and has at most 2^31 pixels, and the first cell of
its last row on the screen has an `int` for an index. -/
def Drawable (x y w h : ℕ) : Prop :=
  (w = 0 ∨ h = 0 ∨ x + w ≤ W ∧ y + h ≤ H ∧ w * h ≤ 2 ^ 31) ∧
    (h = 0 ∨ H ≤ y ∨ x + (min (y + h) H - 1) * W < 2 ^ 31)

instance (x y w h : ℕ) : Decidable (Drawable W H x y w h) :=
  inferInstanceAs (Decidable (_ ∧ _))

end Model

section Filled

variable {α : Type} {W H : ℕ}

theorem cell_inj {i j i' j' : ℕ} (hi : i < W) (hi' : i' < W) :
    i + j * W = i' + j' * W ↔ i = i' ∧ j = j' := by
  constructor
  · intro h
    have hmod := congrArg (· % W) h
    have hdiv := congrArg (· / W) h
    simp only [Nat.add_mul_mod_self_right, Nat.mod_eq_of_lt hi, Nat.mod_eq_of_lt hi'] at hmod
    have hpos : 0 < W := Nat.zero_lt_of_lt hi
    simp only [Nat.add_mul_div_right _ _ hpos, Nat.div_eq_of_lt hi, Nat.div_eq_of_lt hi',
      Nat.zero_add] at hdiv
    exact ⟨hmod, hdiv⟩
  · rintro ⟨rfl, rfl⟩
    rfl

theorem cell_lt {i j : ℕ} (hi : i < W) (hj : j < H) : i + j * W < W * H := by
  have h : (j + 1) * W ≤ H * W := Nat.mul_le_mul_right W hj
  rw [Nat.add_mul, Nat.one_mul, Nat.mul_comm H W] at h
  omega

variable (W H) (x y w : ℕ) (col : ℕ → α) (fb : ℕ → α)

/-- The first `n` rows of the rectangle and the first `m` pixels of the next are drawn, as far as
they lie in the screen. -/
def Filled (n m : ℕ) (fb' : ℕ → α) : Prop :=
  ∀ i < W, ∀ j < H,
    fb' (i + j * W) =
      if x ≤ i ∧ i < x + w ∧ y ≤ j ∧ (j < y + n ∨ j = y + n ∧ i < x + m) then
        col (w * (j - y) + (i - x))
      else fb (i + j * W)

variable {W H x y w col fb} {n m : ℕ} {fb' : ℕ → α}

theorem filled_zero : Filled W H x y w col fb 0 0 fb :=
  fun _ _ _ _ => (if_neg (by omega)).symm

theorem Filled.put (h : Filled W H x y w col fb n m fb') (hm : m < w) (hx : x + m < W) :
    Filled W H x y w col fb n (m + 1)
      (Function.update fb' (x + m + (y + n) * W) (col (w * n + m))) := by
  intro i hi j hj
  by_cases hcell : i = x + m ∧ j = y + n
  · obtain ⟨rfl, rfl⟩ := hcell
    rw [Function.update_self, if_pos (by omega), Nat.add_sub_cancel_left, Nat.add_sub_cancel_left]
  · rw [Function.update_of_ne fun he => hcell ((cell_inj hi hx).1 he), h i hi j hj]
    have hsame : (x ≤ i ∧ i < x + w ∧ y ≤ j ∧ (j < y + n ∨ j = y + n ∧ i < x + m)) ↔
        x ≤ i ∧ i < x + w ∧ y ≤ j ∧ (j < y + n ∨ j = y + n ∧ i < x + (m + 1)) := by
      omega
    simp only [hsame]

/-- A row is over at the end of the rectangle, of the screen, or below it. -/
theorem Filled.row (h : Filled W H x y w col fb n m fb') (hend : w ≤ m ∨ W ≤ x + m ∨ H ≤ y + n) :
    Filled W H x y w col fb (n + 1) 0 fb' := by
  intro i hi j hj
  rw [h i hi j hj]
  have hsame : (x ≤ i ∧ i < x + w ∧ y ≤ j ∧ (j < y + n ∨ j = y + n ∧ i < x + m)) ↔
      x ≤ i ∧ i < x + w ∧ y ≤ j ∧ (j < y + (n + 1) ∨ j = y + (n + 1) ∧ i < x + 0) := by
    omega
  simp only [hsame]

theorem Filled.shows {h : ℕ} {pixels : ℕ → Word} {sync : Bool} {colour : α → Rgb}
    (hfilled : Filled W H x y w col fb h 0 fb') (hcol : ∀ k, colour (col k) = rgb (pixels k)) :
    Shows W H ⟨x, y, w, h, pixels, sync⟩ colour fb fb' := by
  intro i hi j hj
  rw [hfilled i hi j hj]
  dsimp only
  split_ifs with hin hfilled' hfilled'
  · exact hcol _
  · exact absurd hin (by omega)
  · exact absurd hfilled' (by omega)
  · rfl

end Filled

section Drawn

variable {W H x y w h : ℕ} (hW : W < 65536) (hH : H < 65536) (pixels : ℕ → Word) (sync : Bool)

theorem store_ok {α : Type} {i j : ℕ} (hi : i < W) (hj : j < H) (fb : ℕ → α) (c : α) :
    store W H fb (i + j * W) c = .ok (Function.update fb (i + j * W) c) :=
  if_pos (cell_lt hi hj)

/-- The unsigned index does not wrap inside the screen. -/
theorem toNat_index {i j : ℕ} (hi : i < W) (hj : j < H) (hW : W < 65536) (hH : H < 65536) :
    (BitVec.ofNat 32 W * BitVec.ofNat 32 j + BitVec.ofNat 32 i).toNat = i + j * W := by
  have hlt := cell_lt hi hj
  have hWH : W * H ≤ 65535 * 65535 := Nat.mul_le_mul (by omega) (by omega)
  rw [BitVec.toNat_add, BitVec.toNat_mul, BitVec.toNat_ofNat, BitVec.toNat_ofNat, BitVec.toNat_ofNat,
    ← Nat.mul_mod, ← Nat.add_mod, Nat.mul_comm W j, Nat.add_comm]
  exact Nat.mod_eq_of_lt (by omega)

include hW hH in
theorem putPixel_ok {a b : ℕ} (hx : x + b < W) (hy : y + a < H) (hsrc : w * a + b < 2 ^ 31)
    (fb : ℕ → Word) : putPixel W H ⟨x, y, w, h, pixels, sync⟩ (y + a) (x + b) fb =
      .ok (Function.update fb (x + b + (y + a) * W) (pixels (w * a + b))) := by
  unfold putPixel
  dsimp only
  rw [Nat.add_sub_cancel_left, Nat.add_sub_cancel_left, if_pos hsrc, toNat_index hx hy hW hH,
    store_ok hx hy]

theorem source_lt {a b : ℕ} (ha : a < h) (hb : b < w) : w * a + b < w * h := by
  have hmul : w * (a + 1) ≤ w * h := Nat.mul_le_mul_left w ha
  rw [Nat.mul_add, Nat.mul_one] at hmul
  omega

include hW hH in
theorem amGpuFbdraw_shows (hrect : w = 0 ∨ h = 0 ∨ x + w ≤ W ∧ y + h ≤ H ∧ w * h ≤ 2 ^ 31)
    (fb : ℕ → Word) : ∃ fb', amGpuFbdraw W H ⟨x, y, w, h, pixels, sync⟩ fb = .ok fb' ∧
      Shows W H ⟨x, y, w, h, pixels, sync⟩ rgb fb fb' := by
  suffices hfill : ∃ fb', amGpuFbdraw W H ⟨x, y, w, h, pixels, sync⟩ fb = .ok fb' ∧
      Filled W H x y w pixels fb h 0 fb' by
    obtain ⟨fb', hrun, hfilled⟩ := hfill
    exact ⟨fb', hrun, hfilled.shows fun _ => rfl⟩
  unfold amGpuFbdraw
  dsimp only
  split_ifs with hskip
  · refine ⟨fb, rfl, fun i _ j _ => (if_neg ?_).symm⟩
    omega
  · refine times_ok (fun n fb' => Filled W H x y w pixels fb n 0 fb') filled_zero
      fun a ha fb₁ hfb₁ => ?_
    obtain ⟨fb₂, hrow, hfb₂⟩ := times_ok (fun m fb' => Filled W H x y w pixels fb a m fb') hfb₁
      (f := fun b => putPixel W H ⟨x, y, w, h, pixels, sync⟩ (y + a) (x + b)) (n := w)
      fun b hb fb₂ hfb₂ => by
        have hsrc := source_lt ha hb
        have hx : x + b < W := by omega
        have hy : y + a < H := by omega
        have hlt : w * a + b < 2 ^ 31 := by omega
        exact ⟨_, putPixel_ok hW hH pixels sync hx hy hlt fb₂, hfb₂.put hb hx⟩
    exact ⟨fb₂, hrow, hfb₂.row (.inl le_rfl)⟩

theorem gpuFbdraw_shows (hrow : h = 0 ∨ H ≤ y ∨ x + (min (y + h) H - 1) * W < 2 ^ 31)
    (fb : ℕ → Rgb) : ∃ fb', gpuFbdraw W H ⟨x, y, w, h, pixels, sync⟩ fb = .ok fb' ∧
      Shows W H ⟨x, y, w, h, pixels, sync⟩ id fb fb' := by
  suffices hfill : ∃ fb', gpuFbdraw W H ⟨x, y, w, h, pixels, sync⟩ fb = .ok fb' ∧
      Filled W H x y w (fun k => rgb (pixels k)) fb h 0 fb' by
    obtain ⟨fb', hrun, hfilled⟩ := hfill
    exact ⟨fb', hrun, hfilled.shows fun _ => rfl⟩
  refine times_ok (fun n fb' => Filled W H x y w (fun k => rgb (pixels k)) fb n 0 fb') filled_zero
    fun j hj fb₁ hfb₁ => ?_
  dsimp only at hj ⊢
  by_cases hy : y + j < H
  · -- the first cell of the last row bounds that of this one
    have hmul : (j + y) * W ≤ (min (y + h) H - 1) * W := Nat.mul_le_mul_right W (by omega)
    rw [if_pos hy, if_pos (by omega)]
    obtain ⟨fb₂, hrun, hfb₂⟩ := times_ok
      (fun m fb' => Filled W H x y w (fun k => rgb (pixels k)) fb j m fb') hfb₁
      (f := fun i fb => store W H fb (x + (j + y) * W + i) (rgb (pixels (w * j + i))))
      (n := (if x + w ≥ W then (W - x : ℤ) else w).toNat) fun i hi fb₂ hfb₂ => by
        have hiw : i < w := by split_ifs at hi <;> omega
        have hx : x + i < W := by split_ifs at hi <;> omega
        have hidx : x + (j + y) * W + i = x + i + (y + j) * W := by ring
        rw [hidx, store_ok hx hy]
        exact ⟨_, rfl, hfb₂.put hiw hx⟩
    refine ⟨fb₂, hrun, hfb₂.row ?_⟩
    split_ifs <;> omega
  · rw [if_neg hy]
    exact ⟨fb₁, rfl, hfb₁.row (by omega)⟩

end Drawn

section NotDrawn

variable {W H x y w h : ℕ}

def lastWhite (w h k : ℕ) : Word := if k = w * h - 1 then 0xffffff else 0

theorem rect_of_nemu (hagree : ∃ fb', amGpuFbdraw W H ⟨x, y, w, h, lastWhite w h, false⟩ (fun _ => 0) =
      .ok fb' ∧ Shows W H ⟨x, y, w, h, lastWhite w h, false⟩ rgb (fun _ => 0) fb') :
    w = 0 ∨ h = 0 ∨ x + w ≤ W ∧ y + h ≤ H ∧ w * h ≤ 2 ^ 31 := by
  by_contra hrect
  have hh : h ≠ 0 := fun h0 => hrect (.inr (.inl h0))
  have hw : w ≠ 0 := fun w0 => hrect (.inl w0)
  obtain ⟨a, rfl⟩ : ∃ a, h = a + 1 := ⟨h - 1, by omega⟩
  obtain ⟨b, rfl⟩ : ∃ b, w = b + 1 := ⟨w - 1, by omega⟩
  obtain ⟨fb', hrun, hshows⟩ := hagree
  unfold amGpuFbdraw at hrun
  rw [if_neg (by simp)] at hrun
  obtain ⟨fb₁, hrow⟩ := times_last hrun
  obtain ⟨fb₂, hput⟩ := times_last hrow
  unfold putPixel at hput
  dsimp only at hput
  rw [Nat.add_sub_cancel_left, Nat.add_sub_cancel_left] at hput
  have hlast : (b + 1) * (a + 1) - 1 = (b + 1) * a + b := by rw [Nat.mul_succ]; omega
  split_ifs at hput with hsrc
  unfold store at hput
  split_ifs at hput with hidx
  generalize hk : (BitVec.ofNat 32 W * BitVec.ofNat 32 (y + a) + BitVec.ofNat 32 (x + b)).toNat = k
    at hput hidx
  obtain rfl := Except.ok.inj hput
  -- the cell of the last pixel, by its column and its row
  have hW : 0 < W := Nat.pos_of_mul_pos_right (Nat.zero_lt_of_lt hidx)
  have hcell : k % W + k / W * W = k := by rw [Nat.mul_comm, Nat.mod_add_div]
  have hcol : k % W < W := Nat.mod_lt k hW
  have hrow' : k / W < H := Nat.div_lt_of_lt_mul hidx
  have hwhite : lastWhite (b + 1) (a + 1) ((b + 1) * a + b) = 0xffffff := if_pos hlast.symm
  have hpixel := hshows (k % W) hcol (k / W) hrow'
  dsimp only at hpixel
  rw [hcell, Function.update_self, hwhite] at hpixel
  split_ifs at hpixel with hin
  · have hsame : (b + 1) * (k / W - y) + (k % W - x) = (b + 1) * (a + 1) - 1 := by
      by_contra hne
      rw [lastWhite, if_neg hne] at hpixel
      exact absurd hpixel (by decide)
    rw [hlast] at hsame
    have hdiv := congrArg (· / (b + 1)) hsame
    have hmod := congrArg (· % (b + 1)) hsame
    have hc : k % W - x < b + 1 := by omega
    simp only [Nat.mul_add_div (Nat.succ_pos b), Nat.div_eq_of_lt hc,
      Nat.div_eq_of_lt (Nat.lt_succ_self b), Nat.mul_add_mod, Nat.mod_eq_of_lt hc,
      Nat.mod_eq_of_lt (Nat.lt_succ_self b)] at hdiv hmod
    exact hrect (.inr (.inr ⟨by omega, by omega, by omega⟩))
  · exact absurd hpixel (by decide)

/-- The index of the first cell of a row on the screen must be an `int`. -/
theorem row_of_qemu {pixels : ℕ → Word} {sync : Bool} {fb fb' : ℕ → Rgb}
    (hrun : gpuFbdraw W H ⟨x, y, w, h, pixels, sync⟩ fb = .ok fb') :
    h = 0 ∨ H ≤ y ∨ x + (min (y + h) H - 1) * W < 2 ^ 31 := by
  by_contra hrow
  have hturn : min (y + h) H - 1 - y < h := by omega
  obtain ⟨fb₁, fb₂, hbody⟩ := times_turn hrun hturn
  have hidx : min (y + h) H - 1 - y + y = min (y + h) H - 1 := by omega
  dsimp only at hbody
  rw [if_pos (by omega), hidx, if_neg (by omega)] at hbody
  cases hbody

end NotDrawn

/-- The platforms agree on what is shown exactly for these rectangles. -/
theorem agree_iff {W H x y w h : ℕ} (hW : W < 65536) (hH : H < 65536) (_hx : x + w < 2 ^ 31)
    (_hy : y + h < 2 ^ 31) : Agree W H x y w h ↔ Drawable W H x y w h := by
  constructor
  · intro hagree
    obtain ⟨fb', hrun, -⟩ := hagree.qemu (fun _ => 0) false (fun _ => ⟨0, 0, 0⟩)
    exact ⟨rect_of_nemu (hagree.nemu (lastWhite w h) false fun _ => 0), row_of_qemu hrun⟩
  · intro hdraw
    exact ⟨fun pixels sync fb => amGpuFbdraw_shows hW hH pixels sync hdraw.1 fb,
      fun pixels sync fb => gpuFbdraw_shows pixels sync hdraw.2 fb⟩

theorem agree_iff_inside : Agree 400 300 398 299 2 1 ↔ Drawable 400 300 398 299 2 1 :=
  agree_iff (by decide) (by decide) (by decide) (by decide)

/-- Two pixels at the right edge, of which one lies behind it. -/
theorem not_agree : ¬ ∀ W H x y w h : ℕ, W < 65536 → H < 65536 → x + w < 2 ^ 31 → y + h < 2 ^ 31 →
    Agree W H x y w h := by
  intro hagree
  have hrect := rect_of_nemu ((hagree 400 300 399 0 2 1 (by decide) (by decide) (by decide)
    (by decide)).nemu (lastWhite 2 1) false fun _ => 0)
  omega

end Ysyx.Am.Gpu
