import Ysyx.Lib.Align
import Ysyx.Nemu.MapRegistry

/-! The spaces of the devices: `new_space` hands out whole pages of `io_space`, and an access
through a map is checked at its first address only. -/

namespace Ysyx.Nemu

open Bytes

def IO_SPACE_MAX : ℕ := 2 * 1024 * 1024

/-- `1ul << PAGE_SHIFT` -/
def PAGE_SIZE : BitVec 64 := 1 <<< 12

def PAGE_MASK : BitVec 64 := PAGE_SIZE - 1

/-- `p_space` is counted from `io_space`, and `size` is not negative. The result is the pointer and
the new `p_space`. -/
def newSpace (pSpace size : ℕ) : Except BusFault (ℕ × ℕ) :=
  let p := pSpace
  let size := ((BitVec.ofNat 64 size + (PAGE_SIZE - 1)) &&& ~~~PAGE_MASK).toNat
  let pSpace := pSpace + size
  if pSpace < IO_SPACE_MAX then .ok (p, pSpace) else .error .assertion

/-- What a device asks for: a space, and a map of exactly its size. -/
structure Device where
  name : String
  low : Word
  size : ℕ
  callback : Option (Word → ℕ → Bool → IoSpace → IoSpace)

/-- A device with the space it was given. -/
structure Mapped where
  dev : Device
  space : ℕ

def Mapped.map (q : Mapped) : IOMap :=
  ⟨q.dev.name, q.dev.low, q.dev.low + BitVec.ofNat 32 q.dev.size - 1, q.space, q.dev.callback⟩

def place : ℕ → List Device → Except BusFault (List Mapped)
  | _, [] => .ok []
  | pSpace, d :: ds => do
    let (space, pSpace) ← newSpace pSpace d.size
    return ⟨d, space⟩ :: (← place pSpace ds)

def roundUp (size : ℕ) : ℕ := (size + 4095) / 4096 * 4096

/-- The bytes that `new_space` handed out to the device. -/
def Mapped.Own (q : Mapped) (x : ℕ) : Prop := q.space ≤ x ∧ x < q.space + roundUp q.dev.size

/-- A callback reads and writes bytes of its own device's space only. -/
structure KeepsOwn (own : ℕ → Prop) (c : Word → ℕ → Bool → IoSpace → IoSpace) : Prop where
  outside : ∀ offset len isWrite io x, ¬ own x → c offset len isWrite io x = io x
  inside : ∀ offset len isWrite io io', (∀ x, own x → io x = io' x) →
    ∀ x, own x → c offset len isWrite io x = c offset len isWrite io' x

/-- A read through the map depends on its own space only, and a write changes no other byte, in
particular none of another device. -/
structure Isolated (q : Mapped) (others : List Mapped) (addr : Word) (len : ℕ) : Prop where
  reads : ∀ s s' : BusState, (∀ x, q.Own x → s.io x = s'.io x) →
    (mapRead s addr len (some q.map)).map Prod.fst = (mapRead s' addr len (some q.map)).map Prod.fst
  writes : ∀ s d s', mapWrite s addr len d (some q.map) = .ok s' →
    ∀ x, ¬ q.Own x → s'.io x = s.io x
  others : ∀ s d s', mapWrite s addr len d (some q.map) = .ok s' →
    ∀ o ∈ others, ∀ x, o.Own x → s'.io x = s.io x

section Spaces

variable {pSpace size : ℕ} {devs : List Device} {mapped : List Mapped}

theorem le_roundUp (size : ℕ) : size ≤ roundUp size := by
  rw [roundUp]
  omega

theorem newSpace_eq (h : size < IO_SPACE_MAX) : newSpace pSpace size =
    if pSpace + roundUp size < IO_SPACE_MAX then .ok (pSpace, pSpace + roundUp size)
    else .error .assertion := by
  have hsize : (BitVec.ofNat 64 size).toNat = size := by
    rw [BitVec.toNat_ofNat, Nat.mod_eq_of_lt (by rw [IO_SPACE_MAX] at h; omega)]
  have hround : ((BitVec.ofNat 64 size + (PAGE_SIZE - 1)) &&& ~~~PAGE_MASK).toNat = roundUp size := by
    have hmask := toNat_add_mask_and_not_mask (k := 12) (BitVec.ofNat 64 size)
      (by rw [hsize]; rw [IO_SPACE_MAX] at h; omega)
    rw [hsize] at hmask
    exact hmask
  simp only [newSpace, hround]

theorem place_apart (hsize : ∀ d ∈ devs, d.size < IO_SPACE_MAX)
    (h : place pSpace devs = .ok mapped) :
    (∀ q ∈ mapped, pSpace ≤ q.space ∧ q.dev ∈ devs) ∧
      mapped.Pairwise fun q o => q.space + roundUp q.dev.size ≤ o.space := by
  induction devs generalizing pSpace mapped with
  | nil =>
    cases h
    exact ⟨by simp, List.Pairwise.nil⟩
  | cons d ds ih =>
    obtain ⟨⟨space, pSpace'⟩, hnew, h⟩ := bind_eq_ok.mp h
    obtain ⟨rest, hrest, h⟩ := bind_eq_ok.mp h
    cases h
    rw [newSpace_eq (hsize d (by simp))] at hnew
    split_ifs at hnew
    cases hnew
    obtain ⟨hfrom, hpair⟩ := ih (fun d' hd' => hsize d' (by simp [hd'])) hrest
    refine ⟨fun q hq => ?_, List.pairwise_cons.2 ⟨fun q hq => (hfrom q hq).1, hpair⟩⟩
    rcases List.mem_cons.1 hq with rfl | hq
    · exact ⟨le_rfl, by simp⟩
    · exact ⟨le_trans (Nat.le_add_right _ _) (hfrom q hq).1, by simp [(hfrom q hq).2]⟩

end Spaces

section Access

variable {q : Mapped} {addr : Word} {len : ℕ}

theorem offset_lt (hpos : 0 < q.dev.size) (hsize : q.dev.size < IO_SPACE_MAX)
    (hin : mapInside q.map addr = true) : (addr - q.map.low).toNat < q.dev.size := by
  obtain ⟨hlo, hhi⟩ := mapInside_iff.1 hin
  have hhigh : q.map.high.toNat =
      (2 ^ 32 - 1 + (q.map.low.toNat + q.dev.size % 2 ^ 32) % 2 ^ 32) % 2 ^ 32 := by
    rw [Mapped.map, BitVec.toNat_sub, BitVec.toNat_add, BitVec.toNat_ofNat]
    rfl
  rw [IO_SPACE_MAX] at hsize
  have hlow := q.map.low.isLt
  rw [BitVec.toNat_sub_of_le (BitVec.le_def.2 hlo)]
  omega

theorem invokeCallback_outside (hcb : ∀ c ∈ q.dev.callback, KeepsOwn q.Own c) (offset : Word)
    (isWrite : Bool) (s : BusState) {x : ℕ} (hx : ¬ q.Own x) :
    (invokeCallback q.map offset len isWrite s).io x = s.io x := by
  rw [invokeCallback, Mapped.map]
  cases hc : q.dev.callback with
  | none => rfl
  | some c => exact (hcb c hc).outside offset len isWrite s.io x hx

theorem invokeCallback_inside (hcb : ∀ c ∈ q.dev.callback, KeepsOwn q.Own c) (offset : Word)
    (isWrite : Bool) {s s' : BusState} (hs : ∀ x, q.Own x → s.io x = s'.io x) {x : ℕ} (hx : q.Own x) :
    (invokeCallback q.map offset len isWrite s).io x =
      (invokeCallback q.map offset len isWrite s').io x := by
  rw [invokeCallback, invokeCallback, Mapped.map]
  cases hc : q.dev.callback with
  | none => exact hs x hx
  | some c => exact (hcb c hc).inside offset len isWrite s.io s'.io hs x hx

theorem mapRead_accepted (hin : mapInside q.map addr = true) (hlen : len = 1 ∨ len = 2 ∨ len = 4)
    (s : BusState) : (mapRead s addr len (some q.map)).map Prod.fst =
    .ok (leWord (fun k => (invokeCallback q.map (addr - q.map.low) len false s).io
      (q.space + (addr - q.map.low).toNat + k)) len) := by
  rw [mapRead, if_pos (by omega), checkBound, if_pos hin]
  simp only [bind, Except.bind, ioRead, if_pos hlen]
  rfl

/-- An accepted write replaces the bytes at its offset, and calls the callback. -/
theorem mapWrite_accepted (hin : mapInside q.map addr = true) (hlen : len = 1 ∨ len = 2 ∨ len = 4)
    (s : BusState) (d : Word) : mapWrite s addr len d (some q.map) =
    .ok (invokeCallback q.map (addr - q.map.low) len true
      { s with io := writeWindow s.io (q.space + (addr - q.map.low).toNat) len d }) := by
  rw [mapWrite, if_pos (by omega), checkBound, if_pos hin]
  simp only [bind, Except.bind, ioWrite, if_pos hlen]
  rfl

theorem own_of_le (hend : (addr - q.map.low).toNat + len ≤ roundUp q.dev.size) {k : ℕ}
    (hk : k < len) : q.Own (q.space + (addr - q.map.low).toNat + k) := by
  rw [Mapped.Own]
  omega

theorem Isolated.of_le {others : List Mapped} (hcb : ∀ c ∈ q.dev.callback, KeepsOwn q.Own c)
    (hin : mapInside q.map addr = true) (hlen : len = 1 ∨ len = 2 ∨ len = 4)
    (hothers : ∀ o ∈ others, ∀ x, o.Own x → ¬ q.Own x)
    (hend : (addr - q.map.low).toNat + len ≤ roundUp q.dev.size) : Isolated q others addr len := by
  have hwrites : ∀ s d s', mapWrite s addr len d (some q.map) = .ok s' →
      ∀ x, ¬ q.Own x → s'.io x = s.io x := by
    intro s d s' hs' x hx
    rw [mapWrite_accepted hin hlen] at hs'
    cases hs'
    rw [invokeCallback_outside hcb _ _ _ hx]
    refine writeWindow_out _ _ fun hwin => hx ?_
    rw [Mapped.Own]
    omega
  refine ⟨fun s s' hs => ?_, hwrites, fun s d s' hs' o ho x hx =>
    hwrites s d s' hs' x (hothers o ho x hx)⟩
  rw [mapRead_accepted hin hlen, mapRead_accepted hin hlen]
  refine congrArg _ (leWord_congr fun k hk => ?_)
  exact invokeCallback_inside hcb _ _ hs (own_of_le hend hk)

theorem byteOf_allOnes {k : ℕ} (hk : k < 4) : byteOf (BitVec.allOnes 32) k ≠ 0 := by
  interval_cases k <;> decide

def zeroBus : BusState :=
  ⟨⟨⟨fun _ => 0, 0, ⟨0, 0, 0, 0⟩⟩, fun _ _ => 0, ⟨.STOP, 0, 0⟩, false, 0⟩, fun _ => 0⟩

/-- An access that starts inside the block and ends behind it writes the byte behind it. -/
theorem Isolated.le {others : List Mapped} (h : Isolated q others addr len)
    (hcb : ∀ c ∈ q.dev.callback, KeepsOwn q.Own c) (hin : mapInside q.map addr = true)
    (hlen : len = 1 ∨ len = 2 ∨ len = 4) (hoff : (addr - q.map.low).toNat < q.dev.size) :
    (addr - q.map.low).toNat + len ≤ roundUp q.dev.size := by
  by_contra hover
  have hle := le_roundUp q.dev.size
  have hout : ¬ q.Own (q.space + roundUp q.dev.size) := fun hown => Nat.lt_irrefl _ hown.2
  have hkept := h.writes zeroBus (BitVec.allOnes 32) _ (mapWrite_accepted hin hlen zeroBus _) _ hout
  rw [invokeCallback_outside hcb _ _ _ hout] at hkept
  refine byteOf_allOnes (k := roundUp q.dev.size - (addr - q.map.low).toNat) (by omega) ?_
  rw [← Nat.add_sub_add_left q.space]
  exact (writeWindow_in _ _ (by omega)).symm.trans hkept

/-- An accepted access stays with its device just when it ends inside the pages of its space. -/
theorem isolated_iff {devs : List Device} {mapped l r : List Mapped}
    (hpos : ∀ d ∈ devs, 0 < d.size) (htotal : (devs.map Device.size).sum < IO_SPACE_MAX)
    (hplace : place 0 devs = .ok mapped) (hsplit : mapped = l ++ q :: r)
    (hcb : ∀ c ∈ q.dev.callback, KeepsOwn q.Own c) (hin : mapInside q.map addr = true)
    (hlen : len = 1 ∨ len = 2 ∨ len = 4) :
    Isolated q (l ++ r) addr len ↔
      (addr - q.map.low).toNat + len ≤ roundUp q.dev.size := by
  have hsize : ∀ d ∈ devs, d.size < IO_SPACE_MAX := fun d hd =>
    lt_of_le_of_lt (List.single_le_sum (by simp) _ (List.mem_map_of_mem hd)) htotal
  obtain ⟨hfrom, hpair⟩ := place_apart hsize hplace
  have hq : q ∈ mapped := by simp [hsplit]
  have hoff := offset_lt (hpos _ (hfrom q hq).2) (hsize _ (hfrom q hq).2) hin
  refine ⟨fun h => h.le hcb hin hlen hoff, Isolated.of_le hcb hin hlen fun o ho x hown hown' => ?_⟩
  -- the block of another device ends before this one or begins behind it
  rw [hsplit] at hpair
  obtain ⟨-, hr, hl⟩ := List.pairwise_append.1 hpair
  obtain ⟨h1, h2⟩ := hown
  obtain ⟨h3, h4⟩ := hown'
  rcases List.mem_append.1 ho with ho | ho
  · have := hl o ho q List.mem_cons_self
    omega
  · have := (List.pairwise_cons.1 hr).1 o ho
    omega

def pageDevices : List Device := [⟨"a", 0xa0000000, 4096, none⟩, ⟨"b", 0xa0001000, 4096, none⟩]

def pageMapped : List Mapped :=
  [⟨⟨"a", 0xa0000000, 4096, none⟩, 0⟩, ⟨⟨"b", 0xa0001000, 4096, none⟩, 4096⟩]

theorem place_pageDevices : place 0 pageDevices = .ok pageMapped := rfl

/-- The last word of the first device. -/
theorem isolated_last_word :
    Isolated ⟨⟨"a", 0xa0000000, 4096, none⟩, 0⟩ [⟨⟨"b", 0xa0001000, 4096, none⟩, 4096⟩]
      0xa0000ffc 4 :=
  (isolated_iff (l := []) (by decide) (by decide) place_pageDevices rfl (by simp) (by decide)
    (by decide)).2 (by decide)

/-- A word at its last byte, which the check accepts. -/
theorem not_isolated_last_byte : ¬ ∀ (devs : List Device) (mapped l r : List Mapped) (q : Mapped)
    (addr : Word) (len : ℕ), (∀ d ∈ devs, 0 < d.size) →
      (devs.map Device.size).sum < IO_SPACE_MAX → place 0 devs = .ok mapped →
      mapped.Pairwise (fun q o => ∀ a, ¬ (mapInside q.map a = true ∧ mapInside o.map a = true)) →
      mapped = l ++ q :: r → (∀ c ∈ q.dev.callback, KeepsOwn q.Own c) →
      mapInside q.map addr = true → (len = 1 ∨ len = 2 ∨ len = 4) → Isolated q (l ++ r) addr len := by
  intro h
  have happart : pageMapped.Pairwise
      fun q o => ∀ a, ¬ (mapInside q.map a = true ∧ mapInside o.map a = true) := by
    refine List.pairwise_pair.2 fun a ⟨h1, h2⟩ => ?_
    have h1 := (mapInside_iff.1 h1).2
    have h2 := (mapInside_iff.1 h2).1
    exact absurd (h2.trans h1) (by decide)
  have hisolated := h pageDevices pageMapped [] _ _ 0xa0000fff 4 (by decide) (by decide)
    place_pageDevices happart rfl (by simp) (by decide) (by decide)
  exact absurd (hisolated.le (by simp) (by decide) (by decide) (by decide)) (by decide)

end Access

end Ysyx.Nemu
