import Ysyx.Lib.Align

/-! `malloc` of klib: a pointer that starts at the rounded start of the heap and is advanced by the
rounded size of each request, and by nothing else. `free` has an empty body, so a run is the list
of its requests. -/

namespace Ysyx.Klib

variable {w : ℕ}

def ROUNDUP (a sz : BitVec w) : BitVec w := (a + sz - 1) &&& ~~~(sz - 1)

/-- The area `[start, stop)`. -/
structure Area (w : ℕ) where
  start : BitVec w
  stop : BitVec w

/-- The static variables. -/
structure MallocState (w : ℕ) where
  startAddr : BitVec w
  initFlag : Bool

def mallocInit : MallocState w := ⟨0, false⟩

def malloc (heap : Area w) (m : MallocState w) (size : BitVec w) : BitVec w × MallocState w :=
  let m := if m.initFlag then m else ⟨ROUNDUP heap.start 8, true⟩
  let size := ROUNDUP size 8
  (m.startAddr, { m with startAddr := m.startAddr + size })

structure Block (w : ℕ) where
  size : BitVec w
  ptr : BitVec w

def mallocs (heap : Area w) : MallocState w → List (BitVec w) → List (Block w)
  | _, [] => []
  | m, size :: sizes =>
    ⟨size, (malloc heap m size).1⟩ :: mallocs heap (malloc heap m size).2 sizes

/-- A successful request of a size other than zero. -/
def Block.Live (b : Block w) : Prop := b.ptr ≠ 0 ∧ b.size ≠ 0

/-- NULL, or an aligned pointer to bytes of the heap. -/
def Block.Good (heap : Area w) (b : Block w) : Prop :=
  b.ptr = 0 ∨ 8 ∣ b.ptr.toNat ∧ (b.size = 0 ∨
    heap.start.toNat ≤ b.ptr.toNat ∧ b.ptr.toNat + b.size.toNat ≤ heap.stop.toNat)

def Block.Disjoint (a b : Block w) : Prop :=
  a.Live → b.Live →
    a.ptr.toNat + a.size.toNat ≤ b.ptr.toNat ∨ b.ptr.toNat + b.size.toNat ≤ a.ptr.toNat

structure Safe (heap : Area w) (bs : List (Block w)) : Prop where
  good : ∀ b ∈ bs, b.Good heap
  disjoint : bs.Pairwise Block.Disjoint

/-- Room for `size` bytes where the pointer has come `pos` bytes far, counted without wrapping, and
`lo` is the lowest address it had but NULL: nothing is asked for, or the pointer is NULL, or the
bytes lie between the pointer and the end of the heap. Once the pointer has wrapped they must end
below `lo`, which is the start of the heap unless the heap starts at NULL. -/
def Room (heap : Area w) (lo pos : ℕ) (size : BitVec w) : Prop :=
  size = 0 ∨ pos % 2 ^ w = 0 ∨ heap.start.toNat ≤ pos % 2 ^ w ∧
    pos % 2 ^ w + size.toNat ≤ if pos < 2 ^ w then heap.stop.toNat else lo

def FitsFrom (heap : Area w) : ℕ → ℕ → List (BitVec w) → Prop
  | _, _, [] => True
  | lo, pos, size :: sizes =>
    let pos' := pos + (ROUNDUP size 8).toNat
    Room heap lo pos size ∧ FitsFrom heap (if lo = 0 then pos' else lo) pos' sizes

/-- Every request finds room. -/
def Fits (heap : Area w) (sizes : List (BitVec w)) : Prop :=
  FitsFrom heap (ROUNDUP heap.start 8).toNat (ROUNDUP heap.start 8).toNat sizes

section Rounding

theorem eight_sub_one : (8 : BitVec w) - 1 = BitVec.ofNat w (2 ^ 3 - 1) := by
  have h8 : (8 : BitVec w) = BitVec.ofNat w (2 ^ 3 - 1) + 1 := BitVec.ofNat_add 7 1
  rw [h8, add_sub_cancel_right]

theorem toNat_eq_zero (a : BitVec w) : a.toNat = 0 ↔ a = 0 := by
  rw [← BitVec.toNat_inj]
  simp

theorem dvd_two_pow (hw : 3 ≤ w) : 8 ∣ 2 ^ w := pow_dvd_pow 2 hw

theorem roundup_toNat (hw : 3 ≤ w) (a : BitVec w) :
    (ROUNDUP a 8).toNat = (a.toNat + 7) / 8 * 8 % 2 ^ w := by
  obtain ⟨k, hk⟩ := dvd_two_pow hw
  have ha := a.isLt
  rw [ROUNDUP, add_sub_assoc, eight_sub_one, toNat_and_not_mask, BitVec.toNat_add,
    BitVec.toNat_ofNat, Nat.mod_eq_of_lt (show 2 ^ 3 - 1 < 2 ^ w by omega)]
  change (a.toNat + 7) % 2 ^ w / 8 * 8 = _
  rcases Nat.lt_or_ge (a.toNat + 7) (2 ^ w) with hlt | hge
  · rw [Nat.mod_eq_of_lt hlt, Nat.mod_eq_of_lt (by omega)]
  · have hsum : (a.toNat + 7) / 8 * 8 = 2 ^ w := by omega
    rw [hsum, Nat.mod_self, Nat.mod_eq_sub_mod hge, Nat.mod_eq_of_lt (by omega)]
    omega

theorem roundup_cases (hw : 3 ≤ w) (a : BitVec w) :
    8 ∣ (ROUNDUP a 8).toNat ∧
      ((ROUNDUP a 8).toNat = 0 ∧ (a = 0 ∨ 2 ^ w < a.toNat + 8) ∨
        (ROUNDUP a 8).toNat ≠ 0 ∧ a.toNat ≤ (ROUNDUP a 8).toNat ∧
          (ROUNDUP a 8).toNat < a.toNat + 8) := by
  obtain ⟨k, hk⟩ := dvd_two_pow hw
  have ha := a.isLt
  rw [roundup_toNat hw]
  rcases Nat.lt_or_ge ((a.toNat + 7) / 8 * 8) (2 ^ w) with hlt | hge
  · rw [Nat.mod_eq_of_lt hlt]
    refine ⟨by omega, ?_⟩
    by_cases h0 : a.toNat = 0
    · exact .inl ⟨by omega, .inl (BitVec.eq_of_toNat_eq h0)⟩
    · exact .inr (by omega)
  · have heq : (a.toNat + 7) / 8 * 8 = 2 ^ w := by omega
    rw [heq, Nat.mod_self]
    exact ⟨by omega, .inl ⟨rfl, .inr (by omega)⟩⟩

end Rounding

section Run

variable {heap : Area w} {lo pos : ℕ} {done : List (Block w)} {size : BitVec w}

/-- Where `malloc` stands after some requests that all found room: every address from `lo` up to the
pointer, or up to the top of memory once the pointer has wrapped, lies in a live block. -/
structure HandedOut (heap : Area w) (lo pos : ℕ) (done : List (Block w)) : Prop where
  pos_dvd : 8 ∣ pos
  lo_dvd : 8 ∣ lo
  pos_lt : pos < 2 * 2 ^ w
  lo_lt : lo < 2 ^ w
  lo_le : lo ≤ pos
  fresh : lo = 0 → pos = 0
  wrapped : 2 ^ w ≤ pos → lo ≠ 0 ∧ lo ≤ heap.stop.toNat
  live : ∀ b ∈ done, b.Live →
    lo ≠ 0 ∧ lo ≤ b.ptr.toNat ∧ (pos < 2 ^ w → b.ptr.toNat + b.size.toNat ≤ pos) ∨
      2 ^ w ≤ pos ∧ b.ptr.toNat + b.size.toNat ≤ pos - 2 ^ w
  cover : lo ≠ 0 → ∀ x, 8 ∣ x → lo ≤ x → heap.start.toNat ≤ x → x < pos → x < 2 ^ w →
    ∃ b ∈ done, b.Live ∧ b.ptr.toNat ≤ x ∧ x < b.ptr.toNat + b.size.toNat

theorem mod_two_pow_cases (h : pos < 2 * 2 ^ w) :
    pos < 2 ^ w ∧ pos % 2 ^ w = pos ∨ 2 ^ w ≤ pos ∧ pos % 2 ^ w = pos - 2 ^ w := by
  rcases Nat.lt_or_ge pos (2 ^ w) with hlt | hge
  · exact .inl ⟨hlt, Nat.mod_eq_of_lt hlt⟩
  · exact .inr ⟨hge, by rw [Nat.mod_eq_sub_mod hge, Nat.mod_eq_of_lt (by omega)]⟩

theorem HandedOut.room_iff (hw : 3 ≤ w) (h : HandedOut heap lo pos done) {b : Block w}
    (hptr : b.ptr.toNat = pos % 2 ^ w) :
    Room heap lo pos b.size ↔ b.Good heap ∧ ∀ a ∈ done, a.Disjoint b := by
  have hW := dvd_two_pow hw
  have hnull : pos % 2 ^ w = 0 ↔ b.ptr = 0 := by rw [← hptr, toNat_eq_zero]
  have hal : 8 ∣ b.ptr.toNat := by
    rw [hptr, Nat.dvd_mod_iff hW]
    exact h.pos_dvd
  rw [Room, hnull, ← hptr]
  by_cases h0 : b.size = 0
  · exact iff_of_true (.inl h0) ⟨.inr ⟨hal, .inl h0⟩, fun a _ _ hb => absurd h0 hb.2⟩
  by_cases hp : b.ptr = 0
  · exact iff_of_true (.inr (.inl hp)) ⟨.inl hp, fun a _ _ hb => absurd hp hb.1⟩
  have hsize : b.size.toNat ≠ 0 := fun he => h0 ((toNat_eq_zero _).1 he)
  have hpne : b.ptr.toNat ≠ 0 := fun he => hp ((toNat_eq_zero _).1 he)
  constructor
  · rintro (hr | hr | ⟨hstart, hend⟩)
    · exact absurd hr h0
    · exact absurd hr hp
    · rcases mod_two_pow_cases h.pos_lt with ⟨hlt, hmod⟩ | ⟨hge, hmod⟩
      · rw [if_pos hlt] at hend
        refine ⟨.inr ⟨hal, .inr ⟨hstart, hend⟩⟩, fun a ha hla _ => .inl ?_⟩
        have := h.live a ha hla
        omega
      · rw [if_neg (by omega)] at hend
        have := (h.wrapped hge).2
        refine ⟨.inr ⟨hal, .inr ⟨hstart, by omega⟩⟩, fun a ha hla _ => ?_⟩
        have := h.live a ha hla
        omega
  · rintro ⟨hgood, hdisj⟩
    obtain ⟨-, hr⟩ := hgood.resolve_left hp
    obtain ⟨hstart, hend⟩ := hr.resolve_left h0
    refine .inr (.inr ⟨hstart, ?_⟩)
    rcases mod_two_pow_cases h.pos_lt with ⟨hlt, hmod⟩ | ⟨hge, hmod⟩
    · rwa [if_pos hlt]
    · -- past the wrap, a block that reaches `lo` would meet a block handed out before
      rw [if_neg (by omega)]
      by_contra hover
      obtain ⟨hlo0, -⟩ := h.wrapped hge
      have hltw := h.lo_lt
      have hptrlt := b.ptr.isLt
      obtain ⟨x, hx8, hlox, hbx, hxb, hxw⟩ : ∃ x, 8 ∣ x ∧ lo ≤ x ∧ b.ptr.toNat ≤ x ∧
          x < b.ptr.toNat + b.size.toNat ∧ x < 2 ^ w := by
        rcases Nat.le_total lo b.ptr.toNat with hle | hle
        · exact ⟨b.ptr.toNat, hal, hle, le_rfl, by omega, hptrlt⟩
        · exact ⟨lo, h.lo_dvd, le_rfl, hle, by omega, hltw⟩
      obtain ⟨a, ha, hla, hax, hxa⟩ := h.cover hlo0 x hx8 hlox (by omega) (by omega) hxw
      have := hdisj a ha hla ⟨hp, h0⟩
      omega

/-- While the pointer is NULL nothing has been handed out, and the next request does not change
that. -/
theorem HandedOut.step_null (hw : 3 ≤ w) (h : HandedOut heap 0 pos done) {b : Block w}
    (hptr : b.ptr.toNat = pos % 2 ^ w) :
    HandedOut heap (pos + (ROUNDUP b.size 8).toNat) (pos + (ROUNDUP b.size 8).toNat)
      (b :: done) := by
  obtain ⟨hr8, -⟩ := roundup_cases hw b.size
  have hrlt := (ROUNDUP b.size 8).isLt
  have hpos := h.fresh rfl
  have hnolive : ∀ a ∈ b :: done, ¬ a.Live := by
    intro a ha hla
    rcases List.mem_cons.1 ha with rfl | ha
    · refine hla.1 ((toNat_eq_zero _).1 ?_)
      rw [hptr, hpos, Nat.zero_mod]
    · have := h.live a ha hla
      omega
  generalize (ROUNDUP b.size 8).toNat = r at hr8 hrlt ⊢
  exact ⟨by omega, by omega, by omega, by omega, le_rfl, by omega, by omega,
    fun a ha hla => absurd hla (hnolive a ha), by omega⟩

/-- A request that finds room keeps the account. -/
theorem HandedOut.step (hw : 3 ≤ w) (h : HandedOut heap lo pos done) {b : Block w}
    (hptr : b.ptr.toNat = pos % 2 ^ w) (hroom : Room heap lo pos b.size) :
    HandedOut heap (if lo = 0 then pos + (ROUNDUP b.size 8).toNat else lo)
      (pos + (ROUNDUP b.size 8).toNat) (b :: done) := by
  by_cases hlo : lo = 0
  · subst hlo
    rw [if_pos rfl]
    exact h.step_null hw hptr
  rw [if_neg hlo]
  obtain ⟨hr8, hr⟩ := roundup_cases hw b.size
  have hrlt := (ROUNDUP b.size 8).isLt
  have hW := dvd_two_pow hw
  have hsize := b.size.isLt
  have hstop := heap.stop.isLt
  have hnull : b.ptr = 0 ↔ b.ptr.toNat = 0 := (toNat_eq_zero _).symm
  have hzero : b.size = 0 ↔ b.size.toNat = 0 := (toNat_eq_zero _).symm
  have hcases := mod_two_pow_cases h.pos_lt
  rw [Room, hzero] at hroom
  rw [hzero] at hr
  obtain ⟨hpos8, hlo8, hpos, hlolt, hle, -, hwrapped, hlive, hcover⟩ := h
  generalize (ROUNDUP b.size 8).toNat = r at hr hr8 hrlt ⊢
  have hroom' : r = 0 ∨ pos % 2 ^ w = 0 ∨ heap.start.toNat ≤ pos % 2 ^ w ∧
      pos % 2 ^ w + b.size.toNat ≤ if pos < 2 ^ w then heap.stop.toNat else lo := by
    rcases hroom with hs | hroom
    · exact .inl (by omega)
    · exact .inr hroom
  have hlim : (if pos < 2 ^ w then heap.stop.toNat else lo) < 2 ^ w := by
    split_ifs <;> omega
  refine ⟨by omega, hlo8, ?_, hlolt, by omega, by omega, ?_, ?_, ?_⟩
  · rcases hcases with ⟨hlt, hmod⟩ | ⟨hge, hmod⟩
    · omega
    · rw [if_neg (by omega)] at hroom'
      omega
  · intro hge
    rcases hcases with ⟨hlt, hmod⟩ | ⟨hge', -⟩
    · rw [if_pos hlt] at hroom'
      exact ⟨hlo, by omega⟩
    · exact hwrapped hge'
  · intro a ha hla
    rcases List.mem_cons.1 ha with rfl | ha
    · have hp : a.ptr.toNat ≠ 0 := fun he => hla.1 (hnull.2 he)
      have hs : a.size.toNat ≠ 0 := fun he => hla.2 ((toNat_eq_zero _).1 he)
      rcases hcases with ⟨hlt, hmod⟩ | ⟨hge, hmod⟩
      · rw [if_pos hlt] at hroom hlim
        exact .inl ⟨hlo, by omega, by omega⟩
      · rw [if_neg (by omega)] at hroom hlim
        exact .inr (by omega)
    · have := hlive a ha hla
      omega
  · intro _ x hx8 hlox hstart hxpos hxw
    rcases Nat.lt_or_ge x pos with hx | hx
    · obtain ⟨a, ha, hax⟩ := hcover hlo x hx8 hlox hstart hx hxw
      exact ⟨a, List.mem_cons_of_mem b ha, hax⟩
    · refine ⟨b, List.mem_cons_self, ⟨fun he => ?_, fun he => ?_⟩, by omega, by omega⟩
      · rw [hnull] at he
        omega
      · rw [hzero] at he
        omega

/-- What is still to come is safe, after the blocks in `done`. -/
structure SafeAfter (heap : Area w) (done bs : List (Block w)) : Prop where
  good : ∀ b ∈ bs, b.Good heap
  apart : ∀ a ∈ done, ∀ b ∈ bs, a.Disjoint b
  disjoint : bs.Pairwise Block.Disjoint

theorem safeAfter_cons {b : Block w} {bs : List (Block w)} : SafeAfter heap done (b :: bs) ↔
    (b.Good heap ∧ ∀ a ∈ done, a.Disjoint b) ∧ SafeAfter heap (b :: done) bs := by
  constructor
  · rintro ⟨hgood, hapart, hdisj⟩
    rw [List.pairwise_cons] at hdisj
    refine ⟨⟨hgood b (by simp), fun a ha => hapart a ha b (by simp)⟩,
      fun c hc => hgood c (by simp [hc]), fun a ha c hc => ?_, hdisj.2⟩
    rcases List.mem_cons.1 ha with rfl | ha
    · exact hdisj.1 c hc
    · exact hapart a ha c (by simp [hc])
  · rintro ⟨⟨hgood, hapart⟩, hgood', hapart', hdisj'⟩
    refine ⟨?_, fun a ha c hc => ?_,
      List.pairwise_cons.2 ⟨fun c hc => hapart' b (by simp) c hc, hdisj'⟩⟩
    · simpa using ⟨hgood, hgood'⟩
    · rcases List.mem_cons.1 hc with rfl | hc
      · exact hapart a ha
      · exact hapart' a (by simp [ha]) c hc

theorem HandedOut.safe_iff (hw : 3 ≤ w) (h : HandedOut heap lo pos done) {m : MallocState w}
    (hm : m.initFlag = true) (haddr : m.startAddr.toNat = pos % 2 ^ w) (sizes : List (BitVec w)) :
    SafeAfter heap done (mallocs heap m sizes) ↔ FitsFrom heap lo pos sizes := by
  induction sizes generalizing lo pos done m with
  | nil => exact iff_of_true ⟨by simp [mallocs], by simp [mallocs], List.Pairwise.nil⟩ trivial
  | cons size sizes ih =>
    have hmalloc : malloc heap m size =
        (m.startAddr, { m with startAddr := m.startAddr + ROUNDUP size 8 }) := by
      rw [malloc, if_pos hm]
    rw [mallocs, safeAfter_cons, FitsFrom, hmalloc]
    have hroom := h.room_iff hw (b := ⟨size, m.startAddr⟩) haddr
    rw [← hroom]
    refine and_congr_right fun hr => ?_
    refine ih (h.step hw (b := ⟨size, m.startAddr⟩) haddr hr) hm ?_
    rw [BitVec.toNat_add, haddr, Nat.mod_add_mod]

/-- Before the first request nothing is handed out. -/
theorem HandedOut.init (hw : 3 ≤ w) (heap : Area w) :
    HandedOut heap (ROUNDUP heap.start 8).toNat (ROUNDUP heap.start 8).toNat [] := by
  have hdvd := (roundup_cases hw heap.start).1
  have hlt := (ROUNDUP heap.start 8).isLt
  exact ⟨hdvd, hdvd, by omega, hlt, le_rfl, id, by omega, by simp, by omega⟩

/-- The first call sets the pointer up, as if it had been so from the start. -/
theorem mallocs_init (heap : Area w) (sizes : List (BitVec w)) :
    mallocs heap mallocInit sizes = mallocs heap ⟨ROUNDUP heap.start 8, true⟩ sizes := by
  cases sizes <;> rfl

/-- Every run of `malloc` is safe just when every request finds room. -/
theorem mallocs_safe_iff (hw : 3 ≤ w) (heap : Area w) (sizes : List (BitVec w)) :
    Safe heap (mallocs heap mallocInit sizes) ↔ Fits heap sizes := by
  rw [mallocs_init, Fits, ← (HandedOut.init hw heap).safe_iff hw (m := ⟨ROUNDUP heap.start 8, true⟩)
    rfl (Nat.mod_eq_of_lt (BitVec.isLt _)).symm sizes]
  exact ⟨fun h => ⟨h.good, by simp, h.disjoint⟩, fun h => ⟨h.good, h.disjoint⟩⟩

/-- Two requests that fill a heap of 24 bytes. -/
theorem mallocs_safe_two : Safe ⟨0x1000#32, 0x1018#32⟩
    (mallocs ⟨0x1000#32, 0x1018#32⟩ mallocInit [5#32, 16#32]) :=
  (mallocs_safe_iff (by decide) ⟨0x1000#32, 0x1018#32⟩ [5#32, 16#32]).2
    ⟨.inr (.inr ⟨by decide, by decide⟩), .inr (.inr ⟨by decide, by decide⟩), trivial⟩

/-- A request for more than the heap has is granted. -/
theorem mallocs_not_safe : ¬ ∀ (heap : Area 32) (sizes : List (BitVec 32)),
    Safe heap (mallocs heap mallocInit sizes) := by
  intro h
  have hgood := (h ⟨0x1000#32, 0x1018#32⟩ [32#32]).good ⟨32#32, 0x1000#32⟩ List.mem_cons_self
  exact absurd hgood (by unfold Block.Good; decide)

end Run

end Ysyx.Klib
