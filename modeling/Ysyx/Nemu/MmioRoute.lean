import Ysyx.Nemu.Mmio

/-! Where `paddr_read` and `paddr_write` go with `CONFIG_DEVICE`, against the map of the
address space they serve: flash, SRAM, one device, or the report of `check_bound`. `in_pmem`
answers for the two memory windows only, and every device lies outside them. -/

namespace Ysyx.Nemu

open Bytes

/-- `[CONFIG_MBASE, CONFIG_MBASE + CONFIG_MSIZE)` inside the flash window. -/
def FlashPart (cfg : Config) (a : Word) : Prop :=
  (FLASH_BASE ≤ a.toNat ∧ a.toNat < FLASH_BASE + FLASH_SIZE) ∧
    cfg.MBASE.toNat ≤ a.toNat ∧ a.toNat < cfg.MBASE.toNat + cfg.MSIZE

def SramPart (a : Word) : Prop := SRAM_BASE ≤ a.toNat ∧ a.toNat < SRAM_BASE + SRAM_SIZE

def InMemory (cfg : Config) (a : Word) : Prop := FlashPart cfg a ∨ SramPart a

/-- What an access is meant to reach. -/
inductive Region where
  | flash | sram
  | device (map : IOMap)
  | none

def RoutesTo (cfg : Config) (maps : List IOMap) (a : Word) : Region → Prop
  | .flash => FlashPart cfg a
  | .sram => SramPart a
  | .device map => ¬ InMemory cfg a ∧ maps.filter (mapInside · a) = [map]
  | .none => ¬ InMemory cfg a ∧ maps.filter (mapInside · a) = []

def Region.read (cfg : Config) (s : BusState) (a : Word) (len : ℕ) :
    Region → Except BusFault (Word × BusState)
  | .flash => (ofMem (hostRead cfg s.m.mem ⟨.flash, a.toNat - FLASH_BASE⟩ len)).map (·, s)
  | .sram => (ofMem (hostRead cfg s.m.mem ⟨.sram, a.toNat - SRAM_BASE⟩ len)).map (·, s)
  | .device map =>
    let s := invokeCallback map (a - map.low) len false { s with m := difftestSkipRef cfg s.m }
    (ioRead s.io (map.space + (a - map.low).toNat) len).map (·, s)
  | .none => .error .outOfBound

def Region.write (cfg : Config) (s : BusState) (a : Word) (len : ℕ) (d : Word) :
    Region → Except BusFault BusState
  | .flash => (ofMem (hostWrite cfg s.m.mem ⟨.flash, a.toNat - FLASH_BASE⟩ len d)).map
      fun mem => { s with m := { s.m with mem := mem } }
  | .sram => (ofMem (hostWrite cfg s.m.mem ⟨.sram, a.toNat - SRAM_BASE⟩ len d)).map
      fun mem => { s with m := { s.m with mem := mem } }
  | .device map => (ioWrite s.io (map.space + (a - map.low).toNat) len d).map fun io =>
      invokeCallback map (a - map.low) len true { m := difftestSkipRef cfg s.m, io := io }
  | .none => .error .outOfBound

/-- Exactly one region is meant, both accesses go there, and they stay inside its array. -/
def Routed (cfg : Config) (maps : List IOMap) (a : Word) (len : ℕ) : Prop :=
  ∃ r, RoutesTo cfg maps a r ∧ (∀ r', RoutesTo cfg maps a r' → r' = r) ∧
    (∀ s, paddrReadDevice cfg maps s a len = r.read cfg s a len ∧
      r.read cfg s a len ≠ .error (.mem .undefined)) ∧
    ∀ s d, paddrWriteDevice cfg maps s a len d = r.write cfg s a len d ∧
      r.write cfg s a len d ≠ .error (.mem .undefined)

def IOMap.stored (map : IOMap) (size : Word) : IOMap := { map with high := map.low + size - 1 }

/-- A region that is disjoint from memory and from the earlier ones. -/
structure Fits (cfg : Config) (maps : List IOMap) (map : IOMap) : Prop where
  region : map.low.toNat ≤ map.high.toNat
  memory : ∀ x, mapInside map x = true → ¬ InMemory cfg x
  earlier : ∀ map' ∈ maps, map'.low.toNat ≤ map'.high.toNat ∧
    ∀ x, mapInside map x = true → mapInside map' x = false

/-- The flash or the SRAM window. -/
def Answers (a : Word) : Prop :=
  (FLASH_BASE ≤ a.toNat ∧ a.toNat < FLASH_BASE + FLASH_SIZE) ∨ SramPart a

/-- An access to memory ends inside the array that it begins in. -/
structure Held (cfg : Config) (a : Word) (len : ℕ) : Prop where
  flash : FlashPart cfg a → a.toNat + len ≤ FLASH_BASE + cfg.MSIZE
  sram : SramPart a → a.toNat + len ≤ SRAM_BASE + SRAM_SIZE

section InPmem

variable {cfg : Config} {a : Word}

theorem inPmem_memory (h : InMemory cfg a) : inPmem cfg a = .ok true := by
  unfold inPmem
  rcases h with ⟨hw, hin⟩ | hs
  · rw [if_pos hw, Except.ok.injEq, decide_eq_true_eq, pmemOffset_lt_iff]
    exact hin
  · unfold SramPart at hs
    rw [if_neg (by simp only [FLASH_BASE, FLASH_SIZE, SRAM_BASE, SRAM_SIZE] at *; omega),
      if_pos hs, Except.ok.injEq, decide_eq_true_eq]
    omega

theorem inPmem_assertion (h : ¬ Answers a) : inPmem cfg a = .error .assertion := by
  unfold Answers SramPart at h
  unfold inPmem
  rw [if_neg fun hw => h (.inl hw), if_neg fun hs => h (.inr hs)]

theorem inPmem_outside (h : ¬ InMemory cfg a) : inPmem cfg a = .ok false ↔ Answers a := by
  constructor
  · intro hfalse
    by_contra hans
    rw [inPmem_assertion hans] at hfalse
    cases hfalse
  · rintro (hw | hs)
    · unfold inPmem
      rw [if_pos hw, Except.ok.injEq, decide_eq_false_iff_not, pmemOffset_lt_iff]
      exact fun hin => h (.inl ⟨hw, hin⟩)
    · exact absurd (.inr hs) h

theorem inPmem_false_iff : (¬ InMemory cfg a → inPmem cfg a = .ok false) ↔ Answers a := by
  by_cases h : InMemory cfg a
  · refine iff_of_true (fun hn => absurd h hn) (h.imp And.left id)
  · rw [imp_iff_right h]
    exact inPmem_outside h

end InPmem

section Maps

variable {cfg : Config} {maps maps' : List IOMap} {map : IOMap} {a len : Word}

theorem addMmioMap_ok (h : addMmioMap cfg maps map len = .ok maps') :
    maps' = maps ++ [map.stored len] ∧
      ∀ map' ∈ maps, overlaps map.low (map.low + len - 1) map' = false := by
  unfold addMmioMap at h
  split_ifs at h
  obtain ⟨inside, -, h⟩ := bind_eq_ok.mp h
  split_ifs at h with hr hany
  cases h
  refine ⟨rfl, fun map' hmem => ?_⟩
  rw [← Bool.not_eq_true]
  exact fun ho => hany (List.any_eq_true.mpr ⟨map', hmem, ho⟩)

theorem ofMem_eq_ok {α : Type} {x : Except Fault α} {v : α} : ofMem x = .ok v ↔ x = .ok v := by
  cases x <;> simp [ofMem]

theorem inPmemEither_false {left : Word} (h : left.toNat ≤ (left + len - 1).toNat) :
    inPmemEither cfg left len = .ok false ↔
      inPmem cfg left = .ok false ∧ inPmem cfg (left + len - 1) = .ok false := by
  have hfits : ¬ (PMEM64 cfg = true ∧ 2 ^ 32 < left.toNat + len.toNat) := by
    have h1 : (1 : Word).toNat = 1 := rfl
    have hleft := left.isLt
    have hlen := len.isLt
    rw [BitVec.toNat_sub, BitVec.toNat_add, h1] at h
    omega
  unfold inPmemEither
  rw [if_neg hfits]
  cases hl : inPmem cfg left with
  | error f => simp [ofMem, bind, Except.bind]
  | ok b =>
    cases b with
    | true => simp [ofMem, bind, Except.bind, pure, Except.pure]
    | false =>
      simp only [ofMem, bind, Except.bind, Bool.false_eq_true, if_false, true_and]
      exact ofMem_eq_ok

theorem overlaps_iff {left right : Word} : overlaps left right map = true ↔
    left.toNat ≤ map.high.toNat ∧ map.low.toNat ≤ right.toNat := by
  rw [overlaps, Bool.and_eq_true, decide_eq_true_eq, decide_eq_true_eq]

theorem overlaps_iff_common (map map' : IOMap) (h : map.low.toNat ≤ map.high.toNat)
    (h' : map'.low.toNat ≤ map'.high.toNat) : overlaps map.low map.high map' = true ↔
      ∃ a, mapInside map a = true ∧ mapInside map' a = true := by
  simp only [overlaps_iff, mapInside_iff]
  constructor
  · rintro ⟨hl, hr⟩
    -- the larger of the two lower ends
    rcases Nat.le_total map.low.toNat map'.low.toNat with hc | hc
    · exact ⟨map'.low, ⟨hc, hr⟩, le_rfl, h'⟩
    · exact ⟨map.low, ⟨le_rfl, h⟩, hc, hl⟩
  · rintro ⟨a, hin, hin'⟩
    exact ⟨hin.1.trans hin'.2, hin'.1.trans hin.2⟩

/-- No address is in two of the registered maps. -/
theorem Registered.exclusive (h : Registered cfg maps) :
    maps.Pairwise fun map map' => ¬ (mapInside map a = true ∧ mapInside map' a = true) := by
  induction h with
  | nil => exact List.Pairwise.nil
  | @add maps maps' map len _ hadd ih =>
    obtain ⟨rfl, hno⟩ := addMmioMap_ok hadd
    refine List.pairwise_append.mpr ⟨ih, List.pairwise_singleton _ _, fun map' hmem new hnew => ?_⟩
    cases List.mem_singleton.mp hnew
    rintro ⟨hin', hin⟩
    have hle := mapInside_iff.mp hin
    have hle' := mapInside_iff.mp hin'
    exact absurd ((overlaps_iff_common _ _ (hle.1.trans hle.2) (hle'.1.trans hle'.2)).mpr
      ⟨a, hin, hin'⟩) (by rw [IOMap.stored, hno map' hmem]; exact Bool.false_ne_true)

theorem filter_of_find? {p : IOMap → Bool}
    (h : maps.Pairwise fun map map' => ¬ (p map = true ∧ p map' = true)) :
    maps.filter p = (maps.find? p).toList := by
  rw [← List.head?_filter]
  have hpair := h.filter p
  have hall : ∀ map ∈ maps.filter p, p map = true := fun map hm => List.of_mem_filter hm
  match hf : maps.filter p with
  | [] => rfl
  | [map] => rfl
  | map :: map' :: rest =>
    rw [hf] at hpair hall
    exact absurd ⟨hall map List.mem_cons_self,
        hall map' (List.mem_cons_of_mem map List.mem_cons_self)⟩
      (List.rel_of_pairwise_cons hpair List.mem_cons_self)

theorem addMmioMap_fits (h : Fits cfg maps (map.stored len)) :
    addMmioMap cfg maps map len = .ok (maps ++ [map.stored len]) ↔
      maps.length < NR_MAP ∧ Answers map.low ∧ Answers (map.stored len).high := by
  have hleft : ¬ InMemory cfg map.low :=
    h.memory _ (mapInside_iff.mpr ⟨le_rfl, h.region⟩)
  have hright : ¬ InMemory cfg (map.low + len - 1) :=
    h.memory _ (mapInside_iff.mpr ⟨h.region, le_rfl⟩)
  have hany : maps.any (overlaps map.low (map.low + len - 1)) = false := by
    rw [List.any_eq_false]
    intro map' hmem ho
    obtain ⟨hle, hdis⟩ := h.earlier map' hmem
    obtain ⟨x, hx, hx'⟩ := (overlaps_iff_common (map.stored len) map' h.region hle).mp ho
    exact absurd hx' (by rw [hdis x hx]; exact Bool.false_ne_true)
  rw [IOMap.stored, ← inPmem_outside hleft, ← inPmem_outside hright]
  unfold addMmioMap
  constructor
  · intro hok
    split_ifs at hok with hlen
    obtain ⟨inside, hin, hok⟩ := bind_eq_ok.mp hok
    split_ifs at hok with hov
    rw [Bool.not_eq_true] at hov
    exact ⟨hlen, (inPmemEither_false h.region).mp (hov ▸ hin)⟩
  · rintro ⟨hlen, hends⟩
    have hin : inPmemEither cfg map.low len = .ok false := (inPmemEither_false h.region).mpr hends
    rw [if_pos hlen]
    simp only [hin, bind, Except.bind, hany, pure, Except.pure,
      Bool.false_eq_true, if_false]

end Maps

section Route

variable {cfg : Config} {maps : List IOMap} {map : IOMap} {s : BusState} {a d : Word} {len : ℕ}

theorem paddrDevice_memory (h : inPmem cfg a = .ok true) :
    paddrReadDevice cfg maps s a len = (ofMem (pmemRead cfg s.m.mem a len)).map (·, s) ∧
    paddrWriteDevice cfg maps s a len d = (ofMem (pmemWrite cfg s.m.mem a len d)).map
      fun mem => { s with m := { s.m with mem := mem } } := by
  unfold paddrReadDevice paddrWriteDevice
  rw [h]
  exact ⟨rfl, rfl⟩

theorem paddrDevice_mmio (h : inPmem cfg a = .ok false) :
    paddrReadDevice cfg maps s a len = mmioRead cfg maps s a len ∧
    paddrWriteDevice cfg maps s a len d = mmioWrite cfg maps s a len d := by
  unfold paddrReadDevice paddrWriteDevice
  rw [h]
  exact ⟨rfl, rfl⟩

theorem pmem_at {p : HostPtr} (h : guestToHost a = .ok p) (mem : Mem) :
    pmemRead cfg mem a len = hostRead cfg mem p len ∧
    pmemWrite cfg mem a len d = hostWrite cfg mem p len d := by
  unfold pmemRead pmemWrite
  rw [h]
  exact ⟨rfl, rfl⟩

/-- `check_bound` passes for the map that the search has found. -/
theorem mmio_some (h : maps.find? (mapInside · a) = some map)
    (hlen : len = 1 ∨ len = 2 ∨ len = 4) :
    mmioRead cfg maps s a len = (Region.device map).read cfg s a len ∧
    mmioWrite cfg maps s a len d = (Region.device map).write cfg s a len d := by
  have hin : mapInside map a = true := List.find?_some (p := (mapInside · a)) h
  have hbound : checkBound (some map) a = .ok map := if_pos hin
  have hl : 1 ≤ len ∧ len ≤ 8 := by omega
  unfold mmioRead mmioWrite fetchMmioMap mapRead mapWrite
  simp only [h, hbound, if_pos hl]
  exact ⟨rfl, rfl⟩

theorem mmio_none (h : maps.find? (mapInside · a) = none) (hlen : len = 1 ∨ len = 2 ∨ len = 4) :
    mmioRead cfg maps s a len = .error .outOfBound ∧
    mmioWrite cfg maps s a len d = .error .outOfBound := by
  have hl : 1 ≤ len ∧ len ≤ 8 := by omega
  unfold mmioRead mmioWrite fetchMmioMap mapRead mapWrite
  simp only [h, if_pos hl]
  exact ⟨rfl, rfl⟩

theorem hostAccess_undefined_iff (cfg : Config) (d : Word) (mem : Mem) (p : HostPtr)
    (hlen : len = 1 ∨ len = 2 ∨ len = 4) :
    (hostRead cfg mem p len = .error .undefined ↔ ¬ p.off + len ≤ cfg.arrayLen p.arr) ∧
    (hostWrite cfg mem p len d = .error .undefined ↔ ¬ p.off + len ≤ cfg.arrayLen p.arr) := by
  unfold hostRead hostWrite
  rw [if_pos hlen, if_pos hlen]
  by_cases h : p.off + len ≤ cfg.arrayLen p.arr <;> simp [h]

theorem ofMem_map_undefined {α β : Type} {x : Except Fault α} {f : α → β} :
    (ofMem x).map f = .error (.mem .undefined) ↔ x = .error .undefined := by
  cases x <;> simp [ofMem, Except.map]

theorem region_defined_iff {r : Region} (hr : RoutesTo cfg maps a r)
    (hlen : len = 1 ∨ len = 2 ∨ len = 4) :
    (r.read cfg s a len ≠ .error (.mem .undefined) ↔ Held cfg a len) ∧
    (r.write cfg s a len d ≠ .error (.mem .undefined) ↔ Held cfg a len) := by
  have hexcl : FlashPart cfg a → ¬ SramPart a := by
    rintro ⟨⟨hlo, -⟩, -⟩ ⟨-, hhi⟩
    simp only [FLASH_BASE, SRAM_BASE, SRAM_SIZE] at hlo hhi
    omega
  cases r with
  | flash =>
    have hf : FlashPart cfg a := hr
    have hheld : Held cfg a len ↔ a.toNat - FLASH_BASE + len ≤ cfg.arrayLen .flash := by
      have hlo := hf.1.1
      refine ⟨fun h => ?_, fun h => ⟨fun _ => ?_, fun hs => absurd hs (hexcl hf)⟩⟩
      · have := h.flash hf
        change _ ≤ cfg.MSIZE
        omega
      · change _ ≤ cfg.MSIZE at h
        omega
    have hiff := hostAccess_undefined_iff cfg d s.m.mem
      ⟨.flash, a.toNat - FLASH_BASE⟩ hlen
    rw [hheld, Region.read, Region.write, ne_eq, ne_eq, ofMem_map_undefined, ofMem_map_undefined,
      hiff.1, hiff.2, not_not]
    exact ⟨Iff.rfl, Iff.rfl⟩
  | sram =>
    have hs : SramPart a := hr
    have hheld : Held cfg a len ↔ a.toNat - SRAM_BASE + len ≤ cfg.arrayLen .sram := by
      have hlo := hs.1
      refine ⟨fun h => ?_, fun h => ⟨fun hf => absurd hs (hexcl hf), fun _ => ?_⟩⟩
      · have := h.sram hs
        change _ ≤ SRAM_SIZE
        omega
      · change _ ≤ SRAM_SIZE at h
        omega
    have hiff := hostAccess_undefined_iff cfg d s.m.mem
      ⟨.sram, a.toNat - SRAM_BASE⟩ hlen
    rw [hheld, Region.read, Region.write, ne_eq, ne_eq, ofMem_map_undefined, ofMem_map_undefined,
      hiff.1, hiff.2, not_not]
    exact ⟨Iff.rfl, Iff.rfl⟩
  | device map =>
    have hheld : Held cfg a len :=
      ⟨fun hf => absurd (.inl hf) hr.1, fun hs => absurd (.inr hs) hr.1⟩
    simp [Region.read, Region.write, ioRead, ioWrite, hlen, hheld, Except.map]
  | none =>
    have hheld : Held cfg a len :=
      ⟨fun hf => absurd (.inl hf) hr.1, fun hs => absurd (.inr hs) hr.1⟩
    simp [Region.read, Region.write, hheld]

theorem reaches_of_answers (hreg : Registered cfg maps) (hlen : len = 1 ∨ len = 2 ∨ len = 4)
    (h : Answers a) : ∃ r, RoutesTo cfg maps a r ∧ (∀ r', RoutesTo cfg maps a r' → r' = r) ∧
      (∀ s, paddrReadDevice cfg maps s a len = r.read cfg s a len) ∧
      ∀ s d, paddrWriteDevice cfg maps s a len d = r.write cfg s a len d := by
  have hexcl : FlashPart cfg a → ¬ SramPart a := by
    rintro ⟨⟨hlo, -⟩, -⟩ ⟨-, hhi⟩
    simp only [FLASH_BASE, SRAM_BASE, SRAM_SIZE] at hlo hhi
    omega
  by_cases hmem : InMemory cfg a
  · have hin := inPmem_memory hmem
    rcases hmem with hf | hs
    · have hgh := guestToHost_flash hf.1
      refine ⟨.flash, hf, ?_, fun s => ?_, fun s d => ?_⟩
      · rintro (_ | _ | map | _) hr
        · rfl
        · exact absurd hr (hexcl hf)
        · exact absurd (.inl hf) hr.1
        · exact absurd (.inl hf) hr.1
      · rw [(paddrDevice_memory (d := 0) hin).1, (pmem_at (d := 0) hgh _).1]
        rfl
      · rw [(paddrDevice_memory hin).2, (pmem_at hgh _).2]
        rfl
    · have hgh := guestToHost_sram hs
      refine ⟨.sram, hs, ?_, fun s => ?_, fun s d => ?_⟩
      · rintro (_ | _ | map | _) hr
        · exact absurd hs (hexcl hr)
        · rfl
        · exact absurd (.inr hs) hr.1
        · exact absurd (.inr hs) hr.1
      · rw [(paddrDevice_memory (d := 0) hin).1, (pmem_at (d := 0) hgh _).1]
        rfl
      · rw [(paddrDevice_memory hin).2, (pmem_at hgh _).2]
        rfl
  · have hout := (inPmem_outside hmem).mpr h
    have hfilter := filter_of_find? (hreg.exclusive (a := a))
    have hdev {r : Region} (hr : RoutesTo cfg maps a r) : RoutesTo cfg maps a r ∧
        r ≠ .flash ∧ r ≠ .sram := by
      refine ⟨hr, ?_, ?_⟩ <;> rintro rfl
      · exact hmem (.inl hr)
      · exact hmem (.inr hr)
    cases hfind : maps.find? (mapInside · a) with
    | some map =>
      rw [hfind] at hfilter
      refine ⟨.device map, ⟨hmem, hfilter⟩, fun r' hr => ?_, fun s => ?_, fun s d => ?_⟩
      · obtain ⟨hr, hnf, hns⟩ := hdev hr
        cases r' with
        | flash => exact absurd rfl hnf
        | sram => exact absurd rfl hns
        | device map' => cases hfilter.symm.trans hr.2; rfl
        | none => cases hfilter.symm.trans hr.2
      · rw [(paddrDevice_mmio (d := 0) hout).1, (mmio_some (d := 0) hfind hlen).1]
      · rw [(paddrDevice_mmio hout).2, (mmio_some hfind hlen).2]
    | none =>
      rw [hfind] at hfilter
      refine ⟨.none, ⟨hmem, hfilter⟩, fun r' hr => ?_, fun s => ?_, fun s d => ?_⟩
      · obtain ⟨hr, hnf, hns⟩ := hdev hr
        cases r' with
        | flash => exact absurd rfl hnf
        | sram => exact absurd rfl hns
        | device map' => cases hfilter.symm.trans hr.2
        | none => rfl
      · rw [(paddrDevice_mmio (d := 0) hout).1, (mmio_none (d := 0) hfind hlen).1]
        rfl
      · rw [(paddrDevice_mmio hout).2, (mmio_none hfind hlen).2]
        rfl

theorem Routed.of_answers (hreg : Registered cfg maps) (hlen : len = 1 ∨ len = 2 ∨ len = 4)
    (h : Answers a) (hheld : Held cfg a len) : Routed cfg maps a len := by
  obtain ⟨r, hr, huniq, hread, hwrite⟩ := reaches_of_answers hreg hlen h
  exact ⟨r, hr, huniq, fun s => ⟨hread s, (region_defined_iff (d := 0) hr hlen).1.mpr hheld⟩,
    fun s d => ⟨hwrite s d, (region_defined_iff hr hlen).2.mpr hheld⟩⟩

theorem Routed.answers (hlen : len = 1 ∨ len = 2 ∨ len = 4) (h : Routed cfg maps a len) :
    Answers a ∧ Held cfg a len := by
  obtain ⟨r, hr, -, hread, -⟩ := h
  obtain ⟨hgoes, hdefined⟩ := hread ⟨⟨⟨0, 0, ⟨0, 0, 0, 0⟩⟩, fun _ _ => 0, ⟨.RUNNING, 0, 0⟩, false, 0⟩,
    fun _ => 0⟩
  refine ⟨?_, (region_defined_iff (d := 0) hr hlen).1.mp hdefined⟩
  -- outside both windows the read asserts, which no region does
  by_contra hans
  rw [paddrReadDevice, inPmem_assertion hans] at hgoes
  cases r with
  | flash => exact hans (.inl hr.1)
  | sram => exact hans (.inr hr)
  | device map => simp [Region.read, ioRead, hlen, ofMem, bind, Except.bind, Except.map] at hgoes
  | none => cases hgoes

/-- Addresses are routed exactly in the flash and the SRAM window and where the access ends inside
the array it begins in; `in_pmem` answers exactly in these windows; and a region that fits is
accepted exactly when there is room and its ends lie in them. -/
theorem routed_iff (cfg : Config) (maps : List IOMap) (hreg : Registered cfg maps) (a : Word)
    (len : ℕ) (hlen : len = 1 ∨ len = 2 ∨ len = 4) :
    (Routed cfg maps a len ↔ Answers a ∧ Held cfg a len) ∧
    ((¬ InMemory cfg a → inPmem cfg a = .ok false) ↔ Answers a) ∧
    ∀ (map : IOMap) (size : Word), Fits cfg maps (map.stored size) →
      (addMmioMap cfg maps map size = .ok (maps ++ [map.stored size]) ↔
        maps.length < NR_MAP ∧ Answers map.low ∧ Answers (map.stored size).high) :=
  ⟨⟨fun h => h.answers hlen, fun h => .of_answers hreg hlen h.1 h.2⟩, inPmem_false_iff,
    fun _ _ hfit => addMmioMap_fits hfit⟩

/-- A word read at the reset vector, before any device is registered. -/
theorem routed_iff_reset :
    (Routed defaultMem [] 0x30000000 4 ↔ Answers 0x30000000 ∧ Held defaultMem 0x30000000 4) ∧
    ((¬ InMemory defaultMem 0x30000000 → inPmem defaultMem 0x30000000 = .ok false) ↔
      Answers 0x30000000) ∧
    ∀ (map : IOMap) (size : Word), Fits defaultMem [] (map.stored size) →
      (addMmioMap defaultMem [] map size = .ok ([] ++ [map.stored size]) ↔
        ([] : List IOMap).length < NR_MAP ∧ Answers map.low ∧ Answers (map.stored size).high) :=
  routed_iff defaultMem [] .nil 0x30000000 4 (by decide)

/-- A byte at the serial port, whose address is Kconfig's `SERIAL_MMIO`. -/
theorem serial_not_routed :
    ¬ ∀ (cfg : Config) (maps : List IOMap) (a : Word) (len : ℕ), Registered cfg maps →
      (len = 1 ∨ len = 2 ∨ len = 4) → Routed cfg maps a len ∧
        (¬ InMemory cfg a → inPmem cfg a = .ok false) ∧
        ∀ (map : IOMap) (size : Word), Fits cfg maps (map.stored size) → maps.length < NR_MAP →
          addMmioMap cfg maps map size = .ok (maps ++ [map.stored size]) := by
  intro h
  have hfalse := (h defaultMem [] 0xa00003f8 1 .nil (by decide)).2.1
  rcases inPmem_false_iff.mp hfalse with ⟨-, hlt⟩ | ⟨-, hlt⟩ <;> exact absurd hlt (by decide)

end Route

end Ysyx.Nemu
