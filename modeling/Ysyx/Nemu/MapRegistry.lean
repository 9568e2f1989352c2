import Ysyx.Nemu.MmioRoute

/-! The two tables of device maps, `mmio.c` and `port-io.c`, and the search in them. `add_mmio_map`
refuses a range that overlaps an earlier one, `add_pio_map` does not look at the earlier ones. -/

namespace Ysyx.Nemu

open Bytes

def PORT_IO_SPACE_MAX : ℕ := 65535

structure PioCall where
  name : String
  addr : BitVec 16
  space : ℕ
  len : Word
  callback : Option (Word → ℕ → Bool → IoSpace → IoSpace)

def PioCall.stored (c : PioCall) : IOMap :=
  ⟨c.name, c.addr.setWidth 32, c.addr.setWidth 32 + c.len - 1, c.space, c.callback⟩

def addPioMap (maps : List IOMap) (c : PioCall) : Except BusFault (List IOMap) :=
  if maps.length < NR_MAP then
    if (c.addr.setWidth 32 + c.len).toNat ≤ PORT_IO_SPACE_MAX then .ok (maps ++ [c.stored])
    else .error .assertion
  else .error .assertion

/-- The table after a sequence of calls that return. -/
def addPioMaps (calls : List PioCall) : Except BusFault (List IOMap) := calls.foldlM addPioMap []

/-- `find_mapid_by_addr`; the `difftest_skip_ref` it calls is in `fetchMmioMap`. -/
def findMapidByAddr (maps : List IOMap) (addr : Word) : ℤ :=
  match maps.findIdx? (mapInside · addr) with
  | some i => i
  | none => -1

/-- `mapid == -1 ? NULL : &maps[mapid]` -/
def mapChosen (maps : List IOMap) (addr : Word) : Option IOMap :=
  let mapid := findMapidByAddr maps addr
  if mapid = -1 then none else maps[mapid.toNat]?

/-- The ranges of a table are disjoint, an address is in one of them at most, and the map it selects
is the same whatever the order of the entries. -/
structure Unambiguous (maps : List IOMap) : Prop where
  disjoint : maps.Pairwise fun map map' => ∀ a, ¬ (mapInside map a = true ∧ mapInside map' a = true)
  atMostOne : ∀ a, (maps.filter (mapInside · a)).length ≤ 1
  order : ∀ maps', maps'.Perm maps → ∀ a, mapChosen maps' a = mapChosen maps a

/-- The range of the later call passes the test of `add_mmio_map` against that of the earlier one,
where neither is empty. -/
def PassesTest (c c' : PioCall) : Prop :=
  c.stored.low.toNat ≤ c.stored.high.toNat → c'.stored.low.toNat ≤ c'.stored.high.toNat →
    overlaps c'.stored.low c'.stored.high c.stored = false

section Tables

variable {maps maps' : List IOMap}

theorem mapChosen_eq_find? (maps : List IOMap) (a : Word) :
    mapChosen maps a = maps.find? (mapInside · a) := by
  have haux : (maps.findIdx? (mapInside · a)).bind (maps[·]?) = maps.find? (mapInside · a) := by
    induction maps with
    | nil => rfl
    | cons map maps ih =>
      rw [List.findIdx?_cons, List.find?_cons]
      cases mapInside map a with
      | true => rfl
      | false =>
        rw [← ih]
        cases maps.findIdx? (mapInside · a) <;> rfl
  rw [← haux, mapChosen, findMapidByAddr]
  cases maps.findIdx? (mapInside · a) with
  | none => rfl
  | some i =>
    have hne : (i : ℤ) ≠ -1 := by omega
    exact if_neg hne

theorem unambiguous_of_disjoint (h : maps.Pairwise fun map map' =>
    ∀ a, ¬ (mapInside map a = true ∧ mapInside map' a = true)) : Unambiguous maps := by
  have hfilter : ∀ {l : List IOMap}, (l.Pairwise fun map map' =>
      ∀ a, ¬ (mapInside map a = true ∧ mapInside map' a = true)) →
      ∀ a, l.filter (mapInside · a) = (l.find? (mapInside · a)).toList :=
    fun hl a => filter_of_find? (hl.imp fun hno => hno a)
  refine ⟨h, fun a => ?_, fun maps' hperm a => ?_⟩
  · rw [hfilter h a]
    cases maps.find? (mapInside · a) <;> simp
  · have h' := (hperm.pairwise_iff fun hno a hin => hno a hin.symm).2 h
    have hp := hperm.filter (mapInside · a)
    rw [hfilter h a, hfilter h' a] at hp
    rw [mapChosen_eq_find?, mapChosen_eq_find?]
    cases hfind : maps.find? (mapInside · a) <;> cases hfind' : maps'.find? (mapInside · a) <;>
      rw [hfind, hfind'] at hp
    · exact absurd hp.length_eq (by simp)
    · exact absurd hp.length_eq (by simp)
    · cases List.perm_singleton.1 hp
      rfl

theorem Registered.unambiguous {cfg : Config} (h : Registered cfg maps) : Unambiguous maps := by
  refine unambiguous_of_disjoint (List.pairwise_iff_getElem.2 fun i j hi hj hij a => ?_)
  exact List.pairwise_iff_getElem.1 (h.exclusive (a := a)) i j hi hj hij

theorem addPioMaps_eq {calls : List PioCall} (h : addPioMaps calls = .ok maps) :
    maps = calls.map PioCall.stored := by
  have aux : ∀ (calls : List PioCall) (start : List IOMap), calls.foldlM addPioMap start = .ok maps →
      maps = start ++ calls.map PioCall.stored := by
    intro calls
    induction calls with
    | nil =>
      intro start h
      cases h
      simp
    | cons c calls ih =>
      intro start h
      rw [List.foldlM_cons] at h
      obtain ⟨next, hadd, h⟩ := bind_eq_ok.mp h
      unfold addPioMap at hadd
      split_ifs at hadd
      cases hadd
      rw [ih _ h, List.map_cons, List.append_assoc, List.singleton_append]
  exact aux calls [] h

theorem passesTest_iff {c c' : PioCall} : PassesTest c c' ↔
    ∀ a, ¬ (mapInside c.stored a = true ∧ mapInside c'.stored a = true) := by
  constructor
  · rintro h a ⟨hin, hin'⟩
    have hle := mapInside_iff.1 hin
    have hle' := mapInside_iff.1 hin'
    have hno := h (hle.1.trans hle.2) (hle'.1.trans hle'.2)
    have hover := (overlaps_iff_common c'.stored c.stored (hle'.1.trans hle'.2)
      (hle.1.trans hle.2)).2 ⟨a, hin', hin⟩
    rw [hno] at hover
    cases hover
  · intro h hle hle'
    rw [← Bool.not_eq_true, overlaps_iff_common c'.stored c.stored hle' hle]
    rintro ⟨a, hin', hin⟩
    exact h a ⟨hin, hin'⟩

/-- The table of `add_mmio_map` is always unambiguous, that of `add_pio_map` just when its callers
give it ranges that `add_mmio_map` would not refuse for their overlap. -/
theorem registries {cfg : Config} {mmio pio : List IOMap} {calls : List PioCall}
    (hmmio : Registered cfg mmio) (hpio : addPioMaps calls = .ok pio) :
    Unambiguous mmio ∧ (Unambiguous pio ↔ calls.Pairwise PassesTest) := by
  refine ⟨hmmio.unambiguous, ?_⟩
  have hpair : calls.Pairwise PassesTest ↔ pio.Pairwise fun map map' =>
      ∀ a, ¬ (mapInside map a = true ∧ mapInside map' a = true) := by
    rw [addPioMaps_eq hpio, List.pairwise_map]
    exact List.Pairwise.iff fun _ _ => passesTest_iff
  rw [hpair]
  exact ⟨fun h => h.disjoint, unambiguous_of_disjoint⟩

def twoPorts (addr addr' : BitVec 16) : List PioCall :=
  [⟨"serial", addr, 0, 8, none⟩, ⟨"serial2", addr', 4096, 8, none⟩]

def twoMaps : List IOMap :=
  [⟨"serial", 0x38000000, 0x38000fff, 0, none⟩, ⟨"keyboard", 0x38001000, 0x38001fff, 4096, none⟩]

theorem twoMaps_registered : Registered defaultMem twoMaps := by
  have hserial : addMmioMap defaultMem [] ⟨"serial", 0x38000000, 0, 0, none⟩ 0x1000 =
      .ok (twoMaps.take 1) := rfl
  have hkeyboard : addMmioMap defaultMem (twoMaps.take 1) ⟨"keyboard", 0x38001000, 0, 4096, none⟩
      0x1000 = .ok twoMaps := rfl
  exact .add (.add .nil hserial) hkeyboard

theorem registries_two_ports : Unambiguous twoMaps ∧
    (Unambiguous ((twoPorts 0x3f8 0x2f8).map PioCall.stored) ↔
      (twoPorts 0x3f8 0x2f8).Pairwise PassesTest) :=
  registries twoMaps_registered rfl

/-- A second port that begins inside the first is registered all the same. -/
theorem pio_ambiguous : ¬ ∀ (calls : List PioCall) (pio : List IOMap),
    addPioMaps calls = .ok pio → Unambiguous pio := by
  intro h
  have hat := (h (twoPorts 0x3f8 0x3fc) _ rfl).atMostOne 0x3fc
  exact absurd hat (by decide)

end Tables

end Ysyx.Nemu
