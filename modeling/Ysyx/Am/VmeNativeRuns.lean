import Ysyx.Am.VmeNativeList

/-! Runs of `map` and `__am_switch` over the native address spaces: the lists and
the host's pages are right in every state reached if and only if no space has
mapped an address twice and the host takes every page. -/

namespace Ysyx.Am.Native

open Chain

inductive Op where
  | map (a : Space) (m : Mapping)
  | switch (target : Option Space)
  deriving DecidableEq, Repr

/-- Every space is as `protect` leaves it; the contents of fresh pages are arbitrary. -/
def State.start (node : Ptr → PageMap) : State :=
  ⟨node, 0, fun _ => .empty, none, []⟩

/-- The operations that succeed, oldest first, lead to the state. -/
inductive Reaches {pgsize : ℕ} (host : Host pgsize) : List Op → State → Prop
  | start (node : Ptr → PageMap) : Reaches host [] (.start node)
  | map {ops : List Op} {s s' : State} (a : Space) (m : Mapping) (h : Reaches host ops s)
      (hstep : Native.map host a m.va m.pa m.prot s = .ok s') :
      Reaches host (ops ++ [.map a m]) s'
  | switch {ops : List Op} {s s' : State} (target : Option Space) (fuel : ℕ)
      (h : Reaches host ops s) (hstep : amSwitch host fuel target s = .ok s') :
      Reaches host (ops ++ [.switch target]) s'

def Op.callOn (a : Space) : Op → Option Mapping
  | .map b m => if b = a then some m else none
  | .switch _ => none

/-- The calls of `map` on one space, oldest first. -/
def callsOn (a : Space) (ops : List Op) : List Mapping := ops.filterMap (Op.callOn a)

def vas (cs : List Mapping) : List Addr := cs.map Mapping.va

/-- The latest call for an address. -/
def latest (cs : List Mapping) (va : Addr) : Option Mapping :=
  cs.reverse.find? fun m => m.va == va

/-- The list of a space, as its calls `cs` should have left it. -/
structure SpaceOk (s : State) (a : Space) (cs : List Mapping) : Prop where
  list : ∃ l : List Ptr, Linked s.next (s.vmHead a).head l ∧
    (l.map fun p => (s.node p).va).Nodup ∧
    (∀ va, va ∈ l.map (fun p => (s.node p).va) ↔ va ∈ vas cs) ∧
    (∀ p ∈ l, latest cs (s.node p).va = some (s.node p).mapping) ∧
    (s.vmHead a).nrPage = l.length

/-- A switch ends, and the host unmaps the old pages once each and maps the new ones. -/
def SwitchOk {pgsize : ℕ} (host : Host pgsize) (s : State) (ops : List Op)
    (target : Option Space) : Prop :=
  ∃ (fuel : ℕ) (s' : State) (us : List Addr) (ms : List Mapping),
    amSwitch host fuel target s = .ok s' ∧ s'.current = target ∧
    s'.pmem = s.pmem ++ us.map PmemCall.unmap ++ ms.map Mapping.call ∧
    us.Nodup ∧ (vas ms).Nodup ∧
    (∀ va, va ∈ us ↔ s.current ≠ target ∧ ∃ a, s.current = some a ∧ va ∈ vas (callsOn a ops)) ∧
    ∀ m, m ∈ ms ↔
      s.current ≠ target ∧ ∃ b, target = some b ∧ latest (callsOn b ops) m.va = some m

theorem callsOn_map (a b : Space) (m : Mapping) (ops : List Op) :
    callsOn a (ops ++ [.map b m]) = if b = a then callsOn a ops ++ [m] else callsOn a ops := by
  unfold callsOn
  split_ifs with hb <;> simp [List.filterMap_append, Op.callOn, hb]

@[simp] theorem callsOn_switch (a : Space) (target : Option Space) (ops : List Op) :
    callsOn a (ops ++ [.switch target]) = callsOn a ops := by
  simp [callsOn, Op.callOn]

@[simp] theorem vas_append (cs cs' : List Mapping) : vas (cs ++ cs') = vas cs ++ vas cs' :=
  List.map_append

theorem latest_eq_some_iff {cs : List Mapping} (hcs : (vas cs).Nodup) (va : Addr) (m : Mapping) :
    latest cs va = some m ↔ m ∈ cs ∧ m.va = va := by
  constructor
  · intro h
    exact ⟨List.mem_reverse.mp (List.mem_of_find?_eq_some h), by simpa using List.find?_some h⟩
  · rintro ⟨hm, rfl⟩
    obtain ⟨m', hm'⟩ : ∃ m', latest cs m.va = some m' := by
      refine Option.isSome_iff_exists.mp (List.find?_isSome.mpr ⟨m, ?_, by simp⟩)
      exact List.mem_reverse.mpr hm
    have hva : m'.va = m.va := by simpa using List.find?_some hm'
    have hmem : m' ∈ cs := List.mem_reverse.mp (List.mem_of_find?_eq_some hm')
    rw [hm', List.inj_on_of_nodup_map hcs hmem hm hva]

/-- The node is in the table of the space. -/
def State.Owned (s : State) (a : Space) (p : Ptr) : Prop := ∃ k, (s.vmHead a).hash k = some p

structure Tables (pgsize : ℕ) (s : State) : Prop where
  fresh : ∀ a p, s.Owned a p → p < s.nrAlloc
  key : ∀ a k p, (s.vmHead a).hash k = some p →
    inUserSpace (s.node p).va = true ∧ k = hexKey (s.node p).va
  page : ∀ a p, s.Owned a p → (s.node p).va.toNat % pgsize = 0
  disjoint : ∀ a b p, s.Owned a p → s.Owned b p → a = b

theorem tables_start (pgsize : ℕ) (node : Ptr → PageMap) : Tables pgsize (.start node) := by
  refine ⟨?_, ?_, ?_, ?_⟩
  · rintro a p ⟨k, hk⟩
    cases hk
  · intro a k p hk
    cases hk
  · rintro a p ⟨k, hk⟩
    cases hk
  · rintro a b p ⟨k, hk⟩
    cases hk

section Step

variable {pgsize : ℕ} {host : Host pgsize} {s s' : State} {a b : Space} {m : Mapping}
  {p q : Ptr} {cs : List Mapping}

/-- The table after a call: the node of the address is in it, and what was in it. -/
theorem MapStep.hash (h : MapStep host s s' a m p) (k : String) :
    (s'.vmHead a).hash k = if k = hexKey m.va then some p else (s.vmHead a).hash k := by
  rcases h.lookup with ⟨hfind, -, hhead⟩ | ⟨-, -, -, hhead⟩
  · rw [hhead]
    split_ifs with hk
    · rw [hk, hfind]
    · rfl
  · rw [hhead]
    split_ifs with hk
    · rw [hk]
      exact Function.update_self _ _ _
    · exact Function.update_of_ne hk _ _

theorem MapStep.owned (h : MapStep host s s' a m p) :
    s'.Owned b q ↔ s.Owned b q ∨ b = a ∧ q = p := by
  by_cases hb : b = a
  · subst hb
    simp only [State.Owned, h.hash, true_and]
    constructor
    · rintro ⟨k, hk⟩
      split_ifs at hk with hkey
      · exact .inr (Option.some.inj hk).symm
      · exact .inl ⟨k, hk⟩
    · rintro (⟨k, hk⟩ | rfl)
      · by_cases hkey : k = hexKey m.va
        · subst hkey
          rcases h.lookup with ⟨hfind, -⟩ | ⟨hfind, -⟩
          · exact ⟨hexKey m.va, by rw [if_pos rfl, ← hfind, hk]⟩
          · cases hfind.symm.trans hk
        · exact ⟨k, by rw [if_neg hkey, hk]⟩
      · exact ⟨hexKey m.va, if_pos rfl⟩
  · rw [State.Owned, h.vmHead b hb]
    exact ⟨.inl, fun ho => ho.resolve_right fun he => hb he.1⟩

theorem MapStep.not_owned (h : MapStep host s s' a m p) (hs : Tables pgsize s) (hb : b ≠ a) :
    ¬ s.Owned b p := by
  intro ho
  rcases h.lookup with ⟨hfind, -⟩ | ⟨-, hp, -⟩
  · exact hb (hs.disjoint b a p ho ⟨_, hfind⟩)
  · exact absurd (hs.fresh b p ho) (by rw [hp]; exact lt_irrefl _)

theorem MapStep.tables (h : MapStep host s s' a m p) (hs : Tables pgsize s) : Tables pgsize s' := by
  have hva : (s'.node p).va = m.va := congrArg Mapping.va h.mapping
  refine ⟨fun b q ho => ?_, fun b k q hk => ?_, fun b q ho => ?_, fun b c q hb hc => ?_⟩
  · have hlt : s.nrAlloc ≤ s'.nrAlloc ∧ p < s'.nrAlloc := by
      rcases h.lookup with ⟨hfind, halloc, -⟩ | ⟨-, hp, halloc, -⟩
      · exact ⟨halloc.ge, halloc.symm ▸ hs.fresh a p ⟨_, hfind⟩⟩
      · rw [halloc, hp]
        exact ⟨Nat.le_succ _, Nat.lt_succ_self _⟩
    rcases h.owned.mp ho with ho | ⟨-, rfl⟩
    · exact (hs.fresh b q ho).trans_le hlt.1
    · exact hlt.2
  · by_cases hq : q = p
    · subst hq
      by_cases hb : b = a
      · subst hb
        rw [h.hash] at hk
        split_ifs at hk with hkey
        · exact ⟨by rw [hva, h.user], by rw [hva, hkey]⟩
        · -- the node was found: its key is the key of the address
          rcases h.lookup with ⟨hfind, -⟩ | ⟨-, hp, -⟩
          · exact absurd ((hs.key b k q hk).2.trans (hs.key b _ q hfind).2.symm) hkey
          · exact absurd (hs.fresh b q ⟨k, hk⟩) (by rw [hp]; exact lt_irrefl _)
      · rw [h.vmHead b hb] at hk
        exact absurd ⟨k, hk⟩ (h.not_owned hs hb)
    · rw [h.node q hq]
      by_cases hb : b = a
      · subst hb
        rw [h.hash] at hk
        split_ifs at hk with hkey
        · exact absurd (Option.some.inj hk).symm hq
        · exact hs.key b k q hk
      · rw [h.vmHead b hb] at hk
        exact hs.key b k q hk
  · by_cases hq : q = p
    · rw [hq, hva]
      exact h.page
    · rw [h.node q hq]
      exact hs.page b q ((h.owned.mp ho).resolve_right fun he => hq he.2)
  · rcases h.owned.mp hb with hb | ⟨rfl, rfl⟩ <;> rcases h.owned.mp hc with hc | ⟨hca, hqp⟩
    · exact hs.disjoint b c q hb hc
    · subst hca hqp
      by_contra hne
      exact h.not_owned hs hne hb
    · by_contra hne
      exact h.not_owned hs (Ne.symm hne) hc
    · exact hca.symm

/-- The list spells the calls, newest first. -/
def Spells (s : State) (a : Space) (cs : List Mapping) : Prop :=
  ∃ l : List Ptr, Linked s.next (s.vmHead a).head l ∧
    (l.map fun p => (s.node p).mapping) = cs.reverse ∧ (s.vmHead a).nrPage = l.length ∧
    ∀ p, p ∈ l ↔ s.Owned a p

/-- A list is right until an address is mapped again, and never ends from then on. -/
def ListInv (s : State) (a : Space) (cs : List Mapping) : Prop :=
  ((vas cs).Nodup ∧ Spells s a cs) ∨
    (¬ (vas cs).Nodup ∧ Cyclic {p | s.Owned a p} s.next (s.vmHead a).head)

theorem listInv_start (node : Ptr → PageMap) (a : Space) : ListInv (.start node) a [] := by
  refine .inl ⟨List.nodup_nil, [], rfl, rfl, rfl, fun p => ?_⟩
  constructor
  · intro hp
    cases hp
  · rintro ⟨k, hk⟩
    cases hk

theorem MapStep.listInv_other (h : MapStep host s s' a m p) (hs : Tables pgsize s) (hb : b ≠ a)
    (hinv : ListInv s b cs) : ListInv s' b cs := by
  have howned : ∀ q, s'.Owned b q ↔ s.Owned b q := fun q => by
    rw [h.owned]
    exact ⟨fun ho => ho.resolve_right fun he => hb he.1, .inl⟩
  have hne : ∀ q, s.Owned b q → q ≠ p := fun q ho heq => h.not_owned hs hb (heq ▸ ho)
  have hnext : ∀ q, s.Owned b q → s'.next q = s.next q := fun q ho => by
    rw [h.next, Function.update_of_ne (hne q ho)]
  rcases hinv with ⟨hnodup, l, hl, hmap, hnr, hmem⟩ | ⟨hdup, hcyc⟩
  · refine .inl ⟨hnodup, l, ?_, ?_, ?_, fun q => (hmem q).trans (howned q).symm⟩
    · rw [h.vmHead b hb]
      exact hl.congr fun q hq => hnext q ((hmem q).mp hq)
    · rw [← hmap]
      exact List.map_congr_left fun q hq => by rw [h.node q (hne q ((hmem q).mp hq))]
    · rw [h.vmHead b hb, hnr]
  · refine .inr ⟨hdup, ?_⟩
    rw [h.vmHead b hb]
    exact hcyc.congr (fun q hq => (howned q).mpr hq) hnext

theorem MapStep.spells_fresh (h : MapStep host s s' a m p) (hs : Tables pgsize s)
    (hfind : (s.vmHead a).hash (hexKey m.va) = none) (hinv : Spells s a cs) :
    Spells s' a (cs ++ [m]) := by
  obtain ⟨l, hl, hmap, hnr, hmem⟩ := hinv
  obtain ⟨hsome, -⟩ | ⟨-, hp, -, hhead⟩ := h.lookup
  · cases hfind.symm.trans hsome
  have hpl : p ∉ l := fun hpl =>
    absurd (hs.fresh a p ((hmem p).mp hpl)) (by rw [hp]; exact lt_irrefl _)
  refine ⟨p :: l, ?_, ?_, ?_, fun q => ?_⟩
  · rw [h.next, hhead]
    exact hl.push hpl
  · rw [List.map_cons, h.mapping, List.reverse_append, ← hmap]
    refine congrArg (m :: ·) (List.map_congr_left fun q hq => ?_)
    rw [h.node q (ne_of_mem_of_not_mem hq hpl)]
  · rw [hhead, hnr]
    rfl
  · rw [List.mem_cons, h.owned, hmem q]
    tauto

/-- An address that the space has mapped already closes a cycle. -/
theorem MapStep.cyclic_again (h : MapStep host s s' a m p)
    (hfind : (s.vmHead a).hash (hexKey m.va) = some p) (hinv : Spells s a cs) :
    Cyclic {q | s'.Owned a q} s'.next (s'.vmHead a).head := by
  obtain ⟨l, hl, -, -, hmem⟩ := hinv
  have hhead : (s'.vmHead a).head = some p := by
    rcases h.lookup with ⟨-, -, hhead⟩ | ⟨-, -, -, hhead⟩ <;> rw [hhead]
  rw [h.next, hhead]
  refine hl.push_mem ((hmem p).mpr ⟨_, hfind⟩) fun q hq => ?_
  exact h.owned.mpr (.inl ((hmem q).mp hq))

/-- The table knows an address exactly when the space has mapped it. -/
theorem Spells.found_iff (hinv : Spells s a cs) (hs : Tables pgsize s) {va : Addr}
    (hva : inUserSpace va = true) : (∃ p, (s.vmHead a).hash (hexKey va) = some p) ↔ va ∈ vas cs := by
  obtain ⟨l, -, hmap, -, hmem⟩ := hinv
  have hvas : va ∈ vas cs ↔ ∃ p ∈ l, (s.node p).va = va := by
    rw [← List.mem_reverse, vas, ← List.map_reverse, ← hmap, List.map_map]
    exact List.mem_map
  rw [hvas]
  constructor
  · rintro ⟨p, hp⟩
    obtain ⟨huser, hkey⟩ := hs.key a _ p hp
    exact ⟨p, (hmem p).mpr ⟨_, hp⟩, (hexKey_inj hva huser hkey).symm⟩
  · rintro ⟨p, hp, rfl⟩
    obtain ⟨k, hk⟩ := (hmem p).mp hp
    exact ⟨p, by rw [← (hs.key a k p hk).2, hk]⟩

theorem MapStep.listInv (h : MapStep host s s' a m p) (hs : Tables pgsize s) (hinv : ListInv s a cs) :
    ListInv s' a (cs ++ [m]) := by
  have hvas : (vas (cs ++ [m])).Nodup ↔ (vas cs).Nodup ∧ m.va ∉ vas cs := by
    rw [vas_append, List.nodup_append_comm]
    exact List.nodup_cons.trans and_comm
  rcases hinv with ⟨hnodup, hspells⟩ | ⟨hdup, hcyc⟩
  · cases hfind : (s.vmHead a).hash (hexKey m.va) with
    | none =>
      have hnew : m.va ∉ vas cs := fun hm => by
        obtain ⟨q, hq⟩ := (hspells.found_iff hs h.user).mpr hm
        cases hfind.symm.trans hq
      exact .inl ⟨hvas.mpr ⟨hnodup, hnew⟩, h.spells_fresh hs hfind hspells⟩
    | some q =>
      have hold : m.va ∈ vas cs := (hspells.found_iff hs h.user).mp ⟨q, hfind⟩
      have hqp : q = p := by
        rcases h.lookup with ⟨hsome, -⟩ | ⟨hnone, -⟩
        · exact Option.some.inj (hfind.symm.trans hsome)
        · cases hnone.symm.trans hfind
      exact .inr ⟨fun hn => (hvas.mp hn).2 hold, h.cyclic_again (hqp ▸ hfind) hspells⟩
  · refine .inr ⟨fun hn => hdup (hvas.mp hn).1, ?_⟩
    have hhead : (s'.vmHead a).head = some p := by
      rcases h.lookup with ⟨-, -, hhead⟩ | ⟨-, -, -, hhead⟩ <;> rw [hhead]
    have hwide : Cyclic {q | s'.Owned a q} s.next (s.vmHead a).head :=
      hcyc.congr (fun q hq => h.owned.mpr (.inl hq)) fun _ _ => rfl
    rw [h.next, hhead]
    exact hwide.push (h.owned.mpr (.inr ⟨rfl, rfl⟩))

theorem FlagsOnly.owned (h : FlagsOnly s s') : s'.Owned b q ↔ s.Owned b q := by
  rw [State.Owned, State.Owned, h.vmHead]

theorem FlagsOnly.tables (h : FlagsOnly s s') (hs : Tables pgsize s) : Tables pgsize s' := by
  refine ⟨fun b q ho => ?_, fun b k q hk => ?_, fun b q ho => ?_, fun b c q hb hc => ?_⟩
  · rw [h.nrAlloc]
    exact hs.fresh b q (h.owned.mp ho)
  · rw [h.vmHead] at hk
    rw [show (s'.node q).va = (s.node q).va from congrArg Mapping.va (h.mapping q)]
    exact hs.key b k q hk
  · rw [show (s'.node q).va = (s.node q).va from congrArg Mapping.va (h.mapping q)]
    exact hs.page b q (h.owned.mp ho)
  · exact hs.disjoint b c q (h.owned.mp hb) (h.owned.mp hc)

theorem FlagsOnly.spells (h : FlagsOnly s s') (hinv : Spells s b cs) : Spells s' b cs := by
  obtain ⟨l, hl, hmap, hnr, hmem⟩ := hinv
  refine ⟨l, ?_, ?_, ?_, fun q => (hmem q).trans h.owned.symm⟩
  · rwa [h.next, h.vmHead]
  · rw [← hmap]
    exact List.map_congr_left fun q _ => h.mapping q
  · rw [h.vmHead, hnr]

theorem FlagsOnly.listInv (h : FlagsOnly s s') (hinv : ListInv s b cs) : ListInv s' b cs := by
  rcases hinv with ⟨hnodup, hspells⟩ | ⟨hdup, hcyc⟩
  · exact .inl ⟨hnodup, h.spells hspells⟩
  · refine .inr ⟨hdup, ?_⟩
    rw [h.next, h.vmHead]
    exact hcyc.congr (fun q hq => h.owned.mpr hq) fun _ _ => rfl

/-- `vm_head->head`, with nothing to traverse where there is no space. -/
def State.headOf (s : State) : Option Space → Option Ptr
  | some a => (s.vmHead a).head
  | none => none

theorem amSwitch_eq (fuel : ℕ) (target : Option Space) (s : State) :
    amSwitch host fuel target s =
      if target = s.current then .ok s
      else do
        let s₁ ← unmapAll host fuel (s.headOf s.current) s
        let s₂ ← mapAll host fuel (s₁.headOf target) s₁
        return { s₂ with current := target } := by
  have hnone : ∀ s, unmapAll host fuel none s = .ok s ∧ mapAll host fuel none s = .ok s := fun s => by
    cases fuel <;> exact ⟨rfl, rfl⟩
  unfold amSwitch
  split_ifs
  · rfl
  · cases hcur : s.current <;> cases target <;>
      simp only [State.headOf, (hnone _).1, (hnone _).2]

theorem amSwitch_current {fuel : ℕ} {target : Option Space}
    (h : amSwitch host fuel target s = .ok s') : s'.current = target := by
  rw [amSwitch_eq] at h
  split_ifs at h with htarget
  · cases h
    exact htarget.symm
  · obtain ⟨s₁, -, h⟩ := bind_eq_ok.mp h
    obtain ⟨s₂, -, h⟩ := bind_eq_ok.mp h
    cases h
    rfl

theorem amSwitch_flags {fuel : ℕ} {target : Option Space}
    (h : amSwitch host fuel target s = .ok s') : FlagsOnly s s' := by
  rw [amSwitch_eq] at h
  split_ifs at h with htarget
  · cases h
    exact .refl s
  · obtain ⟨s₁, hunmap, h⟩ := bind_eq_ok.mp h
    obtain ⟨s₂, hmap, h⟩ := bind_eq_ok.mp h
    cases h
    have hflags := (unmapAll_flags hunmap).trans (mapAll_flags hmap)
    exact ⟨hflags.mapping, hflags.next, hflags.nrAlloc, hflags.vmHead⟩

theorem linked_of_amSwitch {fuel : ℕ} {target : Option Space} (hne : target ≠ s.current)
    (h : amSwitch host fuel target s = .ok s') : ∃ l, Linked s.next (s.headOf target) l := by
  rw [amSwitch_eq, if_neg hne] at h
  obtain ⟨s₁, hunmap, h⟩ := bind_eq_ok.mp h
  obtain ⟨s₂, hmap, -⟩ := bind_eq_ok.mp h
  obtain ⟨l, hl⟩ := linked_of_mapAll hmap
  have hflags := unmapAll_flags hunmap
  refine ⟨l, ?_⟩
  cases target <;> simpa only [State.headOf, hflags.next, hflags.vmHead] using hl

structure Listed (s : State) (o : Option Space) (l : List Ptr) : Prop where
  linked : Linked s.next (s.headOf o) l
  mem : ∀ p, p ∈ l ↔ ∃ a, o = some a ∧ s.Owned a p

theorem Listed.user {o : Option Space} {l : List Ptr} (h : Listed s o l)
    (hs : Tables pgsize s) (hp : p ∈ l) : inUserSpace (s.node p).va = true := by
  obtain ⟨a, -, k, hk⟩ := (h.mem p).mp hp
  exact (hs.key a k p hk).1

theorem Listed.munmap {o : Option Space} {l : List Ptr} (h : Listed s o l)
    (hs : Tables pgsize s) (hp : p ∈ l) : host.munmap (s.node p).va = true := by
  obtain ⟨a, -, ho⟩ := (h.mem p).mp hp
  exact host.munmap_page _ (h.user hs hp) (hs.page a p ho)

/-- A switch to another space returns only where the host has taken every page of it. -/
theorem accepts_of_amSwitch {fuel : ℕ} {target : Option Space} {l : List Ptr}
    (hne : target ≠ s.current) (hl : Listed s target l)
    (h : amSwitch host fuel target s = .ok s') :
    ∀ p ∈ l, host.accepts (s.node p).mapping = true := by
  rw [amSwitch_eq, if_neg hne] at h
  obtain ⟨s₁, hunmap, h⟩ := bind_eq_ok.mp h
  obtain ⟨s₂, hmap, -⟩ := bind_eq_ok.mp h
  have hflags := unmapAll_flags hunmap
  have hlinked : Linked s₁.next (s₁.headOf target) l := by
    have hhead : s₁.headOf target = s.headOf target := by
      cases target <;> simp only [State.headOf, hflags.vmHead]
    rw [hhead, hflags.next]
    exact hl.linked
  intro p hp
  rw [← hflags.mapping p]
  exact accepts_of_mapAll hlinked hmap p hp

def State.switched (s : State) (us ms : List Ptr) (target : Option Space) : State :=
  { ms.foldl State.mapped (us.foldl State.unmapMapped s) with current := target }

theorem amSwitch_listed {us ms : List Ptr} {target : Option Space} (hs : Tables pgsize s)
    (hus : Listed s s.current us) (hms : Listed s target ms) (hne : target ≠ s.current)
    (hacc : ∀ p ∈ ms, host.accepts (s.node p).mapping = true) (fuel : ℕ) :
    amSwitch host fuel target s =
      if us.length ≤ fuel ∧ ms.length ≤ fuel then .ok (s.switched us ms target)
      else .error .fuel := by
  have hflags := (foldl_unmapMapped us s).flags
  have hhead : (us.foldl State.unmapMapped s).headOf target = s.headOf target := by
    cases target <;> simp only [State.headOf, hflags.vmHead]
  have hlinked : Linked (us.foldl State.unmapMapped s).next (s.headOf target) ms := by
    rw [hflags.next]
    exact hms.linked
  have hmappable : ∀ p ∈ ms, Mappable host ((us.foldl State.unmapMapped s).node p).mapping :=
    fun p hp => by
      rw [hflags.mapping p]
      exact ⟨hms.user hs hp, hacc p hp⟩
  rw [amSwitch_eq, if_neg hne, unmapAll_linked hus.linked fun p hp => hus.munmap hs hp]
  by_cases hul : us.length ≤ fuel
  · simp only [hul, if_true, true_and, bind, Except.bind, hhead,
      mapAll_linked hlinked hmappable fuel]
    split_ifs <;> rfl
  · simp only [hul, if_false, false_and]
    rfl

/-- `is_mapped` marks the pages that the host has. -/
def Flagged (s : State) : Prop :=
  ∀ a p, s.Owned a p → (s.node p).isMapped = decide (s.current = some a)

theorem MapStep.flagged (h : MapStep host s s' a m p) (hs : Tables pgsize s) (hf : Flagged s) :
    Flagged s' := by
  intro b q ho
  rw [h.current]
  by_cases hq : q = p
  · subst hq
    rcases h.owned.mp ho with ho | ⟨rfl, -⟩
    · have hb : b = a := by
        by_contra hb
        exact h.not_owned hs hb ho
      rw [h.isMapped, hb]
    · exact h.isMapped
  · rw [h.node q hq]
    exact hf b q ((h.owned.mp ho).resolve_right fun he => hq he.2)

theorem switched_flagged {us ms : List Ptr} {target : Option Space} (hs : Tables pgsize s)
    (hf : Flagged s) (hus : Listed s s.current us) (hms : Listed s target ms) :
    Flagged (s.switched us ms target) := by
  have hunmap := foldl_unmapMapped us s
  have hmap := foldl_mapped ms (us.foldl State.unmapMapped s)
  intro b q ho
  have ho' : s.Owned b q := (hunmap.flags.trans hmap.flags).owned.mp ho
  have hisMapped : ((s.switched us ms target).node q).isMapped =
      if q ∈ ms then true else if q ∈ us then false else (s.node q).isMapped :=
    (hmap.isMapped q).trans (by rw [hunmap.isMapped q])
  rw [hisMapped]
  have hmem : ∀ {o l}, Listed s o l → (q ∈ l ↔ o = some b) := fun hl => by
    rw [hl.mem q]
    constructor
    · rintro ⟨c, rfl, hc⟩
      rw [hs.disjoint c b q hc ho']
    · exact fun he => ⟨b, he, ho'⟩
  by_cases htarget : target = some b
  · rw [if_pos ((hmem hms).mpr htarget)]
    exact (decide_eq_true htarget).symm
  · rw [if_neg fun hq => htarget ((hmem hms).mp hq)]
    have hgoal : (if q ∈ us then false else (s.node q).isMapped) = false := by
      split_ifs with hq
      · rfl
      · rw [hf b q ho']
        exact decide_eq_false fun hc => hq ((hmem hus).mpr hc)
    exact hgoal.trans (decide_eq_false htarget).symm

theorem switched_pmem {us ms : List Ptr} {target : Option Space} (hf : Flagged s)
    (hus : Listed s s.current us) :
    (s.switched us ms target).pmem =
      s.pmem ++ (us.map fun p => (s.node p).va).map PmemCall.unmap ++
        (ms.map fun p => (s.node p).mapping).map Mapping.call := by
  have hmapped : ∀ p ∈ us, (s.node p).isMapped = true := fun p hp => by
    obtain ⟨a, ha, ho⟩ := (hus.mem p).mp hp
    rw [hf a p ho]
    exact decide_eq_true ha
  have hflags := (foldl_unmapMapped us s).flags
  refine (foldl_mapped_pmem ms _).trans ?_
  rw [foldl_unmapMapped_pmem hus.linked.nodup hmapped, List.map_map, List.map_map]
  congr 1
  exact List.map_congr_left fun q _ => by rw [hflags.mapping q]; rfl

end Step

variable {pgsize : ℕ} {host : Host pgsize} {ops : List Op} {s : State}

theorem Reaches.inv (h : Reaches host ops s) :
    Tables pgsize s ∧ ∀ a, ListInv s a (callsOn a ops) := by
  induction h with
  | start node => exact ⟨tables_start pgsize node, listInv_start node⟩
  | map a m _ hstep ih =>
    obtain ⟨hs, hinv⟩ := ih
    obtain ⟨p, hp⟩ := map_spec hstep
    refine ⟨hp.tables hs, fun b => ?_⟩
    rw [callsOn_map]
    split_ifs with hb
    · subst hb
      exact hp.listInv hs (hinv a)
    · exact hp.listInv_other hs (Ne.symm hb) (hinv b)
  | switch target fuel _ hstep ih =>
    have hflags := amSwitch_flags hstep
    refine ⟨hflags.tables ih.1, fun b => ?_⟩
    rw [callsOn_switch]
    exact hflags.listInv (ih.2 b)

/-- No address is mapped twice in one space. -/
def Once (ops : List Op) : Prop := ∀ a, (vas (callsOn a ops)).Nodup

theorem Once.init {op : Op} (h : Once (ops ++ [op])) : Once ops := by
  intro a
  have ha := h a
  rw [callsOn, List.filterMap_append, vas_append] at ha
  exact ha.of_append_left

theorem Reaches.spells (h : Reaches host ops s) (honce : Once ops) (a : Space) :
    Spells s a (callsOn a ops) := by
  rcases h.inv.2 a with ⟨-, hspells⟩ | ⟨hdup, -⟩
  · exact hspells
  · exact absurd (honce a) hdup

theorem Reaches.listed (h : Reaches host ops s) (honce : Once ops) (o : Option Space) :
    ∃ l, Listed s o l ∧
      (l.map fun p => (s.node p).mapping) =
        match o with
        | some a => (callsOn a ops).reverse
        | none => [] := by
  cases o with
  | none => exact ⟨[], ⟨rfl, fun p => by simp⟩, rfl⟩
  | some a =>
    obtain ⟨l, hl, hmap, -, hmem⟩ := h.spells honce a
    refine ⟨l, ⟨hl, fun p => (hmem p).trans ?_⟩, hmap⟩
    simp

theorem Reaches.flagged (h : Reaches host ops s) (honce : Once ops) : Flagged s := by
  induction h with
  | start node =>
    rintro a p ⟨k, hk⟩
    cases hk
  | map a m h hstep ih =>
    obtain ⟨p, hp⟩ := map_spec hstep
    exact hp.flagged h.inv.1 (ih honce.init)
  | @switch ops s s' target fuel h hstep ih =>
    have hf := ih honce.init
    by_cases htarget : target = s.current
    · rw [amSwitch, if_pos htarget] at hstep
      cases hstep
      exact hf
    · obtain ⟨us, hus, -⟩ := h.listed honce.init s.current
      obtain ⟨ms, hms, -⟩ := h.listed honce.init target
      rw [amSwitch_listed h.inv.1 hus hms htarget (accepts_of_amSwitch htarget hms hstep)] at hstep
      split_ifs at hstep
      cases hstep
      exact switched_flagged h.inv.1 hf hus hms

/-- The host has taken every page of the current space. -/
theorem Reaches.accepts (h : Reaches host ops s) (honce : Once ops) {a : Space}
    (hcur : s.current = some a) : ∀ m ∈ callsOn a ops, host.accepts m = true := by
  induction h with
  | start node => cases hcur
  | map b m h hstep ih =>
    obtain ⟨p, hp⟩ := map_spec hstep
    rw [hp.current] at hcur
    have hold := ih honce.init hcur
    rw [callsOn_map]
    split_ifs with hb
    · intro m' hm'
      rcases List.mem_append.mp hm' with hm' | hm'
      · exact hold m' hm'
      · rw [List.mem_singleton.mp hm']
        exact hp.accepted (hb ▸ hcur)
    · exact hold
  | @switch ops s s' target fuel h hstep ih =>
    rw [callsOn_switch]
    by_cases htarget : target = s.current
    · rw [amSwitch, if_pos htarget] at hstep
      cases hstep
      exact ih honce.init hcur
    · obtain ⟨ms, hms, hmap⟩ := h.listed honce.init target
      have hacc := accepts_of_amSwitch htarget hms hstep
      rw [(amSwitch_current hstep).symm.trans hcur] at hmap
      change ms.map _ = (callsOn a ops).reverse at hmap
      intro m hm
      obtain ⟨p, hp, rfl⟩ := List.mem_map.mp (hmap ▸ List.mem_reverse.mpr hm)
      exact hacc p hp

theorem Reaches.spaceOk (h : Reaches host ops s) (honce : Once ops) (a : Space) :
    SpaceOk s a (callsOn a ops) := by
  obtain ⟨l, hl, hmap, hnr, -⟩ := h.spells honce a
  have hvas : (l.map fun p => (s.node p).va) = (vas (callsOn a ops)).reverse := by
    rw [vas, ← List.map_reverse, ← hmap, List.map_map]
    rfl
  refine ⟨l, hl, ?_, fun va => ?_, fun p hp => ?_, hnr⟩
  · rw [hvas]
    exact List.nodup_reverse.mpr (honce a)
  · rw [hvas, List.mem_reverse]
  · refine (latest_eq_some_iff (honce a) _ _).mpr ⟨?_, rfl⟩
    rw [← List.mem_reverse, ← hmap]
    exact List.mem_map_of_mem hp

theorem Reaches.switchOk (h : Reaches host ops s) (honce : Once ops)
    (hacc : ∀ a, ∀ m ∈ callsOn a ops, host.accepts m = true) (target : Option Space) :
    SwitchOk host s ops target := by
  by_cases htarget : target = s.current
  · refine ⟨0, s, [], [], by rw [amSwitch, if_pos htarget], htarget.symm, by simp, List.nodup_nil,
      List.nodup_nil, ?_, ?_⟩ <;> simp [htarget]
  obtain ⟨us, hus, husmap⟩ := h.listed honce s.current
  obtain ⟨ms, hms, hmsmap⟩ := h.listed honce target
  have husvas : (us.map fun p => (s.node p).va) =
      vas (us.map fun p => (s.node p).mapping) := by
    rw [vas, List.map_map]
    rfl
  refine ⟨max us.length ms.length, s.switched us ms target, us.map fun p => (s.node p).va,
    ms.map fun p => (s.node p).mapping, ?_, rfl, switched_pmem (h.flagged honce) hus, ?_, ?_, ?_, ?_⟩
  · have hms' : ∀ p ∈ ms, host.accepts (s.node p).mapping = true := by
      intro p hp
      have hm := hmsmap ▸ List.mem_map_of_mem (f := fun p => (s.node p).mapping) hp
      cases target with
      | none => exact (List.not_mem_nil hm).elim
      | some b => exact hacc b _ (List.mem_reverse.mp hm)
    rw [amSwitch_listed h.inv.1 hus hms htarget hms']
    exact if_pos ⟨le_max_left _ _, le_max_right _ _⟩
  · rw [husvas, husmap]
    cases s.current with
    | none => exact List.nodup_nil
    | some a => simpa [vas] using honce a
  · rw [hmsmap]
    cases target with
    | none => exact List.nodup_nil
    | some b => simpa [vas] using honce b
  · intro va
    rw [husvas, husmap]
    cases hcur : s.current with
    | none => simp [vas]
    | some a =>
      have hne : some a ≠ target := fun he => htarget (he.symm.trans hcur.symm)
      simp [vas, hne]
  · intro m
    rw [hmsmap]
    cases target with
    | none => simp
    | some b => simp [latest_eq_some_iff (honce b), Ne.symm htarget]

/-- The lists and the switches are right exactly while no space maps an address twice and the
host takes every page. -/
theorem native_lists_ok_iff (h : Reaches host ops s) :
    ((∀ a, SpaceOk s a (callsOn a ops)) ∧ ∀ target, SwitchOk host s ops target) ↔
      (∀ a, ((callsOn a ops).map Mapping.va).Nodup) ∧
        ∀ a, ∀ m ∈ callsOn a ops, host.accepts m = true := by
  constructor
  · rintro ⟨hspace, hswitch⟩
    have honce : Once ops := fun a => by
      obtain ⟨l, hl, -⟩ := (hspace a).list
      rcases h.inv.2 a with ⟨hnodup, -⟩ | ⟨-, hcyc⟩
      · exact hnodup
      · exact absurd hl hcyc.not_linked
    refine ⟨honce, fun a m hm => ?_⟩
    by_cases hcur : s.current = some a
    · exact h.accepts honce hcur m hm
    · obtain ⟨fuel, s', -, -, hrun, -⟩ := hswitch (some a)
      obtain ⟨ms, hms, hmap⟩ := h.listed honce (some a)
      change ms.map _ = (callsOn a ops).reverse at hmap
      obtain ⟨p, hp, rfl⟩ := List.mem_map.mp (hmap ▸ List.mem_reverse.mpr hm)
      exact accepts_of_amSwitch (Ne.symm hcur) hms hrun p hp
  · rintro ⟨honce, hacc⟩
    exact ⟨h.spaceOk honce, h.switchOk honce hacc⟩

/-- `mmap` wants a page of the file, and `munmap` an address that is aligned. -/
def linuxHost : Host 4096 where
  mmap va _ off := va.toNat % 4096 == 0 && off.toNat % 4096 == 0 && off.toNat < 2 ^ 63
  munmap va := va.toNat % 4096 == 0
  munmap_page _ _ h := beq_iff_eq.mpr h

theorem Reaches.map_ok {a : Space} {m : Mapping} (h : Reaches host ops s)
    (huser : inUserSpace m.va = true) (hva : m.va.toNat % pgsize = 0)
    (hpa : m.pa.toNat % pgsize = 0) (hcur : s.current = none) :
    ∃ s', Reaches host (ops ++ [.map a m]) s' ∧ s'.current = none := by
  obtain ⟨s', hs'⟩ : ∃ s', Native.map host a m.va m.pa m.prot s = .ok s' := by
    have hother : (findOrEnter a m.va s).2.current ≠ some a := by
      rw [(findOrEnter_spec a m.va s).rest.1, hcur]
      exact (Option.some_ne_none a).symm
    rw [Native.map, huser, hva, hpa]
    exact ⟨_, if_neg hother⟩
  obtain ⟨p, hp⟩ := map_spec hs'
  exact ⟨s', .map a m h hs', hp.current.trans hcur⟩

/-- Two pages in one space. -/
theorem native_lists_ok_two_pages :
    ∃ s, Reaches linuxHost [.map 0 ⟨0x40000000, 0x1000000, 3⟩, .map 0 ⟨0x40001000, 0x1001000, 1⟩] s ∧
      (∀ a, SpaceOk s a
        (callsOn a [.map 0 ⟨0x40000000, 0x1000000, 3⟩, .map 0 ⟨0x40001000, 0x1001000, 1⟩])) ∧
      ∀ target, SwitchOk linuxHost s
        [.map 0 ⟨0x40000000, 0x1000000, 3⟩, .map 0 ⟨0x40001000, 0x1001000, 1⟩] target := by
  have h₀ : Reaches linuxHost [] _ := .start fun _ => ⟨0, 0, none, 0, false, ""⟩
  obtain ⟨s₁, h₁, hcur⟩ := h₀.map_ok (a := 0) (m := ⟨0x40000000, 0x1000000, 3⟩)
    (by decide) (by decide) (by decide) rfl
  obtain ⟨s₂, h₂, -⟩ := h₁.map_ok (a := 0) (m := ⟨0x40001000, 0x1001000, 1⟩)
    (by decide) (by decide) (by decide) hcur
  refine ⟨s₂, h₂, (native_lists_ok_iff h₂).mpr ⟨fun a => ?_, fun a m hm => ?_⟩⟩
  · by_cases ha : 0 = a <;> simp [callsOn, Op.callOn, ha]
  · by_cases ha : 0 = a
    · subst ha
      rcases List.mem_pair.mp hm with rfl | rfl <;> decide
    · simp [callsOn, Op.callOn, ha] at hm

/-- An address is mapped again: its node is pushed on the list it is on, and neither the
list nor a switch to the space ends. -/
theorem remap_never_ends :
    ∃ s, Reaches linuxHost
        [.map 0 ⟨0x40000000, 0x1000000, 3⟩, .map 0 ⟨0x40000000, 0x1001000, 3⟩] s ∧
      ¬ SpaceOk s 0
        (callsOn 0 [.map 0 ⟨0x40000000, 0x1000000, 3⟩, .map 0 ⟨0x40000000, 0x1001000, 3⟩]) ∧
      ¬ SwitchOk linuxHost s
        [.map 0 ⟨0x40000000, 0x1000000, 3⟩, .map 0 ⟨0x40000000, 0x1001000, 3⟩] (some 0) := by
  have h₀ : Reaches linuxHost [] _ := .start fun _ => ⟨0, 0, none, 0, false, ""⟩
  obtain ⟨s₁, h₁, hcur₁⟩ := h₀.map_ok (a := 0) (m := ⟨0x40000000, 0x1000000, 3⟩)
    (by decide) (by decide) (by decide) rfl
  obtain ⟨s₂, h₂, hcur₂⟩ := h₁.map_ok (a := 0) (m := ⟨0x40000000, 0x1001000, 3⟩)
    (by decide) (by decide) (by decide) hcur₁
  have hendless : ∀ l, ¬ Linked s₂.next (s₂.vmHead 0).head l := by
    intro l
    rcases h₂.inv.2 0 with ⟨hnodup, -⟩ | ⟨-, hcyc⟩
    · exact absurd hnodup (by simp [callsOn, Op.callOn, vas])
    · exact hcyc.not_linked
  refine ⟨s₂, h₂, fun hok => ?_, ?_⟩
  · obtain ⟨l, hl, -⟩ := hok.list
    exact hendless l hl
  · rintro ⟨fuel, s', us, ms, hrun, -⟩
    have hne : some 0 ≠ s₂.current := by
      rw [hcur₂]
      exact Option.some_ne_none 0
    obtain ⟨l, hl⟩ := linked_of_amSwitch hne hrun
    exact hendless l hl

end Ysyx.Am.Native
