import Ysyx.Am.VmeNative

/-! The lists of the native address spaces over whole runs. Each successful call
pushes one node: as long as a space maps no address twice its list spells its
calls, newest first; the second call for an address pushes a node that is on the
list already, and from then on the list never ends. -/

namespace Ysyx.Am.Native

open Chain

structure Mapping where
  va : Addr
  pa : Addr
  prot : BitVec 32
  deriving DecidableEq, Repr

def Mapping.call (m : Mapping) : PmemCall := .map m.va m.pa m.prot

def PageMap.mapping (n : PageMap) : Mapping := ⟨n.va, n.pa, n.prot⟩

def State.next (s : State) (p : Ptr) : Option Ptr := (s.node p).next

/-- The host takes the page. -/
def Host.accepts {pgsize : ℕ} (host : Host pgsize) (m : Mapping) : Bool :=
  host.mmap m.va (mmapProt m.prot) (m.pa - PMEM_START)

def State.mapped (s : State) (p : Ptr) : State :=
  { s.setMapped p true with pmem := s.pmem ++ [(s.node p).mapping.call] }

def State.unmapped (s : State) (p : Ptr) : State :=
  { s.setMapped p false with pmem := s.pmem ++ [.unmap (s.node p).va] }

section Pages

variable {pgsize : ℕ} {host : Host pgsize} {s s' : State} {p : Ptr}

theorem amPmemMap_eq (m : Mapping) :
    amPmemMap host m.va m.pa m.prot s =
      if host.accepts m then .ok { s with pmem := s.pmem ++ [m.call] } else .error .assertion := rfl

theorem mapPage_eq_ok :
    s.mapPage host p = .ok s' ↔ host.accepts (s.node p).mapping = true ∧ s' = s.mapped p := by
  unfold State.mapPage
  rw [show amPmemMap host (s.node p).va (s.node p).pa (s.node p).prot s = _ from
    amPmemMap_eq (s.node p).mapping]
  by_cases h : host.accepts (s.node p).mapping = true
  · rw [if_pos h]
    exact ⟨fun hr => ⟨h, (Except.ok.inj hr).symm⟩, fun hr => congrArg Except.ok hr.2.symm⟩
  · rw [if_neg h]
    exact ⟨fun hr => (nomatch hr), fun hr => absurd hr.1 h⟩

theorem unmapPage_eq_ok :
    s.unmapPage host p = .ok s' ↔ host.munmap (s.node p).va = true ∧ s' = s.unmapped p := by
  unfold State.unmapPage amPmemUnmap
  by_cases h : host.munmap (s.node p).va = true
  · rw [if_pos h]
    exact ⟨fun hr => ⟨h, (Except.ok.inj hr).symm⟩, fun hr => congrArg Except.ok hr.2.symm⟩
  · rw [if_neg h]
    exact ⟨fun hr => (nomatch hr), fun hr => absurd hr.1 h⟩

end Pages

theorem digitChar_inj : ∀ m < 16, ∀ n < 16, Nat.digitChar m = Nat.digitChar n → m = n := by
  decide

theorem map_digitChar_inj {ds ds' : List ℕ} (h : ∀ d ∈ ds, d < 16) (h' : ∀ d ∈ ds', d < 16)
    (heq : ds.map Nat.digitChar = ds'.map Nat.digitChar) : ds = ds' := by
  induction ds generalizing ds' with
  | nil => exact (List.map_eq_nil_iff.mp heq.symm).symm
  | cons d ds ih =>
    cases ds' with
    | nil => cases heq
    | cons d' ds' =>
      obtain ⟨hd, htail⟩ := List.cons.inj heq
      rw [digitChar_inj d (h d List.mem_cons_self) d' (h' d' List.mem_cons_self) hd,
        ih (fun x hx => h x (List.mem_cons_of_mem d hx))
          (fun x hx => h' x (List.mem_cons_of_mem d' hx)) htail]

theorem hexKey_eq {va : Addr} (h : inUserSpace va = true) :
    hexKey va = String.ofList ((Nat.digits 16 va.toNat).map Nat.digitChar).reverse := by
  rw [inUserSpace, Bool.and_eq_true, decide_eq_true_eq, decide_eq_true_eq, USER_START,
    USER_END] at h
  have hlow : (va.setWidth 32).toNat = va.toNat := by
    rw [BitVec.toNat_setWidth]
    exact Nat.mod_eq_of_lt (by omega)
  have hne : Nat.digits 16 va.toNat ≠ [] := Nat.digits_ne_nil_iff_ne_zero.mpr (by omega)
  simp only [hexKey, hlow, List.isEmpty_iff, if_neg hne]

theorem hexKey_inj {va va' : Addr} (h : inUserSpace va = true) (h' : inUserSpace va' = true)
    (heq : hexKey va = hexKey va') : va = va' := by
  rw [hexKey_eq h, hexKey_eq h', String.ofList_inj, List.reverse_inj] at heq
  have hdigits : Nat.digits 16 va.toNat = Nat.digits 16 va'.toNat :=
    map_digitChar_inj (fun _ hd => Nat.digits_lt_base (by decide) hd)
      (fun _ hd => Nat.digits_lt_base (by decide) hd) heq
  exact BitVec.eq_of_toNat_eq (Nat.digits_inj_iff.mp hdigits)

/-- What a call of `map` does: it takes the node of `va`, or a new one, and pushes it. -/
structure MapStep {pgsize : ℕ} (host : Host pgsize) (s s' : State) (a : Space) (m : Mapping)
    (p : Ptr) : Prop where
  user : inUserSpace m.va = true
  page : m.va.toNat % pgsize = 0
  accepted : s.current = some a → host.accepts m = true
  lookup :
    ((s.vmHead a).hash (hexKey m.va) = some p ∧ s'.nrAlloc = s.nrAlloc ∧
      s'.vmHead a = { s.vmHead a with head := some p }) ∨
    ((s.vmHead a).hash (hexKey m.va) = none ∧ p = s.nrAlloc ∧ s'.nrAlloc = s.nrAlloc + 1 ∧
      s'.vmHead a = ⟨some p, Function.update (s.vmHead a).hash (hexKey m.va) (some p),
        (s.vmHead a).nrPage + 1⟩)
  mapping : (s'.node p).mapping = m
  next : s'.next = Function.update s.next p (s.vmHead a).head
  isMapped : (s'.node p).isMapped = decide (s.current = some a)
  node : ∀ q ≠ p, s'.node q = s.node q
  vmHead : ∀ b ≠ a, s'.vmHead b = s.vmHead b
  current : s'.current = s.current
  pmem : s'.pmem = s.pmem ++ if s.current = some a then [m.call] else []

/-- What the last part of `map` does. -/
structure Pushed {pgsize : ℕ} (host : Host pgsize) (s s' : State) (a : Space) (m : Mapping)
    (p : Ptr) : Prop where
  accepted : s.current = some a → host.accepts m = true
  node : ∀ q ≠ p, s'.node q = s.node q
  self : s'.node p =
    { s.node p with
      va := m.va, pa := m.pa, prot := m.prot, next := (s.vmHead a).head
      isMapped := decide (s.current = some a) }
  vmHead : s'.vmHead = Function.update s.vmHead a { s.vmHead a with head := some p }
  nrAlloc : s'.nrAlloc = s.nrAlloc
  current : s'.current = s.current
  pmem : s'.pmem = s.pmem ++ if s.current = some a then [m.call] else []

theorem pushNode_spec {pgsize : ℕ} {host : Host pgsize} {a : Space} {p : Ptr} {m : Mapping}
    {s s' : State} (h : pushNode host a p m.va m.pa m.prot s = .ok s') : Pushed host s s' a m p := by
  unfold pushNode at h
  dsimp only at h
  split_ifs at h with hc
  · obtain ⟨hacc, rfl⟩ := mapPage_eq_ok.mp h
    simp only [State.setHead, State.setNode, Function.update_self] at hacc
    refine ⟨fun _ => hacc, fun q hq => ?_, ?_, rfl, rfl, rfl, ?_⟩
    · simp [State.mapped, State.setMapped, State.setHead, State.setNode, hq]
    · simp [State.mapped, State.setMapped, State.setHead, State.setNode, show s.current = some a from hc]
    · simp [State.mapped, State.setMapped, State.setHead, State.setNode, show s.current = some a from hc,
        PageMap.mapping, Mapping.call]
  · cases h
    have hc : ¬ s.current = some a := hc
    refine ⟨fun h => absurd h hc, fun q hq => ?_, ?_, rfl, rfl, rfl, ?_⟩
    · simp [State.setHead, State.setNode, hq]
    · simp [State.setHead, State.setNode, hc]
    · simp [State.setHead, State.setNode, hc]

/-- What the search in the table leaves: the state as it was, or a new node entered. -/
structure Entered (s s₁ : State) (a : Space) (va : Addr) (p : Ptr) : Prop where
  lookup :
    ((s.vmHead a).hash (hexKey va) = some p ∧ s₁ = s) ∨
    ((s.vmHead a).hash (hexKey va) = none ∧ p = s.nrAlloc ∧ s₁.nrAlloc = s.nrAlloc + 1 ∧
      s₁.vmHead a = ⟨(s.vmHead a).head,
        Function.update (s.vmHead a).hash (hexKey va) (some p), (s.vmHead a).nrPage + 1⟩)
  node : ∀ q ≠ p, s₁.node q = s.node q
  vmHead : ∀ b ≠ a, s₁.vmHead b = s.vmHead b
  head : (s₁.vmHead a).head = (s.vmHead a).head
  rest : s₁.current = s.current ∧ s₁.pmem = s.pmem

theorem findOrEnter_spec (a : Space) (va : Addr) (s : State) :
    Entered s (findOrEnter a va s).2 a va (findOrEnter a va s).1 := by
  cases hfind : (s.vmHead a).hash (hexKey va) with
  | some p =>
    rw [show findOrEnter a va s = (p, s) by simp only [findOrEnter, hfind]]
    exact ⟨.inl ⟨hfind, rfl⟩, fun _ _ => rfl, fun _ _ => rfl, rfl, rfl, rfl⟩
  | none =>
    simp only [findOrEnter, hfind]
    refine ⟨.inr ⟨hfind, rfl, rfl, ?_⟩, fun q hq => ?_, fun b hb => ?_, ?_, rfl, rfl⟩
    · simp [State.setHead, enter, hfind]
    · simp [State.setHead, State.setNode, hq]
    · simp [State.setHead, State.setNode, hb]
    · simp [State.setHead]

theorem map_spec {pgsize : ℕ} {host : Host pgsize} {a : Space} {m : Mapping} {s s' : State}
    (h : map host a m.va m.pa m.prot s = .ok s') : ∃ p, MapStep host s s' a m p := by
  unfold map at h
  split_ifs at h with hguard
  simp only [Bool.and_eq_true, beq_iff_eq] at hguard
  obtain ⟨p, s₁, hfe⟩ : ∃ p s₁, findOrEnter a m.va s = (p, s₁) := ⟨_, _, rfl⟩
  have hspec := findOrEnter_spec a m.va s
  rw [hfe] at h hspec
  obtain ⟨hlookup, hnode, hother, hhead, hcur, hpmem⟩ := hspec
  have hpush := pushNode_spec h
  refine ⟨p, hguard.1.1, hguard.1.2, by rw [← hcur]; exact hpush.accepted, ?_,
    by rw [hpush.self]; rfl, ?_, by rw [hpush.self, hcur],
    fun q hq => (hpush.node q hq).trans (hnode q hq), fun b hb => ?_, hpush.current.trans hcur, ?_⟩
  · rcases hlookup with ⟨hfind, rfl⟩ | ⟨hfind, hp, halloc, hentered⟩
    · exact .inl ⟨hfind, hpush.nrAlloc, by rw [hpush.vmHead, Function.update_self]⟩
    · exact .inr ⟨hfind, hp, hpush.nrAlloc.trans halloc,
        by rw [hpush.vmHead, Function.update_self, hentered]⟩
  · funext q
    by_cases hq : q = p
    · rw [hq, Function.update_self, State.next, hpush.self, hhead]
    · rw [Function.update_of_ne hq, State.next, hpush.node q hq, hnode q hq]
      rfl
  · rw [hpush.vmHead, Function.update_of_ne hb, hother b hb]
  · rw [hpush.pmem, hpmem, hcur]

/-- What a switch leaves alone: everything but `is_mapped` and the host's pages. -/
structure FlagsOnly (s s' : State) : Prop where
  mapping : ∀ p, (s'.node p).mapping = (s.node p).mapping
  next : s'.next = s.next
  nrAlloc : s'.nrAlloc = s.nrAlloc
  vmHead : s'.vmHead = s.vmHead

theorem FlagsOnly.refl (s : State) : FlagsOnly s s := ⟨fun _ => rfl, rfl, rfl, rfl⟩

theorem FlagsOnly.trans {s s' s'' : State} (h : FlagsOnly s s') (h' : FlagsOnly s' s'') :
    FlagsOnly s s'' :=
  ⟨fun p => (h'.mapping p).trans (h.mapping p), h'.next.trans h.next,
    h'.nrAlloc.trans h.nrAlloc, h'.vmHead.trans h.vmHead⟩

def State.unmapMapped (s : State) (p : Ptr) : State :=
  if (s.node p).isMapped then s.unmapped p else s

theorem setMapped_flags (s : State) (p : Ptr) (b : Bool) : FlagsOnly s (s.setMapped p b) := by
  refine ⟨fun q => ?_, funext fun q => ?_, rfl, rfl⟩ <;>
    by_cases hq : q = p <;>
    simp [State.setMapped, State.setNode, State.next, PageMap.mapping, hq]

theorem mapped_flags (s : State) (p : Ptr) : FlagsOnly s (s.mapped p) := by
  obtain ⟨hmapping, hnext, halloc, hhead⟩ := setMapped_flags s p true
  exact ⟨hmapping, hnext, halloc, hhead⟩

theorem unmapMapped_flags (s : State) (p : Ptr) : FlagsOnly s (s.unmapMapped p) := by
  unfold State.unmapMapped
  split_ifs
  · obtain ⟨hmapping, hnext, halloc, hhead⟩ := setMapped_flags s p false
    exact ⟨hmapping, hnext, halloc, hhead⟩
  · exact .refl s

section Loops

variable {pgsize : ℕ} {host : Host pgsize} {n : ℕ} {h : Option Ptr} {s s' : State} {l : List Ptr}

theorem unmapIfMapped_eq {p : Ptr} (hr : s.unmapIfMapped host p = .ok s') :
    s' = s.unmapMapped p := by
  unfold State.unmapIfMapped at hr
  unfold State.unmapMapped
  split_ifs at hr ⊢
  · exact (unmapPage_eq_ok.mp hr).2
  · exact (Except.ok.inj hr).symm

theorem unmapIfMapped_ok {p : Ptr} (hp : host.munmap (s.node p).va = true) :
    s.unmapIfMapped host p = .ok (s.unmapMapped p) := by
  unfold State.unmapIfMapped State.unmapMapped
  split_ifs
  · exact unmapPage_eq_ok.mpr ⟨hp, rfl⟩
  · rfl

theorem unmapAll_flags (hr : unmapAll host n h s = .ok s') : FlagsOnly s s' := by
  induction n generalizing h s with
  | zero =>
    cases h with
    | none => cases hr; exact .refl _
    | some p => cases hr
  | succ n ih =>
    cases h with
    | none => cases hr; exact .refl _
    | some p =>
      obtain ⟨s₁, hstep, hr⟩ := bind_eq_ok.mp hr
      rw [unmapIfMapped_eq hstep] at hr
      exact (unmapMapped_flags s p).trans (ih hr)

theorem mapAll_step {p : Ptr} (hr : mapAll host (n + 1) (some p) s = .ok s') :
    host.accepts (s.node p).mapping = true ∧
      mapAll host n ((s.mapped p).next p) (s.mapped p) = .ok s' := by
  simp only [mapAll] at hr
  split_ifs at hr
  obtain ⟨s₁, hstep, hr⟩ := bind_eq_ok.mp hr
  obtain ⟨hacc, rfl⟩ := mapPage_eq_ok.mp hstep
  exact ⟨hacc, hr⟩

theorem mapAll_flags (hr : mapAll host n h s = .ok s') : FlagsOnly s s' := by
  induction n generalizing h s with
  | zero =>
    cases h with
    | none => cases hr; exact .refl _
    | some p => cases hr
  | succ n ih =>
    cases h with
    | none => cases hr; exact .refl _
    | some p => exact (mapped_flags s p).trans (ih (mapAll_step hr).2)

theorem unmapAll_linked (hl : Linked s.next h l)
    (hpage : ∀ p ∈ l, host.munmap (s.node p).va = true) (n : ℕ) :
    unmapAll host n h s =
      if l.length ≤ n then .ok (l.foldl State.unmapMapped s) else .error .fuel := by
  induction l generalizing n h s with
  | nil =>
    cases hl
    cases n <;> rfl
  | cons p l ih =>
    obtain ⟨rfl, htail⟩ := hl
    cases n with
    | zero => rfl
    | succ n =>
      have hflags := unmapMapped_flags s p
      rw [← hflags.next] at htail
      have hpage' : ∀ q ∈ l, host.munmap ((s.unmapMapped p).node q).va = true := fun q hq => by
        rw [show ((s.unmapMapped p).node q).va = (s.node q).va from
          congrArg Mapping.va (hflags.mapping q)]
        exact hpage q (List.mem_cons_of_mem p hq)
      simp only [unmapAll, unmapIfMapped_ok (hpage p List.mem_cons_self), bind, Except.bind,
        List.length_cons, Nat.add_le_add_iff_right, List.foldl_cons]
      exact ih htail hpage' n

/-- A node of the new space that the loop can map. -/
structure Mappable (host : Host pgsize) (m : Mapping) : Prop where
  user : inUserSpace m.va = true
  accepted : host.accepts m = true

theorem mapAll_linked (hl : Linked s.next h l)
    (hmap : ∀ p ∈ l, Mappable host (s.node p).mapping) (n : ℕ) :
    mapAll host n h s =
      if l.length ≤ n then .ok (l.foldl State.mapped s) else .error .fuel := by
  induction l generalizing n h s with
  | nil =>
    cases hl
    cases n <;> rfl
  | cons p l ih =>
    obtain ⟨rfl, htail⟩ := hl
    cases n with
    | zero => rfl
    | succ n =>
      have hflags := mapped_flags s p
      rw [← hflags.next] at htail
      have hmap' : ∀ q ∈ l, Mappable host ((s.mapped p).node q).mapping := fun q hq => by
        rw [hflags.mapping q]
        exact hmap q (List.mem_cons_of_mem p hq)
      obtain ⟨huser, hacc⟩ := hmap p List.mem_cons_self
      have hstep : s.mapPage host p = .ok (s.mapped p) := mapPage_eq_ok.mpr ⟨hacc, rfl⟩
      have huser : inUserSpace (s.node p).va = true := huser
      simp only [mapAll, huser, if_true, hstep, bind, Except.bind, List.length_cons,
        Nat.add_le_add_iff_right, List.foldl_cons]
      exact ih htail hmap' n

theorem linked_of_mapAll (hr : mapAll host n h s = .ok s') : ∃ l, Linked s.next h l := by
  induction n generalizing h s with
  | zero =>
    cases h with
    | none => exact ⟨[], rfl⟩
    | some p => cases hr
  | succ n ih =>
    cases h with
    | none => exact ⟨[], rfl⟩
    | some p =>
      obtain ⟨-, hr⟩ := mapAll_step hr
      obtain ⟨l, hl⟩ := ih hr
      have hnext := (mapped_flags s p).next
      refine ⟨p :: l, rfl, ?_⟩
      rw [← hnext]
      exact hl

/-- The loop over the new space returns only where the host has taken every page. -/
theorem accepts_of_mapAll (hl : Linked s.next h l) (hr : mapAll host n h s = .ok s') :
    ∀ p ∈ l, host.accepts (s.node p).mapping = true := by
  induction l generalizing n h s with
  | nil => exact fun p hp => (List.not_mem_nil hp).elim
  | cons p l ih =>
    obtain ⟨rfl, htail⟩ := hl
    cases n with
    | zero => cases hr
    | succ n =>
      obtain ⟨hacc, hr⟩ := mapAll_step hr
      have hflags := mapped_flags s p
      rw [← hflags.next] at htail
      intro q hq
      rcases List.mem_cons.mp hq with rfl | hq
      · exact hacc
      · rw [← hflags.mapping q]
        exact ih htail hr q hq

end Loops

structure SetFlags (l : List Ptr) (b : Bool) (s s' : State) : Prop where
  flags : FlagsOnly s s'
  isMapped : ∀ p, (s'.node p).isMapped = if p ∈ l then b else (s.node p).isMapped
  current : s'.current = s.current

theorem foldl_unmapMapped (l : List Ptr) (s : State) :
    SetFlags l false s (l.foldl State.unmapMapped s) := by
  induction l generalizing s with
  | nil => exact ⟨.refl s, fun p => by simp, rfl⟩
  | cons p l ih =>
    obtain ⟨hflags, hmapped, hcur⟩ := ih (s.unmapMapped p)
    refine ⟨(unmapMapped_flags s p).trans hflags, fun q => ?_, hcur.trans ?_⟩
    · rw [List.foldl_cons, hmapped q]
      by_cases hq : q = p <;> by_cases hp : (s.node p).isMapped <;>
        simp [State.unmapMapped, State.unmapped, State.setMapped, State.setNode, hq, hp]
    · unfold State.unmapMapped
      split_ifs <;> rfl

theorem foldl_mapped (l : List Ptr) (s : State) :
    SetFlags l true s (l.foldl State.mapped s) := by
  induction l generalizing s with
  | nil => exact ⟨.refl s, fun p => by simp, rfl⟩
  | cons p l ih =>
    obtain ⟨hflags, hmapped, hcur⟩ := ih (s.mapped p)
    refine ⟨(mapped_flags s p).trans hflags, fun q => ?_, hcur⟩
    rw [List.foldl_cons, hmapped q]
    by_cases hq : q = p <;> simp [State.mapped, State.setMapped, State.setNode, hq]

theorem foldl_unmapMapped_pmem {l : List Ptr} {s : State} (hl : l.Nodup)
    (hm : ∀ p ∈ l, (s.node p).isMapped = true) :
    (l.foldl State.unmapMapped s).pmem = s.pmem ++ l.map fun p => .unmap (s.node p).va := by
  induction l generalizing s with
  | nil => simp
  | cons p l ih =>
    obtain ⟨hp, hl⟩ := List.nodup_cons.mp hl
    have hstep : s.unmapMapped p = s.unmapped p := if_pos (hm p List.mem_cons_self)
    have hnode : ∀ q ∈ l, (s.unmapped p).node q = s.node q := fun q hq => by
      simp [State.unmapped, State.setMapped, State.setNode, ne_of_mem_of_not_mem hq hp]
    rw [List.foldl_cons, hstep, ih hl fun q hq => ?_]
    · rw [List.map_cons, List.map_congr_left fun q hq => by rw [hnode q hq]]
      simp [State.unmapped]
    · rw [hnode q hq]
      exact hm q (List.mem_cons_of_mem p hq)

theorem foldl_mapped_pmem (l : List Ptr) (s : State) :
    (l.foldl State.mapped s).pmem = s.pmem ++ l.map fun p => (s.node p).mapping.call := by
  induction l generalizing s with
  | nil => simp
  | cons p l ih =>
    rw [List.foldl_cons, ih, List.map_cons,
      List.map_congr_left fun q _ => by rw [(mapped_flags s p).mapping q]]
    simp [State.mapped, PageMap.mapping, Mapping.call]

end Ysyx.Am.Native
