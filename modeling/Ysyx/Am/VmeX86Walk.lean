import Ysyx.Am.VmeX86Tree

/-! What `ptwalk`, `map`, `protect` and `teardown` do to the forest of tables, and
what the walk of the processor finds in it. -/

namespace Ysyx.Am.X86

open Tables

/-- The indices that a walk uses, one a level. -/
def pathOf (va : Addr) : List ℕ := pgtables.tail.map (indexof va)

section Walks

variable {boot : Addr → Addr} {pg : PageAlloc} {s s' : State} {f f' f'' : Places Space ℕ Addr}
  {m : Space → List ℕ → Option Leaf} {a : Space} {p : List ℕ} {b : Addr} {va : Addr}

/-- New tables belong to one space; the pages of the space are the old and the new ones. -/
structure Grown (a : Space) (f f' : Places Space ℕ Addr) (s s' : State) : Prop where
  others : ∀ k ≠ a, f' k = f k
  root : ∀ b, f a [] = some b → f' a [] = some b
  pages : ∃ new, s'.alloc = s.alloc ++ new ∧ ∀ x, Has f' a x ↔ Has f a x ∨ x ∈ new

theorem Grown.refl (a : Space) (f : Places Space ℕ Addr) (h : s'.alloc = s.alloc) :
    Grown a f f s s' :=
  ⟨fun _ _ => rfl, fun _ h => h, [], by rw [h, List.append_nil], by simp⟩

theorem Grown.trans {s'' : State} (h : Grown a f f' s s') (h' : Grown a f' f'' s' s'') :
    Grown a f f'' s s'' := by
  obtain ⟨new, halloc, hhas⟩ := h.pages
  obtain ⟨new', halloc', hhas'⟩ := h'.pages
  refine ⟨fun k hk => (h'.others k hk).trans (h.others k hk), fun b hb => h'.root b (h.root b hb),
    new ++ new', ?_, fun x => ?_⟩
  · rw [halloc', halloc, List.append_assoc]
  · rw [hhas', hhas, List.mem_append, or_assoc]

theorem indexof_lt {info : PtInfo} (h : info ∈ pgtables.tail) (va : Addr) :
    indexof va info < 512 := by
  have hmask : info.mask = 511#64 <<< info.shift ∧ info.shift ≤ 55 := by
    have hall : ∀ info ∈ pgtables.tail, info.mask = 511#64 <<< info.shift ∧ info.shift ≤ 55 := by
      decide
    exact hall info h
  rw [indexof_eq va hmask.1 hmask.2]
  exact Nat.mod_lt _ (by norm_num)

/-- From a table on, a walk ends at the last table of the path, growing the tree at need. -/
theorem ptwalk_page (hs : Rep boot s f m) (hb : f a p = some b) {info : PtInfo}
    {rest : List PtInfo} (hlen : p.length + rest.length = 3)
    (hinfos : ∀ i ∈ info :: rest, i ∈ pgtables.tail) (huser : p = [] → indexof va info ≠ 0)
    {pt : Table} {index : ℕ}
    (h : ptwalk pg va (PTE_W ||| PTE_U) (info :: rest) (.page b) s = some ((pt, index), s')) :
    ∃ f' q b', Rep boot s' f' m ∧ Grown a f f' s s' ∧ pt = .page b' ∧ f' a q = some b' ∧
      index < 512 ∧ q ++ [index] = p ++ (info :: rest).map (indexof va) := by
  induction rest generalizing info p b s f with
  | nil =>
    simp only [ptwalk, Option.some.injEq, Prod.mk.injEq] at h
    obtain ⟨⟨rfl, rfl⟩, rfl⟩ := h
    exact ⟨f, p, b, hs, .refl a f rfl, rfl, hb, indexof_lt (hinfos info List.mem_cons_self) va, rfl⟩
  | cons info' rest ih =>
    have hi : indexof va info < 512 := indexof_lt (hinfos info List.mem_cons_self) va
    have hp : p.length < 3 := by
      rw [List.length_cons] at hlen
      omega
    have hentry := hs.table a p b _ hb hp hi
    rw [if_neg fun he => huser he.1 he.2] at hentry
    have hlen' : (p ++ [indexof va info]).length + rest.length = 3 := by
      rw [List.length_append, List.length_singleton]
      rw [List.length_cons] at hlen
      omega
    have hinfos' : ∀ i ∈ info' :: rest, i ∈ pgtables.tail := fun i hi =>
      hinfos i (List.mem_cons_of_mem info hi)
    have hne : p ++ [indexof va info] ≠ [] :=
      List.append_ne_nil_of_right_ne_nil _ (List.cons_ne_nil _ _)
    have hassoc : p ++ [indexof va info] ++ (info' :: rest).map (indexof va) =
        p ++ (info :: info' :: rest).map (indexof va) := List.append_assoc _ _ _
    simp only [ptwalk, State.read, hentry] at h
    cases hnext : f a (p ++ [indexof va info]) with
    | none =>
      rw [hnext, if_pos (by decide)] at h
      obtain ⟨⟨c, s₁⟩, hpg, h⟩ := Option.bind_eq_some_iff.mp h
      obtain ⟨hs₁, hc⟩ := hs.pgallocz hpg
      have hgraft := hs₁.graft hb hp hi (fun he => huser he.1 he.2) hnext hc
      have hgrown : Grown a f (Tables.graft f a p (indexof va info) c) s
          (s₁.write (.page b) (indexof va info) (tableWord (some c))) := by
        refine ⟨fun k hk => graft_of_ne f c hk, fun b₀ hb₀ => ?_, [c], ?_, fun x => ?_⟩
        · rw [graft_of_path_ne f c hne.symm, hb₀]
        · exact (pgallocz_spec hpg).2.2.1
        · rw [has_graft hnext, List.mem_singleton]
          exact or_congr_right (and_iff_right rfl)
      obtain ⟨f', q, b', hs', hgrown', hpt, hb', hindex, hq⟩ :=
        ih hgraft (graft_self f a p _ c) hlen' hinfos' (fun he => absurd he hne) h
      exact ⟨f', q, b', hs', hgrown.trans hgrown', hpt, hb', hindex, hq.trans hassoc⟩
    | some c =>
      obtain ⟨hbase, hpresent, -⟩ := tableWord_some (hs.aligned hnext)
      rw [hnext, if_neg hpresent, hbase] at h
      obtain ⟨f', q, b', hs', hgrown, hpt, hb', hindex, hq⟩ :=
        ih hs hnext hlen' hinfos' (fun he => absurd he hne) h
      exact ⟨f', q, b', hs', hgrown, hpt, hb', hindex, hq.trans hassoc⟩

/-- A page of the user area. -/
structure UserPage (va : Addr) : Prop where
  area : uvmArea.has va = true
  aligned : baseof va = va

theorem indexof_user {va : Addr} (h : uvmArea.has va = true) : indexof va PML4 = 32 := by
  rw [indexof_eq va rfl (by decide)]
  rw [VmArea.has, Bool.and_eq_true, decide_eq_true_eq, decide_eq_true_eq] at h
  have hlo : uvmArea.start.toNat = 0x100000000000 := rfl
  have hhi : uvmArea.stop.toNat = 0x108000000000 := rfl
  change va.toNat / 2 ^ 39 % 512 = 32
  omega

theorem ptwalk_root (hs : Rep boot s f m) (hb : f a [] = some b)
    (huser : uvmArea.has va = true) {pt : Table} {index : ℕ}
    (h : ptwalk pg va (PTE_W ||| PTE_U) pgtables (.root a) s = some ((pt, index), s')) :
    ∃ f' q b', Rep boot s' f' m ∧ Grown a f f' s s' ∧ pt = .page b' ∧ f' a q = some b' ∧
      index < 512 ∧ q.length = 3 ∧ q ++ [index] = pathOf va := by
  obtain ⟨hbase, hpresent, -⟩ := rootWord_some (hs.aligned hb)
  have hread : s.ptr a = b ||| PTE_P ||| PTE_U := hs.ptr a b hb
  simp only [pgtables, ptwalk, State.read, hread] at h
  rw [if_neg hpresent, hbase] at h
  obtain ⟨f', q, b', hs', hgrown, hpt, hb', hindex, hq⟩ :=
    ptwalk_page hs hb rfl (fun i hi => hi) (fun _ => by rw [indexof_user huser]; decide) h
  have hlen := congrArg List.length hq
  rw [List.length_append, List.length_append, List.length_map] at hlen
  exact ⟨f', q, b', hs', hgrown, hpt, hb', hindex, by simpa using hlen, hq⟩

/-- A call writes what its page is to hold, whatever was there before. -/
theorem mapEntry_eq {pa : Addr} {prot : BitVec 32} {e e' : Addr}
    (h : mapEntry pa prot e = some e') : e' = leafWord (some (pa, prot)) := by
  simp only [mapEntry] at h
  simp only [leafWord]
  split_ifs at h ⊢ with hprot hpresent <;> exact (Option.some.inj h).symm

theorem Rep.map {pa : Addr} {prot : BitVec 32} (hs : Rep boot s f m) (hb : f a [] = some b)
    (h : map pg a va pa prot s = some s') :
    UserPage va ∧ baseof pa = pa ∧ ∃ f',
      Rep boot s' f'
        (fun k q => if k = a ∧ q = pathOf va then some (pa, prot) else m k q) ∧
      Grown a f f' s s' := by
  simp only [X86.map] at h
  split_ifs at h with huser halign
  simp only [Bool.not_eq_true', Bool.not_eq_false] at huser
  push Not at halign
  obtain ⟨⟨⟨pt, index⟩, s₁⟩, hwalk, h⟩ := Option.bind_eq_some_iff.mp h
  obtain ⟨e, he, h⟩ := Option.bind_eq_some_iff.mp h
  obtain ⟨⟨⟨pt', index'⟩, s₂⟩, hwalk', h⟩ := Option.bind_eq_some_iff.mp h
  obtain rfl := Option.some.inj h
  obtain ⟨f₁, q, b', hs₁, hgrown₁, rfl, hb', hindex, hq, hpath⟩ := ptwalk_root hs hb huser hwalk
  have hwritten := hs₁.leafWrite hb' hq hindex (pa, prot) fun k q => rfl
  rw [hpath, ← mapEntry_eq he] at hwritten
  obtain ⟨f₂, -, -, hs₂, hgrown₂, -⟩ :=
    ptwalk_root hwritten (hgrown₁.root b hb) huser hwalk'
  refine ⟨⟨huser, halign.1.symm⟩, halign.2.symm, f₂, hs₂, ?_⟩
  have hwrite : Grown a f₁ f₁ s₁ (s₁.write (.page b') index e) := .refl a f₁ rfl
  exact (hgrown₁.trans hwrite).trans hgrown₂

theorem copyKernel_eq (upt : Addr) (s : State) :
    copyKernel upt s = s.write (.page upt) 0 (s.mem (slot PML4_ADDR 0)) := by
  have hareas : vmAreas.filter VmArea.kernel = [kernelArea] := by decide
  have hrounds : (kernelArea.stop - kernelArea.start).toNat >>> PML4.shift = 1 := by decide
  have hindex : indexof (kernelArea.start + (BitVec.ofNat 64 0 <<< PML4.shift)) PML4 = 0 := by
    decide
  rw [copyKernel, hareas, List.foldl_cons, List.foldl_nil, hrounds, List.range_one,
    List.foldl_cons, List.foldl_nil]
  simp only [hindex]

/-- A new root has the kernel's entry and nothing else. -/
theorem Rep.protect (hs : Rep boot s f m) (hkernel : boot (slot PML4_ADDR 0) = kernelEntry)
    (h : protect pg a s = some s') :
    ∃ b, Rep boot s' (plant f a b) (fun k q => if k = a then none else m k q) ∧
      s'.alloc = s.alloc ++ [b] := by
  obtain ⟨⟨b, s₁⟩, hpg, h⟩ := Option.bind_eq_some_iff.mp h
  obtain rfl := Option.some.inj h
  obtain ⟨hs₁, hb⟩ := hs.pgallocz hpg
  have halign := (hs₁.log b hb.alloc).1
  rw [copyKernel_eq, hs₁.kernel PML4_ADDR (by decide) 0 (by decide), hkernel]
  have hcase : ∀ k q d, plant f a b k q = some d →
      (k ≠ a ∧ f k q = some d) ∨ (k = a ∧ q = [] ∧ d = b) := by
    intro k q d hd
    by_cases hk : k = a
    · subst hk
      rw [plant_self] at hd
      split_ifs at hd with hq
      exact .inr ⟨rfl, hq, (Option.some.inj hd).symm⟩
    · rw [plant_of_ne f b hk] at hd
      exact .inl ⟨hk, hd⟩
  have hword : ∀ k q d j, f k q = some d → j < 512 →
      (s₁.write (.page b) 0 kernelEntry).mem (slot d j) = s₁.mem (slot d j) := by
    intro k q d j hd hj
    rw [write_mem s₁ _ halign (by decide) (hs₁.aligned hd) hj, if_neg fun he => ?_]
    exact hb.unlinked k ⟨q, he.1 ▸ hd⟩
  refine ⟨b, ⟨hs₁.forest.plant hb.unlinked, fun k q d hd => ?_, fun k q d hd => ?_,
    fun k q => ?_, fun k q d hd => ?_, fun k d hd => ?_, fun k q d j hd hq hj => ?_,
    fun k q d j hd hq hj => ?_, fun k q j hq hnone => ?_, hs₁.log, hs₁.nodup,
    fun t ht j hj => ?_⟩, (pgallocz_spec hpg).2.2.1⟩
  · rcases hcase k q d hd with ⟨-, hd⟩ | ⟨-, rfl, -⟩
    · exact hs₁.depth k q d hd
    · exact Nat.zero_le 3
  · rcases hcase k q d hd with ⟨-, hd⟩ | ⟨-, rfl, -⟩
    · exact hs₁.index k q d hd
    · exact fun i hi => absurd hi List.not_mem_nil
  · by_contra hq
    obtain ⟨d, hd⟩ := Option.ne_none_iff_exists'.mp hq
    rcases hcase k _ d hd with ⟨-, hd⟩ | ⟨-, hnil, -⟩
    · rw [hs₁.shared k q] at hd
      cases hd
    · cases hnil
  · rcases hcase k q d hd with ⟨-, hd⟩ | ⟨-, -, rfl⟩
    · exact hs₁.alloc k q d hd
    · exact hb.alloc
  · rcases hcase k [] d hd with ⟨hk, hd⟩ | ⟨rfl, -, rfl⟩
    · exact (Function.update_of_ne hk _ _).trans (hs₁.ptr k d hd)
    · exact Function.update_self _ _ _
  · rcases hcase k q d hd with ⟨hk, hd⟩ | ⟨rfl, rfl, rfl⟩
    · rw [plant_of_ne f b hk]
      exact (hword k q d j hd hj).trans (hs₁.table k q d j hd hq hj)
    · refine (write_mem s₁ kernelEntry halign (by decide) halign hj).trans ?_
      by_cases hj0 : j = 0
      · rw [if_pos ⟨rfl, hj0⟩, if_pos ⟨rfl, hj0⟩]
      · rw [if_neg fun he => hj0 he.2, if_neg fun he => hj0 he.2, hb.zero j hj, plant_self,
          if_neg (List.append_ne_nil_of_right_ne_nil _ (List.cons_ne_nil _ _))]
        rfl
  · rcases hcase k q d hd with ⟨hk, hd⟩ | ⟨rfl, rfl, rfl⟩
    · rw [if_neg hk]
      exact (hword k q d j hd hj).trans (hs₁.leaf k q d j hd hq hj)
    · cases hq
  · by_cases hk : k = a
    · rw [if_pos hk]
    · rw [if_neg hk]
      rw [plant_of_ne f b hk] at hnone
      exact hs₁.reached k q j hq hnone
  · refine (write_mem s₁ kernelEntry halign (by decide) (kernelTables_aligned ht) hj).trans ?_
    have hne : t ≠ b := ne_of_mem_of_not_mem ht (hs₁.log b hb.alloc).2
    rw [if_neg fun he => hne he.1, hs₁.kernel t ht j hj]

/-- What the processor is to find for a page. -/
def expected : Option Leaf → Option Translation
  | none => none
  | some (pa, prot) =>
    if prot = MMAP_NONE then none else some ⟨pa, true, prot &&& MMAP_WRITE ≠ 0⟩

/-- Below a place without a table nothing has been mapped. -/
theorem Rep.unmapped (hs : Rep boot s f m) (hnone : f a p = none) {q : List ℕ} (hq : q ≠ [])
    (hlen : (p ++ q).length = 4) : m a (p ++ q) = none := by
  obtain ⟨r, i, rfl⟩ := (List.eq_nil_or_concat q).resolve_left hq
  rw [List.concat_eq_append, ← List.append_assoc] at hlen ⊢
  rw [List.length_append, List.length_singleton] at hlen
  refine hs.reached a (p ++ r) i (Nat.succ_injective hlen) ?_
  by_contra hsome
  obtain ⟨c, hc⟩ := Option.ne_none_iff_exists'.mp hsome
  obtain ⟨d, hd⟩ := hs.forest.prefix hc
  rw [hnone] at hd
  cases hd

/-- From a table on, the processor finds what the last call for the page has asked for. -/
theorem pageWalk_page (hs : Rep boot s f m) (hb : f a p = some b) {info : PtInfo}
    {rest : List PtInfo} (hlen : p.length + rest.length = 3)
    (hinfos : ∀ i ∈ info :: rest, i ∈ pgtables.tail) (huser : p = [] → indexof va info ≠ 0)
    (hpa : ∀ pa prot, m a (p ++ (info :: rest).map (indexof va)) = some (pa, prot) →
      baseof pa = pa) {pt : Addr} (hpt : baseof pt = b) :
    pageWalk s.mem va (info :: rest) pt true true =
      expected (m a (p ++ (info :: rest).map (indexof va))) := by
  induction rest generalizing info p b pt with
  | nil =>
    have hentry := hs.leaf a p b _ hb (by simpa using hlen)
      (indexof_lt (hinfos info List.mem_cons_self) va)
    rw [List.map_singleton] at hpa ⊢
    simp only [pageWalk, hpt, hentry, if_true, Bool.true_and]
    cases hm : m a (p ++ [indexof va info]) with
    | none => rfl
    | some l =>
      obtain ⟨pa, prot⟩ := l
      by_cases hprot : prot = MMAP_NONE
      · have hzero : leafWord (some (pa, prot)) = 0 := by rw [leafWord, if_pos hprot]
        rw [hzero, expected, if_pos hprot]
        rfl
      · obtain ⟨hbase, hpresent, huserbit, hwrite⟩ := leafWord_some (hpa pa prot hm) hprot
        simp only [if_neg hpresent, hbase, decide_eq_true huserbit, hwrite, expected,
          if_neg hprot]
  | cons info' rest ih =>
    have hi : indexof va info < 512 := indexof_lt (hinfos info List.mem_cons_self) va
    rw [List.length_cons] at hlen
    have hentry := hs.table a p b _ hb (by omega) hi
    rw [if_neg fun he => huser he.1 he.2] at hentry
    have hassoc : p ++ (info :: info' :: rest).map (indexof va) =
        p ++ [indexof va info] ++ (info' :: rest).map (indexof va) := by
      rw [List.append_assoc]
      rfl
    have hne : p ++ [indexof va info] ≠ [] :=
      List.append_ne_nil_of_right_ne_nil _ (List.cons_ne_nil _ _)
    rw [hassoc] at hpa ⊢
    cases hnext : f a (p ++ [indexof va info]) with
    | none =>
      have hlen' : (p ++ [indexof va info] ++ (info' :: rest).map (indexof va)).length = 4 := by
        simp only [List.length_append, List.length_map, List.length_cons, List.length_nil]
        omega
      have hm := hs.unmapped hnext (q := (info' :: rest).map (indexof va))
        (List.cons_ne_nil _ _) hlen'
      rw [hm]
      simp only [pageWalk, hpt, hentry, hnext]
      rfl
    | some c =>
      obtain ⟨hbase, hpresent, huserbit, hwrite, hlarge⟩ := tableWord_some (hs.aligned hnext)
      have hstep := ih hnext (by rw [List.length_append, List.length_singleton]; omega)
        (fun i hi => hinfos i (List.mem_cons_of_mem info hi)) (fun he => absurd he hne) hpa hbase
      rw [← hstep]
      conv_lhs => rw [pageWalk]
      simp only [hpt, hentry, hnext, if_neg hpresent, reduceCtorEq, if_false, hlarge, ne_eq,
        not_true_eq_false, false_and, Bool.true_and, huserbit, hwrite, not_false_eq_true,
        decide_true]

/-- What is found for any address that does not use the kernel's entry of the level-1 table. -/
theorem translate_mapped (hs : Rep boot s f m) (hb : f a [] = some b) (hva : indexof va PML4 ≠ 0)
    (hpa : ∀ pa prot, m a (pathOf va) = some (pa, prot) → baseof pa = pa) :
    translate s.mem (s.ptr a) va = expected (m a (pathOf va)) := by
  refine pageWalk_page hs hb rfl (fun i hi => hi) (fun _ => hva) hpa ?_
  rw [hs.ptr a b hb]
  exact (rootWord_some (hs.aligned hb)).1

theorem translate_user (hs : Rep boot s f m) (hb : f a [] = some b) (hva : UserPage va)
    (hpa : ∀ pa prot, m a (pathOf va) = some (pa, prot) → baseof pa = pa) :
    translate s.mem (s.ptr a) va = expected (m a (pathOf va)) :=
  translate_mapped hs hb (by rw [indexof_user hva.area]; decide) hpa

/-- Bits 63 to 47 are equal; the processor translates no other address. -/
def Canonical (va : Addr) : Prop := va.toNat < 2 ^ 47 ∨ 2 ^ 64 - 2 ^ 47 ≤ va.toNat

/-- An address in neither area has an entry of its own in the level-1 table. -/
theorem indexof_outside {va : Addr} (h : Canonical va) (huser : uvmArea.has va = false)
    (hkernel : kernelArea.has va = false) : indexof va PML4 ≠ 32 ∧ indexof va PML4 ≠ 0 := by
  rw [indexof_eq va rfl (by decide)]
  have hlo : uvmArea.start.toNat = 0x100000000000 := rfl
  have hhi : uvmArea.stop.toNat = 0x108000000000 := rfl
  have hklo : kernelArea.start.toNat = 0 := rfl
  have hkhi : kernelArea.stop.toNat = 0x8000000000 := rfl
  have hlt := va.isLt
  rw [VmArea.has, Bool.and_eq_false_iff, decide_eq_false_iff_not, decide_eq_false_iff_not] at huser hkernel
  rw [Canonical] at h
  change va.toNat / 2 ^ 39 % 512 ≠ 32 ∧ va.toNat / 2 ^ 39 % 512 ≠ 0
  omega

/-- The walk of a kernel address leaves the first table for the kernel's second one. -/
theorem pageWalk_kernel (hboot : Booted boot) {mem : Addr → Addr}
    (hpdpt : ∀ i < 512, mem (slot PDPT_ADDR i) = boot (slot PDPT_ADDR i))
    (hva : kernelArea.has va = true) {pt : Addr} (hpt : mem (slot (baseof pt) 0) = kernelEntry) :
    translate mem pt va =
      pageWalk boot va [PDPT, PD, PT] kernelEntry false true := by
  have hindex : indexof va PML4 = 0 := by
    rw [indexof_eq va rfl (by decide)]
    rw [VmArea.has, Bool.and_eq_true, decide_eq_true_eq, decide_eq_true_eq] at hva
    have hhi : kernelArea.stop.toNat = 0x8000000000 := rfl
    change va.toNat / 2 ^ 39 % 512 = 0
    omega
  have hbase : baseof kernelEntry = PDPT_ADDR := by decide
  have hi : indexof va PDPT < 512 := indexof_lt (by decide) va
  have hlarge : ∀ mem : Addr → Addr, mem (slot PDPT_ADDR (indexof va PDPT)) =
      boot (slot PDPT_ADDR (indexof va PDPT)) →
      pageWalk mem va [PDPT, PD, PT] kernelEntry false true =
        pageWalk boot va [PDPT, PD, PT] kernelEntry false true := by
    intro mem hmem
    obtain ⟨hpresent, hps⟩ := largeWord_flags (BitVec.ofNat 64 (indexof va PDPT))
    rw [← hboot.pdpt _ hi] at hpresent hps
    have hshift : PDPT.shift ≤ 30 := by decide
    conv_lhs => rw [pageWalk]
    conv_rhs => rw [pageWalk]
    simp only [hbase, hmem, if_neg hpresent, reduceCtorEq, if_false,
      if_pos (And.intro hps hshift)]
  rw [← hlarge mem (hpdpt _ hi)]
  have hunfold : translate mem pt va = pageWalk mem va [PML4, PDPT, PD, PT] pt true true := rfl
  rw [hunfold]
  conv_lhs => rw [pageWalk]
  simp only [hindex, hpt]
  rfl

theorem entries_of_bits : (1 <<< 9 : ℕ) = 512 := by decide

theorem teardown_page (hs : Rep boot s f m) (hb : f a p = some b) {info : PtInfo}
    {rest : List PtInfo} (hlen : p.length + rest.length = 3)
    (hbits : ∀ i ∈ info :: rest, i.bits = 9) :
    teardown s (info :: rest) (.page b) = collect f a (List.range 512) (rest.length + 1) p := by
  induction rest generalizing info p b with
  | nil =>
    rw [teardown, hbits info List.mem_cons_self, entries_of_bits, List.length_nil, collect]
    simp only [hb]
    refine congrArg (· ++ [b]) (List.flatMap_congr fun i _ => ?_)
    simp only [teardown, collect, ite_self]
  | cons info' rest ih =>
    rw [List.length_cons] at hlen
    rw [teardown, hbits info List.mem_cons_self, entries_of_bits, List.length_cons, collect]
    simp only [hb]
    refine congrArg (· ++ [b]) (List.flatMap_congr fun i hi => ?_)
    have hi512 : i < 512 := List.mem_range.mp hi
    have hentry : s.read (.page b) i = _ := hs.table a p b i hb (by omega) hi512
    rw [hentry]
    by_cases huser : p = [] ∧ i = 0
    · have hnone : f a (p ++ [i]) = none := by
        rw [huser.1, huser.2]
        exact hs.shared a []
      rw [if_pos huser, collect_none _ hnone, if_neg (by decide)]
    · rw [if_neg huser]
      cases hnext : f a (p ++ [i]) with
      | none =>
        rw [collect_none _ hnext, if_neg (by decide)]
      | some c =>
        obtain ⟨hbase, hpresent, huserbit, -⟩ := tableWord_some (hs.aligned hnext)
        rw [if_pos ⟨hpresent, huserbit⟩, hbase]
        exact ih hnext (by rw [List.length_append, List.length_singleton]; omega)
          fun i hi => hbits i (List.mem_cons_of_mem info hi)

theorem unprotect_eq (hs : Rep boot s f m) (hb : f a [] = some b) :
    unprotect a s = collect f a (List.range 512) 4 [] := by
  obtain ⟨hbase, hpresent, huserbit⟩ := rootWord_some (hs.aligned hb)
  have hread : s.read (.root a) 0 = b ||| PTE_P ||| PTE_U := hs.ptr a b hb
  rw [← hread] at hbase hpresent huserbit
  have hbelow : teardown s [PML4, PDPT, PD, PT] (.page b) =
      collect f a (List.range 512) 4 [] := teardown_page hs hb rfl (by decide)
  rw [unprotect, pgtables, teardown]
  have hrounds : List.range (1 <<< CR3.bits) = [0] := by decide
  rw [hrounds, List.flatMap_singleton, if_pos ⟨hpresent, huserbit⟩, hbase, hbelow]
  exact List.append_nil _

/-- `unprotect` frees each table of the space once, and nothing else. -/
theorem mem_unprotect (hs : Rep boot s f m) (hb : f a [] = some b) {x : Addr} :
    x ∈ unprotect a s ↔ Has f a x := by
  rw [unprotect_eq hs hb]
  constructor
  · exact exists_of_mem_collect
  · rintro ⟨q, hq⟩
    refine mem_collect (q := q) hs.forest hq (Nat.lt_succ_of_le (hs.depth a q x hq)) fun i hi => ?_
    exact List.mem_range.mpr (hs.index a q x hq i hi)

theorem unprotect_nodup (hs : Rep boot s f m) (hb : f a [] = some b) :
    (unprotect a s).Nodup := by
  rw [unprotect_eq hs hb]
  exact collect_nodup hs.forest List.nodup_range 4 []

end Walks

end Ysyx.Am.X86
