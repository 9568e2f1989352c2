import Ysyx.Am.VmeX86Walk

/-! Runs of `protect` and `map` over any number of x86-64 address spaces: the
processor translates each page as its latest call says and kernel addresses as
through the kernel's tables, and `unprotect` frees the tables of its space. -/

namespace Ysyx.Am.X86

open Tables

inductive Op where
  | protect (a : Space)
  | map (a : Space) (va pa : Addr) (prot : BitVec 32)
  deriving DecidableEq, Repr

/-- The last call of `map` for a page of a space since its last `protect`; `ops` is newest first. -/
def latestCall (a : Space) (hit : Addr → Bool) : List Op → Option Leaf
  | [] => none
  | .protect b :: ops => if b = a then none else latestCall a hit ops
  | .map b va pa prot :: ops =>
    if b = a ∧ hit va = true then some (pa, prot) else latestCall a hit ops

def latest (a : Space) (va : Addr) (ops : List Op) : Option Leaf := latestCall a (· == va) ops

/-- The operations that do not panic, newest first, lead to the state; `tables` is what
`pgalloc` has returned during the calls on each space since it was last protected. -/
inductive Reaches (pg : PageAlloc) (boot : Addr → Addr) :
    List Op → (Space → Option (List Addr)) → State → Prop
  | start (ptr : Space → Addr) : Reaches pg boot [] (fun _ => none) ⟨boot, ptr, []⟩
  | protect {ops : List Op} {tables : Space → Option (List Addr)} {s s' : State} (a : Space)
      (h : Reaches pg boot ops tables s) (hstep : X86.protect pg a s = some s') :
      Reaches pg boot (.protect a :: ops)
        (Function.update tables a (some (s'.alloc.drop s.alloc.length))) s'
  | map {ops : List Op} {tables : Space → Option (List Addr)} {s s' : State} {T : List Addr}
      (a : Space) (va pa : Addr) (prot : BitVec 32) (h : Reaches pg boot ops tables s)
      (hT : tables a = some T) (hstep : X86.map pg a va pa prot s = some s') :
      Reaches pg boot (.map a va pa prot :: ops)
        (Function.update tables a (some (T ++ s'.alloc.drop s.alloc.length))) s'

/-- The space is translated and freed as its calls ask for. -/
structure SpaceExact (boot : Addr → Addr) (ops : List Op) (s : State) (a : Space)
    (T : List Addr) : Prop where
  user : ∀ va, UserPage va → translate s.mem (s.ptr a) va = expected (latest a va ops)
  kernel : ∀ va, kernelArea.has va = true →
    translate s.mem (s.ptr a) va = translate s.mem PML4_ADDR va ∧
      translate s.mem PML4_ADDR va = translate boot PML4_ADDR va
  outside : ∀ va, Canonical va → uvmArea.has va = false → kernelArea.has va = false →
    translate s.mem (s.ptr a) va = none
  freed : (unprotect a s).Perm T
  once : (unprotect a s).Nodup
  kernelKept : ∀ t ∈ kernelTables, t ∉ unprotect a s
  userKept : ∀ b va pa prot, .map b va pa prot ∈ ops → pa ∉ T → pa ∉ unprotect a s

/-- The tables of a space in the forest are those that were allocated for it. -/
def Counted (f : Places Space ℕ Addr) (tables : Space → Option (List Addr)) (a : Space) : Prop :=
  match tables a with
  | none => ∀ x, ¬ Has f a x
  | some T => (∃ b, f a [] = some b) ∧ T.Nodup ∧ ∀ x, x ∈ T ↔ Has f a x

section Runs

variable {pg : PageAlloc} {boot : Addr → Addr} {ops : List Op}
  {tables : Space → Option (List Addr)} {s s' : State} {a : Space}

theorem latestCall_congr {hit hit' : Addr → Bool}
    (h : ∀ b va pa prot, .map b va pa prot ∈ ops → hit va = hit' va) :
    latestCall a hit ops = latestCall a hit' ops := by
  induction ops with
  | nil => rfl
  | cons op ops ih =>
    have htail := ih fun b va pa prot hmem => h b va pa prot (List.mem_cons_of_mem op hmem)
    cases op with
    | protect b => simp only [latestCall, htail]
    | map b va pa prot => simp only [latestCall, htail, h b va pa prot List.mem_cons_self]

theorem mem_of_latestCall {hit : Addr → Bool} {pa : Addr} {prot : BitVec 32}
    (h : latestCall a hit ops = some (pa, prot)) :
    ∃ va, .map a va pa prot ∈ ops ∧ hit va = true := by
  induction ops with
  | nil => cases h
  | cons op ops ih =>
    cases op with
    | protect b =>
      simp only [latestCall] at h
      split_ifs at h
      obtain ⟨va, hva, hhit⟩ := ih h
      exact ⟨va, List.mem_cons_of_mem _ hva, hhit⟩
    | map b va pa' prot' =>
      simp only [latestCall] at h
      split_ifs at h with hb
      · cases h
        exact ⟨va, by rw [hb.1]; exact List.mem_cons_self, hb.2⟩
      · obtain ⟨va', hva', hhit⟩ := ih h
        exact ⟨va', List.mem_cons_of_mem _ hva', hhit⟩

theorem pathOf_inj {va va' : Addr} (h : UserPage va) (h' : UserPage va')
    (heq : pathOf va = pathOf va') : va = va' := by
  have hidx : ∀ info ∈ pgtables.tail,
      va.toNat / 2 ^ info.shift % 512 = va'.toNat / 2 ^ info.shift % 512 := by
    intro info hinfo
    have hmask : ∀ info ∈ pgtables.tail, info.mask = 511#64 <<< info.shift ∧ info.shift ≤ 55 := by
      decide
    have hindex := List.map_inj_left.mp heq info hinfo
    rwa [indexof_eq va (hmask info hinfo).1 (hmask info hinfo).2,
      indexof_eq va' (hmask info hinfo).1 (hmask info hinfo).2] at hindex
  have h2 := hidx PDPT (by decide)
  have h3 := hidx PD (by decide)
  have h4 := hidx PT (by decide)
  have halign := baseof_toNat va
  have halign' := baseof_toNat va'
  rw [h.aligned] at halign
  rw [h'.aligned] at halign'
  have harea := h.area
  have harea' := h'.area
  rw [VmArea.has, Bool.and_eq_true, decide_eq_true_eq, decide_eq_true_eq] at harea harea'
  have hlo : uvmArea.start.toNat = 0x100000000000 := rfl
  have hhi : uvmArea.stop.toNat = 0x108000000000 := rfl
  simp only [PDPT, PD, PT] at h2 h3 h4
  refine BitVec.eq_of_toNat_eq ?_
  omega

theorem Counted.congr {f f' : Places Space ℕ Addr} {T' : Option (List Addr)} {k : Space}
    (h : Counted f tables k) (hk : k ≠ a) (hf : f' k = f k) :
    Counted f' (Function.update tables a T') k := by
  simp only [Counted, Function.update_of_ne hk, Has, hf]
  exact h

/-- What a call on a space allocates is counted to it. -/
theorem Counted.grow {f f' : Places Space ℕ Addr} {m m' : Space → List ℕ → Option Leaf}
    {T : List Addr} (h : Counted f tables a) (hs : Rep boot s f m) (hs' : Rep boot s' f' m')
    (hT : tables a = some T) (hgrown : Grown a f f' s s') :
    Counted f' (Function.update tables a (some (T ++ s'.alloc.drop s.alloc.length))) a := by
  obtain ⟨new, halloc, hhas⟩ := hgrown.pages
  simp only [Counted, hT] at h
  obtain ⟨⟨b, hb⟩, hnodup, hmem⟩ := h
  have hnodup' := hs'.nodup
  rw [halloc] at hnodup'
  obtain ⟨-, hnew, hdisjoint⟩ := List.nodup_append'.mp hnodup'
  simp only [Counted, Function.update_self, halloc, List.drop_left]
  refine ⟨⟨b, hgrown.root b hb⟩, List.nodup_append'.mpr ⟨hnodup, hnew, fun x hx => ?_⟩, fun x => ?_⟩
  · obtain ⟨q, hq⟩ := (hmem x).mp hx
    exact hdisjoint (hs.alloc a q x hq)
  · rw [List.mem_append, hmem, hhas]

theorem Counted.plant {f : Places Space ℕ Addr} {b : Addr} (halloc : s'.alloc = s.alloc ++ [b]) :
    Counted (plant f a b) (Function.update tables a (some (s'.alloc.drop s.alloc.length))) a := by
  simp only [Counted, Function.update_self, halloc, List.drop_left]
  refine ⟨⟨b, by rw [plant_self, if_pos rfl]⟩, List.nodup_singleton b, fun x => ?_⟩
  rw [List.mem_singleton]
  constructor
  · rintro rfl
    exact ⟨[], by rw [plant_self, if_pos rfl]⟩
  · rintro ⟨q, hq⟩
    rw [plant_self] at hq
    split_ifs at hq
    exact (Option.some.inj hq).symm

theorem rep_start (boot : Addr → Addr) (ptr : Space → Addr) :
    Rep boot ⟨boot, ptr, []⟩ (fun _ _ => none) (fun _ _ => none) where
  forest := forest_none
  depth _ _ _ h := (nomatch h)
  index _ _ _ h := (nomatch h)
  shared _ _ := rfl
  alloc _ _ _ h := (nomatch h)
  ptr _ _ h := (nomatch h)
  table _ _ _ _ h := (nomatch h)
  leaf _ _ _ _ h := (nomatch h)
  reached _ _ _ _ _ := rfl
  log _ h := absurd h List.not_mem_nil
  nodup := List.nodup_nil
  kernel _ _ _ _ := rfl

theorem Reaches.inv (hboot : Booted boot) (h : Reaches pg boot ops tables s) :
    (∃ f, Rep boot s f (fun a q => latestCall a (pathOf · == q) ops) ∧ ∀ a, Counted f tables a) ∧
      ∀ b va pa prot, .map b va pa prot ∈ ops → UserPage va ∧ baseof pa = pa := by
  induction h with
  | start ptr =>
    refine ⟨⟨fun _ _ => none, rep_start boot ptr, ?_⟩, fun _ _ _ _ h => absurd h List.not_mem_nil⟩
    rintro a x ⟨q, hq⟩
    cases hq
  | protect a _ hstep ih =>
    obtain ⟨⟨f, hs, hcounted⟩, hvalid⟩ := ih
    obtain ⟨b, hs', halloc⟩ := hs.protect hboot.pml4 hstep
    refine ⟨⟨plant f a b, ?_, fun k => ?_⟩, fun k va pa prot hmem => ?_⟩
    · convert hs' using 3 with k q
      exact if_congr eq_comm rfl rfl
    · by_cases hk : k = a
      · subst hk
        exact .plant halloc
      · exact (hcounted k).congr hk (plant_of_ne f b hk)
    · rcases List.mem_cons.mp hmem with hop | hmem
      · cases hop
      · exact hvalid k va pa prot hmem
  | @map ops tables s s' T a va pa prot _ hT hstep ih =>
    obtain ⟨⟨f, hs, hcounted⟩, hvalid⟩ := ih
    obtain ⟨b, hb⟩ : ∃ b, f a [] = some b := by
      have hcount := hcounted a
      simp only [Counted, hT] at hcount
      exact hcount.1
    obtain ⟨huser, hpa, f', hs', hgrown⟩ := hs.map hb hstep
    refine ⟨⟨f', ?_, fun k => ?_⟩, fun k va' pa' prot' hmem => ?_⟩
    · convert hs' using 3 with k q
      refine if_congr (and_congr eq_comm ?_) rfl rfl
      rw [beq_iff_eq]
      exact eq_comm
    · by_cases hk : k = a
      · subst hk
        exact (hcounted k).grow hs hs' hT hgrown
      · exact (hcounted k).congr hk (hgrown.others k hk)
    · rcases List.mem_cons.mp hmem with hop | hmem
      · cases hop
        exact ⟨huser, hpa⟩
      · exact hvalid k va' pa' prot' hmem

/-- In every state that is reached each space is translated and freed as its calls ask for. -/
theorem x86_spaces_exact (hboot : Booted boot) (h : Reaches pg boot ops tables s) {T : List Addr}
    (hT : tables a = some T) : SpaceExact boot ops s a T := by
  obtain ⟨⟨f, hs, hcounted⟩, hvalid⟩ := h.inv hboot
  have hcount := hcounted a
  simp only [Counted, hT] at hcount
  obtain ⟨⟨b, hb⟩, hnodup, hmem⟩ := hcount
  have hfreed : ∀ x, x ∈ unprotect a s ↔ x ∈ T := fun x => by rw [mem_unprotect hs hb, hmem]
  have hpdpt : ∀ i < 512, s.mem (slot PDPT_ADDR i) = boot (slot PDPT_ADDR i) :=
    hs.kernel PDPT_ADDR (by decide)
  have hpml4 : s.mem (slot (baseof PML4_ADDR) 0) = kernelEntry :=
    (hs.kernel PML4_ADDR (by decide) 0 (by decide)).trans hboot.pml4
  have hroot : s.mem (slot (baseof (s.ptr a)) 0) = kernelEntry := by
    rw [hs.ptr a b hb, (rootWord_some (hs.aligned hb)).1, hs.table a [] b 0 hb (by decide) (by decide)]
    rfl
  refine ⟨fun va hva => ?_, fun va hva => ?_, fun va hcanon huser hkernel => ?_, ?_,
    unprotect_nodup hs hb, fun t ht hx => ?_,
    fun b va pa prot _ hpa hx => hpa ((hfreed pa).mp hx)⟩
  · rw [translate_user hs hb hva fun pa prot hm => ?_]
    · refine congrArg expected (latestCall_congr fun k va' pa' prot' hop => ?_)
      rw [Bool.eq_iff_iff, beq_iff_eq, beq_iff_eq]
      exact ⟨fun heq => pathOf_inj (hvalid k va' pa' prot' hop).1 hva heq, fun heq => heq ▸ rfl⟩
    · obtain ⟨va', hop, -⟩ := mem_of_latestCall hm
      exact (hvalid a va' pa prot hop).2
  · have hkpt : translate s.mem PML4_ADDR va =
        pageWalk boot va [PDPT, PD, PT] kernelEntry false true :=
      pageWalk_kernel hboot hpdpt hva hpml4
    have hkpt' : translate boot PML4_ADDR va =
        pageWalk boot va [PDPT, PD, PT] kernelEntry false true :=
      pageWalk_kernel hboot (fun _ _ => rfl) hva hboot.pml4
    rw [hkpt, hkpt', pageWalk_kernel hboot hpdpt hva hroot]
    exact ⟨rfl, rfl⟩
  · obtain ⟨huser', hkernel'⟩ := indexof_outside hcanon huser hkernel
    have hnone : latestCall a (pathOf · == pathOf va) ops = none := by
      by_contra hsome
      obtain ⟨⟨pa, prot⟩, hlatest⟩ := Option.ne_none_iff_exists'.mp hsome
      obtain ⟨va', hop, hpath⟩ := mem_of_latestCall hlatest
      have hindex : indexof va' PML4 = indexof va PML4 :=
        List.map_inj_left.mp (beq_iff_eq.mp hpath) PML4 (by decide)
      rw [indexof_user (hvalid a va' pa prot hop).1.area] at hindex
      exact huser' hindex.symm
    rw [translate_mapped hs hb hkernel' (by rw [hnone]; exact fun _ _ h => nomatch h), hnone]
    rfl
  · exact (List.perm_ext_iff_of_nodup (unprotect_nodup hs hb) hnodup).mpr hfreed
  · obtain ⟨q, hq⟩ := (mem_unprotect hs hb).mp hx
    exact (hs.log t (hs.alloc a q t hq)).2 ht

end Runs

/-- An allocator that hands out pages from 1 MiB upwards. -/
def bumpAlloc : PageAlloc where
  fn log :=
    let base := baseof (0x100000 + BitVec.ofNat 64 (4096 * log.length))
    if base ∈ log ∨ base ∈ kernelTables then 0 else base
  aligned log := by
    dsimp only
    split_ifs
    · rfl
    · exact baseof_idem _
  fresh log h := by
    dsimp only at h ⊢
    split_ifs at h ⊢ with hused
    · exact absurd rfl h
    · exact not_or.mp hused

/-- Memory that holds the tables of `start64.S` and is 0 elsewhere. -/
def bootMemory (x : Addr) : Addr :=
  if x = slot PML4_ADDR 0 then kernelEntry
  else if baseof x = PDPT_ADDR then
    (((x - PDPT_ADDR) >>> 3) <<< 30) ||| (PTE_P ||| PTE_W ||| PTE_PS)
  else 0

theorem booted_bootMemory : Booted bootMemory := by
  refine ⟨rfl, fun i hi => ?_⟩
  have htoNat : (slot PDPT_ADDR i).toNat = 0x2000 + 8 * i := slot_toNat (by decide) hi
  have hne : slot PDPT_ADDR i ≠ slot PML4_ADDR 0 := by
    intro he
    exact absurd (slot_inj (by decide) (by decide) hi (by decide) he).1 (by decide)
  have hbase : baseof (slot PDPT_ADDR i) = PDPT_ADDR := by
    apply BitVec.eq_of_toNat_eq
    rw [baseof_toNat, htoNat]
    change _ = 0x2000
    omega
  have hindex : (slot PDPT_ADDR i - PDPT_ADDR) >>> 3 = BitVec.ofNat 64 i := by
    apply BitVec.eq_of_toNat_eq
    rw [BitVec.toNat_ushiftRight, BitVec.toNat_sub, htoNat, Nat.shiftRight_eq_div_pow,
      BitVec.toNat_ofNat, show PDPT_ADDR.toNat = 0x2000 from rfl]
    omega
  rw [bootMemory, if_neg hne, if_pos hbase, hindex]

def runOp (pg : PageAlloc) : Op → State → Option State
  | .protect a, s => X86.protect pg a s
  | .map a va pa prot, s => X86.map pg a va pa prot s

/-- The calls in turn; `ops` is newest first. -/
def runOps (pg : PageAlloc) (s : State) : List Op → Option State
  | [] => some s
  | op :: ops => (runOps pg s ops).bind (runOp pg op)

/-- Pages are mapped in spaces that have been protected. -/
def Protected : List Op → Prop
  | [] => True
  | .protect _ :: ops => Protected ops
  | .map a _ _ _ :: ops => .protect a ∈ ops ∧ Protected ops

theorem reaches_of_runOps {pg : PageAlloc} {boot : Addr → Addr} {ptr : Space → Addr} {ops : List Op}
    {s : State} (hp : Protected ops) (h : runOps pg ⟨boot, ptr, []⟩ ops = some s) :
    ∃ tables, Reaches pg boot ops tables s ∧ ∀ a, .protect a ∈ ops → ∃ T, tables a = some T := by
  induction ops generalizing s with
  | nil =>
    cases h
    exact ⟨_, .start ptr, fun a ha => absurd ha List.not_mem_nil⟩
  | cons op ops ih =>
    obtain ⟨s₁, h₁, hstep⟩ := Option.bind_eq_some_iff.mp h
    cases op with
    | protect b =>
      obtain ⟨tables, hreached, htables⟩ := ih hp h₁
      refine ⟨_, hreached.protect b hstep, fun a ha => ?_⟩
      by_cases hab : a = b
      · subst hab
        exact ⟨_, Function.update_self a _ tables⟩
      · rw [Function.update_of_ne hab]
        exact htables a ((List.mem_cons.mp ha).resolve_left fun heq => hab (Op.protect.inj heq))
    | map b va pa prot =>
      obtain ⟨tables, hreached, htables⟩ := ih hp.2 h₁
      obtain ⟨T, hT⟩ := htables b hp.1
      refine ⟨_, hreached.map b va pa prot hT hstep, fun a ha => ?_⟩
      by_cases hab : a = b
      · subst hab
        exact ⟨_, Function.update_self a _ tables⟩
      · rw [Function.update_of_ne hab]
        exact htables a ((List.mem_cons.mp ha).resolve_left nofun)

/-- Two spaces that share a page; the second one has another page as well. -/
def twoSpaces : List Op :=
  [.map 1 0x100000001000 0x300000 1, .map 1 0x100000000000 0x200000 MMAP_WRITE,
    .map 0 0x100000000000 0x200000 1, .protect 1, .protect 0]

theorem x86_spaces_exact_two_spaces : ∃ T₀ T₁ s, SpaceExact bootMemory twoSpaces s 0 T₀ ∧
    SpaceExact bootMemory twoSpaces s 1 T₁ := by
  obtain ⟨s, hs⟩ : ∃ s, runOps bumpAlloc ⟨bootMemory, fun _ => 0, []⟩ twoSpaces = some s :=
    Option.isSome_iff_exists.mp (by decide +kernel)
  have hp : Protected twoSpaces := by simp [Protected, twoSpaces]
  obtain ⟨tables, hreached, htables⟩ := reaches_of_runOps hp hs
  obtain ⟨T₀, h₀⟩ := htables 0 (by simp [twoSpaces])
  obtain ⟨T₁, h₁⟩ := htables 1 (by simp [twoSpaces])
  exact ⟨T₀, T₁, s, x86_spaces_exact booted_bootMemory hreached h₀,
    x86_spaces_exact booted_bootMemory hreached h₁⟩

end Ysyx.Am.X86
