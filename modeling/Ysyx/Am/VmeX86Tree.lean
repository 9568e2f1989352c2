import Ysyx.Am.VmeX86
import Ysyx.Lib.Forest
import Ysyx.Lib.Outcome

/-! The page tables in memory as a forest of tables: what every entry holds, and
how an allocation, a new table, a new leaf and a new root keep that. -/

namespace Ysyx.Am.X86

open Tables

abbrev Leaf := Addr × BitVec 32

def tableWord : Option Addr → Addr
  | none => 0
  | some c => c ||| PTE_P ||| (PTE_W ||| PTE_U)

def leafWord : Option Leaf → Addr
  | none => 0
  | some (pa, prot) =>
    if prot = MMAP_NONE then 0
    else pa ||| PTE_P ||| PTE_U ||| (if prot &&& MMAP_WRITE ≠ 0 then PTE_W else 0)

/-- The entry that `start64.S` writes at the start of the level-1 table. -/
def kernelEntry : Addr := PDPT_ADDR ||| PTE_P ||| PTE_W

section Entries

variable {c flags flag : Addr}

theorem baseof_or (hc : baseof c = c) (hf : baseof flags = 0) : baseof (c ||| flags) = c := by
  have hor : baseof (c ||| flags) = baseof c ||| baseof flags := by
    apply BitVec.eq_of_getLsbD_eq
    intro k _
    simp only [baseof, BitVec.getLsbD_and, BitVec.getLsbD_or]
    exact Bool.and_or_distrib_right _ _ _
  rw [hor, hc, hf]
  exact BitVec.or_zero

theorem flag_or (hc : baseof c = c) (hf : baseof flag = 0) :
    (c ||| flags) &&& flag = flags &&& flag := by
  apply BitVec.eq_of_getLsbD_eq
  intro k _
  have hck := congrArg (fun b => BitVec.getLsbD b k) hc
  have hfk := congrArg (fun b => BitVec.getLsbD b k) hf
  simp only [baseof, BitVec.getLsbD_and] at hck hfk
  simp only [BitVec.getLsbD_and, BitVec.getLsbD_or]
  grind

theorem tableWord_some (hc : baseof c = c) :
    baseof (tableWord (some c)) = c ∧ tableWord (some c) &&& PTE_P ≠ 0 ∧
      tableWord (some c) &&& PTE_U ≠ 0 ∧ tableWord (some c) &&& PTE_W ≠ 0 ∧
      tableWord (some c) &&& PTE_PS = 0 := by
  rw [show tableWord (some c) = c ||| (PTE_P ||| (PTE_W ||| PTE_U)) from BitVec.or_assoc _ _ _,
    baseof_or hc (by decide), flag_or hc (by decide), flag_or hc (by decide),
    flag_or hc (by decide), flag_or hc (by decide)]
  exact ⟨rfl, by decide, by decide, by decide, by decide⟩

theorem leafWord_some {prot : BitVec 32} (hc : baseof c = c) (hprot : prot ≠ MMAP_NONE) :
    baseof (leafWord (some (c, prot))) = c ∧ leafWord (some (c, prot)) &&& PTE_P ≠ 0 ∧
      leafWord (some (c, prot)) &&& PTE_U ≠ 0 ∧
      (leafWord (some (c, prot)) &&& PTE_W ≠ 0 ↔ prot &&& MMAP_WRITE ≠ 0) := by
  have hword : leafWord (some (c, prot)) =
      c ||| (PTE_P ||| (PTE_U ||| (if prot &&& MMAP_WRITE ≠ 0 then PTE_W else 0))) := by
    rw [leafWord, if_neg hprot, BitVec.or_assoc, BitVec.or_assoc]
  rw [hword]
  by_cases hw : prot &&& MMAP_WRITE ≠ 0
  · rw [if_pos hw, baseof_or hc (by decide), flag_or hc (by decide), flag_or hc (by decide),
      flag_or hc (by decide)]
    exact ⟨rfl, by decide, by decide, iff_of_true (by decide) hw⟩
  · rw [if_neg hw, baseof_or hc (by decide), flag_or hc (by decide), flag_or hc (by decide),
      flag_or hc (by decide)]
    exact ⟨rfl, by decide, by decide, iff_of_false (by decide) hw⟩

theorem rootWord_some (hc : baseof c = c) :
    baseof (c ||| PTE_P ||| PTE_U) = c ∧ (c ||| PTE_P ||| PTE_U) &&& PTE_P ≠ 0 ∧
      (c ||| PTE_P ||| PTE_U) &&& PTE_U ≠ 0 := by
  rw [BitVec.or_assoc, baseof_or hc (by decide), flag_or hc (by decide), flag_or hc (by decide)]
  exact ⟨rfl, by decide, by decide⟩

theorem largeWord_flags (x : Addr) :
    (x <<< 30 ||| (PTE_P ||| PTE_W ||| PTE_PS)) &&& PTE_P ≠ 0 ∧
      (x <<< 30 ||| (PTE_P ||| PTE_W ||| PTE_PS)) &&& PTE_PS ≠ 0 := by
  have hx : baseof (x <<< 30) = x <<< 30 := by
    apply BitVec.eq_of_getLsbD_eq
    intro k hk
    simp only [baseof, BitVec.getLsbD_and, BitVec.getLsbD_not, BitVec.getLsbD_shiftLeft]
    interval_cases k <;> simp
  rw [flag_or hx (by decide), flag_or hx (by decide)]
  decide

end Entries

/-- `f` is the table at each path of indices of each space, `m` the last call for each page. -/
structure Rep (boot : Addr → Addr) (s : State) (f : Places Space ℕ Addr)
    (m : Space → List ℕ → Option Leaf) : Prop where
  forest : Forest f
  depth : ∀ a p b, f a p = some b → p.length ≤ 3
  index : ∀ a p b, f a p = some b → ∀ i ∈ p, i < 512
  shared : ∀ a p, f a (0 :: p) = none
  alloc : ∀ a p b, f a p = some b → b ∈ s.alloc
  ptr : ∀ a b, f a [] = some b → s.ptr a = b ||| PTE_P ||| PTE_U
  table : ∀ a p b i, f a p = some b → p.length < 3 → i < 512 →
    s.mem (slot b i) = if p = [] ∧ i = 0 then kernelEntry else tableWord (f a (p ++ [i]))
  leaf : ∀ a p b i, f a p = some b → p.length = 3 → i < 512 →
    s.mem (slot b i) = leafWord (m a (p ++ [i]))
  reached : ∀ a p i, p.length = 3 → f a p = none → m a (p ++ [i]) = none
  log : ∀ b ∈ s.alloc, baseof b = b ∧ b ∉ kernelTables
  nodup : s.alloc.Nodup
  kernel : ∀ t ∈ kernelTables, ∀ i < 512, s.mem (slot t i) = boot (slot t i)

theorem kernelTables_aligned {t : Addr} (ht : t ∈ kernelTables) : baseof t = t := by
  simp only [kernelTables, List.mem_cons, List.not_mem_nil, or_false] at ht
  rcases ht with rfl | rfl <;> decide

section Steps

variable {boot : Addr → Addr} {s s' : State} {f : Places Space ℕ Addr}
  {m : Space → List ℕ → Option Leaf} {a : Space} {p : List ℕ} {b c : Addr} {i : ℕ}

theorem Rep.aligned (h : Rep boot s f m) (hb : f a p = some b) : baseof b = b :=
  (h.log b (h.alloc a p b hb)).1

/-- Memory outside the tables does not matter, and neither do pages that are not yet linked. -/
theorem Rep.frame (h : Rep boot s f m)
    (hmem : ∀ t, t ∈ s.alloc ∨ t ∈ kernelTables → ∀ i < 512, s'.mem (slot t i) = s.mem (slot t i))
    (hptr : s'.ptr = s.ptr) (halloc : ∀ b ∈ s.alloc, b ∈ s'.alloc)
    (hlog : ∀ b ∈ s'.alloc, baseof b = b ∧ b ∉ kernelTables) (hnodup : s'.alloc.Nodup) :
    Rep boot s' f m where
  forest := h.forest
  depth := h.depth
  index := h.index
  shared := h.shared
  alloc a p b hb := halloc b (h.alloc a p b hb)
  ptr a b hb := by rw [hptr, h.ptr a b hb]
  table a p b i hb hp hi := by
    rw [hmem b (.inl (h.alloc a p b hb)) i hi, h.table a p b i hb hp hi]
  leaf a p b i hb hp hi := by
    rw [hmem b (.inl (h.alloc a p b hb)) i hi, h.leaf a p b i hb hp hi]
  reached := h.reached
  log := hlog
  nodup := hnodup
  kernel t ht i hi := by rw [hmem t (.inr ht) i hi, h.kernel t ht i hi]

theorem write_mem (s : State) (e : Addr) (hb : baseof b = b) (hi : i < 512) {t : Addr}
    (ht : baseof t = t) {j : ℕ} (hj : j < 512) :
    (s.write (.page b) i e).mem (slot t j) = if t = b ∧ j = i then e else s.mem (slot t j) := by
  simp only [State.write]
  by_cases heq : t = b ∧ j = i
  · obtain ⟨rfl, rfl⟩ := heq
    rw [if_pos ⟨rfl, rfl⟩, Function.update_self]
  · rw [if_neg heq, Function.update_of_ne fun he => heq (slot_inj ht hb hj hi he)]

structure Fresh (s : State) (b : Addr) : Prop where
  aligned : baseof b = b
  alloc : b ∉ s.alloc
  kernel : b ∉ kernelTables

theorem zero_mem {b : Addr} (hb : baseof b = b) (mem : Addr → Addr) {n : ℕ} (hn : n ≤ 512)
    {t : Addr} (ht : baseof t = t) {j : ℕ} (hj : j < 512) :
    (List.range n).foldl (fun mem i => Function.update mem (slot b i) 0) mem (slot t j) =
      if t = b ∧ j < n then 0 else mem (slot t j) := by
  induction n with
  | zero => simp
  | succ n ih =>
    rw [List.range_succ, List.foldl_append, List.foldl_cons, List.foldl_nil]
    by_cases heq : t = b ∧ j = n
    · obtain ⟨rfl, rfl⟩ := heq
      rw [Function.update_self, if_pos ⟨rfl, Nat.lt_succ_self _⟩]
    · rw [Function.update_of_ne fun he => heq (slot_inj ht hb hj (by omega) he), ih (by omega)]
      refine if_congr (and_congr_right fun htb => ?_) rfl rfl
      have hjn : j ≠ n := fun hj => heq ⟨htb, hj⟩
      omega

theorem clear_mem {b : Addr} (hb : baseof b = b) (mem : Addr → Addr) {t : Addr}
    (ht : baseof t = t) (hi : i < 512) :
    clear b mem (slot t i) = if t = b then 0 else mem (slot t i) := by
  rw [clear, zero_mem hb mem le_rfl ht hi]
  exact if_congr (and_iff_left hi) rfl rfl

theorem pgallocz_spec {pg : PageAlloc} (h : pgallocz pg s = some (b, s')) :
    Fresh s b ∧ s'.ptr = s.ptr ∧ s'.alloc = s.alloc ++ [b] ∧
      ∀ t, baseof t = t → ∀ i < 512,
        s'.mem (slot t i) = if t = b then 0 else s.mem (slot t i) := by
  simp only [pgallocz] at h
  split_ifs at h with hzero
  obtain ⟨rfl, rfl⟩ := Prod.mk.inj (Option.some.inj h)
  obtain ⟨hlog, hkernel⟩ := pg.fresh s.alloc hzero
  refine ⟨⟨pg.aligned _, hlog, hkernel⟩, rfl, rfl, fun t ht i hi => ?_⟩
  rw [← clear_mem (pg.aligned s.alloc) s.mem ht hi]

/-- A page has been allocated and cleared, and no entry points to it yet. -/
structure Cleared (s : State) (f : Places Space ℕ Addr) (b : Addr) : Prop where
  alloc : b ∈ s.alloc
  unlinked : ∀ a, ¬ Has f a b
  zero : ∀ i < 512, s.mem (slot b i) = 0

theorem Rep.pgallocz {pg : PageAlloc} (h : Rep boot s f m)
    (hpg : pgallocz pg s = some (b, s')) : Rep boot s' f m ∧ Cleared s' f b := by
  obtain ⟨hfresh, hptr, halloc, hmem⟩ := pgallocz_spec hpg
  refine ⟨h.frame (fun t ht i hi => ?_) hptr (fun c hc => ?_) (fun c hc => ?_) ?_, ⟨?_, ?_, ?_⟩⟩
  · rcases ht with ht | ht
    · rw [hmem t (h.log t ht).1 i hi, if_neg (ne_of_mem_of_not_mem ht hfresh.alloc)]
    · rw [hmem t (kernelTables_aligned ht) i hi, if_neg (ne_of_mem_of_not_mem ht hfresh.kernel)]
  · rw [halloc]
    exact List.mem_append_left _ hc
  · rw [halloc, List.mem_append, List.mem_singleton] at hc
    rcases hc with hc | rfl
    · exact h.log c hc
    · exact ⟨hfresh.aligned, hfresh.kernel⟩
  · rw [halloc]
    exact List.nodup_append_comm.mp (List.nodup_cons.mpr ⟨hfresh.alloc, h.nodup⟩)
  · rw [halloc]
    exact List.mem_append_right _ (List.mem_singleton_self b)
  · rintro a ⟨p, hp⟩
    exact hfresh.alloc (h.alloc a p b hp)
  · intro i hi
    rw [hmem b hfresh.aligned i hi, if_pos rfl]

theorem Rep.write_slot (h : Rep boot s f m) (hb : f a p = some b) (hi : i < 512) (e : Addr)
    {k : Space} {q : List ℕ} {d : Addr} {j : ℕ} (hd : f k q = some d) (hj : j < 512) :
    (s.write (.page b) i e).mem (slot d j) =
      if k = a ∧ q = p ∧ j = i then e else s.mem (slot d j) := by
  rw [write_mem s _ (h.aligned hb) hi (h.aligned hd) hj]
  refine if_congr ⟨?_, ?_⟩ rfl rfl
  · rintro ⟨rfl, hji⟩
    obtain ⟨hk, hq⟩ := h.forest.inj k a q p d hd hb
    exact ⟨hk, hq, hji⟩
  · rintro ⟨rfl, rfl, hji⟩
    exact ⟨Option.some.inj (hd.symm.trans hb), hji⟩

theorem Rep.write_kernel (h : Rep boot s f m) (hb : f a p = some b) (hi : i < 512) (e : Addr)
    {t : Addr} (ht : t ∈ kernelTables) {j : ℕ} (hj : j < 512) :
    (s.write (.page b) i e).mem (slot t j) = boot (slot t j) := by
  have hne : t ≠ b := ne_of_mem_of_not_mem ht (h.log b (h.alloc a p b hb)).2
  rw [write_mem s _ (h.aligned hb) hi (kernelTables_aligned ht) hj, if_neg fun he => hne he.1,
    h.kernel t ht j hj]

theorem Rep.graft (h : Rep boot s f m) (hb : f a p = some b) (hp : p.length < 3) (hi : i < 512)
    (huser : ¬ (p = [] ∧ i = 0)) (hnone : f a (p ++ [i]) = none) (hc : Cleared s f c) :
    Rep boot (s.write (.page b) i (tableWord (some c))) (graft f a p i c) m := by
  have halign := h.aligned hb
  have hcalign := (h.log c hc.alloc).1
  have hbc : b ≠ c := fun he => hc.unlinked a ⟨p, he ▸ hb⟩
  -- the new place is the only one whose parent's entry changes
  have hcase : ∀ k q d, Tables.graft f a p i c k q = some d →
      f k q = some d ∨ k = a ∧ q = p ++ [i] ∧ d = c := fun k q d hd => graft_cases hd
  have hnew : ∀ j < 512, (s.write (.page b) i (tableWord (some c))).mem (slot c j) = 0 := by
    intro j hj
    rw [write_mem s _ halign hi hcalign hj, if_neg fun he => hbc he.1.symm, hc.zero j hj]
  have hbelow : ∀ q, f a (p ++ [i] ++ q) = none := by
    intro q
    by_contra hq
    obtain ⟨d, hd⟩ := Option.ne_none_iff_exists'.mp hq
    obtain ⟨d', hd'⟩ := h.forest.prefix hd
    rw [hnone] at hd'
    cases hd'
  refine ⟨h.forest.graft hb hnone hc.unlinked, fun k q d hd => ?_, fun k q d hd => ?_,
    fun k q => ?_, fun k q d hd => ?_, fun k d hd => ?_, fun k q d j hd hq hj => ?_,
    fun k q d j hd hq hj => ?_, fun k q j hq hnone' => ?_, h.log, h.nodup, fun t ht j hj => ?_⟩
  · rcases hcase k q d hd with hd | ⟨-, rfl, -⟩
    · exact h.depth k q d hd
    · rw [List.length_append, List.length_singleton]
      exact hp
  · rcases hcase k q d hd with hd | ⟨-, rfl, -⟩
    · exact h.index k q d hd
    · intro j hj
      rcases List.mem_append.mp hj with hj | hj
      · exact h.index a p b hb j hj
      · rwa [List.mem_singleton.mp hj]
  · by_contra hq
    obtain ⟨d, hd⟩ := Option.ne_none_iff_exists'.mp hq
    rcases hcase k _ d hd with hd | ⟨-, heq, -⟩
    · rw [h.shared k q] at hd
      cases hd
    · cases p with
      | nil => exact huser ⟨rfl, (List.cons.inj heq).1.symm⟩
      | cons x p =>
        rw [List.cons_append] at heq
        rw [← (List.cons.inj heq).1, h.shared] at hb
        cases hb
  · rcases hcase k q d hd with hd | ⟨-, -, rfl⟩
    · exact h.alloc k q d hd
    · exact hc.alloc
  · rcases hcase k [] d hd with hd | ⟨-, heq, -⟩
    · exact h.ptr k d hd
    · exact absurd heq.symm (List.append_ne_nil_of_right_ne_nil _ (List.cons_ne_nil _ _))
  · rcases hcase k q d hd with hd | ⟨rfl, rfl, rfl⟩
    · rw [h.write_slot hb hi _ hd hj]
      by_cases heq : k = a ∧ q = p ∧ j = i
      · obtain ⟨rfl, rfl, rfl⟩ := heq
        rw [if_pos ⟨rfl, rfl, rfl⟩, if_neg huser, graft_self]
      · rw [if_neg heq, h.table k q d j hd hq hj]
        by_cases hk : k = a
        · subst hk
          rw [graft_of_path_ne f c fun he => ?_]
          obtain ⟨hqp, hji⟩ := List.append_inj' he rfl
          exact heq ⟨rfl, hqp, (List.cons.inj hji).1⟩
        · rw [graft_of_ne f c hk]
    · rw [hnew j hj, if_neg fun he =>
        List.append_ne_nil_of_right_ne_nil p (List.cons_ne_nil i []) he.1,
        graft_of_path_ne f d fun he => ?_, hbelow [j]]
      · rfl
      · have hlen := congrArg List.length he
        simp at hlen
  · rcases hcase k q d hd with hd | ⟨rfl, rfl, rfl⟩
    · rw [h.write_slot hb hi _ hd hj, if_neg fun he => ?_, h.leaf k q d j hd hq hj]
      rw [he.2.1] at hq
      exact absurd hq hp.ne
    · rw [hnew j hj, h.reached k _ j hq hnone]
      rfl
  · refine h.reached k q j hq ?_
    by_contra hsome
    obtain ⟨d, hd⟩ := Option.ne_none_iff_exists'.mp hsome
    rw [graft_mono hnone hd] at hnone'
    cases hnone'
  · exact h.write_kernel hb hi _ ht hj

theorem Rep.leafWrite (h : Rep boot s f m) (hb : f a p = some b) (hp : p.length = 3)
    (hi : i < 512) (l : Leaf) {m' : Space → List ℕ → Option Leaf}
    (hm' : ∀ k q, m' k q = if k = a ∧ q = p ++ [i] then some l else m k q) :
    Rep boot (s.write (.page b) i (leafWord (some l))) f m' := by
  refine ⟨h.forest, h.depth, h.index, h.shared, h.alloc, h.ptr, fun k q d j hd hq hj => ?_,
    fun k q d j hd hq hj => ?_, fun k q j hq hnone => ?_, h.log, h.nodup, fun t ht j hj => ?_⟩
  · rw [h.write_slot hb hi _ hd hj, if_neg fun he => ?_, h.table k q d j hd hq hj]
    rw [he.2.1, hp] at hq
    exact lt_irrefl _ hq
  · rw [h.write_slot hb hi _ hd hj, hm']
    by_cases heq : k = a ∧ q = p ∧ j = i
    · obtain ⟨rfl, rfl, rfl⟩ := heq
      rw [if_pos ⟨rfl, rfl, rfl⟩, if_pos ⟨rfl, rfl⟩]
    · rw [if_neg heq, if_neg fun he => ?_, h.leaf k q d j hd hq hj]
      obtain ⟨hqp, hji⟩ := List.append_inj' he.2 rfl
      exact heq ⟨he.1, hqp, (List.cons.inj hji).1⟩
  · rw [hm', if_neg fun he => ?_, h.reached k q j hq hnone]
    rw [he.1, (List.append_inj' he.2 rfl).1, hb] at hnone
    cases hnone
  · exact h.write_kernel hb hi _ ht hj

end Steps

end Ysyx.Am.X86
