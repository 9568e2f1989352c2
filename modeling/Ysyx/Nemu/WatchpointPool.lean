import Ysyx.Nemu.Watchpoint

/-! The two lists of the watchpoint pool over whole histories. `new_wp` and
`free_wp` move one node from one list to the other; `wp_delete` frees the node it
is asked for unless node 31 is active ahead of it, and has no way to find that a
number is not active. -/

namespace Ysyx.Nemu

open Bytes Chain

/-- The two lists of the pool: between them they have every node, and no node twice. -/
structure Spells (w : WPPool) (active spare : List WPtr) : Prop where
  head : Linked w.next w.head active
  free : Linked w.next w.free_ spare
  apart : ∀ p ∈ active, p ∉ spare
  all : ∀ p, p ∈ active ∨ p ∈ spare
  NO : ∀ p, (w.wp p).NO = (p.val : ℤ)

theorem Spells.NO_inj {w : WPPool} {a f : List WPtr} (h : Spells w a f) {p q : WPtr}
    (heq : (w.wp p).NO = (w.wp q).NO) : p = q := by
  rw [h.NO, h.NO, Int.natCast_inj] at heq
  exact Fin.ext heq

/-- Nothing but links has changed in the nodes. -/
def SameData (w w' : WPPool) : Prop := ∀ p, w'.wp p = { w.wp p with next := w'.next p }

theorem SameData.rfl {w : WPPool} : SameData w w := fun _ => Eq.refl _

theorem SameData.NO {w w' : WPPool} (h : SameData w w') (p : WPtr) :
    (w'.wp p).NO = (w.wp p).NO := by rw [h p]

theorem sameData_setNext (w : WPPool) (p : WPtr) (q : Option WPtr) : SameData w (w.setNext p q) := by
  intro r
  by_cases h : r = p
  · subst h
    simp [WPPool.setNext, WPPool.next]
  · simp [WPPool.setNext, WPPool.next, h]

theorem SameData.trans {w₁ w₂ w₃ : WPPool} (h : SameData w₁ w₂) (h' : SameData w₂ w₃) :
    SameData w₁ w₃ := by
  intro p
  rw [h' p, h p]

section Lists

variable {w w' : WPPool} {a b f : List WPtr} {p : WPtr}

theorem Spells.nodup (h : Spells w a f) : (a ++ f).Nodup :=
  List.nodup_append.mpr ⟨h.head.nodup, h.free.nodup,
    fun p hp _ hq he => h.apart p hp (he ▸ hq)⟩

theorem Spells.unique {a' f' : List WPtr} (h : Spells w a f) (h' : Spells w a' f') :
    a = a' ∧ f = f' := ⟨h.head.unique h'.head, h.free.unique h'.free⟩

theorem Spells.length_le (h : Spells w a f) : a.length ≤ NR_WP := by
  have := h.head.nodup.length_le_card
  rwa [Fintype.card_fin] at this

/-- The links that `init_wp_pool` sets. -/
def initNext (i : WPtr) : Option WPtr := if h : i.val + 1 < NR_WP then some ⟨i.val + 1, h⟩ else none

theorem linked_init : Linked initNext (some 0) (List.finRange NR_WP) := by decide

theorem spells_init (w : WPPool) : Spells (initWpPool w) [] (List.finRange NR_WP) where
  head := rfl
  free := linked_init
  apart _ hp := (List.not_mem_nil hp).elim
  all p := .inr (List.mem_finRange p)
  NO _ := rfl

theorem newWp_spec (h : Spells w a (p :: f)) :
    ∃ w', newWp w = .ok (p, w') ∧ Spells w' (p :: a) f ∧ SameData w w' := by
  have hp : p ∉ a := fun hp => h.apart p hp List.mem_cons_self
  have hpf : p ∉ f := (List.nodup_cons.mp h.free.nodup).1
  have hfree : w.free_ = some p := h.free.1
  refine ⟨{ ({ w with free_ := w.next p } : WPPool).setNext p w.head with head := some p }, ?_, ?_,
    sameData_setNext { w with free_ := w.next p } p w.head⟩
  · rw [newWp, hfree]
  · have hnext : ({ ({ w with free_ := w.next p } : WPPool).setNext p w.head with
        head := some p } : WPPool).next = Function.update w.next p w.head :=
      setNext_next { w with free_ := w.next p } p w.head
    refine ⟨?_, ?_, ?_, fun q => ?_, fun q => ?_⟩
    · rw [hnext]
      exact h.head.push hp
    · rw [hnext]
      exact h.free.2.congr fun q hq =>
        Function.update_of_ne (ne_of_mem_of_not_mem hq hpf) _ _
    · intro q hq
      rcases List.mem_cons.mp hq with rfl | hq
      · exact hpf
      · exact fun hqf => h.apart q hq (List.mem_cons_of_mem p hqf)
    · rcases h.all q with hq | hq
      · exact .inl (List.mem_cons_of_mem p hq)
      · rcases List.mem_cons.mp hq with rfl | hq
        · exact .inl List.mem_cons_self
        · exact .inr hq
    · exact ((sameData_setNext { w with free_ := w.next p } p w.head).NO q).trans (h.NO q)

/-- `new_wp` fails its assertion once the free list is empty. -/
theorem newWp_nil (h : Spells w a []) : newWp w = .error .assertion := by
  rw [newWp, show w.free_ = none from h.free]

theorem findPrev_spec {x t : WPtr} {n : ℕ} (hl : Linked w.next (some x) (a ++ t :: p :: b))
    (hn : a.length ≤ n) : findPrev w p n x = .ok t := by
  induction a generalizing x n with
  | nil =>
    obtain ⟨hx, hp, -⟩ := hl
    cases hx
    rw [findPrev, hp]
    exact if_pos rfl
  | cons y a ih =>
    have hxy : x = y := Option.some.inj hl.1
    subst hxy
    replace hl : Linked w.next (w.next x) (a ++ t :: p :: b) := hl.2
    cases n with
    | zero => cases hn
    | succ n =>
      -- the next node is not `p`, which comes after `t`
      have hl' : Linked w.next (w.next x) ((a ++ [t]) ++ p :: b) := by
        rwa [List.append_assoc, List.singleton_append]
      obtain ⟨q, hqa, hnext⟩ := hl'.head_mem (by simp)
      have hne : q ≠ p := by
        rintro rfl
        exact (List.nodup_append.mp hl'.nodup).2.2 q hqa q List.mem_cons_self rfl
      rw [findPrev, hnext]
      simp only [if_neg hne]
      rw [hnext] at hl
      exact ih hl (Nat.le_of_succ_le_succ hn)

theorem spells_pushFree (hhead : Linked w.next w.head (a ++ b)) (hfree : Linked w.next w.free_ f)
    (hp : p ∉ a ++ b) (hpf : p ∉ f) (hapart : ∀ q ∈ a ++ b, q ∉ f)
    (hall : ∀ q, q ∈ a ++ p :: b ∨ q ∈ f) (hNO : ∀ q, (w.wp q).NO = (q.val : ℤ)) :
    Spells (pushFree w p) (a ++ b) (p :: f) where
  head := by
    rw [pushFree_next]
    exact hhead.congr fun q hq => Function.update_of_ne (ne_of_mem_of_not_mem hq hp) _ _
  free := by
    rw [pushFree_next, pushFree_free]
    exact hfree.push hpf
  apart q hq := by
    rw [List.mem_cons, not_or]
    exact ⟨ne_of_mem_of_not_mem hq hp, hapart q hq⟩
  all q := by
    have := hall q
    simp only [List.mem_append, List.mem_cons] at this ⊢
    tauto
  NO q := ((sameData_setNext w p w.free_).NO q).trans (hNO q)

theorem freeWp_spec (h : Spells w (a ++ p :: b) f) :
    ∃ w', freeWp w (some p) = .ok w' ∧ Spells w' (a ++ b) (p :: f) ∧ SameData w w' := by
  have hnodup : (a ++ p :: b).Nodup := h.head.nodup
  have hp : p ∉ a ++ b := by
    have := List.nodup_middle.mp hnodup
    exact (List.nodup_cons.mp this).1
  have hpf : p ∉ f := h.apart p (by simp)
  have hapart : ∀ q ∈ a ++ b, q ∉ f := fun q hq => h.apart q (by
    simp only [List.mem_append, List.mem_cons] at hq ⊢
    tauto)
  rcases List.eq_nil_or_concat a with rfl | ⟨a, t, rfl⟩
  · have hhead : w.head = some p := h.head.1
    have hrest : Linked w.next (w.next p) b := h.head.2
    have hpush : Spells (pushFree { w with head := w.next p } p) ([] ++ b) (p :: f) :=
      spells_pushFree (w := { w with head := w.next p }) hrest h.free hp hpf hapart h.all h.NO
    cases b with
    | nil =>
      -- a sole head: the list becomes empty
      have hnil : w.next p = none := hrest
      rw [hnil] at hpush
      refine ⟨{ pushFree w p with head := none }, ?_, hpush, sameData_setNext w p w.free_⟩
      rw [freeWp, if_pos ⟨hhead, hnil⟩]
    | cons q b =>
      have hne : w.next p ≠ none := by
        rw [hrest.1]
        exact Option.some_ne_none q
      refine ⟨pushFree { w with head := w.next p } p, ?_, hpush, sameData_setNext w p w.free_⟩
      rw [freeWp, if_neg fun hc => hne hc.2, if_pos ⟨hhead, hne⟩]
  · -- an inner node: the node before it is found and relinked
    obtain ⟨x, hxa, hx⟩ := h.head.head_mem (by simp)
    have hxp : w.head ≠ some p := by
      intro hc
      cases hc.symm.trans hx
      exact hp (List.mem_append_left b hxa)
    rw [List.concat_eq_append, List.append_assoc, List.singleton_append] at h
    rw [List.concat_eq_append, List.append_assoc, List.singleton_append] at hp hapart ⊢
    have hprev : findPrev w p NR_WP x = .ok t := by
      refine findPrev_spec (hx ▸ h.head) ?_
      have := h.length_le
      rw [List.length_append] at this
      omega
    have hdata : SameData w (pushFree (w.setNext t (w.next p)) p) :=
      (sameData_setNext w t (w.next p)).trans (sameData_setNext _ p _)
    refine ⟨pushFree (w.setNext t (w.next p)) p, ?_, ?_, hdata⟩
    · rw [freeWp, if_neg fun hc => hxp hc.1, if_neg fun hc => hxp hc.1, hx]
      simp only [hprev, bind, Except.bind, pure, Except.pure]
    · have htf : t ∉ f := hapart t (by simp)
      rw [← List.singleton_append, ← List.append_assoc] at hp hapart ⊢
      refine spells_pushFree ?_ ?_ hp hpf hapart (fun q => ?_)
        (fun q => ((sameData_setNext w t _).NO q).trans (h.NO q))
      · rw [setNext_next, List.append_assoc, List.singleton_append]
        exact h.head.unlink
      · rw [setNext_next]
        exact h.free.congr fun q hq => Function.update_of_ne (ne_of_mem_of_not_mem hq htf) _ _
      · rw [List.append_assoc, List.singleton_append]
        exact h.all q

end Lists

/-- The node is on the list at `head`. -/
def Active (w : WPPool) (p : WPtr) : Prop := ∃ l, Linked w.next w.head l ∧ p ∈ l

/-- The pools that `init_wp_pool` and calls of `new_wp` and `free_wp` lead to. -/
inductive PoolRun : WPPool → Prop where
  | init (w : WPPool) : PoolRun (initWpPool w)
  | new {w w' : WPPool} {p : WPtr} (run : PoolRun w) (h : newWp w = .ok (p, w')) : PoolRun w'
  | free {w w' : WPPool} {p : WPtr} (run : PoolRun w) (hp : Active w p)
      (h : freeWp w (some p) = .ok w') : PoolRun w'

section Runs

variable {w w' : WPPool} {a b f : List WPtr} {p : WPtr} {no : ℤ}

theorem Spells.new (h : Spells w a f) (hnew : newWp w = .ok (p, w')) :
    ∃ f', f = p :: f' ∧ Spells w' (p :: a) f' ∧ SameData w w' := by
  cases f with
  | nil =>
    rw [newWp_nil h] at hnew
    cases hnew
  | cons q f =>
    obtain ⟨w₁, hok, hs, hd⟩ := newWp_spec h
    cases hok.symm.trans hnew
    exact ⟨f, rfl, hs, hd⟩

theorem Spells.freed (h : Spells w a f) (hp : p ∈ a) (hfree : freeWp w (some p) = .ok w') :
    Spells w' (a.erase p) (p :: f) ∧ SameData w w' := by
  obtain ⟨l, r, rfl⟩ := List.append_of_mem hp
  obtain ⟨w₁, hok, hs, hd⟩ := freeWp_spec h
  cases hok.symm.trans hfree
  have hl : p ∉ l := fun hpl =>
    (List.nodup_append.mp h.head.nodup).2.2 p hpl p List.mem_cons_self rfl
  rw [List.erase_append_right _ hl, List.erase_cons_head]
  exact ⟨hs, hd⟩

theorem PoolRun.spells (run : PoolRun w) : ∃ a f, Spells w a f := by
  induction run with
  | init w => exact ⟨_, _, spells_init w⟩
  | new _ hnew ih =>
    obtain ⟨a, f, h⟩ := ih
    obtain ⟨f', -, hs, -⟩ := h.new hnew
    exact ⟨_, _, hs⟩
  | free _ hp hfree ih =>
    obtain ⟨a, f, h⟩ := ih
    obtain ⟨l, hl, hpl⟩ := hp
    rw [hl.unique h.head] at hpl
    exact ⟨_, _, (h.freed hpl hfree).1⟩

/-- In every history the two lists are finite, hold each node once between them, keep
the numbers, and let the next call go through. -/
theorem poolRun_lists_ok (run : PoolRun w) :
    ∃ a f, Linked w.next w.head a ∧ Linked w.next w.free_ f ∧
      (a ++ f).Nodup ∧ (∀ p, p ∈ a ++ f) ∧ (∀ p, (w.wp p).NO = (p.val : ℤ)) ∧
      (∀ p ∈ a, ∀ q ∈ a, (w.wp p).NO = (w.wp q).NO → p = q) ∧
      (w.free_ ≠ none → ∃ r, newWp w = .ok r) ∧
      ∀ p, Active w p → ∃ w', freeWp w (some p) = .ok w' := by
  obtain ⟨a, f, h⟩ := run.spells
  refine ⟨a, f, h.head, h.free, h.nodup, fun p => List.mem_append.mpr (h.all p), h.NO,
    fun p _ q _ heq => h.NO_inj heq, fun hne => ?_, fun p hp => ?_⟩
  · cases f with
    | nil => exact absurd h.free hne
    | cons q f =>
      obtain ⟨w₁, hok, -⟩ := newWp_spec h
      exact ⟨_, hok⟩
  · obtain ⟨l, hl, hpl⟩ := hp
    rw [hl.unique h.head] at hpl
    obtain ⟨l', r, rfl⟩ := List.append_of_mem hpl
    obtain ⟨w₁, hok, -⟩ := freeWp_spec h
    exact ⟨_, hok⟩

def blankPool : WPPool := ⟨fun _ => ⟨0, none, [], 0⟩, none, none⟩

def onePool : WPPool :=
  { ({ initWpPool blankPool with free_ := some ⟨1, by decide⟩ } : WPPool).setNext ⟨0, by decide⟩
    none with head := some ⟨0, by decide⟩ }

theorem poolRun_lists_ok_one :
    ∃ a f, Linked onePool.next onePool.head a ∧ Linked onePool.next onePool.free_ f ∧
      (a ++ f).Nodup ∧ (∀ p, p ∈ a ++ f) ∧ (∀ p, (onePool.wp p).NO = (p.val : ℤ)) ∧
      (∀ p ∈ a, ∀ q ∈ a, (onePool.wp p).NO = (onePool.wp q).NO → p = q) ∧
      (onePool.free_ ≠ none → ∃ r, newWp onePool = .ok r) ∧
      ∀ p, Active onePool p → ∃ w', freeWp onePool (some p) = .ok w' :=
  poolRun_lists_ok (.new (p := 0) (.init blankPool) rfl)

/-- The pools of a debugger session: `w` sets a watchpoint and `d` deletes one. -/
inductive DebugRun : WPPool → Prop where
  | init (w : WPPool) : DebugRun (initWpPool w)
  | set {w w' : WPPool} {e : List Char} {v : Word} {p : WPtr} (run : DebugRun w)
      (h : wpSet w e v = .ok (p, w')) : DebugRun w'
  | delete {w w' : WPPool} {no : ℤ} (run : DebugRun w) (h : wpDelete w no = .ok w') : DebugRun w'

theorem Spells.set {e : List Char} {v : Word} (h : Spells w a f)
    (hset : wpSet w e v = .ok (p, w')) :
    ∃ f', f = p :: f' ∧ Spells w' (p :: a) f' ∧
      (∀ q ≠ p, w'.wp q = { w.wp q with next := w'.next q }) ∧
      (w'.wp p).expr = e ∧ (w'.wp p).old = v ∧ e.length < 100 := by
  obtain ⟨⟨q, w₁⟩, hnew, hset⟩ := bind_eq_ok.mp hset
  dsimp only at hset
  split_ifs at hset with hlen
  cases hset
  obtain ⟨f', rfl, hs, hd⟩ := h.new hnew
  refine ⟨f', rfl, ⟨?_, ?_, hs.apart, hs.all, fun r => ?_⟩, fun r hr => ?_, ?_, ?_, hlen⟩
  · rw [fill_next]
    exact hs.head
  · rw [fill_next]
    exact hs.free
  · by_cases hr : r = p
    · subst hr
      simpa [WPPool.fill] using hs.NO r
    · simpa [WPPool.fill, hr] using hs.NO r
  · rw [fill_next, ← hd r]
    exact Function.update_of_ne hr _ _
  · simp [WPPool.fill]
  · simp [WPPool.fill]

/-- The loop of `wp_delete` stops at the first node that has the number or is the last one. -/
def Stops (w : WPPool) (no : ℤ) (p : WPtr) : Prop :=
  (w.wp p).NO = no ∨ (NR_WP : ℤ) - 1 ≤ (w.wp p).NO

theorem seekNo_found {h : Option WPtr} {n : ℕ} (hl : Linked w.next h (a ++ p :: b))
    (ha : ∀ q ∈ a, ¬ Stops w no q) (hp : Stops w no p) (hn : a.length ≤ n) :
    seekNo w no n h = .ok p := by
  induction a generalizing h n with
  | nil =>
    rw [hl.1]
    have hc : ¬ ((w.wp p).NO ≠ no ∧ (w.wp p).NO < (NR_WP : ℤ) - 1) := fun hc =>
      hp.elim hc.1 (not_le.mpr hc.2)
    unfold seekNo
    rw [if_neg hc]
  | cons x a ih =>
    rw [hl.1]
    have hx := not_or.mp (ha x List.mem_cons_self)
    have hc : (w.wp x).NO ≠ no ∧ (w.wp x).NO < (NR_WP : ℤ) - 1 := ⟨hx.1, not_le.mp hx.2⟩
    cases n with
    | zero => cases hn
    | succ n =>
      unfold seekNo
      rw [if_pos hc]
      exact ih hl.2 (fun q hq => ha q (List.mem_cons_of_mem x hq)) (Nat.le_of_succ_le_succ hn)

/-- Without such a node the loop runs into `NULL`. -/
theorem seekNo_null {h : Option WPtr} {n : ℕ} (hl : Linked w.next h a)
    (ha : ∀ q ∈ a, ¬ Stops w no q) (hn : a.length ≤ n) :
    seekNo w no n h = .error .nullPtr := by
  induction a generalizing h n with
  | nil =>
    rw [show h = none from hl]
    unfold seekNo
    rfl
  | cons x a ih =>
    rw [hl.1]
    have hx := not_or.mp (ha x List.mem_cons_self)
    have hc : (w.wp x).NO ≠ no ∧ (w.wp x).NO < (NR_WP : ℤ) - 1 := ⟨hx.1, not_le.mp hx.2⟩
    cases n with
    | zero => cases hn
    | succ n =>
      unfold seekNo
      rw [if_pos hc]
      exact ih hl.2 (fun q hq => ha q (List.mem_cons_of_mem x hq)) (Nat.le_of_succ_le_succ hn)

theorem exists_first_stop (w : WPPool) (no : ℤ) (a : List WPtr) :
    (∀ q ∈ a, ¬ Stops w no q) ∨
      ∃ l p r, a = l ++ p :: r ∧ (∀ q ∈ l, ¬ Stops w no q) ∧ Stops w no p := by
  induction a with
  | nil => exact .inl fun q hq => (List.not_mem_nil hq).elim
  | cons x a ih =>
    by_cases hx : Stops w no x
    · exact .inr ⟨[], x, a, rfl, fun q hq => (List.not_mem_nil hq).elim, hx⟩
    · rcases ih with h | ⟨l, p, r, rfl, hl, hp⟩
      · refine .inl fun q hq => ?_
        rcases List.mem_cons.mp hq with rfl | hq
        · exact hx
        · exact h q hq
      · refine .inr ⟨x :: l, p, r, rfl, fun q hq => ?_, hp⟩
        rcases List.mem_cons.mp hq with rfl | hq
        · exact hx
        · exact hl q hq

theorem wpDelete_found (h : Spells w (a ++ p :: b) f) (hno : no < NR_WP)
    (ha : ∀ q ∈ a, ¬ Stops w no q) (hp : Stops w no p) :
    wpDelete w no = freeWp w (some p) := by
  obtain ⟨x, hx⟩ := h.head.exists_head (List.append_ne_nil_of_right_ne_nil a (List.cons_ne_nil p b))
  have hlen := h.length_le
  rw [List.length_append] at hlen
  have hseek : seekNo w no NR_WP (some x) = .ok p :=
    seekNo_found (hx ▸ h.head) ha hp (by omega)
  rw [wpDelete, if_pos hno, hx]
  simp only [hseek, bind, Except.bind]

theorem wpDelete_null (h : Spells w a f) (hne : a ≠ []) (hno : no < NR_WP)
    (ha : ∀ q ∈ a, ¬ Stops w no q) : wpDelete w no = .error .nullPtr := by
  obtain ⟨x, hx⟩ := h.head.exists_head hne
  have hseek : seekNo w no NR_WP (some x) = .error .nullPtr :=
    seekNo_null (hx ▸ h.head) ha h.length_le
  rw [wpDelete, if_pos hno, hx]
  simp only [hseek, bind, Except.bind]

/-- Deleting takes nodes off the active list, and leaves what they hold. -/
theorem Spells.delete (h : Spells w a f) (hdel : wpDelete w no = .ok w') :
    ∃ a' f', Spells w' a' f' ∧ (∀ p ∈ a', p ∈ a) ∧ SameData w w' := by
  have hno : no < NR_WP := by
    by_contra hno
    rw [wpDelete, if_neg hno] at hdel
    cases hdel
  by_cases hne : a = []
  · subst hne
    rw [wpDelete, if_pos hno, show w.head = none from h.head] at hdel
    cases hdel
    exact ⟨_, _, h, fun _ hp => hp, .rfl⟩
  rcases exists_first_stop w no a with hnone | ⟨l, p, r, rfl, hl, hp⟩
  · rw [wpDelete_null h hne hno hnone] at hdel
    cases hdel
  · rw [wpDelete_found h hno hl hp] at hdel
    obtain ⟨hs, hd⟩ := h.freed (by simp) hdel
    exact ⟨_, _, hs, fun q hq => List.mem_of_mem_erase hq, hd⟩

theorem DebugRun.spells (run : DebugRun w) : ∃ a f, Spells w a f := by
  induction run with
  | init w => exact ⟨_, _, spells_init w⟩
  | set _ hset ih =>
    obtain ⟨a, f, h⟩ := ih
    obtain ⟨f', -, hs, -⟩ := h.set hset
    exact ⟨_, _, hs⟩
  | delete _ hdel ih =>
    obtain ⟨a, f, h⟩ := ih
    obtain ⟨a', f', hs, -⟩ := h.delete hdel
    exact ⟨a', f', hs⟩

/-- What `wp_delete` is for: an active number goes from one list to the other, and any
other number changes nothing. -/
structure Deletes (w : WPPool) (a f : List WPtr) (no : ℤ) : Prop where
  active : ∀ p ∈ a, (w.wp p).NO = no →
    ∃ w', wpDelete w no = .ok w' ∧ Spells w' (a.erase p) (p :: f) ∧ SameData w w'
  other : (∀ p ∈ a, (w.wp p).NO ≠ no) → wpDelete w no = .ok w

/-- The number is active and node 31 is not ahead of it on the list. -/
def FoundFirst (w : WPPool) (a : List WPtr) (no : ℤ) : Prop :=
  ∃ l p r, a = l ++ p :: r ∧ (w.wp p).NO = no ∧ ∀ q ∈ l, (w.wp q).NO ≠ NR_WP - 1

theorem Spells.stops_iff (h : Spells w a f) (no : ℤ) (p : WPtr) :
    Stops w no p ↔ (w.wp p).NO = no ∨ (w.wp p).NO = (NR_WP : ℤ) - 1 := by
  have hNO := h.NO p
  have hlt := p.isLt
  unfold Stops
  constructor <;> rintro (hs | hs)
  · exact .inl hs
  · exact .inr (by omega)
  · exact .inl hs
  · exact .inr (by omega)

/-- `wp_delete` does what it is for exactly when no watchpoint is active, or the number
is active and node 31 is not ahead of it. -/
theorem wpDelete_ok_iff (run : DebugRun w) (hno : no < NR_WP) :
    ∃ a f, Spells w a f ∧ (Deletes w a f no ↔ a = [] ∨ FoundFirst w a no) := by
  obtain ⟨a, f, h⟩ := run.spells
  refine ⟨a, f, h, fun hd => ?_, ?_⟩
  · by_cases hne : a = []
    · exact .inl hne
    right
    rcases exists_first_stop w no a with hnone | ⟨l, p, r, rfl, hl, hp⟩
    · have hother := hd.other fun p hp he => hnone p hp (.inl he)
      rw [wpDelete_null h hne hno hnone] at hother
      cases hother
    refine ⟨l, p, r, rfl, ?_, fun q hq he => hl q hq ((h.stops_iff no q).mpr (.inr he))⟩
    obtain ⟨w₁, hfree, hs₁, -⟩ := freeWp_spec h
    have hok := (wpDelete_found h hno hl hp).trans hfree
    -- whatever is active afterwards, it is not `p`
    have hgone : p ∉ l ++ r := (List.nodup_cons.mp (List.nodup_middle.mp h.head.nodup)).1
    by_contra hpno
    by_cases hact : ∃ q ∈ l ++ p :: r, (w.wp q).NO = no
    · obtain ⟨q, hq, hqno⟩ := hact
      obtain ⟨w₂, hok₂, hs₂, -⟩ := hd.active q hq hqno
      cases hok.symm.trans hok₂
      have hpq : p ≠ q := by
        rintro rfl
        exact hpno hqno
      have hmem : p ∈ (l ++ p :: r).erase q := (List.mem_erase_of_ne hpq).mpr (by simp)
      rw [(hs₂.unique hs₁).1] at hmem
      exact hgone hmem
    · have hother := hd.other fun q hq he => hact ⟨q, hq, he⟩
      cases hok.symm.trans hother
      have heq : l ++ r = l ++ p :: r := (hs₁.unique h).1
      rw [heq] at hgone
      exact hgone (by simp)
  · rintro (rfl | ⟨l, p, r, rfl, hpno, hl⟩)
    · refine ⟨fun p hp => (List.not_mem_nil hp).elim, fun _ => ?_⟩
      rw [wpDelete, if_pos hno, show w.head = none from h.head]
    · have hstop : Stops w no p := .inl hpno
      have hlno : ∀ q ∈ l, ¬ Stops w no q := by
        intro q hq hs
        rcases (h.stops_iff no q).mp hs with hs | hs
        · obtain rfl := h.NO_inj (hs.trans hpno.symm)
          exact (List.nodup_append.mp h.head.nodup).2.2 q hq q List.mem_cons_self rfl
        · exact hl q hq hs
      obtain ⟨w₁, hfree, hs₁, hd₁⟩ := freeWp_spec h
      have hok := (wpDelete_found h hno hlno hstop).trans hfree
      refine ⟨fun q hq hqno => ?_, fun hother => absurd hpno (hother p (by simp))⟩
      obtain rfl := h.NO_inj (hqno.trans hpno.symm)
      exact ⟨w₁, hok, h.freed hq hfree⟩

end Runs

def oneSet : WPPool := onePool.fill ⟨0, by decide⟩ ['1'] 1

theorem debugRun_oneSet : DebugRun oneSet :=
  .set (w := initWpPool blankPool) (e := ['1']) (v := 1) (p := 0) (.init blankPool) rfl

/-- Deleting the only watchpoint. -/
theorem wpDelete_ok_iff_one :
    ∃ a f, Spells oneSet a f ∧ (Deletes oneSet a f 0 ↔ a = [] ∨ FoundFirst oneSet a 0) :=
  wpDelete_ok_iff debugRun_oneSet (by decide)

/-- With number 0 active alone, `d 5` walks off the list. -/
theorem delete_inactive_fails :
    ¬ ∀ (w : WPPool) (no : ℤ) (a f : List WPtr), DebugRun w → no < NR_WP → Spells w a f →
      Deletes w a f no := by
  intro h
  obtain ⟨a, f, hs⟩ := debugRun_oneSet.spells
  have hd := h oneSet 5 a f debugRun_oneSet (by decide) hs
  have hlinked : Linked oneSet.next oneSet.head [0] := ⟨rfl, rfl⟩
  have ha : a = [0] := hs.head.unique hlinked
  have hne : ∀ p ∈ a, (oneSet.wp p).NO ≠ 5 := by
    rw [ha]
    decide
  have hnull : wpDelete oneSet 5 = .error .nullPtr := rfl
  cases hnull.symm.trans (hd.other hne)

end Ysyx.Nemu
