import Ysyx.Lib.Bytes

/-! Arrays of words in a byte memory: slot `i` of the array at `c` is the word at `c + 4 * i`.
Two slots of one array do not overlap while the array is shorter than the address space. -/

namespace Ysyx.Bytes

def slot (c : Word) (i : ℕ) : Word := c + BitVec.ofNat 32 (4 * i)

def getSlot (m : Word → Byte) (c : Word) (i : ℕ) : Word := loadLE m (slot c i) 4

def setSlot (m : Word → Byte) (c : Word) (i : ℕ) (d : Word) : Word → Byte :=
  storeLE m (slot c i) 4 d

/-- The slots of `ns` set in turn, each to its value. -/
def setSlots (m : Word → Byte) (c : Word) (v : ℕ → Word) (ns : List ℕ) : Word → Byte :=
  ns.foldl (fun m n => setSlot m c n (v n)) m

section Slots

variable {m m' : Word → Byte} {c b d : Word} {i j n : ℕ}

theorem slot_add_sub (hi : 4 * i + 4 ≤ 2 ^ 32) {k : ℕ} (hk : k < 4) :
    (slot c i + BitVec.ofNat 32 k - c).toNat = 4 * i + k := by
  rw [slot, add_assoc, ← BitVec.ofNat_add, add_ofNat_sub c _ (by omega)]

theorem sub_slot_toNat (hi : 4 * i < 2 ^ 32) :
    (b - slot c i).toNat = ((b - c).toNat + (2 ^ 32 - 4 * i)) % 2 ^ 32 := by
  rw [slot, ← sub_sub, BitVec.toNat_sub, BitVec.toNat_ofNat, Nat.mod_eq_of_lt hi, add_comm]

theorem sub_slot_lt_iff (hi : 4 * i + 4 ≤ 2 ^ 32) :
    (b - slot c i).toNat < 4 ↔ 4 * i ≤ (b - c).toNat ∧ (b - c).toNat < 4 * i + 4 := by
  have := (b - c).isLt
  rw [sub_slot_toNat (by omega)]
  omega

@[simp] theorem slot_zero (c : Word) : slot c 0 = c := by simp [slot]

theorem slot_slot (c : Word) (i j : ℕ) : slot (slot c i) j = slot c (i + j) := by
  rw [slot, slot, slot, add_assoc, ← BitVec.ofNat_add, ← Nat.mul_add]

theorem slot_succ (c : Word) (i : ℕ) : slot c i + 4 = slot c (i + 1) := slot_slot c i 1

theorem getSlot_setSlot_self : getSlot (setSlot m c i d) c i = d := loadLE_storeLE_same m _ d

theorem getSlot_setSlot_ne (hij : i ≠ j) (hi : 4 * i + 4 ≤ 2 ^ 32) (hj : 4 * j + 4 ≤ 2 ^ 32) :
    getSlot (setSlot m c i d) c j = getSlot m c j := by
  refine loadLE_congr fun k hk => storeLE_out _ _ ?_
  rw [sub_slot_lt_iff hi, slot_add_sub hj hk]
  omega

theorem setSlot_out (hi : i < n) (hb : ¬ (b - c).toNat < 4 * n) :
    setSlot m c i d b = m b := by
  refine storeLE_out _ _ ?_
  rw [sub_slot_lt_iff (by omega)]
  omega

theorem getSlot_congr (hi : i < n) (hn : 4 * n ≤ 2 ^ 32)
    (h : ∀ b, (b - c).toNat < 4 * n → m' b = m b) : getSlot m' c i = getSlot m c i := by
  refine loadLE_congr fun k hk => h _ ?_
  rw [slot_add_sub (by omega) hk]
  omega

theorem getSlot_setSlots {v : ℕ → Word} {ns : List ℕ} (hns : ∀ n ∈ ns, 4 * n + 4 ≤ 2 ^ 32)
    (hj : 4 * j + 4 ≤ 2 ^ 32) :
    getSlot (setSlots m c v ns) c j = if j ∈ ns then v j else getSlot m c j := by
  induction ns generalizing m with
  | nil => rfl
  | cons n ns ih =>
    have hrest := ih (m := setSlot m c n (v n)) fun p hp => hns p (List.mem_cons_of_mem n hp)
    rw [setSlots, List.foldl_cons]
    refine hrest.trans ?_
    by_cases hmem : j ∈ ns
    · rw [if_pos hmem, if_pos (List.mem_cons_of_mem n hmem)]
    · rw [if_neg hmem]
      by_cases hjn : j = n
      · rw [hjn, getSlot_setSlot_self, if_pos List.mem_cons_self]
      · rw [getSlot_setSlot_ne (Ne.symm hjn) (hns n List.mem_cons_self) hj,
          if_neg (by rw [List.mem_cons, not_or]; exact ⟨hjn, hmem⟩)]

theorem setSlots_out {v : ℕ → Word} {ns : List ℕ} (hns : ∀ i ∈ ns, i < n)
    (hb : ¬ (b - c).toNat < 4 * n) : setSlots m c v ns b = m b := by
  induction ns generalizing m with
  | nil => rfl
  | cons i ns ih =>
    rw [setSlots, List.foldl_cons]
    exact (ih fun p hp => hns p (List.mem_cons_of_mem i hp)).trans
      (setSlot_out (hns i List.mem_cons_self) hb)

end Slots

end Ysyx.Bytes
