import Ysyx.Lib.Bytes

/-! Files read and written at a position, by bytes and by little-endian words. -/

namespace Ysyx

open Bytes

structure File where
  byte : ℕ → Byte
  size : ℕ
  pos : ℕ

namespace File

variable (f : File)

def seek (p : ℕ) : File := { f with pos := p }

/-- How many of `n` bytes there are from the position on. -/
def avail (n : ℕ) : ℕ := min n (f.size - f.pos)

/-- The bytes that there are go to the cells of `m` from `p` on. -/
def read (n : ℕ) (m : ℕ → Byte) (p : ℕ) : (ℕ → Byte) × File :=
  (fun i => if p ≤ i ∧ i < p + f.avail n then f.byte (f.pos + (i - p)) else m i,
    { f with pos := f.pos + f.avail n })

/-- A word is put at the position, behind zeros if that lies behind the end. -/
def write (d : Word) : File where
  byte i := if f.pos ≤ i ∧ i < f.pos + 4 then byteOf d (i - f.pos)
    else if f.size ≤ i ∧ i < f.pos then 0 else f.byte i
  size := max f.size (f.pos + 4)
  pos := f.pos + 4

def writes (ds : List Word) : File := ds.foldl write f

def word (p : ℕ) : Word := leWord (fun k => f.byte (p + k)) 4

def words (p n : ℕ) : List Word := (List.range n).map fun k => f.word (p + 4 * k)

theorem words_succ (p n : ℕ) : f.words p (n + 1) = f.word p :: f.words (p + 4) n := by
  rw [words, List.range_succ_eq_map, List.map_cons, List.map_map]
  refine congrArg₂ _ (by rw [Nat.mul_zero, Nat.add_zero]) (List.map_congr_left fun k _ => ?_)
  change f.word (p + 4 * (k + 1)) = f.word (p + 4 + 4 * k)
  exact congrArg f.word (by ring)

section Read

variable {f} (m : ℕ → Byte) (p : ℕ) (hend : f.pos + 4 ≤ f.size)

include hend

theorem avail_word : f.avail 4 = 4 := by
  unfold avail
  omega

theorem read_word : leWord (fun k => (f.read 4 m p).1 (p + k)) 4 = f.word f.pos := by
  refine leWord_congr fun k hk => ?_
  have hav := avail_word hend
  refine (if_pos (by omega)).trans ?_
  rw [Nat.add_sub_cancel_left]

theorem read_pos : (f.read 4 m p).2 = f.seek (f.pos + 4) := by
  rw [read, avail_word hend, seek]

end Read

theorem write_word (d : Word) : (f.write d).word f.pos = d := by
  refine Eq.trans (leWord_congr fun k hk => ?_) (leWord_byteOf d)
  refine (if_pos (by omega)).trans ?_
  rw [Nat.add_sub_cancel_left]

theorem write_byte (d : Word) {i : ℕ} (hi : i < f.pos ∨ f.pos + 4 ≤ i)
    (hin : i < f.pos → i < f.size) :
    (f.write d).byte i = f.byte i := by
  exact (if_neg (by omega)).trans (if_neg (by omega))

theorem size_le_writes (ds : List Word) : f.size ≤ (f.writes ds).size := by
  induction ds generalizing f with
  | nil => exact le_rfl
  | cons d ds ih => exact (Nat.le_max_left _ _).trans (ih (f.write d))

theorem writes_size {ds : List Word} (hne : ds ≠ []) :
    f.pos + 4 * ds.length ≤ (f.writes ds).size := by
  induction ds generalizing f with
  | nil => exact absurd rfl hne
  | cons d ds ih =>
    rw [List.length_cons]
    by_cases hds : ds = []
    · subst hds
      exact (Nat.le_max_right f.size (f.pos + 4)).trans (size_le_writes (f.write d) [])
    · have h := ih (f.write d) hds
      change f.pos + 4 + 4 * ds.length ≤ (f.writes (d :: ds)).size at h
      omega

theorem writes_byte (ds : List Word) {i : ℕ} (hi : i < f.pos ∨ f.pos + 4 * ds.length ≤ i)
    (hin : i < f.size) : (f.writes ds).byte i = f.byte i := by
  induction ds generalizing f with
  | nil => rfl
  | cons d ds ih =>
    rw [List.length_cons] at hi
    have hsize : f.size ≤ (f.write d).size := Nat.le_max_left _ _
    exact (ih (f.write d) (by change i < f.pos + 4 ∨ f.pos + 4 + _ ≤ _; omega) (by omega)).trans
      (write_byte f d (by omega) (fun _ => hin))

theorem words_writes (ds : List Word) : (f.writes ds).words f.pos ds.length = ds := by
  induction ds generalizing f with
  | nil => rfl
  | cons d ds ih =>
    have hfirst : (f.writes (d :: ds)).word f.pos = d := by
      refine Eq.trans (leWord_congr fun k hk => ?_) (write_word f d)
      exact writes_byte (f.write d) ds (.inl (by change _ < f.pos + 4; omega))
        (by change _ < max _ _; omega)
    rw [List.length_cons, words_succ, hfirst]
    exact congrArg (d :: ·) (ih (f.write d))

end File
end Ysyx
