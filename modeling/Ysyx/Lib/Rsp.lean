import Ysyx.Lib.Bytes

/-! The packets of the GDB remote serial protocol: how the text between `$` and `#` stands for a
payload, with escapes and runs, and the checksum behind it. -/

namespace Ysyx.Rsp

open Bytes

def ascii (c : Char) : Byte := BitVec.ofNat 8 c.toNat

/-- The characters that a payload cannot have as they are. -/
def IsMark (c : Byte) : Prop := c = ascii '$' ∨ c = ascii '#' ∨ c = ascii '}' ∨ c = ascii '*'

instance (c : Byte) : Decidable (IsMark c) := inferInstanceAs (Decidable (_ ∨ _))

/-- The characters that `*` takes as a count. -/
def IsCount (n : Byte) : Prop :=
  (29 ≤ n.toNat ∧ n.toNat ≤ 126) ∧ n ≠ ascii '$' ∧ n ≠ ascii '#'

instance (n : Byte) : Decidable (IsCount n) := inferInstanceAs (Decidable (_ ∧ _))

/-- A text for a payload: characters as they are, escaped ones, and runs of the character before. -/
inductive Encodes : List Byte → List Byte → Prop
  | nil : Encodes [] []
  | char {w p : List Byte} {c : Byte} (h : Encodes w p) (hc : ¬ IsMark c) :
      Encodes (w ++ [c]) (p ++ [c])
  | escape {w p : List Byte} {c : Byte} (h : Encodes w p) (hc : ¬ IsMark (c ^^^ 0x20)) :
      Encodes (w ++ [ascii '}', c ^^^ 0x20]) (p ++ [c])
  | run {w p : List Byte} {c n : Byte} (h : Encodes w (p ++ [c])) (hn : IsCount n) :
      Encodes (w ++ [ascii '*', n]) (p ++ [c] ++ List.replicate (n.toNat - 29) c)

/-- A payload with no mark in it stands for itself. -/
theorem Encodes.plain {p : List Byte} (h : ∀ c ∈ p, ¬ IsMark c) : Encodes p p := by
  induction p using List.reverseRecOn with
  | nil => exact .nil
  | append_singleton p c ih =>
    exact .char (ih fun d hd => h d (List.mem_append_left _ hd)) (h c (by simp))

def hexDigit (upper : Bool) (n : ℕ) : Byte :=
  if n < 10 then ascii '0' + BitVec.ofNat 8 n
  else (if upper then ascii 'A' else ascii 'a') + BitVec.ofNat 8 (n - 10)

def digitValue (c : Byte) : Option ℕ :=
  if ascii '0' ≤ c ∧ c ≤ ascii '9' then some (c.toNat - (ascii '0').toNat)
  else if ascii 'a' ≤ c ∧ c ≤ ascii 'f' then some (c.toNat - (ascii 'a').toNat + 10)
  else if ascii 'A' ≤ c ∧ c ≤ ascii 'F' then some (c.toNat - (ascii 'A').toNat + 10)
  else none

theorem digitValue_hexDigit : ∀ upper, ∀ n < 16, digitValue (hexDigit upper n) = some n := by decide

structure Numeral (text : List Byte) (n : ℕ) : Prop where
  ne_nil : text ≠ []
  value : text.foldlM (fun m c => (digitValue c).map (16 * m + ·)) 0 = some n

def hexData (data : List Byte) : List Byte :=
  data.flatMap fun b => [hexDigit false (b.toNat / 16), hexDigit false (b.toNat % 16)]

def checksum (w : List Byte) : Byte := w.sum

def packet (upper : Bool) (w : List Byte) : List Byte :=
  ascii '$' :: w ++ [ascii '#', hexDigit upper ((checksum w).toNat / 16),
    hexDigit upper ((checksum w).toNat % 16)]

/-- No start and no end of a packet within. -/
def Body (w : List Byte) : Prop := ∀ c ∈ w, c ≠ ascii '$' ∧ c ≠ ascii '#'

theorem Encodes.body {w p : List Byte} (h : Encodes w p) : Body w := by
  induction h with
  | nil => exact fun c hc => absurd hc List.not_mem_nil
  | @char w p c _ hc ih =>
    intro d hd
    rcases List.mem_append.mp hd with hd | hd
    · exact ih d hd
    · obtain rfl := List.mem_singleton.mp hd
      exact ⟨fun h => hc (.inl h), fun h => hc (.inr (.inl h))⟩
  | @escape w p c _ hc ih =>
    intro d hd
    rcases List.mem_append.mp hd with hd | hd
    · exact ih d hd
    · rcases List.mem_cons.mp hd with rfl | hd
      · decide
      · obtain rfl := List.mem_singleton.mp hd
        exact ⟨fun h => hc (.inl h), fun h => hc (.inr (.inl h))⟩
  | @run w p c n _ hn ih =>
    intro d hd
    rcases List.mem_append.mp hd with hd | hd
    · exact ih d hd
    · rcases List.mem_cons.mp hd with rfl | hd
      · decide
      · obtain rfl := List.mem_singleton.mp hd
        exact hn.2

/-- A packet whose checksum is not that of its text. -/
def Damaged (b : List Byte) : Prop :=
  ∃ w msb lsb, b = ascii '$' :: w ++ [ascii '#', msb, lsb] ∧ Body w ∧
    (do return 16 * (← digitValue msb) + (← digitValue lsb)) ≠ some (checksum w).toNat

end Ysyx.Rsp
