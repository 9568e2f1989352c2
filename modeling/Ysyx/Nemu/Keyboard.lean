import Ysyx.Nemu.Device
import Ysyx.Lib.RingQueue

/-! The keyboard: `send_key` puts the events of mapped scancodes into `key_queue`, and a load of the
guest takes one out through `i8042_data_io_handler`. -/

namespace Ysyx.Nemu

open Bytes

def KEYDOWN_MASK : Word := 0x8000

/-- The enumeration of `NEMU_KEYS`, which that of `AM_KEYS` repeats. -/
inductive NemuKey where
  | NONE
  | ESCAPE | F1 | F2 | F3 | F4 | F5 | F6 | F7 | F8 | F9 | F10 | F11 | F12
  | GRAVE | K1 | K2 | K3 | K4 | K5 | K6 | K7 | K8 | K9 | K0 | MINUS | EQUALS | BACKSPACE
  | TAB | Q | W | E | R | T | Y | U | I | O | P | LEFTBRACKET | RIGHTBRACKET | BACKSLASH
  | CAPSLOCK | A | S | D | F | G | H | J | K | L | SEMICOLON | APOSTROPHE | RETURN
  | LSHIFT | Z | X | C | V | B | N | M | COMMA | PERIOD | SLASH | RSHIFT
  | LCTRL | APPLICATION | LALT | SPACE | RALT | RCTRL
  | UP | DOWN | LEFT | RIGHT | INSERT | DELETE | HOME | END | PAGEUP | PAGEDOWN

def NemuKey.code (k : NemuKey) : Word := BitVec.ofNat 32 k.ctorIdx

def NEMU_KEYS : List NemuKey :=
  [.ESCAPE, .F1, .F2, .F3, .F4, .F5, .F6, .F7, .F8, .F9, .F10, .F11, .F12,
    .GRAVE, .K1, .K2, .K3, .K4, .K5, .K6, .K7, .K8, .K9, .K0, .MINUS, .EQUALS, .BACKSPACE,
    .TAB, .Q, .W, .E, .R, .T, .Y, .U, .I, .O, .P, .LEFTBRACKET, .RIGHTBRACKET, .BACKSLASH,
    .CAPSLOCK, .A, .S, .D, .F, .G, .H, .J, .K, .L, .SEMICOLON, .APOSTROPHE, .RETURN,
    .LSHIFT, .Z, .X, .C, .V, .B, .N, .M, .COMMA, .PERIOD, .SLASH, .RSHIFT,
    .LCTRL, .APPLICATION, .LALT, .SPACE, .RALT, .RCTRL,
    .UP, .DOWN, .LEFT, .RIGHT, .INSERT, .DELETE, .HOME, .END, .PAGEUP, .PAGEDOWN]

abbrev Keymap := BitVec 8 → Word

/-- `init_keymap` with the scancodes of the SDL headers. -/
def initKeymap (SDL_SCANCODE : NemuKey → BitVec 8) : Keymap :=
  NEMU_KEYS.foldl (fun keymap k => Function.update keymap (SDL_SCANCODE k) k.code) fun _ => 0

def KEY_QUEUE_LEN : ℕ := 1024

/-- `key_queue` with `key_f` and `key_r`. -/
abbrev KeyQueue := RingQueue Word KEY_QUEUE_LEN

def keyEnqueue (q : KeyQueue) (amScancode : Word) : Except BusFault KeyQueue :=
  let q := q.enqueue amScancode
  if q.rear ≠ q.front then .ok q else .error .assertion

def keyDequeue (q : KeyQueue) : Word × KeyQueue :=
  if q.front ≠ q.rear then (q.buf q.front, q.dequeue) else (NemuKey.NONE.code, q)

def sendKey (state : RunState) (keymap : Keymap) (q : KeyQueue) (scancode : BitVec 8)
    (isKeydown : Bool) : Except BusFault KeyQueue :=
  if state = .RUNNING ∧ keymap scancode ≠ NemuKey.NONE.code then
    keyEnqueue q (keymap scancode ||| (if isKeydown then KEYDOWN_MASK else 0))
  else .ok q

def i8042DataIoHandler (space : ℕ) (offset : Word) (_len : ℕ) (isWrite : Bool)
    (s : KeyQueue × IoSpace) : Except BusFault (KeyQueue × IoSpace) :=
  if isWrite = false ∧ offset = 0 then
    let (key, q) := keyDequeue s.1
    .ok (q, setReg s.2 space 0 key)
  else .error .assertion

/-- What `init_i8042` registers. -/
def i8042Map (low : Word) (space : ℕ) : DevMap KeyQueue :=
  ⟨low, low + 4 - 1, space, i8042DataIoHandler space⟩

/-- `AM_INPUT_KEYBRD_T` -/
structure KeyEvent where
  keycode : Word
  keydown : Bool
  deriving DecidableEq

/-- How `__am_input_keybrd` reads the word of the device. -/
def decodeKey (key : Word) : KeyEvent :=
  ⟨key &&& ~~~KEYDOWN_MASK, key &&& KEYDOWN_MASK != 0⟩

/-- `KBD_ADDR` of the guest, which is also Kconfig's `I8042_DATA_MMIO`. -/
def KBD_ADDR : Word := 0xa0000060

/-- `__am_input_keybrd`, for a keyboard at `addr`; its `inl` is a load of the guest. -/
def amInputKeybrd (cfg : Config) (mem : Mem) (addr : Word) (space : ℕ) (s : KeyQueue × IoSpace) :
    Except BusFault (KeyEvent × (KeyQueue × IoSpace)) := do
  let (key, s) ← (i8042Map addr space).paddrRead cfg mem s addr 4
  return (decodeKey key, s)

/-- What the host and the guest do, one after the other. -/
inductive KeyAction
  | send (scancode : BitVec 8) (isKeydown : Bool)
  | read

section Run

variable (cfg : Config) (mem : Mem) (keymap : Keymap) (addr : Word) (space : ℕ)

/-- An action, on the answers so far and the state of the device. -/
def keyStep (out : List KeyEvent × (KeyQueue × IoSpace)) :
    KeyAction → Except BusFault (List KeyEvent × (KeyQueue × IoSpace))
  | .send scancode isKeydown => do
    let q ← sendKey .RUNNING keymap out.2.1 scancode isKeydown
    return (out.1, (q, out.2.2))
  | .read => do
    let (ev, s) ← amInputKeybrd cfg mem addr space out.2
    return (out.1 ++ [ev], s)

def keyRun (io : IoSpace) (acts : List KeyAction) :
    Except BusFault (List KeyEvent × (KeyQueue × IoSpace)) :=
  acts.foldlM (keyStep cfg mem keymap addr space) ([], (RingQueue.init KEY_QUEUE_LEN 0, io))

/-- The event of a mapped scancode. -/
def KeyAction.event : KeyAction → Option KeyEvent
  | .send scancode isKeydown =>
    if keymap scancode ≠ NemuKey.NONE.code then some ⟨keymap scancode, isKeydown⟩ else none
  | .read => none

def sent (acts : List KeyAction) : List KeyEvent := acts.filterMap (·.event keymap)

/-- The answers that are events. -/
def received (answers : List KeyEvent) : List KeyEvent :=
  answers.filter fun ev => ev.keycode != NemuKey.NONE.code

/-- How many mapped events wait to be read. -/
def pending (acts : List KeyAction) : ℕ :=
  acts.foldl (fun n act => match act with
    | .read => n - 1
    | act => if (act.event keymap).isSome then n + 1 else n) 0

end Run

theorem code_lt (k : NemuKey) : k.code.toNat < 0x8000 := by cases k <;> decide

theorem initKeymap_lt (SDL_SCANCODE : NemuKey → BitVec 8) (scancode : BitVec 8) :
    (initKeymap SDL_SCANCODE scancode).toNat < 0x8000 := by
  have hfold : ∀ (ks : List NemuKey) (keymap : Keymap), (∀ sc, (keymap sc).toNat < 0x8000) →
      ∀ sc, (ks.foldl (fun keymap k => Function.update keymap (SDL_SCANCODE k) k.code) keymap
        sc).toNat < 0x8000 := by
    intro ks
    induction ks with
    | nil => exact fun _ h => h
    | cons k ks ih =>
      refine fun keymap h => ih _ fun sc => ?_
      by_cases hsc : sc = SDL_SCANCODE k
      · subst hsc
        simpa using code_lt k
      · simpa [hsc] using h sc
  exact hfold NEMU_KEYS _ (fun _ => by decide) scancode

theorem getLsbD_KEYDOWN_MASK (i : ℕ) : KEYDOWN_MASK.getLsbD i = decide (i = 15) := by
  rw [show KEYDOWN_MASK = BitVec.twoPow 32 15 from rfl, BitVec.getLsbD_twoPow]
  simp [eq_comm]

section Decode

variable {code : Word} (hcode : code.toNat < 0x8000)

include hcode

theorem getLsbD_code : code.getLsbD 15 = false := by
  rw [BitVec.getLsbD, Nat.testBit_lt_two_pow]
  exact hcode

theorem code_and_mask : code &&& KEYDOWN_MASK = 0 := by
  apply BitVec.eq_of_getLsbD_eq
  intro i hi
  rw [BitVec.getLsbD_and, getLsbD_KEYDOWN_MASK]
  by_cases h : i = 15
  · rw [h, getLsbD_code hcode]
    rfl
  · simp [h]

theorem code_and_not_mask : code &&& ~~~KEYDOWN_MASK = code := by
  apply BitVec.eq_of_getLsbD_eq
  intro i hi
  rw [BitVec.getLsbD_and, BitVec.getLsbD_not, getLsbD_KEYDOWN_MASK]
  by_cases h : i = 15
  · rw [h, getLsbD_code hcode]
    rfl
  · simp [h, hi]

theorem decodeKey_or (isKeydown : Bool) :
    decodeKey (code ||| (if isKeydown then KEYDOWN_MASK else 0)) = ⟨code, isKeydown⟩ := by
  have hclear : (code ||| KEYDOWN_MASK) &&& ~~~KEYDOWN_MASK = code := by
    rw [BitVec.and_comm, BitVec.and_or_distrib_left, BitVec.and_comm, code_and_not_mask hcode,
      BitVec.and_comm, BitVec.and_not_self]
    exact BitVec.or_zero
  have hset : (code ||| KEYDOWN_MASK) &&& KEYDOWN_MASK = KEYDOWN_MASK := by
    rw [BitVec.and_comm, BitVec.and_or_distrib_left, BitVec.and_comm, code_and_mask hcode,
      BitVec.and_self]
    exact BitVec.zero_or
  cases isKeydown with
  | true =>
    rw [if_pos rfl, decodeKey, hclear, hset]
    rfl
  | false =>
    rw [if_neg Bool.false_ne_true, show code ||| 0 = code from BitVec.or_zero, decodeKey,
      code_and_not_mask hcode, code_and_mask hcode]
    rfl

end Decode

section Queue

variable {q : KeyQueue} {words : List Word}

theorem keyEnqueue_holds (h : q.Holds words) (w : Word) (hroom : words.length + 1 < KEY_QUEUE_LEN) :
    ∃ q', keyEnqueue q w = .ok q' ∧ q'.Holds (words ++ [w]) := by
  have hq := h.enqueue w hroom
  exact ⟨_, if_pos (hq.rear_ne_front (by simp)), hq⟩

theorem keyDequeue_empty (h : q.Holds []) : keyDequeue q = (0, q) :=
  if_neg fun hne => hne (h.isEmpty_iff.2 rfl)

theorem keyDequeue_first {w : Word} (h : q.Holds (w :: words)) :
    keyDequeue q = (w, q.dequeue) := by
  rw [keyDequeue, if_pos fun he => List.cons_ne_nil _ _ (h.isEmpty_iff.1 he), h.first]

end Queue

section Load

variable {cfg : Config} {addr : Word}

/-- A load of the keyboard answers with what `key_dequeue` gives, where it reaches it. -/
theorem amInputKeybrd_eq (mem : Mem) (haddr : addr.toNat + 4 ≤ 2 ^ 32)
    (hpmem : inPmem cfg addr = .ok false) (space : ℕ) (s : KeyQueue × IoSpace) :
    amInputKeybrd cfg mem addr space s = .ok (decodeKey (keyDequeue s.1).1,
      ((keyDequeue s.1).2, setReg s.2 space 0 (keyDequeue s.1).1)) := by
  have hhigh : (i8042Map addr space).high.toNat = addr.toNat + 3 := by
    change (addr + 4 - 1).toNat = _
    rw [show addr + 4 - 1 = addr + 3 by ring, BitVec.toNat_add, show (3 : Word).toNat = 3 from rfl,
      Nat.mod_eq_of_lt (by omega)]
  have h0 : (0 : Word).toNat = 0 := rfl
  have hread : (i8042Map addr space).read s (addr + 0) 4 = _ :=
    DevMap.read_eq _ (by change addr.toNat + _ < _; omega)
      (by change addr.toNat + _ ≤ _; omega) (by decide) s
  rw [add_zero] at hread
  rw [amInputKeybrd, DevMap.paddrRead_of_false _ hpmem, hread]
  have hreg := reg_setReg s.2 space 0 (keyDequeue s.1).1
  exact congrArg (fun d => Except.ok (decodeKey d, _)) hreg

/-- It answers at all only where `in_pmem` says that the address is not one of memory. -/
theorem inPmem_of_amInputKeybrd {mem : Mem} {space : ℕ} {s : KeyQueue × IoSpace}
    {r : KeyEvent × (KeyQueue × IoSpace)} (hdev : inPmem cfg addr ≠ .ok true)
    (h : amInputKeybrd cfg mem addr space s = .ok r) : inPmem cfg addr = .ok false := by
  rcases (i8042Map addr space).paddrRead_cases hdev with hfalse | ⟨f, herror⟩
  · exact hfalse
  · rw [amInputKeybrd, herror] at h
    cases h

/-- `in_pmem` asserts for the keyboard's address. -/
theorem inPmem_KBD_ADDR (cfg : Config) : inPmem cfg KBD_ADDR = .error .assertion := by
  unfold inPmem
  rw [if_neg (by decide), if_neg (by decide)]

end Load

section KeysKept

variable (cfg : Config) (mem : Mem) (keymap : Keymap) (addr : Word) (space : ℕ)

/-- The words of the queue are the events that were sent and not read, in order. -/
structure KeysKept (acts : List KeyAction) (out : List KeyEvent × (KeyQueue × IoSpace))
    (words : List Word) : Prop where
  holds : out.2.1.Holds words
  order : received out.1 ++ words.map decodeKey = sent keymap acts
  count : words.length = pending keymap acts
  mapped : ∀ w ∈ words, (decodeKey w).keycode ≠ NemuKey.NONE.code

theorem sent_concat (acts : List KeyAction) (act : KeyAction) :
    sent keymap (acts ++ [act]) = sent keymap acts ++ (act.event keymap).toList := by
  rw [sent, List.filterMap_append]
  cases hev : act.event keymap with
  | none => simp [sent, hev]
  | some ev => simp [sent, hev]

theorem pending_concat (acts : List KeyAction) (act : KeyAction) :
    pending keymap (acts ++ [act]) = match act with
      | .read => pending keymap acts - 1
      | act =>
        if (act.event keymap).isSome then pending keymap acts + 1 else pending keymap acts := by
  rw [pending, List.foldl_concat]
  rfl

theorem received_concat (answers : List KeyEvent) (ev : KeyEvent) :
    received (answers ++ [ev]) =
      received answers ++ if ev.keycode = NemuKey.NONE.code then [] else [ev] := by
  rw [received, List.filter_append]
  by_cases h : ev.keycode = NemuKey.NONE.code <;> simp [received, h]

variable {cfg mem keymap addr space} {acts : List KeyAction} {out : List KeyEvent × (KeyQueue × IoSpace)}
  {words : List Word}

/-- What one `send_key` does. -/
theorem KeysKept.send (h : KeysKept keymap acts out words)
    (hkeymap : ∀ sc, (keymap sc).toNat < 0x8000)
    {scancode : BitVec 8} {isKeydown : Bool}
    (hroom : pending keymap (acts ++ [.send scancode isKeydown]) < KEY_QUEUE_LEN) :
    ∃ out' words',
      keyStep cfg mem keymap addr space out (.send scancode isKeydown) = .ok out' ∧
      KeysKept keymap (acts ++ [.send scancode isKeydown]) out' words' := by
  rw [pending_concat] at hroom
  by_cases hmap : keymap scancode = NemuKey.NONE.code
  · have hnone : (KeyAction.send scancode isKeydown).event keymap = none := if_neg (not_not.2 hmap)
    have hsend : sendKey .RUNNING keymap out.2.1 scancode isKeydown = .ok out.2.1 :=
      if_neg fun hc => hc.2 hmap
    refine ⟨out, words, by rw [keyStep, hsend]; rfl, h.holds, ?_, ?_, h.mapped⟩
    · rw [sent_concat, hnone, h.order]
      exact (List.append_nil _).symm
    · rw [pending_concat, h.count]
      simp [hnone]
  · have hsome : (KeyAction.send scancode isKeydown).event keymap =
        some ⟨keymap scancode, isKeydown⟩ := if_pos hmap
    have hdec := decodeKey_or (hkeymap scancode) isKeydown
    simp only [hsome, Option.isSome_some, if_true] at hroom
    obtain ⟨q, hq, hholds⟩ := keyEnqueue_holds h.holds
      (keymap scancode ||| (if isKeydown then KEYDOWN_MASK else 0)) (by rw [h.count]; exact hroom)
    have hsend : sendKey .RUNNING keymap out.2.1 scancode isKeydown = .ok q :=
      (if_pos ⟨rfl, hmap⟩).trans hq
    refine ⟨(out.1, (q, out.2.2)), _, by rw [keyStep, hsend]; rfl, hholds, ?_, ?_, ?_⟩
    · rw [sent_concat, hsome, ← h.order, List.map_append, List.map_singleton, hdec,
        List.append_assoc]
      rfl
    · rw [pending_concat, List.length_append, List.length_singleton, h.count]
      simp [hsome]
    · intro w hw
      rcases List.mem_append.1 hw with hw | hw
      · exact h.mapped w hw
      · rw [List.mem_singleton.1 hw, hdec]
        exact hmap

/-- What one load does, and its answer. -/
theorem KeysKept.read (h : KeysKept keymap acts out words) (haddr : addr.toNat + 4 ≤ 2 ^ 32)
    (hpmem : inPmem cfg addr = .ok false) :
    ∃ ev s words', keyStep cfg mem keymap addr space out .read = .ok (out.1 ++ [ev], s) ∧
      KeysKept keymap (acts ++ [.read]) (out.1 ++ [ev], s) words' ∧
      (ev.keycode = NemuKey.NONE.code ↔ pending keymap acts = 0) := by
  have hread := amInputKeybrd_eq mem haddr hpmem space out.2
  have hsent : sent keymap (acts ++ [.read]) = sent keymap acts := by
    rw [sent_concat]
    exact List.append_nil _
  cases words with
  | nil =>
    have hcount := h.count
    rw [List.length_nil] at hcount
    rw [keyDequeue_empty h.holds] at hread
    have hnone : (decodeKey 0).keycode = NemuKey.NONE.code := rfl
    refine ⟨decodeKey 0, (out.2.1, setReg out.2.2 space 0 0), [], by rw [keyStep, hread]; rfl,
      ⟨h.holds, ?_, ?_, h.mapped⟩, iff_of_true hnone hcount.symm⟩
    · rw [hsent, ← h.order, received_concat, if_pos hnone, List.append_nil]
    · rw [pending_concat, ← hcount]
      rfl
  | cons w words =>
    have hw := h.mapped w List.mem_cons_self
    have hcount := h.count
    rw [List.length_cons] at hcount
    rw [keyDequeue_first h.holds] at hread
    refine ⟨decodeKey w, (out.2.1.dequeue, setReg out.2.2 space 0 w), words,
      by rw [keyStep, hread]; rfl, ⟨h.holds.dequeue, ?_, ?_, ?_⟩, iff_of_false hw (by omega)⟩
    · rw [hsent, ← h.order, received_concat, if_neg hw, List.append_assoc]
      rfl
    · rw [pending_concat, ← hcount]
      rfl
    · exact fun w' hw' => h.mapped w' (List.mem_cons_of_mem _ hw')

variable (cfg mem keymap addr space) in
theorem keyRun_concat (io : IoSpace) (acts : List KeyAction) (act : KeyAction) :
    keyRun cfg mem keymap addr space io (acts ++ [act]) =
      keyRun cfg mem keymap addr space io acts >>= fun out =>
        keyStep cfg mem keymap addr space out act := by
  rw [keyRun, List.foldlM_append]
  simp [keyRun]

theorem keyRun_kept (hkeymap : ∀ sc, (keymap sc).toNat < 0x8000) (haddr : addr.toNat + 4 ≤ 2 ^ 32)
    (io : IoSpace) (acts : List KeyAction) (hreach : .read ∉ acts ∨ inPmem cfg addr = .ok false)
    (hpend : ∀ acts', acts' <+: acts → pending keymap acts' < KEY_QUEUE_LEN) :
    ∃ out words, keyRun cfg mem keymap addr space io acts = .ok out ∧
      KeysKept keymap acts out words := by
  induction acts using List.reverseRecOn with
  | nil =>
    exact ⟨_, [], rfl, RingQueue.holds_init (by decide) 0, rfl, rfl, fun _ h => nomatch h⟩
  | append_singleton acts act ih =>
    have hreach' : .read ∉ acts ∨ inPmem cfg addr = .ok false :=
      hreach.imp_left fun h hmem => h (List.mem_append_left [act] hmem)
    obtain ⟨out, words, hrun, hkept⟩ :=
      ih hreach' fun acts' h => hpend acts' (h.trans (List.prefix_append acts [act]))
    rw [keyRun_concat, hrun]
    change ∃ out' words', keyStep cfg mem keymap addr space out act = .ok out' ∧
      KeysKept keymap (acts ++ [act]) out' words'
    cases act with
    | send scancode isKeydown => exact hkept.send hkeymap (hpend _ (List.prefix_refl _))
    | read =>
      have hpmem := hreach.resolve_left fun h => h (by simp)
      obtain ⟨ev, s, words', hstep, hkept', -⟩ := hkept.read haddr hpmem
      exact ⟨_, words', hstep, hkept'⟩

end KeysKept

/-- The run returns. What the guest read is a prefix of what was sent, the rest is in the queue, and
a load is answered with no key exactly when nothing is pending. -/
structure FifoKept (cfg : Config) (mem : Mem) (keymap : Keymap) (addr : Word) (space : ℕ)
    (io : IoSpace) (acts : List KeyAction) : Prop where
  order : ∃ answers q io', keyRun cfg mem keymap addr space io acts = .ok (answers, (q, io')) ∧
    received answers <+: sent keymap acts ∧
    q.items.map decodeKey = (sent keymap acts).drop (received answers).length
  answers : ∀ acts', acts' ++ [.read] <+: acts →
    ∃ answers ev s, keyRun cfg mem keymap addr space io (acts' ++ [.read]) =
        .ok (answers ++ [ev], s) ∧
      (ev.keycode = NemuKey.NONE.code ↔ pending keymap acts' = 0)

section Fifo

variable {cfg : Config} {mem : Mem} {addr : Word} {space : ℕ} {io : IoSpace} {acts : List KeyAction}

theorem FifoKept.of_reach {keymap : Keymap} (hkeymap : ∀ sc, (keymap sc).toNat < 0x8000)
    (haddr : addr.toNat + 4 ≤ 2 ^ 32) (hreach : .read ∉ acts ∨ inPmem cfg addr = .ok false)
    (hpend : ∀ acts', acts' <+: acts → pending keymap acts' < KEY_QUEUE_LEN) :
    FifoKept cfg mem keymap addr space io acts := by
  constructor
  · obtain ⟨⟨answers, q, io'⟩, words, hrun, hkept⟩ := keyRun_kept hkeymap haddr io acts hreach hpend
    refine ⟨answers, q, io', hrun, ⟨_, hkept.order⟩, ?_⟩
    rw [← hkept.order, List.drop_left]
    exact congrArg (List.map decodeKey) hkept.holds.items_eq
  · intro acts' hinitial
    have hpmem : inPmem cfg addr = .ok false :=
      hreach.resolve_left fun h => h (hinitial.subset (by simp))
    obtain ⟨out, words, hrun, hkept⟩ := keyRun_kept hkeymap haddr io acts' (.inr hpmem)
      fun acts'' h => hpend acts'' (h.trans ((List.prefix_append acts' [.read]).trans hinitial))
    obtain ⟨ev, s, -, hstep, -, hnone⟩ := hkept.read haddr hpmem
    refine ⟨out.1, ev, s, ?_, hnone⟩
    rw [keyRun_concat, hrun]
    exact hstep

/-- A load of the guest that returns has reached the keyboard. -/
theorem FifoKept.reach {keymap : Keymap} (hdev : inPmem cfg addr ≠ .ok true)
    (h : FifoKept cfg mem keymap addr space io acts) :
    .read ∉ acts ∨ inPmem cfg addr = .ok false := by
  by_cases hmem : .read ∈ acts
  · right
    obtain ⟨acts', rest, rfl⟩ := List.append_of_mem hmem
    obtain ⟨answers, ev, s, hrun, -⟩ := h.answers acts' ⟨rest, by simp⟩
    rw [keyRun_concat] at hrun
    obtain ⟨out, -, hstep⟩ := bind_eq_ok.mp hrun
    obtain ⟨r, hload, -⟩ := bind_eq_ok.mp hstep
    exact inPmem_of_amInputKeybrd hdev hload
  · exact .inl hmem

/-- With at most 1023 events waiting, none is lost, duplicated or reordered exactly when the guest
does not read the keyboard or `in_pmem` answers that its address is not one of memory. -/
theorem keyboard_fifo_iff (mem : Mem) (SDL_SCANCODE : NemuKey → BitVec 8)
    (haddr : addr.toNat + 4 ≤ 2 ^ 32) (hdev : inPmem cfg addr ≠ .ok true) (space : ℕ) (io : IoSpace)
    (hpend : ∀ acts', acts' <+: acts → pending (initKeymap SDL_SCANCODE) acts' ≤ 1023) :
    FifoKept cfg mem (initKeymap SDL_SCANCODE) addr space io acts ↔
      .read ∉ acts ∨ inPmem cfg addr = .ok false := by
  constructor
  · exact fun h => h.reach hdev
  · intro hreach
    exact .of_reach (initKeymap_lt SDL_SCANCODE) haddr hreach
      fun acts' h => Nat.lt_succ_of_le (hpend acts' h)

end Fifo

/-- The scancodes as the SDL headers number them, in the order of `NemuKey`. -/
def sdlScancode (k : NemuKey) : BitVec 8 :=
  [0, 41, 58, 59, 60, 61, 62, 63, 64, 65, 66, 67, 68, 69,
    53, 30, 31, 32, 33, 34, 35, 36, 37, 38, 39, 45, 46, 42,
    43, 20, 26, 8, 21, 23, 28, 24, 12, 18, 19, 47, 48, 49,
    57, 4, 22, 7, 9, 10, 11, 13, 14, 15, 51, 52, 40,
    225, 29, 27, 6, 25, 5, 17, 16, 54, 55, 56, 229,
    224, 101, 226, 44, 230, 228,
    82, 81, 80, 79, 73, 76, 74, 77, 75, 78].getD k.ctorIdx 0

theorem pending_le_length (keymap : Keymap) (acts : List KeyAction) :
    pending keymap acts ≤ acts.length := by
  induction acts using List.reverseRecOn with
  | nil => exact Nat.zero_le _
  | append_singleton acts act ih =>
    rw [pending_concat, List.length_append, List.length_singleton]
    cases act with
    | send scancode isKeydown =>
      dsimp only
      split_ifs <;> omega
    | read =>
      change pending keymap acts - 1 ≤ _
      omega

theorem pending_le_of_initial (keymap : Keymap) {acts acts' : List KeyAction} {n : ℕ}
    (hlen : acts.length ≤ n) (h : acts' <+: acts) : pending keymap acts' ≤ n :=
  (pending_le_length keymap acts').trans (h.length_le.trans hlen)

/-- A key goes down, the guest looks twice, and it comes up; the keyboard is in the part of the flash
window that is not memory. -/
theorem keyboard_fifo_iff_press :
    FifoKept defaultMem (fun _ _ => 0) (initKeymap sdlScancode) 0x38000060 0 (fun _ => 0)
        [.send 4 true, .read, .read, .send 4 false] ↔
      KeyAction.read ∉ [KeyAction.send 4 true, .read, .read, .send 4 false] ∨
        inPmem defaultMem 0x38000060 = .ok false :=
  keyboard_fifo_iff (fun _ _ => 0) sdlScancode (by decide) (by decide) 0 (fun _ => 0)
    fun _ h => (pending_le_of_initial _ (by decide : _ ≤ 4) h).trans (by decide)

/-- One look at the keyboard where the guest has it. -/
theorem keyboard_not_fifo : ¬ ∀ (cfg : Config) (mem : Mem) (SDL_SCANCODE : NemuKey → BitVec 8)
    (space : ℕ) (io : IoSpace) (acts : List KeyAction),
    (∀ acts', acts' <+: acts → pending (initKeymap SDL_SCANCODE) acts' ≤ 1023) →
      FifoKept cfg mem (initKeymap SDL_SCANCODE) KBD_ADDR space io acts := by
  intro h
  have hkept := h defaultMem (fun _ _ => 0) sdlScancode 0 (fun _ => 0) [.read]
    fun _ h => (pending_le_of_initial _ (by decide : _ ≤ 1) h).trans (by decide)
  have hpmem := inPmem_KBD_ADDR defaultMem
  rcases hkept.reach (by rw [hpmem]; exact fun h => nomatch h) with hno | hfalse
  · exact hno (by simp)
  · rw [hpmem] at hfalse
    cases hfalse

end Ysyx.Nemu
