import Ysyx.Lib.Rsp

/-! The stub's side of the GDB remote serial protocol: packets over a line that damages some of
them, acknowledgements, and the commands that read and set registers, write memory and step. -/

namespace Ysyx.Rsp

open Bytes

/-- A stub behind a line. `up` says which of the packets to it arrive damaged, and `down` has what
arrives in the place of its next packets; past their ends both ways are clean. -/
structure Remote (σ : Type) where
  stub : σ
  up : List Bool
  down : List (Option (List Byte))
  reply : List Byte

section Line

variable {σ : Type} (upper : Bool) (handle : σ → List Byte → σ × List Byte)

/-- The reply as it arrives. -/
def Remote.deliver (r : Remote σ) : Remote σ × List Byte :=
  match r.down with
  | some b :: down => ({ r with down }, b)
  | none :: down => ({ r with down }, packet upper r.reply)
  | [] => (r, packet upper r.reply)

/-- What is between `$` and `#`. -/
def packetText (bytes : List Byte) : List Byte := (bytes.drop 1).take (bytes.length - 4)

theorem packetText_packet (w : List Byte) : packetText (packet upper w) = w := by
  rw [packetText, packet, List.cons_append, List.drop_succ_cons, List.drop_zero, List.length_cons,
    List.length_append]
  exact List.take_left

/-- A packet is answered by `+` and the reply, or by `-` where it is damaged; `-` asks for the reply
again, and `+` for nothing. -/
def Remote.answer (r : Remote σ) (bytes : List Byte) : Remote σ × List Byte :=
  if bytes = [ascii '+'] then (r, [])
  else if bytes = [ascii '-'] then r.deliver upper
  else if bytes = packet true (packetText bytes) ∧ r.up.head? ≠ some true then
    let (stub, reply) := handle r.stub (packetText bytes)
    let (r, bytes) := Remote.deliver upper { r with stub, reply, up := r.up.tail }
    (r, ascii '+' :: bytes)
  else ({ r with up := r.up.tail }, [ascii '-'])

end Line

/-- The acknowledgement layer of a peer whose stub handles its commands with `handle`. Nothing is under
way where it is `AtRest`; a reply has been `Sent` as some bytes. At most `u` more commands and `d` more
replies arrive damaged. -/
structure AckLayer {σ π : Type} (upper : Bool) (handle : σ → List Byte → σ × List Byte)
    (answer : π → List Byte → π × List Byte) where
  AtRest : (u d : ℕ) → σ → π → Prop
  Sent : (u d : ℕ) → σ → (reply : List Byte) → π → (bytes : List Byte) → Prop
  ack {u d : ℕ} {s : σ} {r : π} (h : AtRest u d s r) :
    ∃ r', answer r [ascii '+'] = (r', []) ∧ AtRest u d s r'
  command {u d : ℕ} {s : σ} {r : π} (h : AtRest u d s r) (c : List Byte) :
    (∃ v < u, ∃ r', answer r (packet true c) = (r', [ascii '-']) ∧ AtRest v d s r') ∨
      ∃ v ≤ u, ∃ r' bytes, answer r (packet true c) = (r', ascii '+' :: bytes) ∧
        Sent v d (handle s c).1 (handle s c).2 r' bytes
  reply {u d : ℕ} {s : σ} {w : List Byte} {r : π} {bytes : List Byte} (h : Sent u d s w r bytes) :
    bytes = packet upper w ∧ (∃ e ≤ d, AtRest u e s r) ∨
      Damaged bytes ∧ ∃ e < d, ∃ r' bytes', answer r [ascii '-'] = (r', bytes') ∧
        Sent u e s w r' bytes'

/-- What is still to be damaged, of a remote. -/
structure Remote.Within {σ : Type} (u d : ℕ) (r : Remote σ) : Prop where
  up : r.up.length ≤ u
  down : r.down.length ≤ d
  damaged : ∀ b, some b ∈ r.down → Damaged b

section Within

variable {σ : Type} {upper : Bool} {handle : σ → List Byte → σ × List Byte} {u d : ℕ} {s : σ}
  {r r' : Remote σ} {w bytes : List Byte}

/-- The reply `w` is on its way from a stub in state `s`. -/
def Remote.Sent (upper : Bool) (u d : ℕ) (s : σ) (w : List Byte) (r' : Remote σ) (bytes : List Byte) :
    Prop :=
  ∃ r : Remote σ, r.stub = s ∧ r.reply = w ∧ r.Within u d ∧ r.deliver upper = (r', bytes)

theorem Remote.answer_packet (r : Remote σ) (c : List Byte) :
    r.answer upper handle (packet true c) =
      if r.up.head? ≠ some true then
        let (stub, reply) := handle r.stub c
        let (r, bytes) := Remote.deliver upper { r with stub, reply, up := r.up.tail }
        (r, ascii '+' :: bytes)
      else ({ r with up := r.up.tail }, [ascii '-']) := by
  have hlen (x : Byte) : packet true c ≠ [x] := by
    intro h
    have := congrArg List.length h
    simp only [packet, List.length_append, List.length_cons, List.length_nil] at this
    omega
  rw [Remote.answer, if_neg (hlen _), if_neg (hlen _), packetText_packet]
  simp only [true_and]

theorem Remote.Within.answer_command (h : r.Within u d) (c : List Byte) :
    (∃ v < u, ∃ r', r.answer upper handle (packet true c) = (r', [ascii '-']) ∧
        r'.stub = r.stub ∧ r'.Within v d) ∨
      ∃ v ≤ u, ∃ r' bytes, r.answer upper handle (packet true c) = (r', ascii '+' :: bytes) ∧
        Remote.Sent upper v d (handle r.stub c).1 (handle r.stub c).2 r' bytes := by
  have hup := h.up
  rw [answer_packet]
  by_cases hdamaged : r.up.head? = some true
  · have hlen : r.up.tail.length < u := by
      cases hr : r.up with
      | nil => rw [hr] at hdamaged; cases hdamaged
      | cons b up =>
        rw [hr, List.length_cons] at hup
        exact hup
    rw [if_neg (not_not.mpr hdamaged)]
    exact .inl ⟨_, hlen, _, rfl, rfl, le_rfl, h.down, h.damaged⟩
  · rw [if_pos hdamaged]
    let r' : Remote σ :=
      { r with stub := (handle r.stub c).1, reply := (handle r.stub c).2, up := r.up.tail }
    refine .inr ⟨u, le_rfl, _, _, rfl, r', rfl, rfl, ⟨?_, h.down, h.damaged⟩, rfl⟩
    change r.up.tail.length ≤ u
    rw [List.length_tail]
    omega

/-- A reply arrives, or it is damaged and sent again when `-` asks for it. -/
theorem Remote.Sent.arrives (h : Remote.Sent upper u d s w r bytes) :
    bytes = packet upper w ∧ (∃ e ≤ d, r.stub = s ∧ r.Within u e) ∨
      Damaged bytes ∧ ∃ e < d, ∃ r' bytes', r.answer upper handle [ascii '-'] = (r', bytes') ∧
        Remote.Sent upper u e s w r' bytes' := by
  obtain ⟨r₀, rfl, rfl, ⟨hup, hlen, hdamaged⟩, hdeliver⟩ := h
  rcases hdown : r₀.down with _ | ⟨_ | b, down⟩ <;>
    (rw [Remote.deliver, hdown] at hdeliver; obtain ⟨rfl, rfl⟩ := Prod.mk.inj hdeliver)
  · exact .inl ⟨rfl, d, le_rfl, rfl, hup, hlen, hdamaged⟩
  all_goals rw [hdown, List.length_cons] at hlen
  · refine .inl ⟨rfl, down.length, by omega, rfl, hup, le_rfl, fun b hb => hdamaged b ?_⟩
    rw [hdown]
    exact List.mem_cons_of_mem _ hb
  · have hb : Damaged b := hdamaged b (by rw [hdown]; exact List.mem_cons_self)
    refine .inr ⟨hb, down.length, by omega, _, _, rfl, { r₀ with down }, rfl, rfl,
      ⟨hup, le_rfl, fun b hb => ?_⟩, rfl⟩
    exact hdamaged b (by rw [hdown]; exact List.mem_cons_of_mem _ hb)

end Within

/-- The layer of a stub behind a line that damages finitely many packets. -/
def Remote.ackLayer {σ : Type} (upper : Bool) (handle : σ → List Byte → σ × List Byte) :
    AckLayer upper handle (Remote.answer upper handle) where
  AtRest u d s r := r.stub = s ∧ r.Within u d
  Sent := Remote.Sent upper
  ack h := ⟨_, rfl, h⟩
  command h c := by
    obtain ⟨rfl, hwithin⟩ := h
    exact hwithin.answer_command c
  reply h := h.arrives

/-- The registers and the memory of a machine with `nr` registers. -/
structure Machine (σ : Type) where
  nr : ℕ
  regs : σ → List Word
  setRegs : List Word → σ → σ
  store : Word → Byte → σ → σ
  step : σ → σ
  regs_length : ∀ s, (regs s).length = nr

/-- Bytes stored from an address on. -/
def Machine.write {σ : Type} (m : Machine σ) (addr : Word) : List Byte → σ → σ
  | [], s => s
  | b :: data, s => m.write (addr + 1) data (m.store addr b s)

theorem Machine.write_append {σ : Type} (m : Machine σ) (addr : Word) (data data' : List Byte)
    (s : σ) : m.write addr (data ++ data') s =
      m.write (addr + BitVec.ofNat 32 data.length) data' (m.write addr data s) := by
  induction data generalizing addr s with
  | nil => rw [List.nil_append, List.length_nil, BitVec.add_zero]; rfl
  | cons b data ih =>
    have hadd : addr + BitVec.ofNat 32 (data.length + 1) = addr + 1 + BitVec.ofNat 32 data.length := by
      rw [BitVec.ofNat_add, BitVec.add_assoc, BitVec.add_comm (BitVec.ofNat 32 data.length)]
      rfl
    rw [List.cons_append, Machine.write, Machine.write, ih, List.length_cons, hadd]

def wordData (r : List Word) : List Byte := r.flatMap fun w => (List.range 4).map (byteOf w)

/-- The reply is a text for this payload. -/
def Replies {σ : Type} (out : σ × List Byte) (s : σ) (p : List Byte) : Prop :=
  out.1 = s ∧ Encodes out.2 p

/-- The stub does what `g`, `G`, `M` and `vCont;s:1` are for. Of the data of `G` it takes what it
has registers for. -/
structure Serves {σ : Type} (m : Machine σ) (handle : σ → List Byte → σ × List Byte) : Prop where
  getRegs : ∀ s, Replies (handle s [ascii 'g']) s (hexData (wordData (m.regs s)))
  setRegs : ∀ s r, m.nr ≤ r.length →
    Replies (handle s (ascii 'G' :: hexData (wordData r))) (m.setRegs (r.take m.nr) s)
      [ascii 'O', ascii 'K']
  write : ∀ s (addr : Word) data at' len, Numeral at' addr.toNat → Numeral len data.length →
    Replies (handle s ([ascii 'M', ascii '0', ascii 'x'] ++ at' ++ [ascii ','] ++ len ++ [ascii ':'] ++
      hexData data)) (m.write addr data s) [ascii 'O', ascii 'K']
  step : ∀ s, ∃ p, Replies (handle s ("vCont;s:1".toList.map ascii)) (m.step s) p

section Stub

def unhex : List Byte → List Byte
  | a :: b :: text =>
    match digitValue a, digitValue b with
    | some x, some y => BitVec.ofNat 8 (16 * x + y) :: unhex text
    | _, _ => []
  | _ => []

def wordsOf : List Byte → List Word
  | a :: b :: c :: d :: data => leWord (fun i => [a, b, c, d].getD i 0) 4 :: wordsOf data
  | _ => []

theorem unhex_hexData (data : List Byte) : unhex (hexData data) = data := by
  induction data with
  | nil => rfl
  | cons b data ih =>
    have hb := b.isLt
    have hhi := digitValue_hexDigit false (b.toNat / 16) (by omega)
    have hlo := digitValue_hexDigit false (b.toNat % 16) (by omega)
    have hval : BitVec.ofNat 8 (16 * (b.toNat / 16) + b.toNat % 16) = b := by
      rw [Nat.div_add_mod, BitVec.ofNat_toNat, BitVec.setWidth_eq]
    rw [hexData, List.flatMap_cons, ← hexData, List.cons_append, List.cons_append, List.nil_append,
      unhex, hhi, hlo]
    dsimp only
    rw [hval, ih]

theorem wordsOf_wordData (r : List Word) : wordsOf (wordData r) = r := by
  induction r with
  | nil => rfl
  | cons w r ih =>
    have hw : leWord (fun i => [byteOf w 0, byteOf w 1, byteOf w 2, byteOf w 3].getD i 0) 4 = w := by
      rw [← leWord_byteOf w]
      refine leWord_congr fun k hk => ?_
      rw [leWord_byteOf]
      interval_cases k <;> rfl
    rw [wordData, List.flatMap_cons, ← wordData]
    change leWord _ 4 :: wordsOf (wordData r) = _
    rw [hw, ih]

theorem digitValue_separator : digitValue (ascii ',') = none ∧ digitValue (ascii ':') = none := by
  decide

theorem Numeral.digits {text : List Byte} {n : ℕ} (h : Numeral text n) :
    ∀ c ∈ text, digitValue c ≠ none := by
  have hvalue := h.value
  generalize 0 = m at hvalue
  clear h
  induction text generalizing m with
  | nil => exact fun c hc => absurd hc List.not_mem_nil
  | cons c text ih =>
    rw [List.foldlM_cons] at hvalue
    intro d hd
    rcases hc : digitValue c with _ | x
    · rw [hc] at hvalue
      cases hvalue
    · rcases List.mem_cons.mp hd with rfl | hd
      · rw [hc]
        exact Option.some_ne_none x
      · rw [hc] at hvalue
        exact ih _ hvalue d hd

variable {σ : Type} (m : Machine σ)

def upTo (c : Byte) (text : List Byte) : List Byte × List Byte :=
  (text.takeWhile (· ≠ c), (text.dropWhile (· ≠ c)).drop 1)

theorem upTo_append {c : Byte} {text rest : List Byte} (h : c ∉ text) :
    upTo c (text ++ c :: rest) = (text, rest) := by
  have hall : ∀ d ∈ text, decide (d ≠ c) = true := fun d hd => decide_eq_true fun heq => h (heq ▸ hd)
  rw [upTo, List.takeWhile_append_of_pos hall, List.dropWhile_append_of_pos hall,
    List.takeWhile_cons_of_neg (by simp), List.dropWhile_cons_of_neg (by simp), List.append_nil]
  rfl

/-- A stub that reads its commands as they are meant. -/
def Machine.serve (s : σ) (command : List Byte) : σ × List Byte :=
  match command with
  | [] => (s, [])
  | c :: rest =>
    if c = ascii 'g' then (s, hexData (wordData (m.regs s)))
    else if c = ascii 'G' then
      (m.setRegs ((wordsOf (unhex rest)).take m.nr) s, [ascii 'O', ascii 'K'])
    else if c = ascii 'M' then
      let (addr, rest) := upTo (ascii ',') (rest.drop 2)
      let data := (upTo (ascii ':') rest).2
      match addr.foldlM (fun n c => (digitValue c).map (16 * n + ·)) 0 with
      | some a => (m.write (BitVec.ofNat 32 a) (unhex data) s, [ascii 'O', ascii 'K'])
      | none => (s, [ascii 'E', ascii '0', ascii '1'])
    else (m.step s, [ascii 'S', ascii '0', ascii '5'])

theorem hexDigit_not_mark : ∀ upper, ∀ n < 16, ¬ IsMark (hexDigit upper n) := by decide

theorem Encodes.hexData (data : List Byte) : Encodes (hexData data) (hexData data) := by
  refine .plain fun c hc => ?_
  obtain ⟨b, -, hb⟩ := List.mem_flatMap.mp hc
  have hlt := b.isLt
  rcases List.mem_pair.mp hb with rfl | rfl
  · exact hexDigit_not_mark false _ (by omega)
  · exact hexDigit_not_mark false _ (by omega)

theorem encodes_ok : Encodes [ascii 'O', ascii 'K'] [ascii 'O', ascii 'K'] := .plain (by decide)

theorem Machine.serves : Serves m m.serve where
  getRegs s := ⟨rfl, .hexData _⟩
  setRegs s r hr := by
    rw [Machine.serve]
    dsimp only
    rw [if_neg (by decide), if_pos rfl, unhex_hexData, wordsOf_wordData]
    exact ⟨rfl, encodes_ok⟩
  write s addr data at' len hat hlen := by
    have hcomma : ascii ',' ∉ at' := fun h => hat.digits _ h digitValue_separator.1
    have hcolon : ascii ':' ∉ len := fun h => hlen.digits _ h digitValue_separator.2
    have htext : [ascii 'M', ascii '0', ascii 'x'] ++ at' ++ [ascii ','] ++ len ++ [ascii ':'] ++
        Rsp.hexData data = ascii 'M' :: ascii '0' :: ascii 'x' ::
          (at' ++ ascii ',' :: (len ++ ascii ':' :: Rsp.hexData data)) := by
      simp only [List.cons_append, List.nil_append, List.append_assoc]
    rw [htext, Machine.serve]
    dsimp only
    rw [if_neg (by decide), if_neg (by decide), if_pos rfl, List.drop_succ_cons, List.drop_succ_cons,
      List.drop_zero, upTo_append hcomma]
    dsimp only
    rw [upTo_append hcolon, hat.value]
    dsimp only
    rw [unhex_hexData, BitVec.ofNat_toNat, BitVec.setWidth_eq]
    exact ⟨rfl, encodes_ok⟩
  step s :=
    have h : Encodes [ascii 'S', ascii '0', ascii '5'] [ascii 'S', ascii '0', ascii '5'] :=
      .plain (by decide)
    ⟨_, rfl, h⟩

end Stub

end Ysyx.Rsp
