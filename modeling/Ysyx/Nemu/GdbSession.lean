import Ysyx.Lib.RspStub
import Ysyx.Nemu.GdbPackets
import Ysyx.Nemu.GdbHost

/-! Sessions of differential testing with QEMU behind a line that damages packets: every command is
carried out once, and the calls of `diff-test.c` have on the machine the effect that they are for. -/

namespace Ysyx.Nemu.Gdb

open Bytes Rsp

theorem digitValue_hexNibble (c : Byte) (h : isxdigit c = true) :
    digitValue c = some (hexNibble c).toNat := by
  have hall : ∀ n < 256, isxdigit (BitVec.ofNat 8 n) = true →
      digitValue (BitVec.ofNat 8 n) = some (hexNibble (BitVec.ofNat 8 n)).toNat := by decide +kernel
  have hc : BitVec.ofNat 8 c.toNat = c := (BitVec.ofNat_toNat 8 c).trans (BitVec.setWidth_eq c)
  rw [← hc] at h ⊢
  exact hall c.toNat c.isLt h

theorem not_mem_nil_end : ∀ c ∈ ([] : List Byte), c ≠ ascii '#' :=
  fun _ hc => absurd hc List.not_mem_nil

theorem recvPacket_damaged {b : List Byte} (h : Damaged b) : ∃ r, recvPacket b = .ok (r, false, []) := by
  obtain ⟨w, msb, lsb, rfl, hw, hsum⟩ := h
  obtain ⟨r, hr⟩ := recvPacket_checked not_mem_nil_end hw msb lsb []
  refine ⟨r, ?_⟩
  have hne : ((checksum w).toNat == gdbDecodeHex msb lsb) = false := by
    refine beq_eq_false_iff_ne.mpr fun heq => hsum ?_
    have hlt := (checksum w).isLt
    rw [gdbDecodeHex] at heq
    split_ifs at heq with hx
    · omega
    · rw [not_or, Bool.not_eq_false, Bool.not_eq_false] at hx
      rw [digitValue_hexNibble msb hx.1, digitValue_hexNibble lsb hx.2, heq]
      rfl
  rw [hne] at hr
  rw [← hr]
  simp only [List.nil_append, List.cons_append]

section Exchange

variable {σ π : Type} {upper : Bool} {handle : σ → List Byte → σ × List Byte}
  {answer : π → List Byte → π × List Byte} (L : AckLayer upper handle answer) {n u d : ℕ}
  {conn : Conn π} {s s' : σ} {command p w : List Byte}

/-- Nothing is under way, the stub is in state `s`, and fewer than `n` packets are still to be damaged
in either direction. -/
structure Idle (n : ℕ) (conn : Conn π) (s : σ) : Prop where
  inbox : conn.inbox = []
  ack : conn.ack = true
  rest : ∃ u < n, ∃ d < n, L.AtRest u d s conn.peer

variable (command) in
/-- The loop of `gdb_send` ends with the first packet that arrives, and the stub handles that one. -/
theorem gdbSend_turns (hinbox : conn.inbox = []) (hack : conn.ack = true)
    (hrest : L.AtRest u d s conn.peer) (k : ℕ) :
    (∃ conn', gdbSend answer k conn command = .ok conn' ∧ conn'.ack = true ∧ ∃ v ≤ u,
      L.Sent v d (handle s command).1 (handle s command).2 conn'.peer conn'.inbox) ∨
    gdbSend answer k conn command = .error .again ∧ k ≤ u := by
  induction k generalizing conn u with
  | zero => exact .inr ⟨rfl, Nat.zero_le _⟩
  | succ k ih =>
    obtain ⟨inbox, peer, ack⟩ := conn
    dsimp only at hinbox hack hrest
    subst hinbox hack
    rw [gdbSend, Conn.flush, sendPacket_eq]
    rcases L.command hrest command with
      ⟨v, hv, r, hanswer, hrest'⟩ | ⟨v, hv, r, bytes, hanswer, hsent⟩
    · -- the packet has been damaged
      dsimp only
      rw [hanswer]
      rcases @ih v ⟨[], r, true⟩ rfl rfl hrest' with
        ⟨conn', hsend, hack, v', hv', hsent⟩ | ⟨hsend, hk⟩
      · exact .inl ⟨conn', hsend, hack, v', hv'.trans hv.le, hsent⟩
      · exact .inr ⟨hsend, by omega⟩
    · dsimp only
      rw [hanswer]
      exact .inl ⟨_, rfl, rfl, v, hv, hsent⟩

theorem recvPacket_reply (upper : Bool) (hw : Encodes w p) :
    recvPacket (packet upper w) = .ok (p, true, []) := by
  have h := recvPacket_packet not_mem_nil_end hw upper []
  rwa [List.nil_append, List.append_nil] at h

/-- The loop of `gdb_recv` ends with the first packet that is not damaged, and nothing is left of the
others. -/
theorem gdbRecv_turns (hack : conn.ack = true) (hsent : L.Sent u d s w conn.peer conn.inbox)
    (hw : Encodes w p) (k : ℕ) :
    (∃ conn', gdbRecv answer k conn = .ok (p, conn') ∧ conn'.inbox = [] ∧ conn'.ack = true ∧
      ∃ e ≤ d, L.AtRest u e s conn'.peer) ∨
    gdbRecv answer k conn = .error .again ∧ k ≤ d := by
  induction k generalizing conn d with
  | zero => exact .inr ⟨rfl, Nat.zero_le _⟩
  | succ k ih =>
    obtain ⟨inbox, peer, ack⟩ := conn
    dsimp only at hack hsent
    subst hack
    rcases L.reply hsent with ⟨hbytes, e, he, hrest⟩ | ⟨hdamaged, e, he, r, bytes, hanswer, hsent'⟩
    · obtain ⟨r, hanswer, hrest'⟩ := L.ack hrest
      refine .inl ⟨⟨[], r, true⟩, ?_, rfl, rfl, e, he, hrest'⟩
      simp only [gdbRecv, hbytes, recvPacket_reply upper hw, bind, Except.bind, Conn.flush, if_true,
        hanswer, List.append_nil]
      rfl
    · obtain ⟨junk, hjunk⟩ := recvPacket_damaged hdamaged
      have hturn : gdbRecv answer (k + 1) ⟨inbox, peer, true⟩ = gdbRecv answer k ⟨bytes, r, true⟩ := by
        simp only [gdbRecv, hjunk, bind, Except.bind, Conn.flush, Bool.false_eq_true, if_false,
          hanswer, List.nil_append]
        rfl
      rw [hturn]
      rcases @ih e ⟨bytes, r, true⟩ rfl hsent' with
        ⟨conn', hrecv, hinbox, hack, e', he', hrest⟩ | ⟨hrecv, hk⟩
      · exact .inl ⟨conn', hrecv, hinbox, hack, e', he'.trans he.le, hrest⟩
      · exact .inr ⟨hrecv, by omega⟩

theorem request_turns (h : Idle L n conn s) (hreply : Replies (handle s command) s' p) (k : ℕ) :
    (∃ conn', request answer k conn command = .ok (p, conn') ∧ Idle L n conn' s') ∨
    request answer k conn command = .error (.conn .again) ∧ k < n := by
  obtain ⟨hinbox, hack, u, hu, d, hd, hrest⟩ := h
  rcases gdbSend_turns L command hinbox hack hrest k with
    ⟨conn₁, hsend, hack₁, v, hv, hsent⟩ | ⟨hsend, hk⟩
  · rcases gdbRecv_turns L hack₁ hsent hreply.2 k with
      ⟨conn₂, hrecv, hinbox₂, hack₂, e, he, hrest₂⟩ | ⟨hrecv, hk⟩
    · rw [hreply.1] at hrest₂
      refine .inl ⟨conn₂, ?_, hinbox₂, hack₂, v, hv.trans_lt hu, e, he.trans_lt hd, hrest₂⟩
      simp only [request, hsend, hrecv, Except.mapError, bind, Except.bind]
    · refine .inr ⟨?_, hk.trans_lt hd⟩
      simp only [request, hsend, hrecv, Except.mapError, bind, Except.bind]
  · refine .inr ⟨?_, hk.trans_lt hu⟩
    simp only [request, hsend, Except.mapError, bind, Except.bind]

theorem request_ok (h : Idle L n conn s) (hreply : Replies (handle s command) s' p) :
    ∃ conn', request answer n conn command = .ok (p, conn') ∧ Idle L n conn' s' := by
  rcases request_turns L h hreply n with hok | ⟨-, hlt⟩
  · exact hok
  · exact absurd hlt (lt_irrefl n)

/-- No damage on the way loses a command or has it carried out twice: where the loops come to an end
the stub has handled it once and its reply is handed out, enough turns bring them to an end, and they
fail in no other way. -/
theorem request_once (h : Idle L n conn s) (hreply : Encodes (handle s command).2 p) :
    (∀ k, n ≤ k → ∃ conn', request answer k conn command = .ok (p, conn') ∧
      Idle L n conn' (handle s command).1) ∧
    (∀ k q conn', request answer k conn command = .ok (q, conn') →
      q = p ∧ Idle L n conn' (handle s command).1) ∧
    ∀ k e, request answer k conn command = .error e → e = .conn .again := by
  have hreplies : Replies (handle s command) (handle s command).1 p := ⟨rfl, hreply⟩
  have hturns := request_turns L h hreplies
  refine ⟨fun k hk => ?_, fun k q conn' hok => ?_, fun k e herror => ?_⟩
  · rcases hturns k with hok | ⟨-, hlt⟩
    · exact hok
    · omega
  · rcases hturns k with ⟨conn₁, hok₁, hidle⟩ | ⟨herror, -⟩
    · obtain ⟨rfl, rfl⟩ := Prod.mk.inj (Except.ok.inj (hok.symm.trans hok₁))
      exact ⟨rfl, hidle⟩
    · rw [hok] at herror
      cases herror
  · rcases hturns k with ⟨conn₁, hok, -⟩ | ⟨hagain, -⟩
    · rw [herror] at hok
      cases hok
    · exact Except.error.inj (herror.symm.trans hagain)

end Exchange

/-- A packet with a digit of its checksum lost. -/
def lostDigit : List Byte := "$OK#0a".toList.map ascii

theorem lostDigit_damaged : Damaged lostDigit :=
  ⟨[ascii 'O', ascii 'K'], ascii '0', ascii 'a', rfl, encodes_ok.body, by decide⟩

/-- A stub that counts its commands. -/
def counting (s : ℕ) (_ : List Byte) : ℕ × List Byte := (s + 1, [ascii 'O', ascii 'K'])

/-- Two packets are damaged on the way to the stub and one on the way back. -/
theorem request_once_noisy :
    (∀ k, 3 ≤ k → ∃ conn', request (Remote.answer true counting) k
        ⟨[], ⟨0, [true, true], [some lostDigit], []⟩, true⟩ (text "g") =
          .ok ([ascii 'O', ascii 'K'], conn') ∧ Idle (Remote.ackLayer true counting) 3 conn' 1) ∧
    (∀ k q conn', request (Remote.answer true counting) k
        ⟨[], ⟨0, [true, true], [some lostDigit], []⟩, true⟩ (text "g") = .ok (q, conn') →
      q = [ascii 'O', ascii 'K'] ∧ Idle (Remote.ackLayer true counting) 3 conn' 1) ∧
    ∀ k e, request (Remote.answer true counting) k
        ⟨[], ⟨0, [true, true], [some lostDigit], []⟩, true⟩ (text "g") = .error e →
      e = .conn .again := by
  have hwithin : Remote.Within 2 1 (⟨0, [true, true], [some lostDigit], []⟩ : Remote ℕ) := by
    refine ⟨le_rfl, le_rfl, fun b hb => ?_⟩
    obtain rfl := Option.some.inj (List.mem_singleton.mp hb)
    exact lostDigit_damaged
  exact request_once (Remote.ackLayer true counting) (s := (0 : ℕ))
    ⟨rfl, rfl, 2, by decide, 1, by decide, rfl, hwithin⟩ encodes_ok

theorem hexBytes_eq (src : List Byte) : hexBytes src = hexData src := by
  have hall : ∀ n < 256, hexEncode (BitVec.ofNat 8 n >>> 4) = hexDigit false (n / 16) ∧
      hexEncode (BitVec.ofNat 8 n &&& 0xf) = hexDigit false (n % 16) := by decide +kernel
  rw [hexBytes, hexData]
  congr 1
  funext b
  obtain ⟨hhi, hlo⟩ := hall b.toNat b.isLt
  rw [BitVec.ofNat_toNat, BitVec.setWidth_eq] at hhi hlo
  rw [hhi, hlo]

theorem hexDigit_value (n : ℕ) (m : ℕ) (hm : m < 16) :
    (digitValue (hexDigit false m)).map (16 * n + ·) = some (16 * n + m) := by
  rw [digitValue_hexDigit false m hm]
  rfl

theorem hexText_numeral (n : ℕ) : Numeral (hexText n) n := by
  have hvalue : ((Nat.digits 16 n).map (hexDigit false)).reverse.foldlM
      (fun m c => (digitValue c).map (16 * m + ·)) 0 = some n := by
    induction n using Nat.strong_induction_on with
    | _ n ih =>
      rcases Nat.eq_zero_or_pos n with rfl | hn
      · rfl
      · rw [Nat.digits_def' (by decide) hn, List.map_cons, List.reverse_cons, List.foldlM_append,
          ih (n / 16) (Nat.div_lt_self hn (by decide))]
        simp only [bind, Option.bind, List.foldlM_cons, List.foldlM_nil,
          hexDigit_value _ _ (Nat.mod_lt n (by decide : 16 > 0)), Nat.div_add_mod]
        rfl
  rw [hexText]
  split_ifs with hn
  · subst hn
    exact ⟨by decide, rfl⟩
  · refine ⟨?_, hvalue⟩
    rw [ne_eq, List.reverse_eq_nil_iff, List.map_eq_nil_iff]
    exact Nat.digits_ne_nil_iff_ne_zero.mpr hn

theorem hexText_length {n k : ℕ} (hk : 0 < k) (hn : n < 16 ^ k) : (hexText n).length ≤ k := by
  rw [hexText]
  split_ifs
  · exact hk
  · rw [List.length_reverse, List.length_map]
    exact (Nat.digits_length_le_iff (by decide) n).mpr hn

theorem hexData_length (data : List Byte) : (hexData data).length = 2 * data.length := by
  induction data with
  | nil => rfl
  | cons b data ih =>
    rw [hexData, List.flatMap_cons, ← hexData, List.length_append, ih, List.length_cons]
    simp only [List.length_cons, List.length_nil]
    omega

theorem wordData_length (r : List Word) : (wordData r).length = 4 * r.length := by
  induction r with
  | nil => rfl
  | cons w r ih =>
    rw [wordData, List.flatMap_cons, ← wordData, List.length_append, ih, List.length_cons,
      List.length_map, List.length_range]
    omega

theorem memCommand_length (dest : Word) {src : List Byte} (hsrc : src.length ≤ 1500) :
    (memCommand dest src).length < src.length * 2 + 128 := by
  have hdest := hexText_length (n := dest.toNat) (k := 8) (by decide) dest.isLt
  have hlen := hexText_length (n := src.length) (k := 3) (by decide) (by omega)
  simp only [memCommand, List.length_append, hexBytes_eq, hexData_length, List.length_cons,
    List.length_nil, text, List.length_map]
  have h3 : "M0x".toList.length = 3 := by decide
  omega

theorem regsCommand_length {r : List Word} (hr : r.length = nrArray) :
    (regsCommand r).length < 4 * nrArray * 2 + 128 := by
  rw [regsCommand, List.length_cons, hexBytes_eq, hexData_length]
  change 2 * (wordData r).length + 1 < _
  rw [wordData_length, hr]
  decide

theorem gdbDecodeHexStr_word (w : Word) :
    (gdbDecodeHexStr (hexData ((List.range 4).map (byteOf w)))).setWidth 32 = w := by
  have hdigits (b : Byte) : isxdigit (hexDigit false (b.toNat / 16)) = true ∧
      isxdigit (hexDigit false (b.toNat % 16)) = true := by
    have hb := b.isLt
    exact ⟨(hexDigit_decodes false _ (by omega)).1, (hexDigit_decodes false _ (by omega)).1⟩
  have hstep (value weight : BitVec 64) (b : Byte) (data : List Byte) :
      decodeFrom value weight (hexData (b :: data)) =
        decodeFrom (value + weight * BitVec.ofNat 64 b.toNat) (weight * (16 * 16)) (hexData data) := by
    rw [hexData, List.flatMap_cons, ← hexData, List.cons_append, List.cons_append, List.nil_append,
      decodeFrom, (hdigits b).1, (hdigits b).2, Bool.and_self, if_pos rfl, gdbDecodeHex_byte]
  have hmap : (List.range 4).map (byteOf w) = [byteOf w 0, byteOf w 1, byteOf w 2, byteOf w 3] := rfl
  have hbyte (k : ℕ) : (byteOf w k).toNat = w.toNat / 2 ^ (8 * k) % 256 := by
    rw [byteOf, BitVec.extractLsb'_toNat, Nat.shiftRight_eq_div_pow]
  have hnil (value weight : BitVec 64) : decodeFrom value weight (hexData []) = value := rfl
  have h₁ : (1 : BitVec 64) * (16 * 16) = BitVec.ofNat 64 256 := rfl
  have h₂ : BitVec.ofNat 64 256 * (16 * 16) = BitVec.ofNat 64 65536 := rfl
  have h₃ : BitVec.ofNat 64 65536 * (16 * 16) = BitVec.ofNat 64 16777216 := rfl
  rw [gdbDecodeHexStr, hmap, hstep, hstep, hstep, hstep, hnil, h₁, h₂, h₃, one_mul, zero_add]
  apply BitVec.eq_of_toNat_eq
  have hw := w.isLt
  simp only [BitVec.toNat_setWidth, BitVec.toNat_add, BitVec.toNat_mul, BitVec.toNat_ofNat, hbyte]
  omega

theorem part_flatMap {α β : Type} {f : α → List β} {k : ℕ} (hf : ∀ a, (f a).length = k) (rest : List β)
    {l : List α} {i : ℕ} (hi : i < l.length) :
    ((l.flatMap f ++ rest).drop (k * i)).take k = f l[i] := by
  induction l generalizing i with
  | nil => cases hi
  | cons a l ih =>
    rw [List.flatMap_cons, List.append_assoc]
    cases i with
    | zero =>
      rw [Nat.mul_zero, List.drop_zero, List.take_append_of_le_length (hf a).ge, ← hf a, List.take_length]
      rfl
    | succ i =>
      have hdrop : k * (i + 1) = (f a).length + k * i := by rw [hf, Nat.mul_succ, Nat.add_comm]
      rw [hdrop, List.drop_length_add_append, ih (Nat.lt_of_succ_lt_succ hi)]
      rfl

theorem hexData_wordData (r : List Word) :
    hexData (wordData r) = r.flatMap fun w => hexData ((List.range 4).map (byteOf w)) := by
  rw [hexData, wordData, List.flatMap_assoc]
  rfl

theorem replyWords_take (r : List Word) (rest : List Byte) (hr : r.length ≤ nrArray) :
    ((List.range nrArray).map fun i => (gdbDecodeHexStr
      (((hexData (wordData r) ++ rest).drop (8 * i)).take 8)).setWidth 32).take r.length = r := by
  have hlen (w : Word) : (hexData ((List.range 4).map (byteOf w))).length = 8 := by
    rw [hexData_length, List.length_map, List.length_range]
  rw [hexData_wordData]
  apply List.ext_getElem
  · rw [List.length_take, List.length_map, List.length_range]
    omega
  · intro i _ hi
    rw [List.getElem_take, List.getElem_map, List.getElem_range, part_flatMap hlen rest hi,
      gdbDecodeHexStr_word]

section Host

variable {σ π : Type} {m : Machine σ} {upper : Bool} {handle : σ → List Byte → σ × List Byte}
  {answer : π → List Byte → π × List Byte} (L : AckLayer upper handle answer) {n : ℕ}
  {conn : Conn π} {s : σ}

theorem isText_ok : isText [ascii 'O', ascii 'K'] "OK" = true := by decide

theorem gdbMemcpyToQemuSmall_ok (hm : Serves m handle) (h : Idle L n conn s) (dest : Word)
    {src : List Byte} (hsrc : src.length ≤ 1500) :
    ∃ conn', gdbMemcpyToQemuSmall answer n conn dest src = .ok (true, conn') ∧
      Idle L n conn' (m.write dest src s) := by
  have hreply := hm.write s dest src _ _ (hexText_numeral dest.toNat) (hexText_numeral src.length)
  have htext : [ascii 'M', ascii '0', ascii 'x'] ++ hexText dest.toNat ++ [ascii ','] ++
      hexText src.length ++ [ascii ':'] ++ hexData src = memCommand dest src := by
    rw [memCommand, hexBytes_eq]
    rfl
  rw [htext] at hreply
  obtain ⟨conn', hrequest, hidle⟩ := request_ok L h hreply
  refine ⟨conn', ?_, hidle⟩
  simp only [gdbMemcpyToQemuSmall, if_pos (memCommand_length dest hsrc), hrequest, bind, Except.bind,
    isText_ok]
  rfl

theorem gdbMemcpyToQemu_ok (hm : Serves m handle) (h : Idle L n conn s) (dest : Word)
    (src : List Byte) :
    ∃ conn', gdbMemcpyToQemu answer n conn dest src = .ok (true, conn') ∧
      Idle L n conn' (m.write dest src s) := by
  induction hlen : src.length using Nat.strong_induction_on generalizing conn s dest src with
  | _ len ih =>
    subst hlen
    rw [gdbMemcpyToQemu]
    split_ifs with hlong
    · have htake : (src.take 1500).length = 1500 := by
        rw [List.length_take]
        omega
      obtain ⟨conn₁, hfirst, hidle⟩ :=
        gdbMemcpyToQemuSmall_ok L hm h dest htake.le
      obtain ⟨conn₂, hrest, hidle'⟩ := ih (src.drop 1500).length (by rw [List.length_drop]; omega)
        hidle (dest + 1500) (src.drop 1500) rfl
      have hwrite : m.write dest src s =
          m.write (dest + 1500) (src.drop 1500) (m.write dest (src.take 1500) s) := by
        have happend := m.write_append dest (src.take 1500) (src.drop 1500) s
        rw [List.take_append_drop, htake] at happend
        exact happend
      rw [← hwrite] at hidle'
      refine ⟨conn₂, ?_, hidle'⟩
      simp only [hfirst, hrest, bind, Except.bind]
      rfl
    · exact gdbMemcpyToQemuSmall_ok L hm h dest (by omega)

theorem gdbGetregs_ok (hm : Serves m handle) (hnr : m.nr ≤ nrArray) (h : Idle L n conn s)
    (junk : List Byte) : ∃ r conn',
      gdbGetregs answer n junk conn = .ok (r, conn') ∧
      r.take m.nr = m.regs s ∧ r.length = nrArray ∧ Idle L n conn' s := by
  obtain ⟨conn', hrequest, hidle⟩ := request_ok L h (hm.getRegs s)
  refine ⟨(List.range nrArray).map fun i => (gdbDecodeHexStr
    (((hexData (wordData (m.regs s)) ++ 0 :: junk).drop (8 * i)).take 8)).setWidth 32, conn',
    ?_, ?_, ?_, hidle⟩
  · have htext : text "g" = [ascii 'g'] := rfl
    simp only [gdbGetregs, htext, hrequest, bind, Except.bind]
    rfl
  · have hlen := m.regs_length s
    rw [← hlen] at hnr ⊢
    exact replyWords_take _ _ hnr
  · rw [List.length_map, List.length_range]

theorem gdbSetregs_ok (hm : Serves m handle) (hnr : m.nr ≤ nrArray) (h : Idle L n conn s)
    {r : List Word} (hr : r.length = nrArray) :
    ∃ conn', gdbSetregs answer n conn r = .ok (true, conn') ∧
      Idle L n conn' (m.setRegs (r.take m.nr) s) := by
  have hreply := hm.setRegs s r (hnr.trans hr.ge)
  have htext : ascii 'G' :: hexData (wordData r) = regsCommand r := by
    rw [regsCommand, hexBytes_eq]
    rfl
  rw [htext] at hreply
  obtain ⟨conn', hrequest, hidle⟩ := request_ok L h hreply
  refine ⟨conn', ?_, hidle⟩
  simp only [gdbSetregs, if_pos (regsCommand_length hr), hrequest, bind, Except.bind, isText_ok]
  rfl

theorem gdbSi_ok (hm : Serves m handle) (h : Idle L n conn s) :
    ∃ conn', gdbSi answer n conn = .ok conn' ∧ Idle L n conn' (m.step s) := by
  obtain ⟨p, hreply⟩ := hm.step s
  obtain ⟨conn', hrequest, hidle⟩ := request_ok L h hreply
  refine ⟨conn', ?_, hidle⟩
  have htext : text "vCont;s:1" = "vCont;s:1".toList.map ascii := rfl
  simp only [gdbSi, htext, hrequest, bind, Except.bind]
  rfl

/-- What a call is for: the registers that it hands out, and the machine behind it. -/
def Call.effect (m : Machine σ) : Call → σ → List Word × σ
  | .memcpy addr buf, s => ([], m.write addr buf s)
  | .regcpyToRef dut, s => ([], m.setRegs (dut ++ (m.regs s).drop dut.length) s)
  | .regcpyToDut nr, s => ((m.regs s).take nr, s)
  | .exec k, s => ([], m.step^[k] s)

def Call.effects (m : Machine σ) : List Call → σ → List (List Word) × σ
  | [], s => ([], s)
  | c :: calls, s =>
    let (dut, s) := c.effect m s
    let (duts, s) := Call.effects m calls s
    (dut :: duts, s)

/-- What NEMU promises: lengths that an `int` holds, and no more registers than there are. -/
def Call.Fits (nr : ℕ) : Call → Prop
  | .memcpy _ buf => buf.length < 2 ^ 31
  | .regcpyToRef dut => dut.length ≤ nr
  | .regcpyToDut k => k ≤ nr
  | .exec _ => True

theorem difftestExec_ok (hm : Serves m handle) (h : Idle L n conn s) (k : ℕ) :
    ∃ conn', difftestExec answer n k conn = .ok conn' ∧
      Idle L n conn' (m.step^[k] s) := by
  induction k generalizing conn s with
  | zero => exact ⟨conn, rfl, h⟩
  | succ k ih =>
    obtain ⟨conn₁, hsi, hidle⟩ := gdbSi_ok L hm h
    obtain ⟨conn₂, hexec, hidle'⟩ := ih hidle
    refine ⟨conn₂, ?_, hidle'⟩
    simp only [difftestExec, hsi, bind, Except.bind]
    exact hexec

theorem Call.run_ok (hm : Serves m handle) (hnr : m.nr ≤ nrArray) (h : Idle L n conn s) {c : Call}
    (hc : c.Fits m.nr) (junk : List Byte) :
    ∃ conn', c.run answer n junk conn = .ok ((c.effect m s).1, conn') ∧
      Idle L n conn' (c.effect m s).2 := by
  cases c with
  | memcpy addr buf =>
    obtain ⟨conn', hcopy, hidle⟩ := gdbMemcpyToQemu_ok L hm h addr buf
    refine ⟨conn', ?_, hidle⟩
    simp only [Call.run, difftestMemcpy, if_pos (show buf.length < 2 ^ 31 from hc), hcopy, bind,
      Except.bind]
    rfl
  | regcpyToRef dut =>
    have hdut : dut.length ≤ m.nr := hc
    obtain ⟨r, conn₁, hget, htake, hlen, hidle⟩ := gdbGetregs_ok L hm hnr h junk
    have hall : (dut ++ r.drop dut.length).length = nrArray := by
      rw [List.length_append, List.length_drop]
      omega
    obtain ⟨conn₂, hset, hidle'⟩ := gdbSetregs_ok L hm hnr hidle hall
    have hregs : (dut ++ r.drop dut.length).take m.nr = dut ++ (m.regs s).drop dut.length := by
      rw [List.take_append, List.take_of_length_le hdut, ← htake, List.drop_take]
    rw [hregs] at hidle'
    refine ⟨conn₂, ?_, hidle'⟩
    simp only [Call.run, difftestRegcpyToRef, hget, hset, bind, Except.bind]
    rfl
  | regcpyToDut k =>
    have hk : k ≤ m.nr := hc
    obtain ⟨r, conn', hget, htake, -, hidle⟩ := gdbGetregs_ok L hm hnr h junk
    have hregs : r.take k = (m.regs s).take k := by
      rw [← htake, List.take_take, min_eq_left hk]
    refine ⟨conn', ?_, hidle⟩
    simp only [Call.run, difftestRegcpyToDut, hget, bind, Except.bind, hregs, Call.effect]
    rfl
  | exec k =>
    obtain ⟨conn', hexec, hidle⟩ := difftestExec_ok L hm h k
    refine ⟨conn', ?_, hidle⟩
    simp only [Call.run, hexec, bind, Except.bind]
    rfl

theorem runCalls_ok (hm : Serves m handle) (hnr : m.nr ≤ nrArray) (h : Idle L n conn s)
    {calls : List (Call × List Byte)} (hcalls : ∀ c ∈ calls, c.1.Fits m.nr) :
    ∃ conn', runCalls answer n conn calls =
        .ok ((Call.effects m (calls.map Prod.fst) s).1, conn') ∧
      Idle L n conn' (Call.effects m (calls.map Prod.fst) s).2 := by
  induction calls generalizing conn s with
  | nil => exact ⟨conn, rfl, h⟩
  | cons c calls ih =>
    obtain ⟨c, junk⟩ := c
    obtain ⟨conn₁, hrun, hidle⟩ :=
      Call.run_ok L hm hnr h (hcalls _ List.mem_cons_self) junk
    obtain ⟨conn₂, hruns, hidle'⟩ := ih hidle fun d hd => hcalls d (List.mem_cons_of_mem _ hd)
    refine ⟨conn₂, ?_, hidle'⟩
    simp only [runCalls, hrun, hruns, bind, Except.bind]
    rfl

theorem gdbBegin_idle {u d : ℕ} {r : π} (hu : u < n) (hd : d < n) (h : L.AtRest u d s r) :
    Idle L n (gdbBegin answer r) s := by
  obtain ⟨r', hanswer, hrest⟩ := L.ack h
  rw [gdbBegin, Conn.flush]
  dsimp only
  rw [hanswer]
  exact ⟨rfl, rfl, u, hu, d, hd, hrest⟩

/-- Whatever is damaged on the way, as long as it is finitely much, a session has on the machine
behind the stub the effect that its calls are for, and hands out the registers of that machine. -/
theorem session_effects (hm : Serves m handle) (hnr : m.nr ≤ nrArray) {u d : ℕ} {r : π} (hu : u < n)
    (hd : d < n) (hr : L.AtRest u d s r) {calls : List (Call × List Byte)}
    (hcalls : ∀ c ∈ calls, c.1.Fits m.nr) :
    ∃ conn', runCalls answer n (gdbBegin answer r) calls =
        .ok ((Call.effects m (calls.map Prod.fst) s).1, conn') ∧
      Idle L n conn' (Call.effects m (calls.map Prod.fst) s).2 :=
  runCalls_ok L hm hnr (gdbBegin_idle L hu hd hr) hcalls

def counter : Machine (Word × (Word → Byte)) where
  nr := 1
  regs s := [s.1]
  setRegs r s := (r.headD s.1, s.2)
  store addr b s := (s.1, Function.update s.2 addr b)
  step s := (s.1 + 4, s.2)
  regs_length _ := rfl

def counterCalls (image : List Byte) : List (Call × List Byte) :=
  [(.memcpy 0x80000000 image, []), (.regcpyToRef [0x80000000], []), (.exec 2, []),
    (.regcpyToDut 1, [ascii '7'])]

theorem counterCalls_effects (image : List Byte) (s : Word × (Word → Byte)) :
    Call.effects counter ((counterCalls image).map Prod.fst) s =
      ([[], [], [], [0x80000008]], (0x80000008, (counter.write 0x80000000 image s).2)) := by
  simp only [counterCalls, List.map_cons, List.map_nil, Call.effects, Call.effect]
  generalize counter.write 0x80000000 image s = t
  rfl

/-- A session over a line that damages a packet in each direction, with an image in two pieces. -/
theorem session_effects_counter : ∃ image : List Byte, image.length = 2000 ∧
    ∃ conn', runCalls (Remote.answer true counter.serve) 2
        (gdbBegin (Remote.answer true counter.serve) ⟨(0, fun _ => 0), [true], [some lostDigit], []⟩)
        (counterCalls image) = .ok ([[], [], [], [0x80000008]], conn') ∧
      conn'.peer.stub = (0x80000008, (counter.write 0x80000000 image (0, fun _ => 0)).2) := by
  obtain ⟨image, hlen⟩ : ∃ image : List Byte, image.length = 2000 :=
    ⟨List.replicate 2000 0x13, List.length_replicate⟩
  let r : Remote (Word × (Word → Byte)) := ⟨(0, fun _ => 0), [true], [some lostDigit], []⟩
  have hwithin : r.Within 1 1 := by
    refine ⟨le_rfl, le_rfl, fun b hb => ?_⟩
    obtain rfl := Option.some.inj (List.mem_singleton.mp hb)
    exact lostDigit_damaged
  have hcalls : ∀ c ∈ counterCalls image, c.1.Fits counter.nr := by
    intro c hc
    simp only [counterCalls, List.mem_cons, List.not_mem_nil, or_false] at hc
    rcases hc with rfl | rfl | rfl | rfl
    · change image.length < 2 ^ 31
      rw [hlen]
      decide
    · exact le_rfl
    · exact trivial
    · exact le_rfl
  obtain ⟨conn', hruns, -, -, u, -, d, -, hstub, -⟩ :=
    session_effects (Remote.ackLayer true counter.serve) (n := 2) (r := r) counter.serves (by decide)
      (by decide : 1 < 2) (by decide : 1 < 2) ⟨rfl, hwithin⟩ hcalls
  rw [counterCalls_effects] at hruns hstub
  exact ⟨image, hlen, conn', hruns, hstub⟩

end Host

end Ysyx.Nemu.Gdb
