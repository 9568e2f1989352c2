import Ysyx.Nemu.GdbProtocol

/-! What `recv_packet` makes of a stream: it never writes outside its buffer, it finds every packet
again that a peer may send, and its checksum test is that of the protocol. -/

namespace Ysyx.Nemu.Gdb

open Bytes Rsp

theorem hexDigit_decodes : ∀ upper, ∀ n < 16,
    isxdigit (hexDigit upper n) = true ∧ (hexNibble (hexDigit upper n)).toNat = n := by decide

theorem gdbDecodeHex_digits (upper : Bool) {m n : ℕ} (hm : m < 16) (hn : n < 16) :
    gdbDecodeHex (hexDigit upper m) (hexDigit upper n) = 16 * m + n := by
  obtain ⟨hm₁, hm₂⟩ := hexDigit_decodes upper m hm
  obtain ⟨hn₁, hn₂⟩ := hexDigit_decodes upper n hn
  rw [gdbDecodeHex, if_neg (by rw [hm₁, hn₁]; decide), hm₂, hn₂]

theorem gdbDecodeHex_byte (upper : Bool) (b : Byte) :
    gdbDecodeHex (hexDigit upper (b.toNat / 16)) (hexDigit upper (b.toNat % 16)) = b.toNat := by
  have hb := b.isLt
  rw [gdbDecodeHex_digits upper (by omega) (by omega)]
  omega

theorem sendPacket_eq (command : List Byte) : sendPacket command = packet true command := by
  rw [sendPacket, packet, checksum, List.sum_eq_foldl]

/-- The buffer has room for the reply, and for a run on top of it once it is doubled. -/
structure Reply.Fits (r : Reply) : Prop where
  le : r.bytes.length ≤ r.size
  size : 4096 ≤ r.size

section Buffer

variable {r : Reply} {c : Byte} {count : ℕ}

theorem Reply.Fits.start {size : ℕ} (h : 4096 ≤ size) : Reply.Fits ⟨[], size⟩ :=
  ⟨Nat.zero_le _, h⟩

theorem Reply.Fits.put (h : r.Fits) (c : Byte) :
    ∃ r', r.put c = .ok r' ∧ r'.Fits ∧ r'.bytes = r.bytes ++ [c] := by
  have hle := h.le
  have hsize := h.size
  refine ⟨_, if_pos ?_, ⟨?_, ?_⟩, rfl⟩
  · split_ifs <;> omega
  · dsimp only
    rw [List.length_append, List.length_singleton]
    split_ifs <;> omega
  · dsimp only
    split_ifs <;> omega

theorem Reply.Fits.fill (h : r.Fits) (c : Byte) (hcount : count ≤ 4096) :
    ∃ r', r.fill c count = .ok r' ∧ r'.Fits ∧ r'.bytes = r.bytes ++ List.replicate count c := by
  have hle := h.le
  have hsize := h.size
  refine ⟨_, if_pos ?_, ⟨?_, ?_⟩, rfl⟩
  · split_ifs <;> omega
  · dsimp only
    rw [List.length_append, List.length_replicate]
    split_ifs <;> omega
  · dsimp only
    split_ifs <;> omega

theorem Reply.Fits.finish (h : r.Fits) : r.finish = .ok r.bytes := by
  have hle := h.le
  refine if_pos ?_
  split_ifs <;> omega

end Buffer

section Loop

variable {input : List Byte} {reply : Reply} {s : Byte} {e : Bool}

theorem runCount_spec {c last c2 : Byte} (h : runCount c reply input = some (last, c2)) :
    c = ascii '*' ∧ IsCount c2 ∧ reply.bytes.getLast? = some last ∧ ∃ rest, input = c2 :: rest := by
  unfold runCount at h
  split at h
  · rename_i l d rest hlast
    split_ifs at h with hc
    obtain ⟨rfl, rfl⟩ := Prod.mk.inj (Option.some.inj h)
    obtain ⟨hstar, hcount⟩ := hc
    rw [not_or, not_or, not_or] at hcount
    obtain ⟨h1, h2, h3, h4⟩ := hcount
    exact ⟨hstar, ⟨⟨by omega, by omega⟩, h3, h4⟩, hlast, rest, rfl⟩
  · cases h

theorem count_le {c2 : Byte} (h : IsCount c2) : c2.toNat - 29 ≤ 4096 := by
  have := h.1.2
  omega

theorem recvLoop_start :
    recvLoop (ascii '$' :: input) reply s e = recvLoop input ⟨[], reply.size⟩ 0 false := by
  rw [recvLoop, if_pos rfl]

theorem recvLoop_end (h : reply.Fits) {msb lsb : Byte} :
    recvLoop (ascii '#' :: msb :: lsb :: input) reply s e =
      .ok (reply.bytes, s.toNat == gdbDecodeHex msb lsb, input) := by
  have hsum : s + ascii '#' - ascii '#' = s := add_sub_cancel_right _ _
  rw [recvLoop, if_neg (by decide), if_pos rfl, hsum, h.finish]
  rfl

theorem recvLoop_escape :
    recvLoop (ascii '}' :: input) reply s e =
      recvLoop input reply (s + ascii '}') true := by
  rw [recvLoop, if_neg (by decide), if_neg (by decide), if_pos rfl]

theorem recvLoop_run (h : reply.Fits) {c last c2 : Byte}
    (hrun : runCount c reply input = some (last, c2)) :
    ∃ r', r'.Fits ∧ r'.bytes = reply.bytes ++ List.replicate (c2.toNat - 29) last ∧
      recvLoop (c :: input) reply s e = recvLoop input.tail r' (s + c + c2) e := by
  obtain ⟨rfl, hcount, -⟩ := runCount_spec hrun
  obtain ⟨r', hfill, hfits, hbytes⟩ := h.fill last (count_le hcount)
  refine ⟨r', hfits, hbytes, ?_⟩
  rw [recvLoop, if_neg (by decide), if_neg (by decide), if_neg (by decide), hrun]
  simp only [hfill, bind, Except.bind]

theorem recvLoop_char (h : reply.Fits) {c : Byte} (hstart : c ≠ ascii '$') (hend : c ≠ ascii '#')
    (hesc : c ≠ ascii '}') (hrun : runCount c reply input = none) :
    ∃ r', r'.Fits ∧ r'.bytes = reply.bytes ++ [if e then c ^^^ 0x20 else c] ∧
      recvLoop (c :: input) reply s e = recvLoop input r' (s + c) false := by
  obtain ⟨r', hput, hfits, hbytes⟩ := h.put (if e then c ^^^ 0x20 else c)
  refine ⟨r', hfits, hbytes, ?_⟩
  rw [recvLoop, if_neg hstart, if_neg hend, if_neg hesc, hrun]
  simp only [hput, bind, Except.bind]

/-- No stream makes `recv_packet` write outside its buffer. -/
theorem recvLoop_safe (h : reply.Fits) : recvLoop input reply s e ≠ .error .outside := by
  induction input, reply, s, e using recvLoop.induct with
  | case1 =>
    rw [recvLoop]
    exact fun h => by cases h
  | case2 input reply s e ih =>
    rw [recvLoop_start]
    exact ih (.start h.size)
  | case3 input reply s e =>
    rw [recvLoop, if_neg (by decide), if_pos rfl, h.finish]
    exact fun h => by cases h
  | case4 input reply s e sum' _ _ ih =>
    rw [recvLoop_escape]
    exact ih h
  | case5 c input reply s e sum' _ _ _ last c2 hrun ih =>
    obtain ⟨r', hfits, -, hstep⟩ := recvLoop_run (s := s) (e := e) h hrun
    rw [hstep]
    exact ih r' hfits
  | case6 c input reply s e sum' hstart hend hesc hrun ih =>
    obtain ⟨r', hfits, -, hstep⟩ :=
      recvLoop_char (s := s) (e := e) h hstart hend hesc hrun
    rw [hstep]
    exact ih r' hfits

theorem recvPacket_safe (input : List Byte) : recvPacket input ≠ .error .outside :=
  recvLoop_safe (.start le_rfl)

theorem runCount_char {c : Byte} (h : c ≠ ascii '*') : runCount c reply input = none := by
  cases hrun : runCount c reply input with
  | none => rfl
  | some r =>
    obtain ⟨last, c2⟩ := r
    exact absurd (runCount_spec hrun).1 h

theorem recvLoop_body {w : List Byte} {m : Byte} (hw : Body w) (hm : ¬ IsCount m) (rest : List Byte)
    (h : reply.Fits) : ∃ r' escape', r'.Fits ∧
      recvLoop (w ++ m :: rest) reply s e =
        recvLoop (m :: rest) r' (s + checksum w) escape' := by
  induction hn : w.length using Nat.strong_induction_on generalizing w reply s e with
  | _ n ih =>
    subst hn
    cases w with
    | nil => exact ⟨reply, e, h, by rw [checksum, List.sum_nil, add_zero]; rfl⟩
    | cons c w =>
      have hw' : Body w := fun d hd => hw d (List.mem_cons_of_mem _ hd)
      obtain ⟨hstart, hend⟩ := hw c List.mem_cons_self
      have hsum : s + checksum (c :: w) = s + c + checksum w := by
        rw [checksum, checksum, List.sum_cons, add_assoc]
      rw [hsum, List.cons_append]
      by_cases hesc : c = ascii '}'
      · rw [hesc, recvLoop_escape]
        exact ih w.length (Nat.lt_succ_self _) hw' h rfl
      cases hrun : runCount c reply (w ++ m :: rest) with
      | some r =>
        obtain ⟨last, c2⟩ := r
        obtain ⟨r', hfits, -, hstep⟩ := recvLoop_run (s := s) (e := e) h hrun
        rw [hstep]
        cases w with
        | nil =>
          obtain ⟨-, hcount, -, rest', heq⟩ := runCount_spec hrun
          rw [List.nil_append] at heq
          rw [← (List.cons.inj heq).1] at hcount
          exact absurd hcount hm
        | cons d w =>
          obtain ⟨-, -, -, rest', heq⟩ := runCount_spec hrun
          rw [List.cons_append] at heq
          have hd : d = c2 := (List.cons.inj heq).1
          have hsum' : checksum (d :: w) = c2 + checksum w := by rw [checksum, checksum, List.sum_cons, hd]
          rw [hsum', ← add_assoc]
          exact ih w.length (by simp only [List.length_cons]; omega)
            (fun e he => hw' e (List.mem_cons_of_mem _ he)) hfits rfl
      | none =>
        obtain ⟨r', hfits, -, hstep⟩ :=
          recvLoop_char (s := s) (e := e) h hstart hend hesc hrun
        rw [hstep]
        exact ih w.length (Nat.lt_succ_self _) hw' hfits rfl

theorem recvLoop_encodes {w p : List Byte} (hw : Encodes w p) (rest : List Byte) (h : reply.Fits)
    (h0 : reply.bytes = []) : ∃ r', r'.Fits ∧ r'.bytes = p ∧
      recvLoop (w ++ rest) reply s false = recvLoop rest r' (s + checksum w) false := by
  have hsum {w v : List Byte} : s + checksum (w ++ v) = s + checksum w + checksum v := by
    rw [checksum, checksum, checksum, List.sum_append, add_assoc]
  have hone (c : Byte) : checksum [c] = c := List.sum_singleton
  have htwo (c d : Byte) : checksum [c, d] = c + d := by
    rw [checksum, List.sum_cons, List.sum_singleton]
  induction hw generalizing rest with
  | nil => exact ⟨reply, h, h0, by rw [checksum, List.sum_nil, add_zero]; rfl⟩
  | @char w p c _ hc ih =>
    obtain ⟨r, hfits, hbytes, hstep⟩ := ih ([c] ++ rest)
    have hrun : runCount c r rest = none := runCount_char fun h => hc (.inr (.inr (.inr h)))
    obtain ⟨r', hfits', hbytes', hstep'⟩ := recvLoop_char (s := s + checksum w)
      (e := false) hfits (fun h => hc (.inl h)) (fun h => hc (.inr (.inl h)))
      (fun h => hc (.inr (.inr (.inl h)))) hrun
    refine ⟨r', hfits', by rw [hbytes', hbytes]; rfl, ?_⟩
    rw [List.append_assoc, hstep, hsum, hone]
    exact hstep'
  | @escape w p c _ hc ih =>
    obtain ⟨r, hfits, hbytes, hstep⟩ := ih ([ascii '}', c ^^^ 0x20] ++ rest)
    have hrun : runCount (c ^^^ 0x20) r rest = none :=
      runCount_char fun h => hc (.inr (.inr (.inr h)))
    obtain ⟨r', hfits', hbytes', hstep'⟩ := recvLoop_char (s := s + checksum w + ascii '}')
      (e := true) hfits (fun h => hc (.inl h)) (fun h => hc (.inr (.inl h)))
      (fun h => hc (.inr (.inr (.inl h)))) hrun
    have hback : c ^^^ 0x20 ^^^ 0x20 = c := by rw [BitVec.xor_assoc, BitVec.xor_self, BitVec.xor_zero]
    refine ⟨r', hfits', by rw [hbytes', hbytes, if_pos rfl, hback], ?_⟩
    rw [List.append_assoc, hstep, hsum, htwo, ← add_assoc]
    exact recvLoop_escape.trans hstep'
  | @run w p c n _ hn ih =>
    obtain ⟨r, hfits, hbytes, hstep⟩ := ih ([ascii '*', n] ++ rest)
    have hrun : runCount (ascii '*') r (n :: rest) = some (c, n) := by
      have hlast : r.bytes.getLast? = some c := by rw [hbytes, List.getLast?_append]; rfl
      have hcount : ¬ (n.toNat < 29 ∨ n.toNat > 126 ∨ n = ascii '$' ∨ n = ascii '#') := by
        obtain ⟨⟨h1, h2⟩, h3, h4⟩ := hn
        rintro (h | h | h | h)
        · omega
        · omega
        · exact h3 h
        · exact h4 h
      simp only [runCount, hlast]
      exact if_pos ⟨trivial, hcount⟩
    obtain ⟨r', hfits', hbytes', hstep'⟩ := recvLoop_run (s := s + checksum w)
      (e := false) hfits hrun
    refine ⟨r', hfits', by rw [hbytes', hbytes], ?_⟩
    rw [List.append_assoc, hstep, hsum, htwo, ← add_assoc]
    exact hstep'

end Loop

section Packets

variable {w p pre rest : List Byte}

theorem split_start (v : List Byte) : (∀ c ∈ v, c ≠ ascii '$') ∨
    ∃ u v', (∀ c ∈ u, c ≠ ascii '$') ∧ v = u ++ ascii '$' :: v' := by
  induction v with
  | nil => exact .inl fun c hc => absurd hc List.not_mem_nil
  | cons c v ih =>
    by_cases hc : c = ascii '$'
    · exact .inr ⟨[], v, fun d hd => absurd hd List.not_mem_nil, by rw [hc]; rfl⟩
    · rcases ih with hv | ⟨u, v', hu, rfl⟩
      · refine .inl fun d hd => ?_
        rcases List.mem_cons.mp hd with rfl | hd
        · exact hc
        · exact hv d hd
      · refine .inr ⟨c :: u, v', fun d hd => ?_, rfl⟩
        rcases List.mem_cons.mp hd with rfl | hd
        · exact hc
        · exact hu d hd

/-- A packet that starts inside another one takes its place. -/
theorem recvLoop_restart {v input : List Byte} (hv : ∀ c ∈ v, c ≠ ascii '#') {reply : Reply}
    (h : reply.Fits) (s : Byte) (e : Bool) : ∃ r, r.Fits ∧ r.bytes = [] ∧
      recvLoop (v ++ ascii '$' :: input) reply s e = recvLoop input r 0 false := by
  induction hn : v.length using Nat.strong_induction_on generalizing v reply s e with
  | _ n ih =>
    rcases split_start v with hbody | ⟨u, v', hu, rfl⟩
    · obtain ⟨r, escape', hfits, hstep⟩ := recvLoop_body (s := s) (e := e)
        (m := ascii '$') (fun c hc => ⟨hbody c hc, hv c hc⟩) (by decide) input h
      exact ⟨⟨[], r.size⟩, .start hfits.size, rfl, by rw [hstep, recvLoop_start]⟩
    · have hv' (c : Byte) (hc : c ∈ v') : c ≠ ascii '#' :=
        hv c (List.mem_append_right _ (List.mem_cons_of_mem _ hc))
      obtain ⟨r, escape', hfits, hstep⟩ := recvLoop_body (s := s) (e := e)
        (m := ascii '$') (fun c hc => ⟨hu c hc, hv c (List.mem_append_left _ hc)⟩) (by decide)
        (v' ++ ascii '$' :: input) h
      rw [List.append_assoc, List.cons_append, hstep, recvLoop_start]
      refine ih v'.length ?_ hv' (.start hfits.size) 0 false rfl
      rw [← hn, List.length_append, List.length_cons]
      omega

theorem skipToPacket_append {u input : List Byte} (hu : ∀ c ∈ u, c ≠ ascii '$') :
    skipToPacket (u ++ ascii '$' :: input) = input := by
  induction u with
  | nil => exact if_pos rfl
  | cons c u ih =>
    rw [List.cons_append, skipToPacket, if_neg (hu c List.mem_cons_self)]
    exact ih fun d hd => hu d (List.mem_cons_of_mem _ hd)

theorem recvPacket_skip (hpre : ∀ c ∈ pre, c ≠ ascii '#') (input : List Byte) :
    ∃ r, r.Fits ∧ r.bytes = [] ∧
      recvPacket (pre ++ ascii '$' :: input) = recvLoop input r 0 false := by
  rcases split_start pre with hu | ⟨u, v, hu, rfl⟩
  · exact ⟨⟨[], 4096⟩, .start le_rfl, rfl, by rw [recvPacket, skipToPacket_append hu]⟩
  · rw [recvPacket, List.append_assoc, List.cons_append, skipToPacket_append hu]
    exact recvLoop_restart (fun c hc => hpre c (List.mem_append_right _ (List.mem_cons_of_mem _ hc)))
      (.start le_rfl) 0 false

/-- The payload of every packet that the protocol allows is found, with the checksum right. -/
theorem recvPacket_packet (hpre : ∀ c ∈ pre, c ≠ ascii '#') (hw : Encodes w p) (upper : Bool)
    (rest : List Byte) : recvPacket (pre ++ packet upper w ++ rest) = .ok (p, true, rest) := by
  obtain ⟨r, hfits, hbytes, hstart⟩ := recvPacket_skip hpre
    (w ++ [ascii '#', hexDigit upper ((checksum w).toNat / 16),
      hexDigit upper ((checksum w).toNat % 16)] ++ rest)
  obtain ⟨r', hfits', rfl, hbody⟩ := recvLoop_encodes (s := 0) hw
    ([ascii '#', hexDigit upper ((checksum w).toNat / 16),
      hexDigit upper ((checksum w).toNat % 16)] ++ rest) hfits hbytes
  have hpacket : pre ++ packet upper w ++ rest = pre ++ ascii '$' :: (w ++ [ascii '#',
      hexDigit upper ((checksum w).toNat / 16),
      hexDigit upper ((checksum w).toNat % 16)] ++ rest) := by
    rw [packet, List.append_assoc]
    rfl
  rw [hpacket, hstart, List.append_assoc, hbody]
  refine (recvLoop_end hfits').trans ?_
  rw [zero_add, gdbDecodeHex_byte, beq_self_eq_true]
  rfl

theorem recvPacket_checked (hpre : ∀ c ∈ pre, c ≠ ascii '#') (hw : Body w) (msb lsb : Byte)
    (rest : List Byte) : ∃ r, recvPacket (pre ++ ascii '$' :: w ++ ascii '#' :: msb :: lsb :: rest) =
      .ok (r, (checksum w).toNat == gdbDecodeHex msb lsb, rest) := by
  obtain ⟨r, hfits, -, hstart⟩ := recvPacket_skip hpre (w ++ ascii '#' :: msb :: lsb :: rest)
  obtain ⟨r', escape', hfits', hbody⟩ := recvLoop_body (s := 0) (e := false) hw
    (m := ascii '#') (by decide) (msb :: lsb :: rest) hfits
  refine ⟨r'.bytes, ?_⟩
  rw [List.append_assoc, List.cons_append, hstart, hbody, recvLoop_end hfits', zero_add]

/-- `recv_packet` on all streams: no write outside the buffer, the payload of every packet that the
protocol allows, and acceptance exactly by the checksum. -/
theorem recvPacket_ok (hpre : ∀ c ∈ pre, c ≠ ascii '#') :
    (∀ input, recvPacket input ≠ .error .outside) ∧
    (∀ w p upper rest, Encodes w p →
      recvPacket (pre ++ packet upper w ++ rest) = .ok (p, true, rest)) ∧
    ∀ w msb lsb rest, Body w →
      ∃ r, recvPacket (pre ++ ascii '$' :: w ++ ascii '#' :: msb :: lsb :: rest) =
        .ok (r, (checksum w).toNat == gdbDecodeHex msb lsb, rest) :=
  ⟨recvPacket_safe, fun _ _ upper rest hw => recvPacket_packet hpre hw upper rest,
    fun _ msb lsb rest hw => recvPacket_checked hpre hw msb lsb rest⟩

/-- An acknowledgement and half of another packet before the packet. -/
theorem recvPacket_ok_restart : (∀ input, recvPacket input ≠ .error .outside) ∧
    (∀ w p upper rest, Encodes w p →
      recvPacket ([ascii '+', ascii '$', ascii 'O'] ++ packet upper w ++ rest) = .ok (p, true, rest)) ∧
    ∀ w msb lsb rest, Body w →
      ∃ r, recvPacket ([ascii '+', ascii '$', ascii 'O'] ++ ascii '$' :: w ++
        ascii '#' :: msb :: lsb :: rest) =
        .ok (r, (checksum w).toNat == gdbDecodeHex msb lsb, rest) :=
  recvPacket_ok (by decide)

end Packets

end Ysyx.Nemu.Gdb
