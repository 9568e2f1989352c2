import Ysyx.Lib.Bytes

/-! The audio of the native platform: `__am_audio_play` puts buffers into a pipe, and the callback of
SDL on a thread of its own takes them out. The two threads share the pipe and `count`, and every
load and store of it is a step. -/

namespace Ysyx.Am.NativeAudio

open Bytes

/-- Where `audio_write` is: at a `write`, and at the load and the store of `count += n`. -/
inductive Producer
  | idle
  | loop (buf : List Byte) (len nwrite : ℤ)
  | wrote (buf : List Byte) (len nwrite n : ℤ)
  | storing (buf : List Byte) (len nwrite n t : ℤ)

/-- Where `audio_play` is: at the two loads of `if (count < len) nread = count;`, at a `read`, and
at the load and the store of `count -= nread`. -/
inductive Consumer
  | idle
  | start (stream : List Byte) (len : ℤ)
  | again (stream : List Byte) (len : ℤ)
  | loop (stream : List Byte) (len nread b : ℤ)
  | subtract (stream : List Byte) (len nread : ℤ)
  | storing (stream : List Byte) (len nread t : ℤ)

/-- The shared variables and the two threads, with the buffers played so far and the streams given
back so far and the `nread` of each. -/
structure AudioState where
  pipe : List Byte
  count : ℤ
  main : Producer
  sdl : Consumer
  played : List Byte
  streams : List (List Byte × ℤ)

def AudioState.init : AudioState := ⟨[], 0, .idle, .idle, [], []⟩

/-- What a thread does next, with what the environment adds: the buffer of a call, the stream of a
callback, the result of `write` or `read`. -/
inductive AudioAct
  | play (buf : List Byte)
  | write (r : ℤ)
  | addLoad
  | addStore
  | callback (stream : List Byte)
  | compare
  | take
  | read (r : ℤ)
  | subLoad
  | subStore

/-- `int len = ctl->buf.end - ctl->buf.start;` -/
def int32 (n : ℕ) : ℤ := (BitVec.ofNat 32 n).toInt

/-- `while (nwrite < len)` -/
def writeLoop (buf : List Byte) (len nwrite : ℤ) : Producer :=
  if nwrite < len then .loop buf len nwrite else .idle

/-- `while (b < nread)` -/
def readLoop (stream : List Byte) (len nread b : ℤ) : Consumer :=
  if b < nread then .loop stream len nread b else .subtract stream len nread

/-- The `memset` at the end of `audio_play`. -/
def pad (stream : List Byte) (len nread : ℤ) : List Byte :=
  if nread < len then stream.take nread.toNat ++ List.replicate (len - nread).toNat 0 else stream

/-- A step, if the thread is there for it and the result is a possible one. -/
def step (s : AudioState) : AudioAct → Option AudioState
  | .play buf =>
    match s.main with
    | .idle => some { s with main := writeLoop buf (int32 buf.length) 0, played := s.played ++ buf }
    | _ => none
  | .write r =>
    match s.main with
    | .loop buf len nwrite =>
      if r = -1 then some { s with main := .wrote buf len nwrite 0 }
      else if 1 ≤ r ∧ r ≤ len then
        some { s with pipe := s.pipe ++ buf.take r.toNat, main := .wrote buf len nwrite r }
      else none
    | _ => none
  | .addLoad =>
    match s.main with
    | .wrote buf len nwrite n => some { s with main := .storing buf len nwrite n s.count }
    | _ => none
  | .addStore =>
    match s.main with
    | .storing buf len nwrite n t =>
      some { s with count := t + n, main := writeLoop buf len (nwrite + n) }
    | _ => none
  | .callback stream =>
    match s.sdl with
    | .idle =>
      if stream.length < 2 ^ 31 then some { s with sdl := .start stream stream.length } else none
    | _ => none
  | .compare =>
    match s.sdl with
    | .start stream len =>
      some { s with sdl := if s.count < len then .again stream len else readLoop stream len len 0 }
    | _ => none
  | .take =>
    match s.sdl with
    | .again stream len => some { s with sdl := readLoop stream len s.count 0 }
    | _ => none
  | .read r =>
    match s.sdl with
    | .loop stream len nread b =>
      if r = -1 then some s
      else if 1 ≤ r ∧ r ≤ nread ∧ r ≤ s.pipe.length then
        -- what goes past the end of the stream is lost
        let stream := (s.pipe.take r.toNat ++ stream.drop r.toNat).take stream.length
        some { s with pipe := s.pipe.drop r.toNat, sdl := readLoop stream len nread (b + r) }
      else none
    | _ => none
  | .subLoad =>
    match s.sdl with
    | .subtract stream len nread => some { s with sdl := .storing stream len nread s.count }
    | _ => none
  | .subStore =>
    match s.sdl with
    | .storing stream len nread t =>
      some { s with count := t - nread, sdl := .idle,
                    streams := s.streams ++ [(pad stream len nread, nread)] }
    | _ => none

def run (acts : List AudioAct) : Option AudioState := acts.foldlM step .init

/-- The bytes given to SDL without the padding. -/
def delivered (streams : List (List Byte × ℤ)) : List Byte :=
  streams.flatMap fun p => p.1.take p.2.toNat

/-- The bytes come out in the order in which they were played, and between calls `count` is the
number of those on the way. -/
structure StreamOk (s : AudioState) : Prop where
  order : delivered s.streams <+: s.played
  count : s.main = .idle → s.sdl = .idle → s.count = s.played.length - (delivered s.streams).length

/-- A step does not touch the weak places: a successful transfer is a whole one, a second load of
`count` finds no more than the stream takes, a store finds `count` as it was loaded, and the length
of a buffer is an `int`. -/
def meets (s : AudioState) : AudioAct → Bool
  | .play buf => buf.length < 2 ^ 31
  | .write r => match s.main with
    | .loop _ len _ => r = -1 ∨ r = len
    | _ => true
  | .addStore => match s.main with
    | .storing _ _ _ _ t => s.count = t
    | _ => true
  | .take => match s.sdl with
    | .again _ len => s.count ≤ len
    | _ => true
  | .read r => match s.sdl with
    | .loop _ _ nread _ => r = -1 ∨ r = nread
    | _ => true
  | .subStore => match s.sdl with
    | .storing _ _ _ t => s.count = t
    | _ => true
  | _ => true

/-- Every step from `s` on meets the condition. -/
def meetsFrom (s : AudioState) : List AudioAct → Bool
  | [] => true
  | a :: acts => meets s a && match step s a with
    | some s => meetsFrom s acts
    | none => true

/-- What `audio_write` has still to send, and has sent and not counted. -/
def Producer.rest : Producer → List Byte
  | .loop buf _ _ => buf
  | .wrote buf _ _ n => if n = 0 then buf else []
  | .storing buf _ _ n _ => if n = 0 then buf else []
  | .idle => []

def Producer.uncounted : Producer → ℤ
  | .wrote _ _ _ n => n
  | .storing _ _ _ n _ => n
  | _ => 0

/-- What `audio_play` has read and not given back. -/
def Consumer.held : Consumer → List Byte
  | .subtract stream _ nread => stream.take nread.toNat
  | .storing stream _ nread _ => stream.take nread.toNat
  | _ => []

def Producer.Ok : Producer → Prop
  | .idle => True
  | .loop buf len nwrite => len = buf.length ∧ nwrite = 0 ∧ 0 < len
  | .wrote buf len nwrite n => len = buf.length ∧ nwrite = 0 ∧ 0 < len ∧ (n = 0 ∨ n = len)
  | .storing buf len nwrite n _ => len = buf.length ∧ nwrite = 0 ∧ 0 < len ∧ (n = 0 ∨ n = len)

def Consumer.Ok (count : ℤ) : Consumer → Prop
  | .idle => True
  | .start stream len => len = stream.length
  | .again stream len => len = stream.length
  | .loop stream len nread b =>
    len = stream.length ∧ b = 0 ∧ 0 < nread ∧ nread ≤ len ∧ nread ≤ count
  | .subtract stream len nread => len = stream.length ∧ 0 ≤ nread ∧ nread ≤ len ∧ nread ≤ count
  | .storing stream len nread _ => len = stream.length ∧ 0 ≤ nread ∧ nread ≤ len ∧ nread ≤ count

structure Sound (s : AudioState) : Prop where
  bytes : delivered s.streams ++ (s.sdl.held ++ (s.pipe ++ s.main.rest)) = s.played
  total : s.count + s.main.uncounted = s.sdl.held.length + s.pipe.length
  nonneg : 0 ≤ s.count
  main : s.main.Ok
  sdl : s.sdl.Ok s.count

theorem sound_init : Sound .init := ⟨rfl, rfl, le_rfl, trivial, trivial⟩

theorem Consumer.Ok.mono {c : Consumer} {count count' : ℤ} (h : c.Ok count) (hle : count ≤ count') :
    c.Ok count' := by
  cases c with
  | idle => trivial
  | start stream len => exact h
  | again stream len => exact h
  | loop stream len nread b => exact ⟨h.1, h.2.1, h.2.2.1, h.2.2.2.1, h.2.2.2.2.trans hle⟩
  | subtract stream len nread => exact ⟨h.1, h.2.1, h.2.2.1, h.2.2.2.trans hle⟩
  | storing stream len nread t => exact ⟨h.1, h.2.1, h.2.2.1, h.2.2.2.trans hle⟩

theorem int32_eq {n : ℕ} (hn : n < 2 ^ 31) : int32 n = n := by
  have hmod : n % 2 ^ 32 = n := Nat.mod_eq_of_lt (by omega)
  rw [int32, BitVec.toInt_eq_toNat_of_lt, BitVec.toNat_ofNat, hmod]
  rw [BitVec.toNat_ofNat, hmod]
  omega

section Main

variable {s s' : AudioState}

theorem Sound.play (h : Sound s) {buf : List Byte} (hm : meets s (.play buf))
    (hs : step s (.play buf) = some s') : Sound s' := by
  obtain ⟨pipe, count, main, sdl, played, streams⟩ := s
  obtain ⟨hbytes, htotal, hnonneg, -, hsdl⟩ := h
  cases main with
  | idle =>
    obtain rfl := Option.some.inj hs
    have hlen := int32_eq (of_decide_eq_true hm)
    dsimp only [Producer.rest] at hbytes
    rw [List.append_nil] at hbytes
    subst hbytes
    by_cases hpos : (0 : ℤ) < int32 buf.length
    · refine ⟨?_, ?_, hnonneg, ?_, hsdl⟩ <;> dsimp only <;> rw [writeLoop, if_pos hpos]
      · simp only [Producer.rest, List.append_assoc]
      · exact htotal
      · exact ⟨hlen, rfl, hpos⟩
    · have hnil : buf = [] := List.length_eq_zero_iff.1 (by omega)
      refine ⟨?_, ?_, hnonneg, ?_, hsdl⟩ <;> dsimp only <;> rw [writeLoop, if_neg hpos]
      · rw [hnil, Producer.rest, List.append_nil, List.append_nil]
      · exact htotal
      · trivial
  | _ => cases hs

theorem Sound.write (h : Sound s) {r : ℤ} (hm : meets s (.write r))
    (hs : step s (.write r) = some s') : Sound s' := by
  obtain ⟨pipe, count, main, sdl, played, streams⟩ := s
  obtain ⟨hbytes, htotal, hnonneg, hmain, hsdl⟩ := h
  cases main with
  | loop buf len nwrite =>
    obtain ⟨hlen, hzero, hpos⟩ := hmain
    by_cases hr : r = -1
    · obtain rfl := Option.some.inj ((if_pos hr).symm.trans hs)
      exact ⟨hbytes, htotal, hnonneg, ⟨hlen, hzero, hpos, .inl rfl⟩, hsdl⟩
    · have hwhole : r = len := (of_decide_eq_true hm).resolve_left hr
      subst hwhole
      obtain rfl := Option.some.inj
        ((if_pos ⟨by omega, le_rfl⟩).symm.trans ((if_neg hr).symm.trans hs))
      have htake : buf.take r.toNat = buf := List.take_of_length_le (by omega)
      refine ⟨?_, ?_, hnonneg, ⟨hlen, hzero, hpos, .inr rfl⟩, hsdl⟩ <;> dsimp only <;> rw [htake]
      · rw [Producer.rest, if_neg (by omega), List.append_nil]
        exact hbytes
      · dsimp only [Producer.uncounted] at htotal ⊢
        rw [List.length_append]
        omega
  | _ => cases hs

theorem Sound.addLoad (h : Sound s) (hs : step s .addLoad = some s') : Sound s' := by
  obtain ⟨pipe, count, main, sdl, played, streams⟩ := s
  obtain ⟨hbytes, htotal, hnonneg, hmain, hsdl⟩ := h
  cases main with
  | wrote buf len nwrite n =>
    obtain rfl := Option.some.inj hs
    exact ⟨hbytes, htotal, hnonneg, hmain, hsdl⟩
  | _ => cases hs

theorem Sound.addStore (h : Sound s) (hm : meets s .addStore)
    (hs : step s .addStore = some s') : Sound s' := by
  obtain ⟨pipe, count, main, sdl, played, streams⟩ := s
  obtain ⟨hbytes, htotal, hnonneg, hmain, hsdl⟩ := h
  cases main with
  | storing buf len nwrite n t =>
    obtain rfl := Option.some.inj hs
    obtain rfl : count = t := of_decide_eq_true hm
    obtain ⟨hlen, rfl, hpos, hn⟩ := hmain
    dsimp only [Producer.uncounted] at htotal hnonneg
    have hle : count ≤ count + n := by omega
    rcases hn with rfl | rfl
    · -- the write failed and is tried again
      refine ⟨?_, ?_, by dsimp only; omega, ?_, hsdl.mono hle⟩ <;> dsimp only <;>
        rw [writeLoop, if_pos (by omega)]
      · exact hbytes
      · dsimp only [Producer.uncounted]
        omega
      · exact ⟨hlen, rfl, hpos⟩
    · refine ⟨?_, ?_, by dsimp only; omega, ?_, hsdl.mono hle⟩ <;> dsimp only <;>
        rw [writeLoop, if_neg (by omega)]
      · dsimp only [Producer.rest] at hbytes
        rw [if_neg (by omega)] at hbytes
        exact hbytes
      · dsimp only [Producer.uncounted]
        omega
      · trivial
  | _ => cases hs

end Main

section Sdl

variable {s s' : AudioState}

theorem Sound.callback (h : Sound s) {stream : List Byte}
    (hs : step s (.callback stream) = some s') : Sound s' := by
  obtain ⟨pipe, count, main, sdl, played, streams⟩ := s
  obtain ⟨hbytes, htotal, hnonneg, hmain, hsdl⟩ := h
  cases sdl with
  | idle =>
    by_cases hlen : stream.length < 2 ^ 31
    · obtain rfl := Option.some.inj ((if_pos hlen).symm.trans hs)
      exact ⟨hbytes, htotal, hnonneg, hmain, rfl⟩
    · exact nomatch (if_neg hlen).symm.trans hs
  | _ => cases hs

theorem sound_readLoop {pipe : List Byte} {count : ℤ} {main : Producer} {played : List Byte}
    {streams : List (List Byte × ℤ)} {stream : List Byte} {nread : ℤ}
    (hbytes : delivered streams ++ (pipe ++ main.rest) = played)
    (htotal : count + main.uncounted = pipe.length) (hnonneg : 0 ≤ nread) (hmain : main.Ok)
    (hlen : nread ≤ stream.length) (hcount : nread ≤ count) :
    Sound ⟨pipe, count, main, readLoop stream stream.length nread 0, played, streams⟩ := by
  by_cases hpos : 0 < nread
  · refine ⟨?_, ?_, by dsimp only; omega, hmain, ?_⟩ <;> dsimp only <;> rw [readLoop, if_pos hpos]
    · exact hbytes
    · simpa [Consumer.held] using htotal
    · exact ⟨rfl, rfl, hpos, hlen, hcount⟩
  · obtain rfl : nread = 0 := by omega
    refine ⟨?_, ?_, by dsimp only; omega, hmain, ?_⟩ <;> dsimp only <;> rw [readLoop, if_neg hpos]
    · exact hbytes
    · simpa [Consumer.held] using htotal
    · exact ⟨rfl, le_rfl, hlen, hcount⟩

theorem Sound.compare (h : Sound s) (hs : step s .compare = some s') : Sound s' := by
  obtain ⟨pipe, count, main, sdl, played, streams⟩ := s
  obtain ⟨hbytes, htotal, hnonneg, hmain, hsdl⟩ := h
  cases sdl with
  | start stream len =>
    obtain rfl : len = stream.length := hsdl
    obtain rfl := Option.some.inj hs
    by_cases hlt : count < stream.length
    · refine ⟨?_, ?_, hnonneg, hmain, ?_⟩ <;> dsimp only <;> rw [if_pos hlt]
      · exact hbytes
      · exact htotal
      · exact rfl
    · dsimp only
      rw [if_neg hlt]
      exact sound_readLoop hbytes (by simpa [Consumer.held] using htotal) (by omega) hmain le_rfl
        (by omega)
  | _ => cases hs

theorem Sound.take (h : Sound s) (hm : meets s .take) (hs : step s .take = some s') : Sound s' := by
  obtain ⟨pipe, count, main, sdl, played, streams⟩ := s
  obtain ⟨hbytes, htotal, hnonneg, hmain, hsdl⟩ := h
  cases sdl with
  | again stream len =>
    obtain rfl : len = stream.length := hsdl
    obtain rfl := Option.some.inj hs
    exact sound_readLoop hbytes (by simpa [Consumer.held] using htotal) hnonneg hmain
      (of_decide_eq_true hm) le_rfl
  | _ => cases hs

theorem take_stream {pipe stream : List Byte} {k : ℕ} (hpipe : k ≤ pipe.length)
    (hstream : k ≤ stream.length) :
    ((pipe.take k ++ stream.drop k).take stream.length).take k = pipe.take k ∧
      ((pipe.take k ++ stream.drop k).take stream.length).length = stream.length := by
  have htake : (pipe.take k).length = k := by rw [List.length_take, Nat.min_eq_left hpipe]
  constructor
  · rw [List.take_take, Nat.min_eq_left hstream, List.take_left' htake]
  · rw [List.length_take, List.length_append, htake, List.length_drop]
    omega

theorem Sound.read (h : Sound s) {r : ℤ} (hm : meets s (.read r))
    (hs : step s (.read r) = some s') : Sound s' := by
  obtain ⟨pipe, count, main, sdl, played, streams⟩ := s
  have hsound := h
  obtain ⟨hbytes, htotal, hnonneg, hmain, hsdl⟩ := h
  cases sdl with
  | loop stream len nread b =>
    obtain ⟨hlen, rfl, hpos, hle, hcount⟩ := hsdl
    by_cases hr : r = -1
    · obtain rfl := Option.some.inj ((if_pos hr).symm.trans hs)
      exact hsound
    · have hwhole : r = nread := (of_decide_eq_true hm).resolve_left hr
      subst hwhole
      have hs := (if_neg hr).symm.trans hs
      by_cases hres : 1 ≤ r ∧ r ≤ r ∧ r ≤ pipe.length
      · obtain rfl := Option.some.inj ((if_pos hres).symm.trans hs)
        obtain ⟨k, rfl⟩ := Int.eq_ofNat_of_zero_le (by omega : 0 ≤ r)
        have hpipe : k ≤ pipe.length := by omega
        have hstream : k ≤ stream.length := by omega
        obtain ⟨hfirst, hsame⟩ := take_stream hpipe hstream
        refine ⟨?_, ?_, hnonneg, hmain, ?_⟩ <;> dsimp only <;> rw [readLoop, if_neg (by omega)]
        · dsimp only [Consumer.held] at hbytes ⊢
          rw [Int.toNat_natCast, hfirst, ← List.append_assoc (pipe.take k), List.take_append_drop]
          exact hbytes
        · dsimp only [Consumer.held] at htotal ⊢
          rw [Int.toNat_natCast, hfirst, List.length_take, List.length_drop]
          rw [List.length_nil] at htotal
          omega
        · rw [Int.toNat_natCast]
          exact ⟨by omega, by omega, hle, hcount⟩
      · exact nomatch (if_neg hres).symm.trans hs
  | _ => cases hs

theorem Sound.subLoad (h : Sound s) (hs : step s .subLoad = some s') : Sound s' := by
  obtain ⟨pipe, count, main, sdl, played, streams⟩ := s
  obtain ⟨hbytes, htotal, hnonneg, hmain, hsdl⟩ := h
  cases sdl with
  | subtract stream len nread =>
    obtain rfl := Option.some.inj hs
    exact ⟨hbytes, htotal, hnonneg, hmain, hsdl⟩
  | _ => cases hs

theorem take_pad {stream : List Byte} {len nread : ℤ} (hlen : len = stream.length)
    (hle : nread ≤ len) : (pad stream len nread).take nread.toNat = stream.take nread.toNat := by
  unfold pad
  split_ifs
  · have hread : nread.toNat ≤ stream.length := Int.toNat_le.2 (hle.trans_eq hlen)
    exact List.take_left' (by rw [List.length_take, Nat.min_eq_left hread])
  · rfl

theorem Sound.subStore (h : Sound s) (hm : meets s .subStore)
    (hs : step s .subStore = some s') : Sound s' := by
  obtain ⟨pipe, count, main, sdl, played, streams⟩ := s
  obtain ⟨hbytes, htotal, hnonneg, hmain, hsdl⟩ := h
  cases sdl with
  | storing stream len nread t =>
    obtain ⟨hlen, hpos, hle, hcount⟩ := hsdl
    obtain rfl := Option.some.inj hs
    obtain rfl : count = t := of_decide_eq_true hm
    refine ⟨?_, ?_, ?_, hmain, trivial⟩
    · dsimp only [delivered, Consumer.held] at hbytes ⊢
      rw [List.flatMap_append, List.flatMap_singleton, take_pad hlen hle, List.append_assoc]
      exact hbytes
    · dsimp only [Consumer.held] at htotal ⊢
      rw [List.length_take] at htotal
      rw [List.length_nil]
      omega
    · dsimp only at hcount ⊢
      omega
  | _ => cases hs

end Sdl

theorem Sound.step {s s' : AudioState} (h : Sound s) {a : AudioAct} (hm : meets s a)
    (hs : step s a = some s') : Sound s' := by
  cases a with
  | play buf => exact h.play hm hs
  | write r => exact h.write hm hs
  | addLoad => exact h.addLoad hs
  | addStore => exact h.addStore hm hs
  | callback stream => exact h.callback hs
  | compare => exact h.compare hs
  | take => exact h.take hm hs
  | read r => exact h.read hm hs
  | subLoad => exact h.subLoad hs
  | subStore => exact h.subStore hm hs

theorem sound_run {acts : List AudioAct} {s s' : AudioState} (h : Sound s)
    (hm : meetsFrom s acts) (hrun : acts.foldlM step s = some s') : Sound s' := by
  induction acts generalizing s with
  | nil =>
    obtain rfl := Option.some.inj hrun
    exact h
  | cons a acts ih =>
    rw [List.foldlM_cons] at hrun
    obtain ⟨s₁, hs, hrun⟩ := Option.bind_eq_some_iff.1 hrun
    rw [meetsFrom, hs, Bool.and_eq_true] at hm
    exact ih (h.step hm.1 hs) hm.2 hrun

theorem Sound.streamOk {s : AudioState} (h : Sound s) : StreamOk s := by
  have hlen := congrArg List.length h.bytes
  simp only [List.length_append] at hlen
  refine ⟨⟨_, h.bytes⟩, fun hmain hsdl => ?_⟩
  have htotal := h.total
  rw [hmain, hsdl] at htotal hlen
  simp only [Producer.uncounted, Consumer.held, Producer.rest, List.length_nil] at htotal hlen
  omega

/-- Nothing is lost or repeated in a run whose steps meet the condition. -/
theorem streamOk_of_meets {acts : List AudioAct} (hm : meetsFrom .init acts) {s : AudioState}
    (hrun : run acts = some s) : StreamOk s := (sound_run sound_init hm hrun).streamOk

/-- A buffer of two bytes goes out behind a failed write and comes back with one byte of padding,
while the next buffer is sent. -/
def twoBuffers : List AudioAct :=
  [.play [1, 2], .write (-1), .addLoad, .addStore, .write 2, .addLoad, .addStore, .callback [9, 9, 9],
    .compare, .take, .play [3], .read 2, .write 1, .subLoad, .subStore, .addLoad, .addStore]

theorem streamOk_twoBuffers : ∃ s, run twoBuffers = some s ∧ StreamOk s := by
  have hm : meetsFrom .init twoBuffers = true := rfl
  exact ⟨_, rfl, streamOk_of_meets hm rfl⟩

def shortWrite : List AudioAct :=
  [.play [1, 2], .write 1, .addLoad, .addStore, .write 2, .addLoad, .addStore]

theorem run_shortWrite : run shortWrite = some ⟨[1, 1, 2], 3, .idle, .idle, [1, 2], []⟩ := rfl

theorem not_streamOk :
    ¬ ∀ (acts : List AudioAct) (s : AudioState), run acts = some s → StreamOk s := by
  intro h
  have hcount := (h shortWrite _ run_shortWrite).count rfl rfl
  exact absurd hcount (by decide)

end Ysyx.Am.NativeAudio
