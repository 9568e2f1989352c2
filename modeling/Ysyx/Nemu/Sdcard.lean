import Ysyx.Nemu.Device
import Ysyx.Lib.File

/-! The SD card: the commands and the data port of `sdcard.c`, over an image that is read and written
through a file position. -/

namespace Ysyx.Nemu

open Bytes

namespace Sdcard

def MEMORY_SIZE : ℕ := 16 * 1024 * 1024 * 1024
def READ_BL_LEN : ℕ := 15
def BLOCK_LEN : ℕ := 1 <<< READ_BL_LEN
def NR_BLOCK : ℕ := MEMORY_SIZE / BLOCK_LEN
def C_SIZE_MULT : ℕ := 7
def MULT : ℕ := 1 <<< (C_SIZE_MULT + 2)
def C_SIZE : ℕ := NR_BLOCK / MULT - 1

def SDCMD : ℕ := 0
def SDARG : ℕ := 1
def SDRSP0 : ℕ := 4
def SDRSP1 : ℕ := 5
def SDRSP2 : ℕ := 6
def SDRSP3 : ℕ := 7
def SDDATA : ℕ := 16

/-- The static variables of the device; `base` is its space. -/
structure SdCard where
  fp : Option File
  blkcnt : Word
  blkAddr : BitVec 64
  addr : Word
  writeCmd : Bool
  readExtCsd : Bool

def SdCard.init (fp : Option File) : SdCard := ⟨fp, 0, 0, 0, false, false⟩

section Handler

variable (space : ℕ)

def prepareRw (isWrite : Bool) (s : SdCard × IoSpace) : SdCard × IoSpace :=
  let blkAddr := (reg s.2 space SDARG).setWidth 64
  let fp := s.1.fp.map fun f => f.seek (blkAddr <<< 9).toNat
  ({ s.1 with blkAddr := blkAddr, addr := 0, fp := fp, writeCmd := isWrite }, s.2)

/-- The four words of a response. -/
def respond (r₀ r₁ r₂ r₃ : Word) (s : SdCard × IoSpace) : SdCard × IoSpace :=
  let io := setReg s.2 space SDRSP0 r₀
  let io := setReg io space SDRSP1 r₁
  let io := setReg io space SDRSP2 r₂
  (s.1, setReg io space SDRSP3 r₃)

def sdcardHandleCmd (cmd : ℕ) (s : SdCard × IoSpace) : Except BusFault (SdCard × IoSpace) :=
  match cmd with
  -- MMC_GO_IDLE_STATE
  | 0 => .ok s
  -- MMC_SEND_OP_COND
  | 1 => .ok (s.1, setReg s.2 space SDRSP0 0x80ff8000)
  -- MMC_ALL_SEND_CID
  | 2 => .ok (respond space 1 0 0 0x15000000 s)
  | 52 => .ok s
  -- MMC_SEND_CSD
  | 9 => .ok (respond space 0x92404001
      (0x124b97e3 ||| BitVec.ofNat 32 ((C_SIZE &&& 3) <<< 30))
      (0x0f508000 ||| BitVec.ofNat 32 (C_SIZE >>> 2) ||| BitVec.ofNat 32 (READ_BL_LEN <<< 16))
      0x9026012a s)
  -- MMC_SEND_EXT_CSD
  | 8 => .ok ({ s.1 with readExtCsd := true, addr := 0 }, s.2)
  -- MMC_SLEEP_AWAKE, MMC_APP_CMD, MMC_SET_RELATIVE_ADDR, MMC_SELECT_CARD
  | 5 => .ok s
  | 55 => .ok s
  | 3 => .ok s
  | 7 => .ok s
  -- MMC_SET_BLOCK_COUNT
  | 23 => .ok ({ s.1 with blkcnt := reg s.2 space SDARG &&& 0xffff }, s.2)
  -- MMC_READ_MULTIPLE_BLOCK
  | 18 => .ok (prepareRw space false s)
  -- MMC_WRITE_MULTIPLE_BLOCK
  | 25 => .ok (prepareRw space true s)
  -- MMC_SEND_STATUS
  | 13 => .ok (respond space 0x900 0 0 0 s)
  -- MMC_STOP_TRANSMISSION
  | 12 => .ok s
  | _ => .error .assertion

/-- The `case SDDATA`. -/
def sdData (s : SdCard × IoSpace) : SdCard × IoSpace :=
  let s' :=
    if s.1.readExtCsd then
      let data : Word :=
        if s.1.addr = 192 then 2
        else if s.1.addr = 212 then BitVec.ofNat 32 (MEMORY_SIZE / 512)
        else 0
      ({ s.1 with readExtCsd := s.1.addr != 512 - 4 }, setReg s.2 space SDDATA data)
    else
      match s.1.fp with
      | none => s
      | some f =>
        if s.1.writeCmd = false then
          let (io, f) := f.read 4 s.2 (space + 4 * SDDATA)
          ({ s.1 with fp := some f }, io)
        else ({ s.1 with fp := some (f.write (reg s.2 space SDDATA)) }, s.2)
  ({ s'.1 with addr := s'.1.addr + 4 }, s'.2)

def sdcardIoHandler (offset : Word) (_len : ℕ) (_isWrite : Bool) (s : SdCard × IoSpace) :
    Except BusFault (SdCard × IoSpace) :=
  let idx := offset.toNat / 4
  if idx = SDCMD then sdcardHandleCmd space (reg s.2 space SDCMD &&& 0x3f).toNat s
  else if idx = SDARG ∨ idx = SDRSP0 ∨ idx = SDRSP1 ∨ idx = SDRSP2 ∨ idx = SDRSP3 then .ok s
  else if idx = SDDATA then .ok (sdData space s)
  else .error .assertion

/-- What `init_sdcard` registers. -/
def sdcardMap (low : Word) : DevMap SdCard := ⟨low, low + 0x80 - 1, space, sdcardIoHandler space⟩

end Handler

inductive SdAccess
  | read (addr : Word) (len : ℕ)
  | write (addr : Word) (len : ℕ) (data : Word)
  deriving DecidableEq

section History

variable (low : Word) (space : ℕ)

/-- The four bytes of the data port are read, or written. -/
def dataRead : SdAccess := .read (low + 64) 4

def dataWrite (d : Word) : SdAccess := .write (low + 64) 4 d

/-- An access, with the word that it takes from the data port. -/
def sdAccess (s : SdCard × IoSpace) :
    SdAccess → Except BusFault (List Word × (SdCard × IoSpace))
  | .read addr len => do
    let (d, s) ← (sdcardMap space low).read s addr len
    return (if SdAccess.read addr len = dataRead low then [d] else [], s)
  | .write addr len data => do
    let s ← (sdcardMap space low).write s addr len data
    return ([], s)

def sdRun (s : SdCard × IoSpace) :
    List SdAccess → Except BusFault (List Word × (SdCard × IoSpace))
  | [] => .ok ([], s)
  | a :: as => do
    let (ws, s) ← sdAccess low space s a
    let (rest, s) ← sdRun s as
    return (ws ++ rest, s)

/-- `SDARG` and then `SDCMD` are written. -/
def issue (b cmd : Word) : List SdAccess := [.write (low + 4) 4 b, .write low 4 cmd]

/-- An access of the argument or of a response, which the device takes no notice of. -/
def Quiet (a : SdAccess) : Prop :=
  ∃ (offset : Word) (len : ℕ), (len = 1 ∨ len = 2 ∨ len = 4) ∧
    (offset.toNat / 4 = SDARG ∨ SDRSP0 ≤ offset.toNat / 4 ∧ offset.toNat / 4 ≤ SDRSP3) ∧
    (a = .read (low + offset) len ∨ ∃ d, a = .write (low + offset) len d)

/-- `n` reads of the data port, with other accesses between them. -/
inductive Reads : List SdAccess → ℕ → Prop
  | nil : Reads [] 0
  | data {as : List SdAccess} {n : ℕ} (h : Reads as n) : Reads (dataRead low :: as) (n + 1)
  | quiet {a : SdAccess} {as : List SdAccess} {n : ℕ} (ha : Quiet low a) (h : Reads as n) :
      Reads (a :: as) n

/-- Writes of the words `ds` to it, the same way. -/
inductive Writes : List SdAccess → List Word → Prop
  | nil : Writes [] []
  | data {as : List SdAccess} {ds : List Word} (d : Word) (h : Writes as ds) :
      Writes (dataWrite low d :: as) (d :: ds)
  | quiet {a : SdAccess} {as : List SdAccess} {ds : List Word} (ha : Quiet low a)
      (h : Writes as ds) : Writes (a :: as) ds

/-- The transfers that commands start are of the blocks that they name. -/
structure Transfers (s : SdCard × IoSpace) : Prop where
  read {f : File} (hf : s.1.fp = some f) {b cmd : Word} (hcmd : (cmd &&& 0x3f).toNat = 18)
    {as : List SdAccess} {n : ℕ} (has : Reads low as n) (hsize : 512 * b.toNat + 4 * n ≤ f.size) :
    ∃ s', sdRun low space s (issue low b cmd ++ as) = .ok (f.words (512 * b.toNat) n, s')
  write {f : File} (hf : s.1.fp = some f) {b cmd : Word} (hcmd : (cmd &&& 0x3f).toNat = 25)
    {as : List SdAccess} {ds : List Word} (has : Writes low as ds) :
    ∃ s' g, sdRun low space s (issue low b cmd ++ as) = .ok ([], s') ∧ s'.1.fp = some g ∧
      g.words (512 * b.toNat) ds.length = ds ∧
      ∀ i, i < 512 * b.toNat ∨ 512 * b.toNat + 4 * ds.length ≤ i → i < f.size → g.byte i = f.byte i
  back {f : File} (hf : s.1.fp = some f) {b cmdw cmdr : Word} (hcmdw : (cmdw &&& 0x3f).toNat = 25)
    (hcmdr : (cmdr &&& 0x3f).toNat = 18) {as as' : List SdAccess} {ds : List Word}
    (has : Writes low as ds) (has' : Reads low as' ds.length) :
    ∃ s', sdRun low space s (issue low b cmdw ++ as ++ (issue low b cmdr ++ as')) = .ok (ds, s')

end History

section Access

variable {low : Word} (hlow : low.toNat + 0x80 ≤ 2 ^ 32) (space : ℕ)

theorem toNat_sdcard_high (hlow : low.toNat + 0x80 ≤ 2 ^ 32) :
    (sdcardMap space low).high.toNat = low.toNat + 0x7f := by
  change (low + 0x80 - 1).toNat = _
  rw [show low + 0x80 - 1 = low + 0x7f by ring, BitVec.toNat_add,
    show (0x7f : Word).toNat = 0x7f from rfl, Nat.mod_eq_of_lt (by omega)]

section Eq

variable {offset : Word} (hoff : offset.toNat < 0x80) {len : ℕ} (hlen : len = 1 ∨ len = 2 ∨ len = 4)
  (s : SdCard × IoSpace)

include hlow hoff hlen

theorem sdcard_read_eq : (sdcardMap space low).read s (low + offset) len =
    (sdcardIoHandler space offset len false s).map fun s' =>
      (leWord (fun k => s'.2 (space + offset.toNat + k)) len, s') := by
  have hhigh := toNat_sdcard_high space hlow
  exact DevMap.read_eq _ (by change low.toNat + _ < _; omega) (by change low.toNat + _ ≤ _; omega)
    hlen s

theorem sdcard_write_eq (d : Word) : (sdcardMap space low).write s (low + offset) len d =
    sdcardIoHandler space offset len true
      (s.1, writeWindow s.2 (space + offset.toNat) len d) := by
  have hhigh := toNat_sdcard_high space hlow
  exact DevMap.write_eq _ (by change low.toNat + _ < _; omega) (by change low.toNat + _ ≤ _; omega)
    hlen s d

end Eq

include hlow

theorem sdAccess_quiet {a : SdAccess} (ha : Quiet low a) (s : SdCard × IoSpace) :
    ∃ s', sdAccess low space s a = .ok ([], s') ∧ s'.1 = s.1 := by
  obtain ⟨offset, len, hlen, hidx, ha⟩ := ha
  simp only [SDARG, SDRSP0, SDRSP3] at hidx
  have hoff : offset.toNat < 0x80 := by omega
  have hcmd : ¬ offset.toNat / 4 = SDCMD := by
    rw [SDCMD]
    omega
  have hbreak : offset.toNat / 4 = SDARG ∨ offset.toNat / 4 = SDRSP0 ∨ offset.toNat / 4 = SDRSP1 ∨
      offset.toNat / 4 = SDRSP2 ∨ offset.toNat / 4 = SDRSP3 := by
    rw [SDARG, SDRSP0, SDRSP1, SDRSP2, SDRSP3]
    omega
  have hquiet : ∀ isWrite s, sdcardIoHandler space offset len isWrite s = .ok s :=
    fun isWrite s => (if_neg hcmd).trans (if_pos hbreak)
  rcases ha with rfl | ⟨d, rfl⟩
  · have hne : SdAccess.read (low + offset) len ≠ dataRead low := by
      intro he
      have h64 : offset = 64 := by simpa [dataRead] using (SdAccess.read.inj he).1
      rw [h64] at hidx
      exact absurd hidx (by decide)
    refine ⟨s, ?_, rfl⟩
    rw [sdAccess, sdcard_read_eq hlow space hoff hlen, hquiet]
    change Except.ok (ite _ _ _, s) = _
    rw [if_neg hne]
  · refine ⟨(s.1, writeWindow s.2 (space + offset.toNat) len d), ?_, rfl⟩
    rw [sdAccess, sdcard_write_eq hlow space hoff hlen, hquiet]
    rfl

theorem sdAccess_dataRead (s : SdCard × IoSpace) : sdAccess low space s (dataRead low) =
    .ok ([reg (sdData space s).2 space SDDATA], sdData space s) := by
  rw [dataRead, sdAccess, sdcard_read_eq hlow space (by decide) (by decide)]
  change Except.ok (ite _ _ _, sdData space s) = _
  rw [if_pos (show SdAccess.read (low + 64) 4 = dataRead low from rfl)]
  rfl

theorem sdAccess_dataWrite (s : SdCard × IoSpace) (d : Word) :
    sdAccess low space s (dataWrite low d) =
      .ok ([], sdData space (s.1, setReg s.2 space SDDATA d)) := by
  rw [dataWrite, sdAccess, sdcard_write_eq hlow space (by decide) (by decide)]
  rfl

end Access

section Transfer

/-- A transfer from or to the image is under way. -/
structure Mode (isWrite : Bool) (f : File) (c : SdCard) : Prop where
  fp : c.fp = some f
  writeCmd : c.writeCmd = isWrite
  readExtCsd : c.readExtCsd = false

variable {low : Word} (hlow : low.toNat + 0x80 ≤ 2 ^ 32) (space : ℕ) {f : File}

theorem sdData_read {s : SdCard × IoSpace} (h : Mode false f s.1) (hend : f.pos + 4 ≤ f.size) :
    reg (sdData space s).2 space SDDATA = f.word f.pos ∧
      Mode false (f.seek (f.pos + 4)) (sdData space s).1 := by
  have hdata : sdData space s =
      ({ s.1 with fp := some (f.seek (f.pos + 4)), addr := s.1.addr + 4 },
        (f.read 4 s.2 (space + 4 * SDDATA)).1) := by
    simp only [sdData, h.readExtCsd, h.fp, h.writeCmd, File.read_pos s.2 _ hend, if_true,
      Bool.false_eq_true, if_false]
  rw [hdata]
  exact ⟨File.read_word s.2 _ hend, ⟨rfl, h.writeCmd, h.readExtCsd⟩⟩

theorem sdData_write {s : SdCard × IoSpace} (h : Mode true f s.1) (d : Word) :
    Mode true (f.write d) (sdData space (s.1, setReg s.2 space SDDATA d)).1 := by
  have hdata : (sdData space (s.1, setReg s.2 space SDDATA d)).1 =
      { s.1 with fp := some (f.write d), addr := s.1.addr + 4 } := by
    simp only [sdData, h.readExtCsd, h.fp, h.writeCmd, reg_setReg, Bool.false_eq_true, if_false,
      Bool.true_eq_false]
  rw [hdata]
  exact ⟨rfl, h.writeCmd, h.readExtCsd⟩

theorem sdRun_cons_ok {s s₁ s₂ : SdCard × IoSpace} {a : SdAccess} {as : List SdAccess}
    {ws rest : List Word} (ha : sdAccess low space s a = .ok (ws, s₁))
    (has : sdRun low space s₁ as = .ok (rest, s₂)) :
    sdRun low space s (a :: as) = .ok (ws ++ rest, s₂) := by
  rw [sdRun, ha]
  change (sdRun low space s₁ as >>= fun _ => _) = _
  rw [has]
  rfl

theorem sdRun_append_ok {as : List SdAccess} {s s₁ : SdCard × IoSpace} {ws : List Word}
    (has : sdRun low space s as = .ok (ws, s₁)) {as' : List SdAccess} {s₂ : SdCard × IoSpace}
    {ws' : List Word} (has' : sdRun low space s₁ as' = .ok (ws', s₂)) :
    sdRun low space s (as ++ as') = .ok (ws ++ ws', s₂) := by
  induction as generalizing s ws with
  | nil =>
    obtain ⟨rfl, rfl⟩ := Prod.mk.inj (Except.ok.inj has)
    exact has'
  | cons a as ih =>
    rw [sdRun] at has
    obtain ⟨⟨w, s'⟩, ha, has⟩ := bind_eq_ok.1 has
    obtain ⟨⟨rest, s''⟩, hrest, has⟩ := bind_eq_ok.1 has
    obtain ⟨rfl, rfl⟩ := Prod.mk.inj (Except.ok.inj has)
    rw [List.append_assoc]
    exact sdRun_cons_ok space ha (ih hrest)

include hlow

theorem sdRun_reads {as : List SdAccess} {n : ℕ} (h : Reads low as n) {s : SdCard × IoSpace}
    (hmode : Mode false f s.1) (hend : 0 < n → f.pos + 4 * n ≤ f.size) :
    ∃ s', sdRun low space s as = .ok (f.words f.pos n, s') := by
  induction h generalizing f s with
  | nil => exact ⟨s, rfl⟩
  | @data as n h ih =>
    have hroom := hend (Nat.succ_pos n)
    obtain ⟨hword, hmode'⟩ := sdData_read space hmode (by omega)
    obtain ⟨s', hrun⟩ := ih hmode' fun _ => by change f.pos + 4 + _ ≤ f.size; omega
    refine ⟨s', ?_⟩
    rw [sdRun_cons_ok space (sdAccess_dataRead hlow space s) hrun, hword, File.words_succ]
    rfl
  | quiet ha h ih =>
    obtain ⟨s₁, hstep, hs₁⟩ := sdAccess_quiet hlow space ha s
    obtain ⟨s', hrun⟩ := ih (hs₁ ▸ hmode) hend
    exact ⟨s', sdRun_cons_ok space hstep hrun⟩

theorem sdRun_writes {as : List SdAccess} {ds : List Word} (h : Writes low as ds)
    {s : SdCard × IoSpace} (hmode : Mode true f s.1) :
    ∃ s', sdRun low space s as = .ok ([], s') ∧ Mode true (f.writes ds) s'.1 := by
  induction h generalizing f s with
  | nil => exact ⟨s, rfl, hmode⟩
  | data d h ih =>
    obtain ⟨s', hrun, hmode'⟩ := ih (sdData_write space hmode d)
    exact ⟨s', sdRun_cons_ok space (sdAccess_dataWrite hlow space s d) hrun, hmode'⟩
  | quiet ha h ih =>
    obtain ⟨s₁, hstep, hs₁⟩ := sdAccess_quiet hlow space ha s
    obtain ⟨s', hrun, hmode'⟩ := ih (hs₁ ▸ hmode)
    exact ⟨s', sdRun_cons_ok space hstep hrun, hmode'⟩

/-- The argument is stored and nothing done, then the command is stored and carried out. -/
theorem sdRun_issue (s : SdCard × IoSpace) (b cmd : Word) :
    sdRun low space s (issue low b cmd) =
      (sdcardHandleCmd space (cmd &&& 0x3f).toNat
        (s.1, setReg (setReg s.2 space SDARG b) space SDCMD cmd)).map fun s' => ([], s') := by
  have harg : sdAccess low space s (.write (low + 4) 4 b) =
      .ok ([], (s.1, setReg s.2 space SDARG b)) := by
    rw [sdAccess, sdcard_write_eq hlow space (by decide) (by decide)]
    rfl
  have hwrite := sdcard_write_eq hlow space (show (0 : Word).toNat < 0x80 by decide)
    (by decide : (4 = 1 ∨ 4 = 2 ∨ 4 = 4)) (s.1, setReg s.2 space SDARG b) cmd
  rw [add_zero] at hwrite
  have hcmd : (sdcardMap space low).write (s.1, setReg s.2 space SDARG b) low 4 cmd =
      sdcardHandleCmd space (reg (setReg (setReg s.2 space SDARG b) space SDCMD cmd) space SDCMD &&&
        0x3f).toNat (s.1, setReg (setReg s.2 space SDARG b) space SDCMD cmd) := hwrite
  rw [reg_setReg] at hcmd
  rw [issue, sdRun, harg]
  change (sdRun low space _ [_] >>= fun r => Except.ok (r.1, r.2)) = _
  rw [sdRun, sdAccess, hcmd]
  cases sdcardHandleCmd space (cmd &&& 0x3f).toNat
    (s.1, setReg (setReg s.2 space SDARG b) space SDCMD cmd) <;> rfl

theorem sdRun_issue_transfer (isWrite : Bool) (s : SdCard × IoSpace) (b : Word) {cmd : Word}
    (hcmd : (cmd &&& 0x3f).toNat = if isWrite then 25 else 18) :
    ∃ s', sdRun low space s (issue low b cmd) = .ok ([], s') ∧
      s'.1.fp = s.1.fp.map (fun f => f.seek (512 * b.toNat)) ∧ s'.1.writeCmd = isWrite ∧
      s'.1.readExtCsd = s.1.readExtCsd := by
  have hpos : (b.setWidth 64 <<< 9).toNat = 512 * b.toNat := by
    have := b.isLt
    rw [BitVec.toNat_shiftLeft, BitVec.toNat_setWidth, Nat.shiftLeft_eq]
    omega
  have hreg : reg (setReg (setReg s.2 space SDARG b) space SDCMD cmd) space SDARG = b :=
    (reg_setReg_ne _ _ _ (by decide)).trans (reg_setReg _ _ _ _)
  have hhandle : sdcardHandleCmd space (cmd &&& 0x3f).toNat
      (s.1, setReg (setReg s.2 space SDARG b) space SDCMD cmd) =
      .ok (prepareRw space isWrite (s.1, setReg (setReg s.2 space SDARG b) space SDCMD cmd)) := by
    rw [hcmd]
    cases isWrite <;> rfl
  refine ⟨prepareRw space isWrite (s.1, setReg (setReg s.2 space SDARG b) space SDCMD cmd), ?_, ?_,
    rfl, rfl⟩
  · rw [sdRun_issue hlow, hhandle]
    rfl
  · simp only [prepareRw, hreg, hpos]

variable {s : SdCard × IoSpace}

/-- With `read_ext_csd` clear a command starts its transfer. -/
theorem sdRun_issue_mode (isWrite : Bool) (hf : s.1.fp = some f) (hext : s.1.readExtCsd = false)
    (b : Word) {cmd : Word} (hcmd : (cmd &&& 0x3f).toNat = if isWrite then 25 else 18) :
    ∃ s', sdRun low space s (issue low b cmd) = .ok ([], s') ∧
      Mode isWrite (f.seek (512 * b.toNat)) s'.1 := by
  obtain ⟨s', hrun, hfp, hwrite, hext'⟩ := sdRun_issue_transfer hlow space isWrite s b hcmd
  exact ⟨s', hrun, hfp.trans (by rw [hf]; rfl), hwrite, hext'.trans hext⟩

theorem transfers_of_clear (hext : s.1.readExtCsd = false) : Transfers low space s := by
  constructor
  · intro f hf b cmd hcmd as n has hsize
    obtain ⟨s₁, hissue, hmode⟩ := sdRun_issue_mode hlow space false hf hext b hcmd
    obtain ⟨s₂, hreads⟩ := sdRun_reads hlow space has hmode fun _ => hsize
    exact ⟨s₂, sdRun_append_ok space hissue hreads⟩
  · intro f hf b cmd hcmd as ds has
    obtain ⟨s₁, hissue, hmode⟩ := sdRun_issue_mode hlow space true hf hext b hcmd
    obtain ⟨s₂, hwrites, hmode'⟩ := sdRun_writes hlow space has hmode
    refine ⟨s₂, _, sdRun_append_ok space hissue hwrites, hmode'.fp,
      File.words_writes (f.seek _) ds, fun i hi hin => ?_⟩
    exact File.writes_byte (f.seek (512 * b.toNat)) ds hi hin
  · intro f hf b cmdw cmdr hcmdw hcmdr as as' ds has has'
    obtain ⟨s₁, hissue, hmode⟩ := sdRun_issue_mode hlow space true hf hext b hcmdw
    obtain ⟨s₂, hwrites, hmode'⟩ := sdRun_writes hlow space has hmode
    obtain ⟨s₃, hissue', hmode''⟩ :=
      sdRun_issue_mode hlow space false hmode'.fp hmode'.readExtCsd b hcmdr
    obtain ⟨s₄, hreads⟩ := sdRun_reads hlow space has' hmode'' fun hn =>
      File.writes_size (f.seek (512 * b.toNat)) (List.length_pos_iff.1 hn)
    have hwords : ((((f.seek (512 * b.toNat)).writes ds).seek (512 * b.toNat)).words
        (512 * b.toNat) ds.length) = ds := File.words_writes (f.seek (512 * b.toNat)) ds
    refine ⟨s₄, (sdRun_append_ok space (sdRun_append_ok space hissue hwrites)
      (sdRun_append_ok space hissue' hreads)).trans ?_⟩
    exact congrArg (fun ws => Except.ok (ws, s₄)) hwords

/-- With `read_ext_csd` set a word that is sent does not reach the image. -/
theorem readExtCsd_of_transfers (hf : s.1.fp = some f) (h : Transfers low space s) :
    s.1.readExtCsd = false := by
  by_contra hext
  rw [Bool.not_eq_false] at hext
  obtain ⟨s₁, hissue, hfp, hwrite, hext₁⟩ := sdRun_issue_transfer hlow space true s 0
    (show ((25 : Word) &&& 0x3f).toNat = 25 from rfl)
  have hdata := sdAccess_dataWrite hlow space s₁ (f.word 0 + 1)
  have hfp' : (sdData space (s₁.1, setReg s₁.2 space SDDATA (f.word 0 + 1))).1.fp =
      some (f.seek 0) := by
    simp only [sdData, hext₁, hext, if_true, hfp, hf]
    rfl
  obtain ⟨s₂, g, hrun, hg, hwords, -⟩ := h.write hf
    (show ((25 : Word) &&& 0x3f).toNat = 25 from rfl) (.data (f.word 0 + 1) .nil)
  rw [sdRun_append_ok space hissue (sdRun_cons_ok space hdata rfl)] at hrun
  obtain rfl := (Prod.mk.inj (Except.ok.inj hrun)).2
  obtain rfl := Option.some.inj (hfp'.symm.trans hg)
  have hword : f.word 0 = f.word 0 + 1 := (List.cons.inj hwords).1
  exact absurd hword (by simp)

end Transfer

section Histories

variable {low : Word} {space : ℕ}

theorem sdcardHandleCmd_fp {cmd : ℕ} {s s' : SdCard × IoSpace}
    (h : sdcardHandleCmd space cmd s = .ok s') : s'.1.fp.isSome = s.1.fp.isSome := by
  unfold sdcardHandleCmd at h
  split at h
  -- every command but those of a transfer leaves `fp`
  all_goals first
    | obtain rfl := Except.ok.inj h
      first
        | rfl
        | exact Option.isSome_map
    | cases h

theorem sdData_fp (s : SdCard × IoSpace) : (sdData space s).1.fp.isSome = s.1.fp.isSome := by
  unfold sdData
  cases hext : s.1.readExtCsd
  · cases hfp : s.1.fp <;> cases hw : s.1.writeCmd <;> simp [hfp]
  · rfl

theorem sdcardIoHandler_fp {offset : Word} {len : ℕ} {isWrite : Bool} {s s' : SdCard × IoSpace}
    (h : sdcardIoHandler space offset len isWrite s = .ok s') : s'.1.fp.isSome = s.1.fp.isSome := by
  unfold sdcardIoHandler at h
  simp only at h
  split_ifs at h
  · exact sdcardHandleCmd_fp h
  · rw [← Except.ok.inj h]
  · rw [← Except.ok.inj h]
    exact sdData_fp s

theorem sdAccess_fp {a : SdAccess} {s s' : SdCard × IoSpace} {ws : List Word}
    (h : sdAccess low space s a = .ok (ws, s')) : s'.1.fp.isSome = s.1.fp.isSome := by
  cases a with
  | read addr len =>
    obtain ⟨⟨d, s₁⟩, hread, h⟩ := bind_eq_ok.1 h
    obtain ⟨-, rfl⟩ := Prod.mk.inj (Except.ok.inj h)
    unfold DevMap.read at hread
    split_ifs at hread
    obtain ⟨s₂, hcb, hread⟩ := bind_eq_ok.1 hread
    obtain ⟨d', -, hread⟩ := bind_eq_ok.1 hread
    obtain ⟨-, rfl⟩ := Prod.mk.inj (Except.ok.inj hread)
    change sdcardIoHandler space (addr - low) len false s = .ok s₂ at hcb
    exact sdcardIoHandler_fp hcb
  | write addr len d =>
    obtain ⟨s₁, hwrite, h⟩ := bind_eq_ok.1 h
    obtain ⟨-, rfl⟩ := Prod.mk.inj (Except.ok.inj h)
    unfold DevMap.write at hwrite
    split_ifs at hwrite
    obtain ⟨io, -, hcb⟩ := bind_eq_ok.1 hwrite
    change sdcardIoHandler space (addr - low) len true (s.1, io) = .ok s₁ at hcb
    exact (sdcardIoHandler_fp hcb :)

theorem sdRun_fp {as : List SdAccess} {s s' : SdCard × IoSpace} {ws : List Word}
    (h : sdRun low space s as = .ok (ws, s')) : s'.1.fp.isSome = s.1.fp.isSome := by
  induction as generalizing s ws with
  | nil => rw [(Prod.mk.inj (Except.ok.inj h)).2]
  | cons a as ih =>
    obtain ⟨⟨w, s₁⟩, ha, h⟩ := bind_eq_ok.1 h
    obtain ⟨⟨rest, s₂⟩, hrest, h⟩ := bind_eq_ok.1 h
    obtain ⟨-, rfl⟩ := Prod.mk.inj (Except.ok.inj h)
    exact (ih hrest).trans (sdAccess_fp ha)

/-- After a history of accesses transfers depend on the command alone exactly when no `EXT_CSD` is
left half read. -/
theorem transfers_iff (hlow : low.toNat + 0x80 ≤ 2 ^ 32) {f : File} {io : IoSpace}
    {hist : List SdAccess} {ws : List Word} {s : SdCard × IoSpace}
    (hrun : sdRun low space (SdCard.init (some f), io) hist = .ok (ws, s)) :
    Transfers low space s ↔ s.1.readExtCsd = false := by
  have hfp := sdRun_fp hrun
  obtain ⟨g, hg⟩ := Option.isSome_iff_exists.1 (hfp.trans rfl)
  exact ⟨readExtCsd_of_transfers hlow space hg, transfers_of_clear hlow space⟩

def onesCard : SdCard × IoSpace := (SdCard.init (some ⟨fun _ => 0xff, 2 ^ 20, 0⟩), fun _ => 0)

/-- A write transfer is broken off and blocks are read. -/
theorem transfers_iff_abandoned :
    ∃ ws s, sdRun 0xa3000000 0 onesCard
        [.write 0xa3000004 4 5, .write 0xa3000000 4 25, .write 0xa3000040 4 7] = .ok (ws, s) ∧
      (Transfers 0xa3000000 0 s ↔ s.1.readExtCsd = false) := by
  have hrun : ∃ r, sdRun 0xa3000000 0 onesCard
      [.write 0xa3000004 4 5, .write 0xa3000000 4 25, .write 0xa3000040 4 7] = .ok r := ⟨_, rfl⟩
  obtain ⟨⟨ws, s⟩, hrun⟩ := hrun
  exact ⟨ws, s, hrun, transfers_iff (by decide) hrun⟩

/-- The first word that is read after a `SEND_EXT_CSD` is none of the image. -/
theorem sdRun_extCsd_leaks : (sdRun 0xa3000000 0 onesCard
    (issue 0xa3000000 0 8 ++ (issue 0xa3000000 0 18 ++ [dataRead 0xa3000000]))).map Prod.fst =
      .ok [0] := by
  rfl

theorem not_transfers : ¬ ∀ (hist : List SdAccess) (ws : List Word) (s : SdCard × IoSpace),
    sdRun 0xa3000000 0 onesCard hist = .ok (ws, s) → Transfers 0xa3000000 0 s := by
  intro h
  have hlow : (0xa3000000 : Word).toNat + 0x80 ≤ 2 ^ 32 := by decide
  have hext : sdRun 0xa3000000 0 onesCard (issue 0xa3000000 0 8) = .ok ([], _) :=
    sdRun_issue hlow 0 onesCard 0 8
  have hsize : 512 * (0 : Word).toNat + 4 * 1 ≤ 2 ^ 20 := by decide
  obtain ⟨s', hread⟩ := (h _ _ _ hext).read (f := ⟨fun _ => 0xff, 2 ^ 20, 0⟩) rfl
    (show ((18 : Word) &&& 0x3f).toNat = 18 from rfl) (.data .nil) hsize
  have hrun := sdRun_append_ok 0 hext hread
  have hleak := sdRun_extCsd_leaks
  rw [hrun] at hleak
  have hword : (leWord (fun _ => 0xff) 4 : Word) = 0 := (List.cons.inj (Except.ok.inj hleak)).1
  exact absurd hword (by decide)

end Histories

end Sdcard
end Ysyx.Nemu
