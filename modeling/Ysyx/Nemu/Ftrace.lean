import Ysyx.Lib.File
import Ysyx.Lib.Outcome
import Ysyx.Lib.ZeroEnded

/-! The function trace: what `load_elf` takes out of an ELF file, and the function that an address
lies in. -/

namespace Ysyx.Nemu.Ftrace

open Bytes ZeroEnded

/-- How loading ends otherwise: at a failed `assert`, or by a write behind `sym_name_buff`. -/
inductive Fault where
  | assertion
  | outside
deriving DecidableEq

structure Ehdr where
  eShoff : Word
  eShnum : ℕ

structure Shdr where
  shType : Word
  shOffset : Word
  shSize : Word
  shLink : Word
  shEntsize : Word

structure Sym where
  stName : Word
  stValue : Word
  stSize : Word
  stInfo : Byte

section Records

variable (f : File) (p : ℕ)

def half : ℕ := (leWord (fun k => f.byte (p + k)) 2).toNat

def ehdr : Ehdr := ⟨f.word (p + 32), half f (p + 48)⟩

def shdr : Shdr :=
  ⟨f.word (p + 4), f.word (p + 16), f.word (p + 20), f.word (p + 24), f.word (p + 36)⟩

def sym : Sym := ⟨f.word p, f.word (p + 4), f.word (p + 8), f.byte (p + 12)⟩

end Records

def STT_FUNC : Byte := 2
def SHT_SYMTAB : Word := 2
def SHT_STRTAB : Word := 3

def isFunc (info : Byte) : Bool := info &&& 0xf == STT_FUNC

abbrev Name := Fin 20 → Byte

structure FuncSym where
  nameIndex : Word
  name : Name
  value : Word
  size : Word

/-- An entry as the loop over the symbols leaves it. -/
def Sym.entry (s : Sym) : FuncSym := ⟨s.stName, fun _ => 0, s.stValue, s.stSize⟩

def MAX_func_size : ℕ := 1000000000

/-- A record of `n` bytes, and the assertion that it was there. -/
def fread {α : Type} (n : ℕ) (record : File → ℕ → α) (f : File) : Except Fault (α × File) :=
  if f.pos + n ≤ f.size then .ok (record f f.pos, f.seek (f.pos + n)) else .error .assertion

/-- `fseek` to a place that may lie before the file, where it fails. -/
def fseek (f : File) (p : ℤ) : File := if 0 ≤ p then f.seek p.toNat else f

def store (buff : Name) (i : ℕ) (c : Byte) : Name := fun j => if j.val = i then c else buff j

/-- The `while(1)` with `room` cells of the buffer ahead; the zero it ends with is stored already. -/
def readName : ℕ → Name → File → Except Fault (Name × File)
  | 0, _, f => do
    let _ ← fread 1 File.byte f
    .error .outside
  | room + 1, buff, f => do
    let (c, f) ← fread 1 File.byte f
    let buff := store buff (19 - room) c
    if c = 0 then .ok (buff, f) else readName room buff f

def getSymName (strtab : Shdr) (nameIndex : Word) (name buff : Name) (f : File) :
    Except Fault (Name × Name × File) := do
  let (c, f) ← fread 1 File.byte (f.seek (strtab.shOffset + nameIndex).toNat)
  let (buff, f) ← readName 19 (store buff 0 c) f
  .ok (strcpy name buff, buff, f)

/-- The loop over the symbols, with those that were kept. -/
def readSymbols : ℕ → List FuncSym → File → Except Fault (List FuncSym × File)
  | 0, g, f => .ok (g, f)
  | n + 1, g, f => do
    let (s, f) ← fread 16 sym f
    let g := if isFunc s.stInfo then g ++ [s.entry] else g
    if g.length ≤ MAX_func_size then readSymbols n g f else .error .assertion

/-- The loop that names them. -/
def readNames (strtab : Shdr) : List FuncSym → Name → File → Except Fault (List FuncSym)
  | [], _, _ => .ok []
  | s :: g, buff, f => do
    let (name, buff, f) ← getSymName strtab s.nameIndex s.name buff f
    let g ← readNames strtab g buff f
    .ok ({ s with name := name } :: g)

def loadElf (f : File) : Except Fault (List FuncSym) := do
  let (header, f) ← fread 52 ehdr (f.seek 0)
  let (symtab, f) ← fread 40 shdr (fseek f (header.eShoff.toNat + ((header.eShnum : ℤ) - 3) * 40))
  let symAmount := symtab.shSize.toNat / 16
  let (strtab, f) ← fread 40 shdr f
  let (g, f) ← readSymbols symAmount [] (f.seek symtab.shOffset.toNat)
  readNames strtab g (fun _ => 0) f

def checkFuncInterval (g : List FuncSym) (pc : Word) : Except Fault ℕ :=
  match g.findIdx? fun s => decide (s.value ≤ pc ∧ pc < s.value + s.size) with
  | some i => .ok i
  | none => .error .assertion

/-- A function symbol: its interval and its name as a field of twenty bytes holds it. -/
structure Func where
  value : Word
  size : Word
  name : Name

def FuncSym.func (s : FuncSym) : Func := ⟨s.value, s.size, s.name⟩

def funcSyms (f : File) (p n : ℕ) : List Sym :=
  ((List.range n).map fun k => sym f (p + 16 * k)).filter fun s => isFunc s.stInfo

def tableAt (f : File) : ℕ := (ehdr f 0).eShoff.toNat

/-- How many sections there are; a count that does not fit the header is the size of section zero. -/
def shnum (f : File) : ℕ :=
  if (ehdr f 0).eShnum = 0 then (shdr f (tableAt f)).shSize.toNat else (ehdr f 0).eShnum

def sectionHdr (f : File) (i : ℕ) : Shdr := shdr f (tableAt f + 40 * i)

def symCount (symtab : Shdr) : ℕ := symtab.shSize.toNat / 16

def linked (f : File) (k : ℕ) : Shdr := sectionHdr f (sectionHdr f k).shLink.toNat

/-- Index zero is the empty name, also where the string table is empty. -/
def symName (f : File) (strtab : Shdr) (i : Word) : Name :=
  if i = 0 then fun _ => 0 else field 20 f.byte (strtab.shOffset.toNat + i.toNat)

def elfFuncs (f : File) (k : ℕ) : List Func :=
  (funcSyms f (sectionHdr f k).shOffset.toNat (symCount (sectionHdr f k))).map fun s =>
    ⟨s.stValue, s.stSize, symName f (linked f k) s.stName⟩

/-- A little-endian ELF32 file whose one symbol table is section `k`. -/
structure WellFormed (f : File) (k : ℕ) : Prop where
  ident : [f.byte 0, f.byte 1, f.byte 2, f.byte 3, f.byte 4, f.byte 5] =
    [0x7f, 0x45, 0x4c, 0x46, 1, 1]
  header : 52 ≤ f.size
  shentsize : half f 46 = 40
  table : 0 < tableAt f ∧ tableAt f + 40 * shnum f ≤ f.size
  index : k < shnum f
  unique : ∀ j < shnum f, (sectionHdr f j).shType = SHT_SYMTAB ↔ j = k
  entries : (sectionHdr f k).shEntsize = 16 ∧ 16 ∣ (sectionHdr f k).shSize.toNat
  symbols : (sectionHdr f k).shOffset.toNat + (sectionHdr f k).shSize.toNat ≤ f.size
  link : (sectionHdr f k).shLink.toNat < shnum f ∧ (linked f k).shType = SHT_STRTAB
  strings : (linked f k).shOffset.toNat + (linked f k).shSize.toNat ≤ f.size
  ended : (linked f k).shSize ≠ 0 → f.byte (linked f k).shOffset.toNat = 0 ∧
    f.byte ((linked f k).shOffset.toNat + (linked f k).shSize.toNat - 1) = 0
  names : ∀ s ∈ funcSyms f (sectionHdr f k).shOffset.toNat (symCount (sectionHdr f k)),
    s.stName = 0 ∨ s.stName < (linked f k).shSize

def Func.covers (s : Func) (pc : Word) : Bool :=
  decide (s.value.toNat ≤ pc.toNat ∧ pc.toNat < s.value.toNat + s.size.toNat)

/-- The table holds the functions of the file, and every address of one of them finds the first. -/
def Loads (f : File) (k : ℕ) : Prop :=
  ∃ g, loadElf f = .ok g ∧ g.map FuncSym.func = elfFuncs f k ∧
    ∀ pc i, (elfFuncs f k).findIdx? (·.covers pc) = some i → checkFuncInterval g pc = .ok i

/-- Where the header of the symbol table is taken from: three before the end of the table, or right
behind the file header if that lies before the file. -/
def codeHdr (f : File) : ℕ :=
  let p : ℤ := tableAt f + (((ehdr f 0).eShnum : ℤ) - 3) * 40
  if 0 ≤ p then p.toNat else 52

def codeSymtab (f : File) : Shdr := shdr f (codeHdr f)

def codeStrtab (f : File) : Shdr := shdr f (codeHdr f + 40)

def codeSyms (f : File) : List Sym :=
  funcSyms f (codeSymtab f).shOffset.toNat (symCount (codeSymtab f))

/-- The address is a word. -/
def namePos (f : File) (s : Sym) : ℕ := ((codeStrtab f).shOffset + s.stName).toNat

/-- A name of at most nineteen bytes; the zero of an empty one is not looked at. -/
def ShortAt (f : File) (p : ℕ) : Prop := ∃ n < 20, 1 ≤ n ∧ p + n < f.size ∧ f.byte (p + n) = 0

instance (f : File) (p : ℕ) : Decidable (ShortAt f p) :=
  inferInstanceAs (Decidable (∃ n < 20, 1 ≤ n ∧ p + n < f.size ∧ f.byte (p + n) = 0))

structure Readable (f : File) (k : ℕ) : Prop where
  headers : codeHdr f + 80 ≤ f.size
  symbols : symCount (codeSymtab f) = 0 ∨
    (codeSymtab f).shOffset.toNat + 16 * symCount (codeSymtab f) ≤ f.size
  short : ∀ s ∈ codeSyms f, ShortAt f (namePos f s)
  same : (codeSyms f).map (fun s => ⟨s.stValue, s.stSize, field 20 f.byte (namePos f s)⟩) =
    elfFuncs f k
  ends : ∀ pc i s, (elfFuncs f k).findIdx? (·.covers pc) = some i → (elfFuncs f k)[i]? = some s →
    s.value.toNat + s.size.toNat < 2 ^ 32

section Reading

variable {f : File} {p : ℕ}

theorem fread_eq_ok {α : Type} {n : ℕ} {record : File → ℕ → α} {r : α × File} :
    fread n record (f.seek p) = .ok r ↔
      p + n ≤ f.size ∧ r = (record (f.seek p) p, f.seek (p + n)) := by
  unfold fread
  change (if p + n ≤ f.size then Except.ok (record (f.seek p) p, f.seek (p + n)) else _) = _ ↔ _
  split_ifs with h
  · exact ⟨fun he => ⟨h, (Except.ok.inj he).symm⟩, fun he => congrArg _ he.2.symm⟩
  · exact ⟨fun he => (nomatch he), fun he => absurd he.1 h⟩

theorem fread_ok {α : Type} {n : ℕ} {record : File → ℕ → α} (h : p + n ≤ f.size) :
    fread n record (f.seek p) = .ok (record (f.seek p) p, f.seek (p + n)) :=
  fread_eq_ok.2 ⟨h, rfl⟩

theorem store_same (buff : Name) (i : Fin 20) (c : Byte) : store buff i c i = c := if_pos rfl

theorem store_other (buff : Name) {i : Fin 20} {k : ℕ} (c : Byte) (h : i.val ≠ k) :
    store buff k c i = buff i := if_neg h

theorem store_holds {buff : Name} {k : ℕ} (hb : ∀ i : Fin 20, i.val < k → buff i = f.byte (p + i)) :
    ∀ i : Fin 20, i.val < k + 1 → store buff k (f.byte (p + k)) i = f.byte (p + i) := by
  intro i hi
  by_cases hk : i.val = k
  · rw [← hk]
    exact store_same buff i _
  · rw [store_other buff _ hk]
    exact hb i (by omega)

theorem readName_holds {room : ℕ} (hroom : room ≤ 19) {buff : Name} {r : Name × File}
    (hb : ∀ i : Fin 20, i.val < 20 - room → buff i = f.byte (p + i))
    (h : readName room buff (f.seek (p + (20 - room))) = .ok r) :
    ∃ n, 20 - room ≤ n ∧ p + n < f.size ∧ Holds f.byte p r.1 n ∧ ∃ q, r.2 = f.seek q := by
  induction room generalizing buff with
  | zero =>
    obtain ⟨_, _, h⟩ := bind_eq_ok.1 h
    cases h
  | succ room ih =>
    obtain ⟨_, hread, h⟩ := bind_eq_ok.1 h
    obtain ⟨hin, rfl⟩ := fread_eq_ok.1 hread
    have hcell : 20 - (room + 1) = 19 - room := by omega
    rw [hcell] at hb hin
    rw [hcell] at h
    have hb' := store_holds hb
    change (if f.byte (p + (19 - room)) = 0 then _ else _) = _ at h
    split_ifs at h with hz
    · cases h
      refine ⟨19 - room, by omega, by omega, ⟨by omega, hz, fun i hi => hb' i (by omega)⟩, _, rfl⟩
    · have hnext : p + (19 - room) + 1 = p + (20 - room) := by omega
      have hcount : 19 - room + 1 = 20 - room := by omega
      rw [hcount] at hb'
      change readName room _ (f.seek (p + (19 - room) + 1)) = _ at h
      rw [hnext] at h
      obtain ⟨n, hn, hrest⟩ := ih (by omega) hb' h
      exact ⟨n, by omega, hrest⟩

theorem readName_returns {room n : ℕ} (hroom : room ≤ 19) (hn : 20 - room ≤ n) (hn20 : n < 20)
    (hin : p + n < f.size) (hz : f.byte (p + n) = 0) (buff : Name) :
    ∃ r, readName room buff (f.seek (p + (20 - room))) = .ok r := by
  induction room generalizing buff with
  | zero => omega
  | succ room ih =>
    rw [readName, fread_ok (by omega)]
    change ∃ r, (if f.byte (p + (20 - (room + 1))) = 0 then _ else _) = _
    split_ifs with hzero
    · exact ⟨_, rfl⟩
    · have hne : n ≠ 20 - (room + 1) := fun he => hzero (he ▸ hz)
      have hnext : p + (20 - (room + 1)) + 1 = p + (20 - room) := by omega
      obtain ⟨r, hr⟩ := ih (by omega) (by omega)
        (store buff (19 - room) (f.byte (p + (20 - (room + 1)))))
      refine ⟨r, ?_⟩
      rw [← hnext] at hr
      exact hr

variable {strtab : Shdr} {i : Word} {buff : Name}

theorem getSymName_ok {r : Name × Name × File} {q : ℕ}
    (h : getSymName strtab i (fun _ => 0) buff (f.seek q) = .ok r) :
    ShortAt f (strtab.shOffset + i).toNat ∧
      r.1 = field 20 f.byte (strtab.shOffset + i).toNat ∧ ∃ q, r.2.2 = f.seek q := by
  obtain ⟨_, hread, h⟩ := bind_eq_ok.1 h
  obtain ⟨-, rfl⟩ := (fread_eq_ok (f := f)).1 hread
  obtain ⟨r', hname, h⟩ := bind_eq_ok.1 h
  cases h
  have hfirst : ∀ j : Fin 20, j.val < 1 → store buff 0 (f.byte (strtab.shOffset + i).toNat) j =
      f.byte ((strtab.shOffset + i).toNat + j) :=
    store_holds fun j hj => absurd hj (Nat.not_lt_zero _)
  obtain ⟨n, hn, hin, hholds, hpos⟩ := readName_holds (by omega) hfirst hname
  exact ⟨⟨n, hholds.room, hn, hin, hholds.zero⟩, hholds.strcpy_eq, hpos⟩

theorem getSymName_returns (h : ShortAt f (strtab.shOffset + i).toNat) (name buff : Name) (q : ℕ) :
    ∃ r, getSymName strtab i name buff (f.seek q) = .ok r := by
  obtain ⟨n, hn20, hn, hin, hz⟩ := h
  have h19 : 19 ≤ 19 := le_rfl
  obtain ⟨r, hr⟩ := readName_returns h19 hn hn20 hin hz
    (store buff 0 (f.byte (strtab.shOffset + i).toNat))
  refine ⟨(strcpy name r.1, r.1, r.2), ?_⟩
  refine bind_eq_ok.2 ⟨_, fread_ok (f := f) (by omega), ?_⟩
  exact bind_eq_ok.2 ⟨r, hr, rfl⟩

end Reading

section Tables

variable {f : File}

theorem funcSyms_succ (p n : ℕ) :
    funcSyms f p (n + 1) =
      (if isFunc (sym f p).stInfo then [sym f p] else []) ++ funcSyms f (p + 16) n := by
  have htail : (List.range n).map (fun k => sym f (p + 16 * (k + 1))) =
      (List.range n).map fun k => sym f (p + 16 + 16 * k) :=
    List.map_congr_left fun k _ => congrArg (sym f) (by ring)
  rw [funcSyms, List.range_succ_eq_map, List.map_cons, List.map_map]
  change List.filter _ (sym f p :: (List.range n).map fun k => sym f (p + 16 * (k + 1))) = _
  rw [htail, List.filter_cons]
  split_ifs <;> rfl

/-- The loop over the symbols keeps the functions among them, and needs them all in the file. -/
theorem readSymbols_eq_ok {p n : ℕ} {g : List FuncSym} {r : List FuncSym × File}
    (hmax : g.length + n ≤ MAX_func_size) :
    readSymbols n g (f.seek p) = .ok r ↔
      (n = 0 ∨ p + 16 * n ≤ f.size) ∧
        r = (g ++ (funcSyms f p n).map Sym.entry, f.seek (p + 16 * n)) := by
  induction n generalizing g p with
  | zero =>
    have hnil : g ++ (funcSyms f p 0).map Sym.entry = g := List.append_nil g
    rw [hnil]
    exact ⟨fun h => ⟨.inl rfl, (Except.ok.inj h).symm⟩, fun h => congrArg _ h.2.symm⟩
  | succ n ih =>
    have hentry : ∀ s : Sym, (if isFunc s.stInfo then g ++ [s.entry] else g) =
        g ++ (if isFunc s.stInfo then [s] else []).map Sym.entry := by
      intro s
      split_ifs
      · rfl
      · exact (List.append_nil g).symm
    have hlen : (g ++ (if isFunc (sym f p).stInfo then [sym f p] else []).map Sym.entry).length ≤
        g.length + 1 := by
      rw [List.length_append, List.length_map]
      split_ifs <;> simp
    have hrest := ih (p := p + 16)
      (g := g ++ (if isFunc (sym f p).stInfo then [sym f p] else []).map Sym.entry) (by omega)
    have hend : p + 16 + 16 * n = p + 16 * (n + 1) := by ring
    rw [hend] at hrest
    have hlist : g ++ (funcSyms f p (n + 1)).map Sym.entry =
        g ++ (if isFunc (sym f p).stInfo then [sym f p] else []).map Sym.entry ++
          (funcSyms f (p + 16) n).map Sym.entry := by
      rw [funcSyms_succ, List.map_append, List.append_assoc]
    rw [hlist]
    constructor
    · intro h
      obtain ⟨_, hread, h⟩ := bind_eq_ok.1 h
      obtain ⟨hin, rfl⟩ := fread_eq_ok.1 hread
      change (if (if isFunc (sym f p).stInfo then g ++ [(sym f p).entry] else g).length ≤ _
        then readSymbols n (if isFunc (sym f p).stInfo then g ++ [(sym f p).entry] else g) _
        else _) = _ at h
      rw [hentry, if_pos (by omega)] at h
      obtain ⟨hin', hr⟩ := hrest.1 h
      exact ⟨.inr (by omega), hr⟩
    · rintro ⟨hin, hr⟩
      refine bind_eq_ok.2 ⟨_, fread_ok (by omega), ?_⟩
      change (if (if isFunc (sym f p).stInfo then g ++ [(sym f p).entry] else g).length ≤ _
        then readSymbols n (if isFunc (sym f p).stInfo then g ++ [(sym f p).entry] else g) _
        else _) = _
      rw [hentry, if_pos (by omega)]
      exact hrest.2 ⟨by omega, hr⟩

/-- The loop that names the entries needs every name to be short. -/
theorem readNames_eq_ok {strtab : Shdr} {ss : List Sym} {buff : Name} {q : ℕ} {g : List FuncSym} :
    readNames strtab (ss.map Sym.entry) buff (f.seek q) = .ok g ↔
      (∀ s ∈ ss, ShortAt f (strtab.shOffset + s.stName).toNat) ∧
        g = ss.map fun s =>
          { s.entry with name := field 20 f.byte (strtab.shOffset + s.stName).toNat } := by
  induction ss generalizing buff q g with
  | nil =>
    exact ⟨fun h => ⟨fun s hs => (nomatch hs), (Except.ok.inj h).symm⟩, fun h => congrArg _ h.2.symm⟩
  | cons s ss ih =>
    rw [List.forall_mem_cons]
    constructor
    · intro h
      obtain ⟨⟨name, buff', f'⟩, hname, h⟩ := bind_eq_ok.1 h
      obtain ⟨g', hrest, h⟩ := bind_eq_ok.1 h
      obtain ⟨hshort, rfl, q', rfl⟩ := getSymName_ok hname
      obtain ⟨hshorts, rfl⟩ := ih.1 hrest
      cases h
      exact ⟨⟨hshort, hshorts⟩, rfl⟩
    · rintro ⟨⟨hshort, hshorts⟩, rfl⟩
      obtain ⟨⟨name, buff', f'⟩, hr⟩ := getSymName_returns hshort (fun _ => 0) buff q
      obtain ⟨-, rfl, q', rfl⟩ := getSymName_ok hr
      refine bind_eq_ok.2 ⟨_, hr, ?_⟩
      exact bind_eq_ok.2 ⟨_, ih.2 ⟨hshorts, rfl⟩, rfl⟩

theorem fseek_header : fseek (f.seek 52) (tableAt f + (((ehdr f 0).eShnum : ℤ) - 3) * 40) =
    f.seek (codeHdr f) := by
  rw [fseek, codeHdr]
  by_cases h : 0 ≤ (tableAt f : ℤ) + (((ehdr f 0).eShnum : ℤ) - 3) * 40
  · rw [if_pos h, if_pos h]
    rfl
  · rw [if_neg h, if_neg h]

theorem loadElf_eq_ok (hsize : 52 ≤ f.size) {g : List FuncSym} :
    loadElf f = .ok g ↔ codeHdr f + 80 ≤ f.size ∧
      (symCount (codeSymtab f) = 0 ∨
        (codeSymtab f).shOffset.toNat + 16 * symCount (codeSymtab f) ≤ f.size) ∧
      (∀ s ∈ codeSyms f, ShortAt f (namePos f s)) ∧
      g = (codeSyms f).map fun s => { s.entry with name := field 20 f.byte (namePos f s) } := by
  have hcount : ([] : List FuncSym).length + symCount (codeSymtab f) ≤ MAX_func_size := by
    have := (codeSymtab f).shSize.isLt
    unfold symCount MAX_func_size
    rw [List.length_nil]
    omega
  constructor
  · intro h
    obtain ⟨_, hread, h⟩ := bind_eq_ok.1 h
    obtain ⟨-, rfl⟩ := fread_eq_ok.1 hread
    obtain ⟨_, hread, h⟩ := bind_eq_ok.1 h
    change fread 40 shdr (fseek (f.seek 52) (tableAt f + (((ehdr f 0).eShnum : ℤ) - 3) * 40)) = _
      at hread
    rw [fseek_header] at hread
    obtain ⟨-, rfl⟩ := fread_eq_ok.1 hread
    obtain ⟨_, hread, h⟩ := bind_eq_ok.1 h
    obtain ⟨hin, rfl⟩ := fread_eq_ok.1 hread
    obtain ⟨_, hread, h⟩ := bind_eq_ok.1 h
    obtain ⟨hsyms, rfl⟩ := (readSymbols_eq_ok (f := f) hcount).1 hread
    obtain ⟨hshort, hg⟩ := readNames_eq_ok.1 h
    exact ⟨by omega, hsyms, hshort, hg⟩
  · rintro ⟨hin, hsyms, hshort, hg⟩
    refine bind_eq_ok.2 ⟨_, fread_ok (p := 0) (by omega), ?_⟩
    refine bind_eq_ok.2 ⟨_, (congrArg (fread 40 shdr) fseek_header).trans (fread_ok (by omega)), ?_⟩
    refine bind_eq_ok.2 ⟨_, fread_ok (by omega), ?_⟩
    refine bind_eq_ok.2 ⟨_, (readSymbols_eq_ok (f := f) hcount).2 ⟨hsyms, rfl⟩, ?_⟩
    exact readNames_eq_ok.2 ⟨hshort, hg⟩

end Tables

/-- The comparison of the source, whose end is a word. -/
def Func.within (s : Func) (pc : Word) : Bool := decide (s.value ≤ pc ∧ pc < s.value + s.size)

theorem Func.within_iff (s : Func) (pc : Word) :
    s.within pc = true ↔ s.covers pc = true ∧ s.value.toNat + s.size.toNat < 2 ^ 32 := by
  have hs := s.size.isLt
  unfold Func.within Func.covers
  rw [decide_eq_true_iff, decide_eq_true_iff, BitVec.le_def, BitVec.lt_def, BitVec.toNat_add]
  constructor
  · rintro ⟨hlo, hhi⟩
    by_cases hsum : s.value.toNat + s.size.toNat < 2 ^ 32
    · rw [Nat.mod_eq_of_lt hsum] at hhi
      exact ⟨⟨hlo, hhi⟩, hsum⟩
    · -- an end behind the address space comes before the start
      have hv := s.value.isLt
      rw [Nat.mod_eq_sub_mod (by omega), Nat.mod_eq_of_lt (by omega)] at hhi
      omega
  · rintro ⟨⟨hlo, hhi⟩, hsum⟩
    rw [Nat.mod_eq_of_lt hsum]
    exact ⟨hlo, hhi⟩

theorem checkFuncInterval_eq_ok {g : List FuncSym} {pc : Word} {i : ℕ} :
    checkFuncInterval g pc = .ok i ↔
      (g.map FuncSym.func).findIdx? (·.within pc) = some i := by
  rw [List.findIdx?_map]
  change _ ↔ g.findIdx? (fun s => decide (s.value ≤ pc ∧ pc < s.value + s.size)) = some i
  unfold checkFuncInterval
  cases g.findIdx? fun s => decide (s.value ≤ pc ∧ pc < s.value + s.size) with
  | none => exact ⟨fun h => (nomatch h), fun h => (nomatch h)⟩
  | some j =>
    exact ⟨fun h => congrArg some (Except.ok.inj h), fun h => congrArg _ (Option.some.inj h)⟩

theorem findIdx_stronger {α : Type} {l : List α} {p q : α → Bool} {i : ℕ}
    (hpq : ∀ a, q a = true → p a = true) (hp : l.findIdx? p = some i) :
    l.findIdx? q = some i ↔ ∀ a, l[i]? = some a → q a = true := by
  obtain ⟨hi, -, hbefore⟩ := List.findIdx?_eq_some_iff_getElem.1 hp
  rw [List.findIdx?_eq_some_iff_getElem]
  constructor
  · rintro ⟨_, hq, _⟩ a ha
    rw [List.getElem?_eq_getElem hi] at ha
    exact Option.some.inj ha ▸ hq
  · intro hq
    refine ⟨hi, hq _ (List.getElem?_eq_getElem hi), fun j hj hqj => ?_⟩
    exact hbefore j hj (hpq _ hqj)

theorem checkFuncInterval_first {g : List FuncSym} {fs : List Func} (hfs : g.map FuncSym.func = fs)
    {pc : Word} {i : ℕ} (hfirst : fs.findIdx? (·.covers pc) = some i) :
    checkFuncInterval g pc = .ok i ↔
      ∀ s, fs[i]? = some s → s.value.toNat + s.size.toNat < 2 ^ 32 := by
  rw [checkFuncInterval_eq_ok, hfs]
  refine (findIdx_stronger (fun s hs => ((Func.within_iff s pc).1 hs).1) hfirst).trans ?_
  obtain ⟨hi, hcov, -⟩ := List.findIdx?_eq_some_iff_getElem.1 hfirst
  refine forall₂_congr fun s hs => ?_
  rw [List.getElem?_eq_getElem hi] at hs
  rw [Option.some.inj hs] at hcov
  exact (Func.within_iff s pc).trans (and_iff_right hcov)

theorem loads_iff_readable {f : File} {k : ℕ} (hwf : WellFormed f k) :
    Loads f k ↔ Readable f k := by
  have hmap : ∀ ss : List Sym, (ss.map fun s =>
      { s.entry with name := field 20 f.byte (namePos f s) }).map FuncSym.func =
      ss.map fun s => ⟨s.stValue, s.stSize, field 20 f.byte (namePos f s)⟩ := fun ss => List.map_map
  constructor
  · rintro ⟨g, hload, hsame, hfind⟩
    obtain ⟨hheaders, hsyms, hshort, rfl⟩ := (loadElf_eq_ok hwf.header).1 hload
    rw [hmap] at hsame
    refine ⟨hheaders, hsyms, hshort, hsame, fun pc i s hfirst => ?_⟩
    exact (checkFuncInterval_first ((hmap _).trans hsame) hfirst).1 (hfind pc i hfirst) s
  · intro h
    have hsame := (hmap (codeSyms f)).trans h.same
    refine ⟨_, (loadElf_eq_ok hwf.header).2 ⟨h.headers, h.symbols, h.short, rfl⟩, hsame, ?_⟩
    intro pc i hfirst
    exact (checkFuncInterval_first hsame hfirst).2 fun s => h.ends pc i s hfirst

/-- The layout that the distance presupposes: the symbol table is third from the end of the table,
its string table comes next, and the offsets of the strings are words. -/
structure Layout (f : File) (k : ℕ) : Prop where
  third : (ehdr f 0).eShnum = k + 3
  next : (sectionHdr f k).shLink.toNat = k + 1
  strings : (linked f k).shOffset.toNat + (linked f k).shSize.toNat ≤ 2 ^ 32

/-- What the names and the intervals have to be there. -/
structure Fits (f : File) (k : ℕ) : Prop where
  short : ∀ s ∈ funcSyms f (sectionHdr f k).shOffset.toNat (symCount (sectionHdr f k)),
    ShortAt f ((linked f k).shOffset.toNat + s.stName.toNat)
  first : elfFuncs f k = [] ∨ f.byte (linked f k).shOffset.toNat = 0
  ends : ∀ pc i s, (elfFuncs f k).findIdx? (·.covers pc) = some i → (elfFuncs f k)[i]? = some s →
    s.value.toNat + s.size.toNat < 2 ^ 32

namespace Layout

variable {f : File} {k : ℕ}

theorem codeHdr_eq (h : Layout f k) : codeHdr f = tableAt f + 40 * k := by
  have hpos : (tableAt f : ℤ) + (((ehdr f 0).eShnum : ℤ) - 3) * 40 =
      ((tableAt f + 40 * k : ℕ) : ℤ) := by
    rw [h.third]
    push_cast
    ring
  rw [codeHdr, hpos]
  exact if_pos (Int.natCast_nonneg _)

theorem codeSymtab_eq (h : Layout f k) : codeSymtab f = sectionHdr f k := by
  rw [codeSymtab, h.codeHdr_eq, sectionHdr]

theorem codeStrtab_eq (h : Layout f k) : codeStrtab f = linked f k := by
  rw [codeStrtab, h.codeHdr_eq, linked, h.next, sectionHdr]
  exact congrArg (shdr f) (by ring)

theorem codeSyms_eq (h : Layout f k) :
    codeSyms f = funcSyms f (sectionHdr f k).shOffset.toNat (symCount (sectionHdr f k)) := by
  rw [codeSyms, h.codeSymtab_eq]

theorem namePos_eq (h : Layout f k) (hwf : WellFormed f k) {s : Sym} (hs : s ∈ codeSyms f) :
    namePos f s = (linked f k).shOffset.toNat + s.stName.toNat := by
  rw [h.codeSyms_eq] at hs
  have hin := h.strings
  have hoff := (linked f k).shOffset.isLt
  rw [namePos, h.codeStrtab_eq, BitVec.toNat_add]
  refine Nat.mod_eq_of_lt ?_
  rcases hwf.names s hs with h0 | hlt
  · rw [h0]
    exact hoff
  · rw [BitVec.lt_def] at hlt
    omega

/-- The name that is read is the name of the symbol, unless that is the empty one and the strings
begin with another byte than zero. -/
theorem name_eq_iff (h : Layout f k) (hwf : WellFormed f k) {s : Sym} (hs : s ∈ codeSyms f) :
    field 20 f.byte (namePos f s) = symName f (linked f k) s.stName ↔
      f.byte (linked f k).shOffset.toNat = 0 := by
  have hpos := h.namePos_eq hwf hs
  rw [hpos, symName]
  split_ifs with h0
  · rw [h0]
    exact field_eq_zero_iff f.byte (by decide)
  · refine ⟨fun _ => (hwf.ended fun hstr => ?_).1, fun _ => rfl⟩
    rw [h.codeSyms_eq] at hs
    rcases hwf.names s hs with hz | hlt
    · exact h0 hz
    · rw [hstr] at hlt
      exact absurd hlt (BitVec.not_lt_zero)

theorem readable_iff (h : Layout f k) (hwf : WellFormed f k) : Readable f k ↔ Fits f k := by
  have hshort : (∀ s ∈ codeSyms f, ShortAt f (namePos f s)) ↔
      ∀ s ∈ funcSyms f (sectionHdr f k).shOffset.toNat (symCount (sectionHdr f k)),
        ShortAt f ((linked f k).shOffset.toNat + s.stName.toNat) := by
    rw [← h.codeSyms_eq]
    exact forall₂_congr fun s hs => by rw [h.namePos_eq hwf hs]
  have hsame : (codeSyms f).map (fun s => ⟨s.stValue, s.stSize, field 20 f.byte (namePos f s)⟩) =
      elfFuncs f k ↔ elfFuncs f k = [] ∨ f.byte (linked f k).shOffset.toNat = 0 := by
    rw [elfFuncs, ← h.codeSyms_eq, List.map_inj_left, List.map_eq_nil_iff]
    have hname : ∀ s ∈ codeSyms f, (Func.mk s.stValue s.stSize (field 20 f.byte (namePos f s)) =
        ⟨s.stValue, s.stSize, symName f (linked f k) s.stName⟩ ↔
          f.byte (linked f k).shOffset.toNat = 0) := fun s hs => by
      rw [Func.mk.injEq, ← h.name_eq_iff hwf hs]
      exact ⟨fun he => he.2.2, fun he => ⟨rfl, rfl, he⟩⟩
    constructor
    · intro hall
      rcases (codeSyms f).eq_nil_or_concat with hnil | ⟨l, s, hl⟩
      · exact .inl hnil
      · have hs : s ∈ codeSyms f := by simp [hl]
        exact .inr ((hname s hs).1 (hall s hs))
    · rintro (hnil | hzero) s hs
      · rw [hnil] at hs
        cases hs
      · exact (hname s hs).2 hzero
  constructor
  · intro hr
    exact ⟨hshort.1 hr.short, hsame.1 hr.same, hr.ends⟩
  · intro hf
    refine ⟨?_, ?_, hshort.2 hf.short, hsame.2 hf.first, hf.ends⟩
    · have hin := hwf.table.2
      rw [shnum, h.third, if_neg (Nat.succ_ne_zero _)] at hin
      rw [h.codeHdr_eq]
      omega
    · have hin := hwf.symbols
      rw [h.codeSymtab_eq]
      unfold symCount
      omega

end Layout

/-- A well-formed file of the usual layout is loaded and its functions are found if the names and
the intervals fit, and only then. -/
theorem loads_of_layout {f : File} {k : ℕ} (hwf : WellFormed f k) :
    (Layout f k ∧ Fits f k → Loads f k) ∧ (Layout f k → Loads f k → Fits f k) := by
  have hiff (h : Layout f k) := (loads_iff_readable hwf).trans (h.readable_iff hwf)
  exact ⟨fun h => (hiff h.1).2 h.2, fun h => (hiff h).1⟩

def le (n v : ℕ) : List Byte := (List.range n).map fun k => BitVec.ofNat 8 (v >>> (8 * k))

def shdrBytes (name type offset size link info entsize : ℕ) : List Byte :=
  le 4 name ++ le 4 type ++ le 4 0 ++ le 4 0 ++ le 4 offset ++ le 4 size ++ le 4 link ++ le 4 info ++
    le 4 1 ++ le 4 entsize

/-- A file with one function of this name, of eight bytes at the start of the memory. -/
def oneFunction (name : List Byte) : List Byte :=
  let n := name.length
  let pad := (4 - (113 + n) % 4) % 4
  [0x7f, 0x45, 0x4c, 0x46, 1, 1, 1] ++ List.replicate 9 0 ++ le 2 2 ++ le 2 243 ++ le 4 1 ++
    le 4 0x80000000 ++ le 4 0 ++ le 4 (113 + n + pad) ++ le 4 0 ++ le 2 52 ++ le 2 0 ++ le 2 0 ++
    le 2 40 ++ le 2 4 ++ le 2 3 ++
  -- the symbol table
  List.replicate 16 0 ++ le 4 1 ++ le 4 0x80000000 ++ le 4 8 ++ [0x12, 0] ++ le 2 0xfff1 ++
  -- its strings
  [0] ++ name ++ [0] ++
  -- the names of the sections
  [0, 0x2e, 0x73, 0x79, 0x6d, 0x74, 0x61, 0x62, 0, 0x2e, 0x73, 0x74, 0x72, 0x74, 0x61, 0x62, 0,
    0x2e, 0x73, 0x68, 0x73, 0x74, 0x72, 0x74, 0x61, 0x62, 0] ++ List.replicate pad 0 ++
  -- the table
  shdrBytes 0 0 0 0 0 0 0 ++ shdrBytes 1 2 52 32 2 1 16 ++ shdrBytes 9 3 84 (n + 2) 0 0 0 ++
    shdrBytes 17 3 (86 + n) 27 0 0 0

def fileOf (bytes : List Byte) : File := ⟨fun i => bytes.getD i 0, bytes.length, 0⟩

def mainFile : File := fileOf (oneFunction [0x6d, 0x61, 0x69, 0x6e])

def longFile : File := fileOf (oneFunction (List.replicate 20 0x61))

theorem mainFile_wellFormed : WellFormed mainFile 1 where
  ident := by decide +kernel
  header := by decide +kernel
  shentsize := by decide +kernel
  table := by decide +kernel
  index := by decide +kernel
  unique := by decide +kernel
  entries := by decide +kernel
  symbols := by decide +kernel
  link := by decide +kernel
  strings := by decide +kernel
  ended := by decide +kernel
  names := by decide +kernel

theorem longFile_wellFormed : WellFormed longFile 1 where
  ident := by decide +kernel
  header := by decide +kernel
  shentsize := by decide +kernel
  table := by decide +kernel
  index := by decide +kernel
  unique := by decide +kernel
  entries := by decide +kernel
  symbols := by decide +kernel
  link := by decide +kernel
  strings := by decide +kernel
  ended := by decide +kernel
  names := by decide +kernel

theorem mainFile_layout : Layout mainFile 1 where
  third := by decide +kernel
  next := by decide +kernel
  strings := by decide +kernel

theorem mainFile_fits : Fits mainFile 1 where
  short := by decide +kernel
  first := by decide +kernel
  ends := by
    have hends : ∀ s ∈ elfFuncs mainFile 1, s.value.toNat + s.size.toNat < 2 ^ 32 := by
      decide +kernel
    exact fun _ _ s _ hs => hends s (List.mem_of_getElem? hs)

theorem loads_of_layout_main : Loads mainFile 1 :=
  (loads_of_layout mainFile_wellFormed).1 ⟨mainFile_layout, mainFile_fits⟩

/-- A name of twenty bytes leaves no room for its zero. -/
theorem loadElf_longFile :
    (match loadElf longFile with
      | .ok _ => false
      | .error e => e == .outside) = true := by
  decide +kernel

theorem not_loads : ¬ ∀ f k, WellFormed f k → Loads f k := by
  intro h
  obtain ⟨g, hg, -⟩ := h longFile 1 longFile_wellFormed
  have hlong := loadElf_longFile
  rw [hg] at hlong
  cases hlong

end Ysyx.Nemu.Ftrace
