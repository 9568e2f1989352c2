import Ysyx.Kconfig.Menu

/-! The `.config` file: `conf_write_symbol` and `conf_read_simple`. What is written is read back. -/

namespace Ysyx.Kconfig

def escape (str : List Char) : List Char :=
  str.flatMap fun c => if c = '\x22' ∨ c = '\\' then ['\\', c] else [c]

def symEscapeStringValue (str : List Char) : List Char := '\x22' :: (escape str ++ ['\x22'])

/-- The reader looks at what is behind the end of a string. -/
inductive ReadFault
  | outside
  deriving DecidableEq, Repr

/-- The loop of `conf_set_sym_val()` over a quoted string: up to the closing quote, if there is
one. A backslash at the end is skipped together with the end. -/
def unquote : List Char → Except ReadFault (Option (List Char))
  | [] => .ok none
  | [c] =>
    if c = '\x22' then .ok (some [])
    else if c = '\\' then .error .outside
    else .ok none
  | c :: d :: cs =>
    if c = '\x22' then .ok (some [])
    else if c = '\\' then (unquote cs).map (Option.map (d :: ·))
    else (unquote (d :: cs)).map (Option.map (c :: ·))

def skipMinus (str : List Char) : List Char := if str.head? = some '-' then str.tail else str

def skipPrefix (str : List Char) : List Char :=
  if str.head? = some '0' ∧ (str[1]? = some 'x' ∨ str[1]? = some 'X') then str.drop 2 else str

def symStringValid (type : SymbolType) (str : List Char) : Bool :=
  match type with
  | .string => true
  | .int =>
    match skipMinus str with
    | [] => false
    | c :: cs => isDigit 10 c && (c ≠ '0' || cs = []) && cs.all (isDigit 10)
  | .hex => skipPrefix str ≠ [] && (skipPrefix str).all (isDigit 16)
  | .boolean | .tristate => str.head?.any fun c => c ∈ ['y', 'Y', 'm', 'M', 'n', 'N']
  | .unknown => false

/-- `sym->def[S_DEF_USER]`, with its flag in `sym->flags`. -/
structure Def (σ : Type) where
  tri : Tristate
  val : Option (List Char)
  /-- the symbol that a choice has in place of a string -/
  chosen : Option σ
  set : Bool

/-- The symbols by name, and the choices with their values. -/
structure Config (σ : Type) where
  find : List Char → Option σ
  isChoice : σ → Bool
  choiceOf : σ → Option σ
  isChoice_of : ∀ s cs, choiceOf s = some cs → isChoice cs = true

theorem Config.ne_choice {σ : Type} (C : Config σ) {s t cs : σ} (ht : C.isChoice t = false)
    (hcs : C.choiceOf s = some cs) : t ≠ cs := by
  rintro rfl
  rw [C.isChoice_of s t hcs] at ht
  cases ht

/-- `#define CONFIG_ "CONFIG_"` -/
def CONFIG : List Char := ['C', 'O', 'N', 'F', 'I', 'G', '_']

def isNotSet : List Char := ['i', 's', ' ', 'n', 'o', 't', ' ', 's', 'e', 't']

/-- `strchr()`: what is in front of the character and what is behind it. -/
def cutAt (c : Char) : List Char → Option (List Char × List Char)
  | [] => none
  | x :: xs => if x = c then some ([], xs) else (cutAt c xs).map fun p => (x :: p.1, p.2)

/-- What a line has in front of its end, which may be `\r\n`. -/
def cutLine (p : List Char) : List Char :=
  match cutAt '\n' p with
  | some (text, _) => if text.getLast? = some '\r' then text.dropLast else text
  | none => p

section Reader

variable {σ : Type}

/-- The value of a symbol of a bool or tristate type, by its first letter. -/
def Def.letter (d : Def σ) (tristate : Bool) : List Char → Option (Def σ)
  | 'm' :: _ => if tristate then some { d with tri := .mod, set := true } else none
  | 'y' :: _ => some { d with tri := .yes, set := true }
  | 'n' :: _ => some { d with tri := .no, set := true }
  | _ => none

def Def.keep (d : Def σ) (type : SymbolType) (p : List Char) : Option (Def σ) :=
  if symStringValid type p then some { d with val := some p, set := true } else none

/-- `conf_set_sym_val()`: nothing where it returns 1. -/
def confSetSymVal (type : SymbolType) (d : Def σ) (p : List Char) :
    Except ReadFault (Option (Def σ)) :=
  match type with
  | .tristate => .ok (d.letter true p)
  | .boolean => .ok (d.letter false p)
  | .string =>
    match p with
    | '\x22' :: p => (unquote p).map (Option.bind · (d.keep .string))
    | _ => .ok (some d)
  | .int | .hex => .ok (d.keep type p)
  | .unknown => .ok (some d)

/-- What the definition of a choice becomes with that of one of its values. -/
def Def.choice (cs : Def σ) (s : σ) (d : Def σ) : Def σ :=
  match d.tri with
  | .no => cs
  | .mod => { cs with tri := max cs.tri .mod, set := cs.set && cs.tri ≠ .yes }
  | .yes => { cs with tri := .yes, chosen := some s }

variable [DecidableEq σ] (S : Symbols σ) (C : Config σ)

def store (defs : σ → Def σ) (s : σ) (d : Def σ) : σ → Def σ :=
  let defs := Function.update defs s d
  match C.choiceOf s with
  | none => defs
  | some cs => Function.update defs cs ((defs cs).choice s (defs s))

/-- The body of the loop of `conf_read_simple()`, over one line of the file. -/
def confReadLine (defs : σ → Def σ) (line : List Char) : Except ReadFault (σ → Def σ) :=
  if line.head? = some '#' then
    if line.length = 1 then .error .outside
    else if CONFIG.isPrefixOf (line.drop 2) then
      match cutAt ' ' (line.drop (2 + CONFIG.length)) with
      | none => .ok defs
      | some (name, p) =>
        if isNotSet.isPrefixOf p then
          match C.find name with
          | none => .ok defs
          | some s =>
            .ok (store C defs s (if S.type s = .boolean ∨ S.type s = .tristate
              then { defs s with tri := .no, set := true } else defs s))
        else .ok defs
    else .ok defs
  else if CONFIG.isPrefixOf line then
    match cutAt '=' (line.drop CONFIG.length) with
    | none => .ok defs
    | some (name, p) =>
      match C.find name with
      | none => .ok defs
      | some s =>
        (confSetSymVal (S.type s) (defs s) (cutLine p)).map fun
          | none => defs
          | some d => store C defs s d
  else .ok defs

/-- `compat_getline()` until the end: the lines, each with its `\n`. -/
def fileLines : List Char → List (List Char)
  | [] => []
  | c :: cs =>
    if c = '\n' then [c] :: fileLines cs
    else
      match fileLines cs with
      | [] => [[c]]
      | l :: ls => (c :: l) :: ls

def cleared (s : σ) : Def σ := ⟨.no, none, none, C.isChoice s⟩

def confReadLines (defs : σ → Def σ) : List (List Char) → Except ReadFault (σ → Def σ)
  | [] => .ok defs
  | line :: lines => (confReadLine S C defs line).bind fun defs => confReadLines defs lines

/-- `conf_read_simple()` of the file the user configures -/
def confReadSimple (file : List Char) : Except ReadFault (σ → Def σ) :=
  confReadLines S C (cleared C) (fileLines file)

end Reader

section Writer

variable {σ : Type} {S : Symbols σ} (V : Values S)

/-- `kconfig_print_symbol()`, which leaves no unset symbol out here. -/
def kconfigPrintSymbol (S : Symbols σ) (s : σ) (value : List Char) : List Char :=
  if (S.type s = .boolean ∨ S.type s = .tristate) ∧ value.head? = some 'n' then
    ['#', ' '] ++ CONFIG ++ S.name s ++ ' ' :: isNotSet ++ ['\n']
  else CONFIG ++ S.name s ++ '=' :: value ++ ['\n']

def confWriteSymbol (s : σ) : List Char :=
  match S.type s with
  | .unknown => []
  | .string => kconfigPrintSymbol S s (symEscapeStringValue (symGetStringValue V s))
  | _ => kconfigPrintSymbol S s (symGetStringValue V s)

/-- What `conf_write()` comes to in its walk: a symbol, or a line about the menus. -/
inductive ConfItem (σ : Type)
  | sym (s : σ)
  | text (line : List Char)

def confWrite : List (ConfItem σ) → List Char
  | [] => []
  | .sym s :: items => confWriteSymbol V s ++ confWrite items
  | .text line :: items => line ++ '\n' :: confWrite items

end Writer

theorem unquote_escape (str rest : List Char) :
    unquote (escape str ++ '\x22' :: rest) = .ok (some str) := by
  induction str with
  | nil => cases rest <;> simp [escape, unquote]
  | cons c str ih =>
    by_cases hc : c = '\x22' ∨ c = '\\'
    · have hcons : escape (c :: str) ++ '\x22' :: rest =
          '\\' :: c :: (escape str ++ '\x22' :: rest) := by simp [escape, hc]
      rw [hcons, unquote, if_neg (by decide), if_pos rfl, ih]
      rfl
    · have hcons : escape (c :: str) ++ '\x22' :: rest = c :: (escape str ++ '\x22' :: rest) := by
        simp [escape, hc]
      rw [not_or] at hc
      have hne : escape str ++ '\x22' :: rest ≠ [] := by simp
      obtain ⟨d, cs, hd⟩ := List.exists_cons_of_ne_nil hne
      rw [hcons, hd, unquote, if_neg hc.1, if_neg hc.2, ← hd, ih]
      rfl

theorem cutAt_append {c : Char} {text : List Char} (h : c ∉ text) (rest : List Char) :
    cutAt c (text ++ c :: rest) = some (text, rest) := by
  induction text with
  | nil => simp [cutAt]
  | cons x xs ih =>
    rw [List.mem_cons, not_or] at h
    rw [List.cons_append, cutAt, if_neg (Ne.symm h.1), ih h.2]
    rfl

theorem fileLines_append {line : List Char} (h : '\n' ∉ line) (rest : List Char) :
    fileLines (line ++ '\n' :: rest) = (line ++ ['\n']) :: fileLines rest := by
  induction line with
  | nil => simp [fileLines]
  | cons c line ih =>
    rw [List.mem_cons, not_or] at h
    rw [List.cons_append, fileLines, if_neg (Ne.symm h.1), ih h.2]
    rfl

def OneLine (text : List Char) : Prop := '\n' ∉ text ∧ text.getLast? ≠ some '\r'

theorem cutLine_append {text : List Char} (h : OneLine text) : cutLine (text ++ ['\n']) = text := by
  rw [cutLine, cutAt_append h.1]
  exact if_neg h.2

theorem oneLine_of_forall {text : List Char} (h : ∀ c ∈ text, c ≠ '\n' ∧ c ≠ '\r') : OneLine text :=
  ⟨fun hc => (h _ hc).1 rfl, fun hl => (h _ (List.mem_of_getLast? hl)).2 rfl⟩

theorem oneLine_letter {c : Char} (hc : c ≠ '\n' ∧ c ≠ '\r') : OneLine [c] :=
  oneLine_of_forall (by simpa using hc)

theorem digit_oneLine {base : ℕ} {c : Char} (h : isDigit base c = true) : c ≠ '\n' ∧ c ≠ '\r' := by
  constructor
  · rintro rfl
    rw [isDigit, show digit '\n' = none by decide] at h
    cases h
  · rintro rfl
    rw [isDigit, show digit '\r' = none by decide] at h
    cases h

theorem mem_skipMinus {str : List Char} {c : Char} (h : c ∈ str) : c = '-' ∨ c ∈ skipMinus str := by
  cases str with
  | nil => cases h
  | cons d str =>
    rw [skipMinus, List.head?_cons]
    split_ifs with hd
    · cases hd
      exact List.mem_cons.mp h
    · exact .inr h

theorem mem_skipPrefix {str : List Char} {c : Char} (h : c ∈ str) :
    c = '0' ∨ c = 'x' ∨ c = 'X' ∨ c ∈ skipPrefix str := by
  rw [skipPrefix]
  split_ifs with hd
  · obtain ⟨h0, hx⟩ := hd
    cases str with
    | nil => cases h
    | cons a str =>
      cases str with
      | nil => simp at hx
      | cons b str =>
        simp only [List.head?_cons, List.getElem?_cons_succ, List.getElem?_cons_zero,
          Option.some.injEq] at h0 hx
        simp only [List.mem_cons] at h
        obtain rfl | rfl | h := h
        · exact .inl h0
        · exact hx.elim (.inr ∘ .inl) (.inr ∘ .inr ∘ .inl)
        · exact .inr (.inr (.inr h))
  · exact .inr (.inr (.inr h))

theorem oneLine_of_valid {type : SymbolType} {str : List Char} (ht : type = .int ∨ type = .hex)
    (h : symStringValid type str = true) : OneLine str := by
  apply oneLine_of_forall
  intro c hc
  obtain rfl | rfl := ht
  · obtain rfl | hc := mem_skipMinus hc
    · decide
    · rw [symStringValid] at h
      cases hs : skipMinus str with
      | nil => rw [hs] at hc; cases hc
      | cons d ds =>
        rw [hs] at h hc
        simp only [Bool.and_eq_true, List.all_eq_true] at h
        obtain rfl | hc := List.mem_cons.mp hc
        · exact digit_oneLine h.1.1
        · exact digit_oneLine (h.2 c hc)
  · obtain rfl | rfl | rfl | hc := mem_skipPrefix hc
    · decide
    · decide
    · decide
    · rw [symStringValid, Bool.and_eq_true, List.all_eq_true] at h
      exact digit_oneLine (h.2 c hc)

theorem oneLine_escape {str : List Char} (h : '\n' ∉ str) : OneLine (symEscapeStringValue str) := by
  constructor
  · intro hc
    simp only [symEscapeStringValue, escape, List.mem_cons, List.mem_append, List.mem_flatMap,
      List.not_mem_nil, or_false] at hc
    obtain hc | ⟨d, hd, hc⟩ | hc := hc
    · revert hc
      decide
    · split_ifs at hc with hq
      · rw [List.mem_cons, List.mem_singleton] at hc
        obtain hc | rfl := hc
        · revert hc
          decide
        · exact h hd
      · rw [List.mem_singleton] at hc
        rw [← hc] at hd
        exact h hd
    · revert hc
      decide
  · rw [symEscapeStringValue, ← List.cons_append, List.getLast?_concat]
    decide

section Lines

variable {σ : Type} {S : Symbols σ} {C : Config σ} {V : Values S} {defs : σ → Def σ} {s : σ}

/-- A symbol whose line can be read: it has a type, a word for a name by which it is found, no end of
a line in a string, and a number for a number. -/
structure Readable (C : Config σ) (V : Values S) (s : σ) : Prop where
  type : S.type s ≠ .unknown
  found : C.find (S.name s) = some s
  word : ∀ c ∈ S.name s, c ≠ ' ' ∧ c ≠ '=' ∧ c ≠ '\n'
  string : S.type s = .string → '\n' ∉ V.val s
  number : S.type s = .int ∨ S.type s = .hex → symStringValid (S.type s) (V.val s) = true

def saved (V : Values S) (s : σ) (d : Def σ) : Def σ :=
  if S.type s = .boolean ∨ S.type s = .tristate then { d with tri := V.tri s, set := true }
  else { d with val := some (V.val s), set := true }

def Saved (V : Values S) (s : σ) (d : Def σ) : Prop :=
  d.set = true ∧
    if S.type s = .boolean ∨ S.type s = .tristate then d.tri = V.tri s else d.val = some (V.val s)

theorem saved_saved (V : Values S) (s : σ) (d : Def σ) : Saved V s (saved V s d) := by
  unfold Saved saved
  split_ifs
  · exact ⟨rfl, rfl⟩
  · exact ⟨rfl, rfl⟩

theorem confWrite_text (V : Values S) (line : List Char) (items : List (ConfItem σ)) :
    confWrite V (.text line :: items) = (line ++ ['\n']) ++ confWrite V items := by
  simp [confWrite]

def Chosen (s : σ) (d : Def σ) : Prop := d.tri = .yes ∧ d.chosen = some s

theorem choice_yes (cs : Def σ) {d : Def σ} (h : d.tri = .yes) : Chosen s (cs.choice s d) := by
  rw [Def.choice, h]
  exact ⟨rfl, rfl⟩

theorem choice_keeps {cs d : Def σ} {t : σ} (hcs : Chosen s cs) (h : d.tri ≠ .yes) :
    Chosen s (cs.choice t d) := by
  obtain ⟨htri, hchosen⟩ := hcs
  cases hd : d.tri with
  | no =>
    rw [Def.choice, hd]
    exact ⟨htri, hchosen⟩
  | mod =>
    rw [Def.choice, hd]
    exact ⟨by rw [htri]; rfl, hchosen⟩
  | yes => exact absurd hd h

theorem CONFIG_isPrefixOf (text : List Char) : CONFIG.isPrefixOf (CONFIG ++ text) = true := by
  simp [CONFIG, List.isPrefixOf]

theorem keep_valid {type : SymbolType} (d : Def σ) {str : List Char}
    (h : symStringValid type str = true) :
    d.keep type str = some { d with val := some str, set := true } := if_pos h

theorem not_mem_assign {value : List Char} (h : Readable C V s) (hv : '\n' ∉ value) :
    '\n' ∉ CONFIG ++ S.name s ++ '=' :: value := by
  have hname : '\n' ∉ S.name s := fun hc => (h.word _ hc).2.2 rfl
  simp [CONFIG, hname, hv]

variable [DecidableEq σ]

theorem read_assign (h : Readable C V s) {value : List Char} (hv : OneLine value) {d : Def σ}
    (hd : confSetSymVal (S.type s) (defs s) value = .ok (some d)) :
    confReadLine S C defs (CONFIG ++ S.name s ++ '=' :: value ++ ['\n']) =
      .ok (store C defs s d) := by
  have hname : '=' ∉ S.name s := fun hc => (h.word _ hc).2.1 rfl
  have hline : CONFIG ++ S.name s ++ '=' :: value ++ ['\n'] =
      CONFIG ++ (S.name s ++ '=' :: (value ++ ['\n'])) := by simp
  rw [hline, confReadLine, if_neg (by simp [CONFIG]), if_pos (CONFIG_isPrefixOf _),
    List.drop_left, cutAt_append hname]
  simp only [h.found, cutLine_append hv, hd]
  rfl

theorem read_unset (h : Readable C V s) (hs : S.type s = .boolean ∨ S.type s = .tristate)
    (defs : σ → Def σ) :
    confReadLine S C defs (['#', ' '] ++ CONFIG ++ S.name s ++ ' ' :: isNotSet ++ ['\n']) =
      .ok (store C defs s { defs s with tri := .no, set := true }) := by
  have hname : ' ' ∉ S.name s := fun hc => (h.word _ hc).1 rfl
  have hline : ['#', ' '] ++ CONFIG ++ S.name s ++ ' ' :: isNotSet ++ ['\n'] =
      '#' :: ' ' :: (CONFIG ++ (S.name s ++ ' ' :: (isNotSet ++ ['\n']))) := by simp
  have hdrop (text : List Char) : ('#' :: ' ' :: text).drop (2 + CONFIG.length) =
      text.drop CONFIG.length := by
    rw [← List.drop_drop, List.drop_succ_cons, List.drop_succ_cons, List.drop_zero]
  have hset : isNotSet.isPrefixOf (isNotSet ++ ['\n']) = true := by decide
  rw [hline, confReadLine, if_pos List.head?_cons, if_neg (by simp), List.drop_succ_cons,
    List.drop_succ_cons, List.drop_zero, if_pos (CONFIG_isPrefixOf _), hdrop, List.drop_left,
    cutAt_append hname]
  simp only [hset, if_true, h.found, hs]

/-- One line, and what reading it does. -/
def Reads (S : Symbols σ) (C : Config σ) (text : List Char) (f : (σ → Def σ) → σ → Def σ) : Prop :=
  ∃ line, text = line ++ ['\n'] ∧ '\n' ∉ line ∧
    ∀ defs, confReadLine S C defs (line ++ ['\n']) = .ok (f defs)

theorem reads_assign (h : Readable C V s) {value : List Char} (hv : OneLine value)
    (hn : ¬ ((S.type s = .boolean ∨ S.type s = .tristate) ∧ value.head? = some 'n'))
    (hd : ∀ d : Def σ, confSetSymVal (S.type s) d value = .ok (some (saved V s d))) :
    Reads S C (kconfigPrintSymbol S s value)
      fun defs => store C defs s (saved V s (defs s)) := by
  rw [kconfigPrintSymbol, if_neg hn]
  exact ⟨CONFIG ++ S.name s ++ '=' :: value, rfl, not_mem_assign h hv.1,
    fun defs => read_assign h hv (hd (defs s))⟩

theorem reads_unset (h : Readable C V s) (hs : S.type s = .boolean ∨ S.type s = .tristate)
    (hno : V.tri s = .no) :
    Reads S C (kconfigPrintSymbol S s ['n'])
      fun defs => store C defs s (saved V s (defs s)) := by
  have hname : '\n' ∉ S.name s := fun hc => (h.word _ hc).2.2 rfl
  rw [kconfigPrintSymbol, if_pos ⟨hs, rfl⟩]
  refine ⟨['#', ' '] ++ CONFIG ++ S.name s ++ ' ' :: isNotSet, rfl,
    by simp [CONFIG, isNotSet, hname], fun defs => ?_⟩
  have hsaved : saved V s (defs s) = { defs s with tri := .no, set := true } := by
    rw [saved, if_pos hs, hno]
  have hread := read_unset h hs defs
  rw [← hsaved] at hread
  exact hread

theorem reads_symbol (h : Readable C V s) :
    Reads S C (confWriteSymbol V s) fun defs => store C defs s (saved V s (defs s)) := by
  rw [confWriteSymbol, symGetStringValue]
  cases ht : S.type s with
  | unknown => exact absurd ht h.type
  | boolean =>
    cases hv : V.tri s with
    | no => exact reads_unset h (.inl ht) hv
    | mod => exact absurd hv (V.boolean s ht)
    | yes =>
      refine reads_assign h (oneLine_letter (c := 'y') (by decide)) (by simp) fun d => ?_
      simp [confSetSymVal, ht, Def.letter, saved, hv]
  | tristate =>
    cases hv : V.tri s with
    | no => exact reads_unset h (.inr ht) hv
    | mod =>
      rw [if_neg (V.tristate s ht hv)]
      refine reads_assign h (oneLine_letter (c := 'm') (by decide)) (by simp) fun d => ?_
      simp [confSetSymVal, ht, Def.letter, saved, hv]
    | yes =>
      refine reads_assign h (oneLine_letter (c := 'y') (by decide)) (by simp) fun d => ?_
      simp [confSetSymVal, ht, Def.letter, saved, hv]
  | int =>
    have hvalid := h.number (.inl ht)
    refine reads_assign h (oneLine_of_valid (.inl ht) hvalid) (by simp [ht]) fun d => ?_
    rw [ht] at hvalid
    simp [confSetSymVal, ht, keep_valid d hvalid, saved]
  | hex =>
    have hvalid := h.number (.inr ht)
    refine reads_assign h (oneLine_of_valid (.inr ht) hvalid) (by simp [ht]) fun d => ?_
    rw [ht] at hvalid
    simp [confSetSymVal, ht, keep_valid d hvalid, saved]
  | string =>
    refine reads_assign h (oneLine_escape (h.string ht)) (by simp [ht]) fun d => ?_
    have hunquote := unquote_escape (V.val s) []
    have hvalid : symStringValid .string (V.val s) = true := rfl
    have hkeep := keep_valid d hvalid
    simp only [confSetSymVal, ht, symEscapeStringValue, hunquote]
    simp [Except.map, hkeep, saved, ht]

/-- A line between the symbols, which the reader passes over. -/
def Remark (line : List Char) : Prop :=
  '\n' ∉ line ∧ (line = [] ∨ line.head? = some '#' ∧ CONFIG.isPrefixOf (line.drop 2 ++ ['\n']) = false)

theorem reads_remark {line : List Char} (h : Remark line) :
    Reads S C (line ++ ['\n']) fun defs => defs := by
  refine ⟨line, rfl, h.1, fun defs => ?_⟩
  obtain rfl | ⟨hhead, hno⟩ := h.2
  · rfl
  · cases line with
    | nil => cases hhead
    | cons c line =>
      obtain rfl := Option.some.inj hhead
      rw [confReadLine, List.cons_append, if_pos List.head?_cons, if_neg (by simp)]
      cases line with
      | nil => rfl
      | cons d line =>
        rw [List.drop_succ_cons, List.drop_succ_cons, List.drop_zero] at hno
        rw [List.cons_append, List.drop_succ_cons, List.drop_succ_cons, List.drop_zero, hno]
        rfl

theorem store_same (hs : C.isChoice s = false) (d : Def σ) : store C defs s d s = d := by
  cases hcs : C.choiceOf s with
  | none =>
    simp only [store, hcs]
    exact Function.update_self ..
  | some cs =>
    have hne : s ≠ cs := C.ne_choice hs hcs
    simp only [store, hcs]
    rw [Function.update_of_ne hne, Function.update_self]

theorem store_other {t : σ} (ht : C.isChoice t = false) (hne : t ≠ s) (d : Def σ) :
    store C defs s d t = defs t := by
  cases hcs : C.choiceOf s with
  | none =>
    simp only [store, hcs]
    exact Function.update_of_ne hne ..
  | some cs =>
    have hne' : t ≠ cs := C.ne_choice ht hcs
    simp only [store, hcs]
    rw [Function.update_of_ne hne', Function.update_of_ne hne]

/-- A line of the file on its own. -/
theorem Reads.run {text rest : List Char} {f : (σ → Def σ) → σ → Def σ} (h : Reads S C text f) :
    confReadLines S C defs (fileLines (text ++ rest)) =
      confReadLines S C (f defs) (fileLines rest) := by
  obtain ⟨line, rfl, hline, hread⟩ := h
  rw [List.append_assoc, List.singleton_append, fileLines_append hline, confReadLines, hread]
  rfl

/-- What a file can be made of: the symbols of choices are bools or tristates. -/
def Item (C : Config σ) (V : Values S) : ConfItem σ → Prop
  | .sym s => Readable C V s ∧ C.isChoice s = false ∧
      ((C.choiceOf s).isSome → S.type s = .boolean ∨ S.type s = .tristate)
  | .text line => Remark line

/-- What the rest of a file leaves: the values of its symbols, and of the others what they were. -/
theorem read_items (items : List (ConfItem σ)) (hitems : ∀ i ∈ items, Item C V i)
    (defs : σ → Def σ) :
    ∃ defs', confReadLines S C defs (fileLines (confWrite V items)) = .ok defs' ∧
      ∀ s, C.isChoice s = false → (ConfItem.sym s ∈ items → Saved V s (defs' s)) ∧
        (ConfItem.sym s ∉ items → defs' s = defs s) := by
  induction items generalizing defs with
  | nil =>
    refine ⟨defs, rfl, fun s _ => ⟨fun hs => ?_, fun _ => rfl⟩⟩
    cases hs
  | cons i items ih =>
    have hi := hitems i List.mem_cons_self
    have hrest (j : ConfItem σ) (hj : j ∈ items) : Item C V j :=
      hitems j (List.mem_cons_of_mem i hj)
    cases i with
    | text line =>
      obtain ⟨defs', hrun, hdefs⟩ := ih hrest defs
      refine ⟨defs', ?_, fun s hs => ⟨fun hmem => ?_, fun hmem => ?_⟩⟩
      · rw [confWrite_text, (reads_remark hi).run, hrun]
      · obtain he | hmem := List.mem_cons.mp hmem
        · cases he
        · exact (hdefs s hs).1 hmem
      · exact (hdefs s hs).2 fun h => hmem (List.mem_cons_of_mem _ h)
    | sym t =>
      obtain ⟨hread, -, -⟩ := hi
      obtain ⟨defs', hrun, hdefs⟩ := ih hrest (store C defs t (saved V t (defs t)))
      refine ⟨defs', ?_, fun s hs => ⟨fun hmem => ?_, fun hmem => ?_⟩⟩
      · rw [confWrite, (reads_symbol hread).run, hrun]
      · by_cases hlater : ConfItem.sym s ∈ items
        · exact (hdefs s hs).1 hlater
        · obtain he | hmem := List.mem_cons.mp hmem
          · cases he
            rw [(hdefs t hs).2 hlater, store_same hs]
            exact saved_saved V t (defs t)
          · exact absurd hmem hlater
      · rw [List.mem_cons, not_or] at hmem
        have hne : s ≠ t := fun he => hmem.1 (congrArg ConfItem.sym he)
        rw [(hdefs s hs).2 hmem.2, store_other hs hne]

theorem store_choice {cs : σ} (hs : C.isChoice s = false) (hcs : C.choiceOf s = some cs)
    (d : Def σ) : store C defs s d cs = (defs cs).choice s d := by
  have hne : cs ≠ s := (C.ne_choice hs hcs).symm
  simp only [store, hcs]
  rw [Function.update_self, Function.update_self, Function.update_of_ne hne]

theorem store_other_choice {cs : σ} (hs : C.isChoice s = false) (hchoice : C.isChoice cs = true)
    (hcs : C.choiceOf s ≠ some cs) (d : Def σ) : store C defs s d cs = defs cs := by
  have hne : cs ≠ s := by
    rintro rfl
    rw [hs] at hchoice
    cases hchoice
  cases h : C.choiceOf s with
  | none =>
    simp only [store, h]
    exact Function.update_of_ne hne ..
  | some cs' =>
    have hne' : cs ≠ cs' := fun he => hcs (h.trans (congrArg some he.symm))
    simp only [store, h]
    rw [Function.update_of_ne hne', Function.update_of_ne hne]

/-- A choice that keeps the value it has, as long as the rest of the file has no other. -/
theorem read_choice {cs : σ} (hcs : C.choiceOf s = some cs) (hyes : V.tri s = .yes)
    (items : List (ConfItem σ)) (hitems : ∀ i ∈ items, Item C V i)
    (honly : ∀ t, ConfItem.sym t ∈ items → C.choiceOf t = some cs → V.tri t = .yes → t = s)
    {defs defs' : σ → Def σ}
    (hrun : confReadLines S C defs (fileLines (confWrite V items)) = .ok defs')
    (h : ConfItem.sym s ∈ items ∨ Chosen s (defs cs)) : Chosen s (defs' cs) := by
  induction items generalizing defs with
  | nil =>
    cases hrun
    obtain h | h := h
    · cases h
    · exact h
  | cons i items ih =>
    have hi := hitems i List.mem_cons_self
    have ih' := @ih (fun j hj => hitems j (List.mem_cons_of_mem i hj))
      fun t ht => honly t (List.mem_cons_of_mem i ht)
    cases i with
    | text line =>
      rw [confWrite_text, (reads_remark hi).run] at hrun
      refine ih' hrun (h.imp_left fun hmem => ?_)
      obtain he | hmem := List.mem_cons.mp hmem
      · cases he
      · exact hmem
    | sym t =>
      obtain ⟨hread, ht, htype⟩ := hi
      rw [confWrite, (reads_symbol hread).run] at hrun
      by_cases hct : C.choiceOf t = some cs
      · have hbool := htype (by rw [hct]; rfl)
        have htri : (saved V t (defs t)).tri = V.tri t := by rw [saved, if_pos hbool]
        have hstore : store C defs t (saved V t (defs t)) cs = _ := store_choice ht hct _
        by_cases hty : V.tri t = .yes
        · obtain rfl := honly t List.mem_cons_self hct hty
          refine ih' hrun (.inr ?_)
          rw [hstore]
          exact choice_yes _ (htri.trans hty)
        · refine ih' hrun ?_
          rw [hstore]
          refine h.imp (fun hmem => ?_) fun h => choice_keeps h (fun hc => hty (htri.symm.trans hc))
          obtain he | hmem := List.mem_cons.mp hmem
          · cases he
            exact absurd hyes hty
          · exact hmem
      · refine ih' hrun ?_
        rw [store_other_choice ht (C.isChoice_of s cs hcs) hct]
        refine h.imp_left fun hmem => ?_
        obtain he | hmem := List.mem_cons.mp hmem
        · cases he
          exact absurd hcs hct
        · exact hmem

/-- Reading the file that was written sets every symbol in it to the value it had, and leaves all
other symbols unset; a choice with one symbol in the file that is `y` gets that one. -/
theorem config_read_back (items : List (ConfItem σ)) (hitems : ∀ i ∈ items, Item C V i) :
    ∃ defs, confReadSimple S C (confWrite V items) = .ok defs ∧
      (∀ s, C.isChoice s = false → (ConfItem.sym s ∈ items → Saved V s (defs s)) ∧
        (ConfItem.sym s ∉ items → defs s = cleared C s)) ∧
      ∀ s cs, ConfItem.sym s ∈ items → C.choiceOf s = some cs → V.tri s = .yes →
        (∀ t, ConfItem.sym t ∈ items → C.choiceOf t = some cs → V.tri t = .yes → t = s) →
        Chosen s (defs cs) := by
  obtain ⟨defs, hrun, hdefs⟩ := read_items items hitems (cleared C)
  exact ⟨defs, hrun, hdefs, fun s cs hs hcs hyes honly =>
    read_choice hcs hyes items hitems honly hrun (.inl hs)⟩

end Lines

/-- The symbols that are declared with these types: bools that are on or off, and strings. -/
def Values.interned (type : List Char → SymbolType) (on : List Char → Bool)
    (val : List Char → List Char) : Values (Symbols.interned type) where
  tri s :=
    if s.1 then if s.2 = ['y'] then .yes else if s.2 = ['m'] then .mod else .no
    else if on s.2 then .yes else .no
  val s := if s.1 ∨ type s.2 = .unknown then s.2 else val s.2
  modules := .yes
  tri_of t := by cases t <;> rfl
  val_unknown s hs := by
    rw [Symbols.interned] at hs
    simp only at hs
    split_ifs at hs with h
    · exact if_pos (.inl h)
    · exact if_pos (.inr hs)
  boolean s hs := by
    rw [Symbols.interned] at hs
    simp only at hs
    split_ifs at hs with h
    rw [if_neg h]
    split_ifs <;> decide
  tristate _ _ _ := by decide

/-- Every name but the empty one is that of a symbol, and these are in a choice. -/
def Config.interned (members : List (List Char)) : Config (Bool × List Char) where
  find name := if name = [] then none else some (false, name)
  isChoice s := s = (false, [])
  choiceOf s := if s.1 = false ∧ s.2 ∈ members then some (false, []) else none
  isChoice_of s cs h := by
    split_ifs at h
    cases h
    rfl

/-- A choice of two bools, of which `A` is on, and a string with a quote in it. -/
theorem config_read_back_quoted :
    let S := Symbols.interned fun name => if name = ['S'] then .string else .boolean
    let V := Values.interned (fun name => if name = ['S'] then .string else .boolean)
      (fun name => name = ['A']) fun _ => ['a', '\x22']
    let C := Config.interned [['A'], ['B']]
    let items : List (ConfItem (Bool × List Char)) :=
      [.text ['#'], .sym (false, ['A']), .sym (false, ['B']), .text [], .sym (false, ['S'])]
    ∃ defs, confReadSimple S C (confWrite V items) = .ok defs ∧
      (∀ s, C.isChoice s = false → (ConfItem.sym s ∈ items → Saved V s (defs s)) ∧
        (ConfItem.sym s ∉ items → defs s = cleared C s)) ∧
      ∀ s cs, ConfItem.sym s ∈ items → C.choiceOf s = some cs → V.tri s = .yes →
        (∀ t, ConfItem.sym t ∈ items → C.choiceOf t = some cs → V.tri t = .yes → t = s) →
        Chosen s (defs cs) := by
  intro S V C items
  have hword (c : Char) (hc : c ≠ ' ' ∧ c ≠ '=' ∧ c ≠ '\n') :
      ∀ d ∈ [c], d ≠ ' ' ∧ d ≠ '=' ∧ d ≠ '\n' := by
    intro d hd
    rw [List.mem_singleton.mp hd]
    exact hc
  have hA : Readable C V (false, ['A']) :=
    ⟨by decide, rfl, hword 'A' (by decide), fun h => (by cases h),
      fun h => by obtain h | h := h <;> cases h⟩
  have hB : Readable C V (false, ['B']) :=
    ⟨by decide, rfl, hword 'B' (by decide), fun h => (by cases h),
      fun h => by obtain h | h := h <;> cases h⟩
  have hS : Readable C V (false, ['S']) :=
    ⟨by decide, rfl, hword 'S' (by decide), fun _ => by decide,
      fun h => by obtain h | h := h <;> cases h⟩
  refine config_read_back items fun i hi => ?_
  simp only [items, List.mem_cons, List.not_mem_nil, or_false] at hi
  obtain rfl | rfl | rfl | rfl | rfl := hi
  · exact ⟨by decide, .inr ⟨rfl, by decide⟩⟩
  · exact ⟨hA, rfl, fun _ => .inl rfl⟩
  · exact ⟨hB, rfl, fun _ => .inl rfl⟩
  · exact ⟨by decide, .inl rfl⟩
  · exact ⟨hS, rfl, fun h => nomatch h⟩

end Ysyx.Kconfig
