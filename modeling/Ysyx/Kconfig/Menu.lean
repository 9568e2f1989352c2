import Ysyx.Kconfig.Dups
import Ysyx.Kconfig.Transform

/-! Which entries `menu_finalize` puts below a symbol: those whose dependencies are not met without
it, or not met without the symbol's own. What it puts below a symbol without a prompt is moved up again
behind that symbol. -/

namespace Ysyx.Kconfig

variable {σ : Type} [DecidableEq σ]

/-- An entry of the menu: the condition of its prompt, if it has one, its dependencies, and whether
other entries are nested in it. -/
structure Menu (σ : Type) where
  sym : Option σ
  prompt : Option (Option (Expr σ))
  dep : Option (Expr σ)
  hasList : Bool
  deriving DecidableEq

/-- `prompt ? prompt->visible.expr : NULL` -/
def Menu.visible (m : Menu σ) : Option (Expr σ) := m.prompt.join

/-- `prompt ? prompt->visible.expr : dep` -/
def Menu.condition (m : Menu σ) : Option (Expr σ) := m.prompt.getD m.dep

/-- Entries with their pointers `list` and `next`. -/
inductive Menus (σ : Type) where
  | nil
  | node (menu : Menu σ) (list next : Menus σ)
  deriving DecidableEq

/-- The entries in the order of the file. -/
def Menus.entries : Menus σ → List (Menu σ)
  | .nil => []
  | .node menu list next => menu :: (list.entries ++ next.entries)

/-- The last loop of `menu_finalize`, with `rest` behind the entries that it goes over: the `list` of an
entry without a prompt becomes its `next`. -/
def Menus.flattenOnto : Menus σ → Menus σ → Menus σ
  | .nil, rest => rest
  | .node menu list next, rest =>
    if menu.prompt.isNone then .node menu .nil (list.flattenOnto (next.flattenOnto rest))
    else .node menu list (next.flattenOnto rest)

section Functions

variable (S : Symbols σ)

def exprContainsSymbol (sym : σ) : Expr σ → Bool
  | .bin _ l r => exprContainsSymbol sym l || exprContainsSymbol sym r
  | .symbol s => s = sym
  | .comp _ l r => l = sym || r = sym
  | .not e => exprContainsSymbol sym e

def exprDependsSymbol (sym : σ) : Expr σ → Bool
  | .bin .and l r => exprDependsSymbol sym l || exprDependsSymbol sym r
  | .symbol s => s = sym
  | .comp .equal l r => l = sym && (r = S.yes || r = S.mod)
  | .comp .unequal l r => l = sym && r = S.no
  | _ => false

/-- A condition as comparisons with `n`, simplified. -/
def explicitDep (n : ℕ) (dep : Option (Expr σ)) : Option (Expr σ) := do
  let e ← exprTransform S n (exprTransCompareNull S .no .unequal dep)
  exprEliminateDups S n e

/-- Whether `basedep` is nothing next to `dep`. -/
def isSuperset (n : ℕ) (basedep : Expr σ) (dep : Option (Expr σ)) : Option Bool := do
  let dep ← explicitDep S n dep
  let p ← exprEliminateEq S n dep basedep
  return exprIsYes S (some p.2)

/-- Whether an entry with these dependencies goes below the symbol. -/
def inSubmenu (n : ℕ) (sym : σ) (basedep : Expr σ) (dep : Option (Expr σ)) : Option Bool :=
  if ¬ dep.any (exprContainsSymbol sym) then some false
  else if dep.any (exprDependsSymbol S sym) then some true
  else isSuperset S n basedep dep

mutual

/-- What follows an entry, before and after `menu_finalize` has run on it: an entry that has a `list`
keeps it, and the list of a symbol without one is made of the entries that go below it. -/
def menuFinalize : ℕ → Menu σ → List (Menu σ) → Option (Menus σ × List (Menu σ))
  | 0, _, _ => none
  | n + 1, parent, next =>
    if parent.hasList then some (.nil, next)
    else match parent.sym with
      | none => some (.nil, next)
      | some sym => do
        let basedep ← explicitDep S n parent.visible
        let (list, next) ← submenuLoop n sym basedep next
        return (list.flattenOnto .nil, next)

/-- `for (menu = parent->next; menu; menu = menu->next)`, where `menu_finalize(menu)` has changed
`menu->next`. -/
def submenuLoop : ℕ → σ → Expr σ → List (Menu σ) → Option (Menus σ × List (Menu σ))
  | 0, _, _, _ => none
  | _ + 1, _, _, [] => some (.nil, [])
  | n + 1, sym, basedep, menu :: next => do
    let below ← inSubmenu S n sym basedep menu.condition
    if below then do
      let (list, next) ← menuFinalize n menu next
      let (siblings, next) ← submenuLoop n sym basedep next
      return (.node menu list siblings, next)
    else return (.nil, menu :: next)

end

end Functions

variable {S : Symbols σ}

/-- Every symbol that stands alone is a bool, a tristate or one of `y`, `m` and `n`. -/
def Logical (S : Symbols σ) : Expr σ → Prop
  | .symbol s => S.type s = .boolean ∨ S.type s = .tristate ∨ ∃ t, s = S.of t
  | .not e => Logical S e
  | .bin _ l r => Logical S l ∧ Logical S r
  | .comp _ _ _ => True

/-- Not `n`, a negation being met where the expression is not. -/
def met (V : Values S) : Expr σ → Bool
  | .symbol s => V.tri s ≠ .no
  | .not e => !met V e
  | .bin .or l r => met V l || met V r
  | .bin .and l r => met V l && met V r
  | .comp c l r => c.holds (symCompare V l r)

def metNull (V : Values S) : Option (Expr σ) → Bool
  | none => true
  | some e => met V e

/-- What is asked of a condition in the configuration. -/
def WellTyped (S : Symbols σ) (e : Option (Expr σ)) : Prop := ∀ x, e = some x → Plain S x ∧ Logical S x

omit [DecidableEq σ] in
theorem symCompare_logical {s : σ} (V : Values S) (hs : Logical S (.symbol s)) (t : Tristate) :
    symCompare V s (S.of t) = .eq ↔ V.tri s = t := by
  obtain hb | ht | ⟨u, rfl⟩ := hs
  · exact symCompare_of V (.inl hb) t
  · exact symCompare_of V (.inr ht) t
  · have hns : S.type (S.of u) ≠ .string := by simp [S.const_type _ (S.const_of u)]
    have hstr : symGetStringValue V (S.of u) = S.name (S.of (V.tri (S.of u))) := by
      rw [string_const V (S.const_of u), V.tri_of]
    rw [symCompare_word V hns hstr (S.const_of t) (worded_of S t), S.of_inj]

omit [DecidableEq σ] in
theorem holds_ofBool (V : Values S) {s : σ} (hs : Logical S (.symbol s)) :
    exprCalcValue V (.comp .unequal s S.no) = ofBool (decide (V.tri s ≠ .no)) ∧
      exprCalcValue V (.comp .equal s S.no) = ofBool (decide (V.tri s = .no)) := by
  have hno := symCompare_logical V hs .no
  exact ⟨congrArg ofBool (decide_eq_decide.mpr (not_congr hno)),
    congrArg ofBool (decide_eq_decide.mpr hno)⟩

omit [DecidableEq σ] in
/-- `expr_trans_compare` with `n`: both comparisons, over the type each operand is met with. -/
theorem calc_transCompare (V : Values S) (e : Expr σ) (he : Logical S e) :
    exprCalcValue V (exprTransCompare S .no .unequal e) = ofBool (met V e) ∧
      exprCalcValue V (exprTransCompare S .no .equal e) = ofBool (!met V e) := by
  induction e with
  | symbol s =>
    have h := holds_ofBool V he
    refine ⟨h.1, h.2.trans ?_⟩
    cases ht : V.tri s <;> simp [met, ht]
  | not e ih =>
    have h := ih he
    exact ⟨h.2, by rw [met, Bool.not_not]; exact h.1⟩
  | bin t l r ihl ihr =>
    have hl := (ihl he.1).2
    have hr := (ihr he.2).2
    cases t <;>
      simp only [exprTransCompare, if_true, reduceCtorEq, if_false, exprCalcValue, hl, hr, met] <;>
      cases met V l <;> cases met V r <;> exact ⟨rfl, rfl⟩
  | comp c l r => exact ⟨rfl, (ofBool_not _).symm⟩

omit [DecidableEq σ] in
theorem plain_transCompare (e : Expr σ) (he : Plain S e) (c : CmpOp) :
    Plain S (exprTransCompare S .no c e) := by
  induction e generalizing c with
  | symbol s => exact plain_of c s .no
  | not e ih => exact ih he _
  | bin t l r ihl ihr =>
    have hl := ihl he.1 .equal
    have hr := ihr he.2 .equal
    cases t <;> simp only [exprTransCompare] <;> split_ifs <;> exact ⟨hl, hr⟩
  | comp c' l r =>
    simp only [exprTransCompare]
    split <;> first | exact he | trivial

theorem plain_transformed {e : Expr σ} (he : Plain S e) : Plain S (transformed S e) := by
  have hneg (e : Expr σ) (he : Plain S e) : Plain S (negated S e) := by
    induction e with
    | symbol s =>
      rw [negated, transformNotSymbol]
      split_ifs <;> trivial
    | not e => exact he
    | bin t l r ihl ihr => exact ⟨ihl he.1, ihr he.2⟩
    | comp c l r => exact he
  induction e with
  | symbol s => exact he
  | not e ih => exact hneg _ (ih he)
  | bin t l r ihl ihr => exact ⟨ihl he.1, ihr he.2⟩
  | comp c l r =>
    cases c with
    | equal | unequal =>
      simp only [transformed, transformComp]
      split_ifs <;> first | exact he | trivial
    | _ => exact he

/-- The two simplifications of a dependency end, each with an expression the second finds nothing
more in; unless a tristate symbol is compared with a number, the value stays. -/
theorem simplify_returns (e : Expr σ) :
    (∃ r, Settles (exprEliminateDups S · e) r ∧ Settles (exprEliminateDups S · r) r ∧
      r.size ≤ e.size ∧
      (Plain S e → Plain S r ∧ ∀ V : Values S, exprCalcValue V r = exprCalcValue V e)) ∧
    ∃ r, Settles (fun n => exprTransform S n e >>= exprEliminateDups S n) r ∧
      Settles (exprEliminateDups S · r) r ∧
      (Plain S e → Plain S r ∧ ∀ V : Values S, exprCalcValue V r = exprCalcValue V e) := by
  refine ⟨exprEliminateDups_settles S e, ?_⟩
  obtain ⟨r, hr, hrr, -, hmean⟩ := exprEliminateDups_settles S (transformed S e)
  refine ⟨r, (exprTransform_settles e).bind hr, hrr, fun hp => ?_⟩
  obtain ⟨hpr, hval⟩ := hmean (plain_transformed hp)
  exact ⟨hpr, fun V => (hval V).trans (calc_transformed V e)⟩

theorem explicitDep_returns {dep : Option (Expr σ)} (hd : WellTyped S dep) :
    ∃ r, Settles (explicitDep S · dep) r ∧
      ∀ V : Values S, exprCalcValue V r = ofBool (metNull V dep) := by
  have hplain : Plain S (exprTransCompareNull S .no .unequal dep) := by
    cases dep with
    | none => trivial
    | some e => exact plain_transCompare e (hd e rfl).1 _
  have hvalue (V : Values S) : exprCalcValue V (exprTransCompareNull S .no .unequal dep) =
      ofBool (metNull V dep) := by
    cases dep with
    | none => simp [exprTransCompareNull, exprCalcValue, Symbols.of, metNull, ofBool, Tristate.not]
    | some e => exact (calc_transCompare V e (hd e rfl).2).1
  obtain ⟨r, hr, -, -, hmean⟩ :=
    exprEliminateDups_settles S (transformed S (exprTransCompareNull S .no .unequal dep))
  refine ⟨r, (exprTransform_settles _).bind hr, fun V => ?_⟩
  rw [(hmean (plain_transformed hplain)).2 V, calc_transformed, hvalue V]

theorem depends_met {sym : σ} (V : Values S) (hs : S.type sym = .boolean ∨ S.type sym = .tristate)
    {e : Expr σ} (h : exprDependsSymbol S sym e = true) (hm : met V e = true) : V.tri sym ≠ .no := by
  induction e with
  | symbol s =>
    obtain rfl := of_decide_eq_true h
    exact of_decide_eq_true hm
  | not e => cases h
  | bin t l r ihl ihr =>
    cases t with
    | or => cases h
    | and =>
      rw [exprDependsSymbol, Bool.or_eq_true] at h
      rw [met, Bool.and_eq_true] at hm
      exact h.elim (fun h => ihl h hm.1) fun h => ihr h hm.2
  | comp c l r =>
    have hyes := symCompare_of V hs .yes
    have hmod := symCompare_of V hs .mod
    have hno := symCompare_of V hs .no
    cases c with
    | equal =>
      simp only [exprDependsSymbol, Bool.and_eq_true, Bool.or_eq_true, decide_eq_true_eq] at h
      obtain ⟨rfl, rfl | rfl⟩ := h
      · have ht := hyes.mp (of_decide_eq_true hm)
        simp [ht]
      · have ht := hmod.mp (of_decide_eq_true hm)
        simp [ht]
    | unequal =>
      simp only [exprDependsSymbol, Bool.and_eq_true, decide_eq_true_eq] at h
      obtain ⟨rfl, rfl⟩ := h
      exact fun ht => of_decide_eq_true hm (hno.mpr ht)
    | _ => cases h

/-- An entry that is only reached with the symbol: its dependencies are not met without the symbol,
or not met without the symbol's own condition. -/
def Below (S : Symbols σ) (sym : σ) (visible dep : Option (Expr σ)) : Prop :=
  (∀ V : Values S, metNull V dep = true → V.tri sym ≠ .no) ∨
    ∀ V : Values S, metNull V dep = true → metNull V visible = true

theorem isSuperset_returns {visible dep : Option (Expr σ)} {basedep : Expr σ}
    (hb : ∀ V : Values S, exprCalcValue V basedep = ofBool (metNull V visible))
    (hd : WellTyped S dep) :
    ∃ b, Settles (isSuperset S · basedep dep) b ∧
      (b = true → ∀ V : Values S, metNull V dep = true → metNull V visible = true) := by
  obtain ⟨d, hd, hdv⟩ := explicitDep_returns hd
  obtain ⟨x, y, hxy, -, -, hle⟩ := exprEliminateEq_settles S d basedep
  refine ⟨_, hd.bind (hxy.map fun p => exprIsYes S (some p.2)), fun hyes V hmet => ?_⟩
  obtain rfl : y = .symbol S.yes := of_decide_eq_true hyes
  have htop : exprCalcValue V x ≤ exprCalcValue V (.symbol S.yes) := by
    rw [exprCalcValue, calc_yes]
    cases exprCalcValue V x <;> decide
  have hbase := hle.le V htop
  rw [hb V, hdv V, hmet] at hbase
  by_contra hne
  rw [Bool.not_eq_true] at hne
  rw [hne] at hbase
  exact absurd hbase (by decide)

theorem inSubmenu_returns (sym : σ) {visible dep : Option (Expr σ)} {basedep : Expr σ}
    (hb : ∀ V : Values S, exprCalcValue V basedep = ofBool (metNull V visible))
    (hd : WellTyped S dep) :
    ∃ b, Settles (inSubmenu S · sym basedep dep) b ∧
      (b = true → S.type sym = .boolean ∨ S.type sym = .tristate → Below S sym visible dep) := by
  by_cases hc : dep.any (exprContainsSymbol sym)
  swap
  · refine ⟨false, (Settles.of_some false).congr fun n => ?_, fun h => nomatch h⟩
    rw [inSubmenu, if_pos hc]
  by_cases hdep : dep.any (exprDependsSymbol S sym)
  · refine ⟨true, (Settles.of_some true).congr fun n => ?_, fun _ hs => .inl fun V hmet => ?_⟩
    · rw [inSubmenu, if_neg (not_not.mpr hc), if_pos hdep]
    · cases dep with
      | none => cases hdep
      | some e => exact depends_met V hs hdep hmet
  · obtain ⟨b, hsup, hmean⟩ := isSuperset_returns hb hd
    refine ⟨b, hsup.congr fun n => ?_, fun htrue _ => .inr (hmean htrue)⟩
    rw [inSubmenu, if_neg (not_not.mpr hc), if_neg hdep]

def Menu.WellTyped (S : Symbols σ) (m : Menu σ) : Prop :=
  Kconfig.WellTyped S m.visible ∧ Kconfig.WellTyped S m.condition

/-- Below a bool or tristate symbol the entry is only reached with it. -/
def GoesBelow (S : Symbols σ) (parent menu : Menu σ) : Prop :=
  ∀ sym, parent.sym = some sym → S.type sym = .boolean ∨ S.type sym = .tristate →
    Below S sym parent.visible menu.condition

/-- The entry goes below the other one, or below entries without a prompt that do. -/
inductive Reached (S : Symbols σ) (parent : Menu σ) : Menu σ → Prop where
  | direct {menu : Menu σ} (h : GoesBelow S parent menu) : Reached S parent menu
  | through {mid menu : Menu σ} (hmid : Reached S parent mid) (hprompt : mid.prompt = none)
      (h : GoesBelow S mid menu) : Reached S parent menu

omit [DecidableEq σ] in
theorem Reached.trans {parent mid menu : Menu σ} (h : Reached S parent mid) (hp : mid.prompt = none)
    (h' : Reached S mid menu) : Reached S parent menu := by
  induction h' with
  | direct hbelow => exact .through h hp hbelow
  | through _ hprompt hbelow ih => exact .through ih hprompt hbelow

/-- Below an entry there are only entries that are reached from it, at every depth, and nothing is
below an entry without a prompt. -/
inductive Nested (S : Symbols σ) : Menu σ → Menus σ → Prop where
  | nil (parent : Menu σ) : Nested S parent .nil
  | node {parent menu : Menu σ} {list next : Menus σ} (h : Reached S parent menu)
      (hflat : menu.prompt = none → list = .nil) (hlist : Nested S menu list)
      (hnext : Nested S parent next) : Nested S parent (.node menu list next)

/-- What the loop has taken below an entry, before the lists of promptless entries are moved up. -/
inductive Taken (S : Symbols σ) (parent : Menu σ) : Menus σ → Prop where
  | nil : Taken S parent .nil
  | node {menu : Menu σ} {list next : Menus σ} (h : GoesBelow S parent menu)
      (hlist : Nested S menu list) (hnext : Taken S parent next) :
      Taken S parent (.node menu list next)

omit [DecidableEq σ] in
theorem Menus.entries_flattenOnto (l rest : Menus σ) :
    (l.flattenOnto rest).entries = l.entries ++ rest.entries := by
  induction l generalizing rest with
  | nil => rfl
  | node menu list next ihlist ihnext =>
    rw [Menus.flattenOnto]
    split_ifs
    · simp [Menus.entries, ihlist, ihnext]
    · simp [Menus.entries, ihnext]

omit [DecidableEq σ] in
/-- What is moved up from below a promptless entry is reached through it. -/
theorem Nested.flattenOnto {parent mid : Menu σ} {l rest : Menus σ} (h : Nested S mid l)
    (hmid : Reached S parent mid) (hp : mid.prompt = none) (hrest : Nested S parent rest) :
    Nested S parent (l.flattenOnto rest) := by
  induction h with
  | nil => exact hrest
  | node h hflat hlist _ _ ihnext =>
    have hreach := hmid.trans hp h
    have hnext := ihnext hmid hp
    rw [Menus.flattenOnto]
    split_ifs with hprompt
    · rw [hflat (Option.isNone_iff_eq_none.mp hprompt)]
      exact .node hreach (fun _ => rfl) (.nil _) hnext
    · exact .node hreach hflat hlist hnext

omit [DecidableEq σ] in
theorem Taken.flattenOnto {parent : Menu σ} {l rest : Menus σ} (h : Taken S parent l)
    (hrest : Nested S parent rest) : Nested S parent (l.flattenOnto rest) := by
  induction h with
  | nil => exact hrest
  | node h hlist _ ih =>
    rw [Menus.flattenOnto]
    split_ifs with hprompt
    · have hp := Option.isNone_iff_eq_none.mp hprompt
      exact .node (.direct h) (fun _ => rfl) (.nil _) (hlist.flattenOnto (.direct h) hp ih)
    · exact .node (.direct h) (fun hp => absurd (Option.isNone_iff_eq_none.mpr hp) hprompt) hlist ih

/-- A result that keeps every entry in its place in the file. -/
structure Arranged (S : Symbols σ) (parent : Menu σ) (next : List (Menu σ))
    (r : Menus σ × List (Menu σ)) : Prop where
  nested : Nested S parent r.1
  entries : r.1.entries ++ r.2 = next

theorem menuFinalize_of_loop {parent : Menu σ} (next : List (Menu σ)) (hp : parent.WellTyped S)
    (hloop : ∀ sym basedep, parent.sym = some sym →
      (∀ V : Values S, exprCalcValue V basedep = ofBool (metNull V parent.visible)) →
      ∃ r, Settles (submenuLoop S · sym basedep next) r ∧ Taken S parent r.1 ∧
        r.1.entries ++ r.2 = next) :
    ∃ r, Settles (menuFinalize S · parent next) r ∧ Arranged S parent next r := by
  have hkeep (h : ∀ n, menuFinalize S (n + 1) parent next = some (.nil, next)) :
      ∃ r, Settles (menuFinalize S · parent next) r ∧ Arranged S parent next r :=
    ⟨_, (Settles.of_some _).succ h, .nil parent, rfl⟩
  by_cases hlist : parent.hasList
  · exact hkeep fun n => by rw [menuFinalize, if_pos hlist]
  cases hsym : parent.sym with
  | none => exact hkeep fun n => by rw [menuFinalize, if_neg hlist, hsym]
  | some sym =>
    obtain ⟨basedep, hb, hbv⟩ := explicitDep_returns hp.1
    obtain ⟨r, hr, htaken, hentries⟩ := hloop sym basedep hsym hbv
    have hrun := hb.bind (k := fun n basedep => submenuLoop S n sym basedep next >>= fun r =>
      some (r.1.flattenOnto .nil, r.2)) (hr.map fun r => (r.1.flattenOnto .nil, r.2))
    refine ⟨_, hrun.succ fun n => ?_, htaken.flattenOnto (.nil parent), ?_⟩
    · rw [menuFinalize, if_neg hlist, hsym]
      rfl
    · rw [Menus.entries_flattenOnto, Menus.entries, List.append_nil]
      exact hentries

/-- Induction on the entries that are left, of which a nested run takes some more. -/
theorem submenuLoop_returns (k : ℕ) {parent : Menu σ} {sym : σ} {basedep : Expr σ}
    {next : List (Menu σ)} (hk : next.length ≤ k) (hsym : parent.sym = some sym)
    (hb : ∀ V : Values S, exprCalcValue V basedep = ofBool (metNull V parent.visible))
    (hn : ∀ m ∈ next, m.WellTyped S) :
    ∃ r, Settles (submenuLoop S · sym basedep next) r ∧ Taken S parent r.1 ∧
      r.1.entries ++ r.2 = next := by
  induction k generalizing parent sym basedep next with
  | zero =>
    obtain rfl := List.length_eq_zero_iff.mp (Nat.le_zero.mp hk)
    exact ⟨_, (Settles.of_some _).succ fun n => rfl, .nil, rfl⟩
  | succ k ih =>
    cases next with
    | nil => exact ⟨_, (Settles.of_some _).succ fun n => rfl, .nil, rfl⟩
    | cons menu next =>
      have hmenu : menu.WellTyped S := hn menu List.mem_cons_self
      have hn' : ∀ m ∈ next, m.WellTyped S := fun m hm => hn m (List.mem_cons_of_mem _ hm)
      have hk' : next.length ≤ k := Nat.le_of_succ_le_succ hk
      obtain ⟨b, hbelow, hmean⟩ := inSubmenu_returns sym hb hmenu.2
      have heq (n : ℕ) : submenuLoop S (n + 1) sym basedep (menu :: next) =
          inSubmenu S n sym basedep menu.condition >>= fun below =>
            if below then menuFinalize S n menu next >>= fun p =>
              submenuLoop S n sym basedep p.2 >>= fun q => some (.node menu p.1 q.1, q.2)
            else some (.nil, menu :: next) := rfl
      cases b with
      | false =>
        refine ⟨(.nil, menu :: next), (hbelow.bind ?_).succ heq, .nil, rfl⟩
        exact (Settles.of_some _).congr fun n => by simp
      | true =>
        obtain ⟨⟨list, next₁⟩, hlist, hlistOk⟩ := menuFinalize_of_loop next hmenu
          fun sym basedep hs hbase => ih hk' hs hbase hn'
        have hsub : ∀ m ∈ next₁, m ∈ next := fun m hm => by
          have hentries := hlistOk.entries
          rw [← hentries]
          exact List.mem_append_right _ hm
        have hlen : next₁.length ≤ k := by
          have hentries : (list.entries ++ next₁).length = next.length :=
            congrArg List.length hlistOk.entries
          rw [List.length_append] at hentries
          omega
        obtain ⟨⟨siblings, next₂⟩, hrest, htaken, hrestEntries⟩ :=
          ih hlen hsym hb fun m hm => hn' m (hsub m hm)
        refine ⟨(.node menu list siblings, next₂), ?_, ?_, ?_⟩
        · refine (hbelow.bind ?_).succ heq
          have hrun := hrest.map fun q => (Menus.node menu list q.1, q.2)
          refine (hlist.bind (k := fun n p => submenuLoop S n sym basedep p.2 >>= fun q =>
            some (Menus.node menu p.1 q.1, q.2)) hrun).congr fun n => ?_
          simp
        · refine .node (fun s hs => ?_) hlistOk.nested htaken
          obtain rfl := Option.some.inj (hsym.symm.trans hs)
          exact hmean rfl
        · have hentries := hlistOk.entries
          rw [← hrestEntries] at hentries
          rw [← hentries]
          simp [Menus.entries]

/-- The table of the symbols that are declared with these types. -/
def Symbols.interned (type : List Char → SymbolType) : Symbols (Bool × List Char) where
  name s := s.2
  type s := if s.1 then .unknown else type s.2
  const s := s.1
  yes := (true, ['y'])
  mod := (true, ['m'])
  no := (true, ['n'])
  name_yes := rfl
  name_mod := rfl
  name_no := rfl
  const_yes := rfl
  const_mod := rfl
  const_no := rfl
  const_type s hs := by simp [hs]
  const_inj s t hs ht h := Prod.ext (hs.trans ht.symm) h

def promptOf (c : Char) (dep : Option (Expr (Bool × List Char))) : Menu (Bool × List Char) :=
  ⟨some (false, [c]), some dep, dep, false⟩

def symbolOf (c : Char) : Expr (Bool × List Char) := .symbol (false, [c])

/-- `A` and `C` depend on `S`, `B` on `A` and `D` on `C`, which has no prompt. -/
def fourBelow : List (Menu (Bool × List Char)) :=
  [promptOf 'A' (some (symbolOf 'S')), promptOf 'B' (some (symbolOf 'A')),
    { promptOf 'C' (some (symbolOf 'S')) with prompt := none }, promptOf 'D' (some (symbolOf 'C'))]

example : menuFinalize (Symbols.interned fun _ => .boolean) 9 (promptOf 'S' none) fourBelow =
    some (.node (promptOf 'A' (some (symbolOf 'S')))
      (.node (promptOf 'B' (some (symbolOf 'A'))) .nil .nil)
      (.node { promptOf 'C' (some (symbolOf 'S')) with prompt := none } .nil
        (.node (promptOf 'D' (some (symbolOf 'C'))) .nil .nil)), []) := by
  decide +kernel

end Ysyx.Kconfig
