import OpenADK.Kconfig.Symbol
import Mathlib.Data.Nat.Digits.Defs

/-!
# Symbol evaluation

`expr_calc_value`, `sym_calc_visibility`, `sym_choice_default`, `sym_calc_choice`,
`sym_validate_range` and `sym_calc_value`. These functions call each other through
`sym_calc_value` only, so each of them takes that function as its argument `calcSym`, and
`symCalcFuel` ties the knot. A call that finds `SYMBOL_VALID` set returns at once and every
other call sets it first, so the depth of the recursion is at most the number of symbols
and the fuel of `symCalcValue` never runs out.

`SYMBOL_CHANGED`, the messages, and `SYMBOL_NEED_SET_CHOICE_VALUES` (which only
`conf_set_all_new_symbols` sets) are left out: no value depends on them here.
-/

namespace OpenADK.Kconfig
open Tristate
variable {ι : Type} [DecidableEq ι] (G : SymbolTable ι)

/-- `symbol_no.curr`. -/
def noCurr : Value ι := ⟨.str ['n'], .no⟩

/-- `symbol_empty.curr`. -/
def emptyCurr : Value ι := ⟨.str [], .no⟩

/-- `sym_get_type`. -/
def symGetType (σ : State ι) (sym : ι) : SymType :=
  if G.type sym = .tristate then
    if G.isChoiceValue sym ∧ (σ.sym sym).visible = .yes then .boolean
    else if σ.modulesVal = .no then .boolean
    else .tristate
  else G.type sym

/-- The type of `sym_calc_value`: evaluation of one symbol as a change of state. -/
abbrev Calc (ι : Type) := ι → State ι → State ι

section
variable (calcSym : Calc ι)

/-- `sym_get_string_value`. -/
def symGetStringValue (sym : ι) (σ : State ι) : Text × State ι :=
  match G.type sym with
  | .boolean | .tristate =>
    match (σ.sym sym).curr.tri with
    | .no => (['n'], σ)
    | .yes => (['y'], σ)
    | .mod =>
      let σ := calcSym G.modulesSym σ
      (if (σ.sym G.modulesSym).curr.tri = .no then ['n'] else ['m'], σ)
  | _ => ((σ.sym sym).curr.val.text, σ)

def comparedStrings (s t : ι) (σ : State ι) : (Text × Text) × State ι :=
  let σ := calcSym t (calcSym s σ)
  let str1 := symGetStringValue G calcSym s σ
  let str2 := symGetStringValue G calcSym t str1.2
  ((str1.1, str2.1), str2.2)

/-- `expr_calc_value` on a present expression. -/
def exprCalc : Expr ι → State ι → Tristate × State ι
  | .symbol s, σ =>
    let σ := calcSym s σ
    ((σ.sym s).curr.tri, σ)
  | .and l r, σ =>
    let val1 := exprCalc l σ
    let val2 := exprCalc r val1.2
    (exprAnd val1.1 val2.1, val2.2)
  | .or l r, σ =>
    let val1 := exprCalc l σ
    let val2 := exprCalc r val1.2
    (exprOr val1.1 val2.1, val2.2)
  | .not e, σ =>
    let val1 := exprCalc e σ
    (exprNot val1.1, val1.2)
  | .equal s t, σ =>
    let strs := comparedStrings G calcSym s t σ
    (if strs.1.1 = strs.1.2 then .yes else .no, strs.2)
  | .unequal s t, σ =>
    let strs := comparedStrings G calcSym s t σ
    (if strs.1.1 = strs.1.2 then .no else .yes, strs.2)

/-- `expr_calc_value`. -/
def exprCalcValue : Option (Expr ι) → State ι → Tristate × State ι
  | none, σ => (.yes, σ)
  | some e, σ => exprCalc G calcSym e σ

/-- The first property of the list whose condition is not `n`, with the condition's value:
the loop of `sym_get_default_prop` and of `sym_get_range_prop`. -/
def firstVisibleProp : List (Property ι) → State ι → Option (Property ι × Tristate) × State ι
  | [], σ => (none, σ)
  | prop :: props, σ =>
    let tri := exprCalcValue G calcSym prop.visible σ
    if tri.1 ≠ .no then (some (prop, tri.1), tri.2) else firstVisibleProp props tri.2

/-- `sym_get_default_prop`. -/
def symGetDefaultProp (sym : ι) : State ι → Option (Property ι × Tristate) × State ι :=
  firstVisibleProp G calcSym (G.symbol sym).defaults

/-- `sym_get_range_prop`. -/
def symGetRangeProp (sym : ι) : State ι → Option (Property ι × Tristate) × State ι :=
  firstVisibleProp G calcSym (G.symbol sym).ranges

/-- The loop over the prompts in `sym_calc_visibility`, from prompt number `i` on: it stores the
value of each prompt's condition and collects their disjunction. -/
def promptsVisible (sym : ι) :
    ℕ → List (Property ι) → Tristate → State ι → Tristate × State ι
  | _, [], tri, σ => (tri, σ)
  | i, prop :: props, tri, σ =>
    let visible := exprCalcValue G calcSym prop.visible σ
    promptsVisible sym (i + 1) props (exprOr tri visible.1) (visible.2.modify sym fun st =>
      { st with promptTri := Function.update st.promptTri i visible.1 })

/-- The value of `rev_dep.expr`; a missing one is `n`. -/
def revDepValue : Option (Expr ι) → State ι → Tristate × State ι
  | none, σ => (.no, σ)
  | some e, σ => exprCalc G calcSym e σ

/-- The loop over `sym->val_dep` in `sym_calc_visibility`, from entry number `i` on. -/
def calcValDep (sym : ι) : ℕ → List (SelectValue ι) → State ι → State ι
  | _, [], σ => σ
  | i, esv :: esvs, σ =>
    let tri := exprCalc G calcSym esv.expr σ
    let σ := tri.2
    let tri := if tri.1 = .mod ∧ symGetType G σ sym = .boolean then .yes else tri.1
    calcValDep sym (i + 1) esvs
      (σ.modify sym fun st => { st with valDepTri := Function.update st.valDepTri i tri })

/-- `sym_calc_visibility`. -/
def symCalcVisibility (sym : ι) (σ : State ι) : State ι :=
  let tri := promptsVisible G calcSym sym 0 (G.symbol sym).prompts .no σ
  let σ := tri.2
  let tri :=
    if tri.1 = .mod ∧ (G.type sym ≠ .tristate ∨ σ.modulesVal = .no) then .yes else tri.1
  let σ := σ.modify sym fun st => { st with visible := tri }
  let tri := exprCalcValue G calcSym (G.symbol sym).dirDep σ
  let σ := tri.2
  let tri := if tri.1 = .mod then .yes else tri.1
  let σ := σ.modify sym fun st => { st with dirDepTri := tri }
  let tri := revDepValue G calcSym (G.symbol sym).revDep σ
  let σ := tri.2
  let tri := if tri.1 = .mod ∧ symGetType G σ sym = .boolean then .yes else tri.1
  let σ := σ.modify sym fun st => { st with revDepTri := tri }
  calcValDep G calcSym sym 0 (G.symbol sym).valDep σ

/-- The first member that a select keeps from `n`, in `sym_choice_default`. -/
def selectedMember (σ : State ι) (members : List ι) : Option ι :=
  members.find? fun s => (σ.sym s).revDepTri ≠ .no

/-- The first visible default in `sym_choice_default`. -/
def visibleDefault : List (Property ι) → State ι → Option ι × State ι
  | [], σ => (none, σ)
  | prop :: props, σ =>
    let tri := exprCalcValue G calcSym prop.visible σ
    let σ := tri.2
    match propGetSymbol prop with
    | some defSym =>
      if tri.1 ≠ .no ∧ (σ.sym defSym).visible ≠ .no then (some defSym, σ)
      else visibleDefault props σ
    | none => visibleDefault props σ

/-- `sym_choice_default`. -/
def symChoiceDefault (sym : ι) (σ : State ι) : Option ι × State ι :=
  match selectedMember σ (G.members sym) with
  | some ret => (some ret, σ)
  | none =>
    let defSym := visibleDefault G calcSym (G.symbol sym).defaults σ
    match defSym.1 with
    | some s => (some s, defSym.2)
    | none => ((G.members sym).find? fun s => (defSym.2.sym s).visible ≠ .no, defSym.2)

/-- The loop of `sym_calc_choice` over the members: their visibilities, and whether every
visible one has a user value. -/
def calcMembersVisibility : List ι → Bool → State ι → Bool × State ι
  | [], flags, σ => (flags, σ)
  | s :: members, flags, σ =>
    let σ := symCalcVisibility G calcSym s σ
    calcMembersVisibility members
      (if (σ.sym s).visible ≠ .no then flags && (σ.sym s).flagDefUser else flags) σ

def userPick (sym : ι) (σ : State ι) : Option ι :=
  match (σ.sym sym).defUser.val with
  | .sym s => if (σ.sym s).visible ≠ .no then some s else none
  | _ => none

/-- `sym_calc_choice`, with the assignment of its result to `sym->curr.val`. -/
def symCalcChoice (sym : ι) (σ : State ι) : State ι :=
  let flags := calcMembersVisibility G calcSym (G.members sym) (σ.sym sym).flagDefUser σ
  let σ := flags.2
  let σ := σ.modify sym fun st => { st with flagDefUser := st.flagDefUser && flags.1 }
  match userPick sym σ with
  | some s => σ.modify sym fun st => { st with curr := { st.curr with val := .sym s } }
  | none =>
    let defSym := symChoiceDefault G calcSym sym σ
    match defSym.1 with
    | some s => defSym.2.modify sym fun st => { st with curr := { st.curr with val := .sym s } }
    | none => defSym.2.modify sym fun st => { st with curr := ⟨.null, .no⟩ }

end

/-! ### Numbers and ranges -/

/-- The value of a digit in `base`, as `strtoll` reads it. -/
def digitValue (base : ℕ) (c : Char) : Option ℕ :=
  let d :=
    if '0' ≤ c ∧ c ≤ '9' then some (c.toNat - '0'.toNat)
    else if 'a' ≤ c ∧ c ≤ 'z' then some (c.toNat - 'a'.toNat + 10)
    else if 'A' ≤ c ∧ c ≤ 'Z' then some (c.toNat - 'A'.toNat + 10)
    else none
  d.filter (· < base)

def readDigits (base : ℕ) : ℕ → Text → ℕ
  | acc, [] => acc
  | acc, c :: cs =>
    match digitValue base c with
    | some d => readDigits base (acc * base + d) cs
    | none => acc

/-- `isspace` in the C locale. -/
def isSpace (c : Char) : Bool :=
  c = ' ' || c = '\t' || c = '\n' || c = '\x0b' || c = '\x0c' || c = '\r'

/-- The optional `0x` of base 16, which `strtoll` takes only before a digit. -/
def skipHexPrefix (base : ℕ) : Text → Text
  | '0' :: x :: c :: cs =>
    if base = 16 ∧ (x = 'x' ∨ x = 'X') ∧ (digitValue 16 c).isSome then c :: cs
    else '0' :: x :: c :: cs
  | cs => cs

/-- `LLONG_MAX`. -/
def llongMax : ℤ := 2 ^ 63 - 1

/-- `strtoll(str, NULL, base)` for base 10 and 16. -/
def strtoll (base : ℕ) (str : Text) : ℤ :=
  match str.dropWhile isSpace with
  | '-' :: cs => max (-(readDigits base 0 (skipHexPrefix base cs) : ℤ)) (-llongMax - 1)
  | '+' :: cs => min (readDigits base 0 (skipHexPrefix base cs) : ℤ) llongMax
  | cs => min (readDigits base 0 (skipHexPrefix base cs) : ℤ) llongMax

/-- `sprintf(str, "%lld", val)`. -/
def printDec (val : ℤ) : Text :=
  if val < 0 then '-' :: Nat.toDigits 10 val.natAbs else Nat.toDigits 10 val.natAbs

/-- `sprintf(str, "0x%llx", val)`: the bits of `val` as an unsigned 64-bit number. -/
def printHex (val : ℤ) : Text := '0' :: 'x' :: Nat.toDigits 16 (val % 2 ^ 64).toNat

section
variable (calcSym : Calc ι)

/-- `sym_get_range_val`. -/
def symGetRangeVal (sym : ι) (base : ℕ) (σ : State ι) : ℤ × State ι :=
  let σ := calcSym sym σ
  let base := match G.type sym with
    | .int => 10
    | .hex => 16
    | _ => base
  (strtoll base (σ.sym sym).curr.val.text, σ)

def numberBase : SymType → Option ℕ
  | .int => some 10
  | .hex => some 16
  | _ => none

/-- The text that `sym_validate_range` prints for a bound. -/
def printBound (type : SymType) (val : ℤ) : Text :=
  if type = .int then printDec val else printHex val

/-- `sym_validate_range`. -/
def symValidateRange (sym : ι) (σ : State ι) : State ι :=
  match numberBase (G.type sym) with
  | none => σ
  | some base =>
    let prop := symGetRangeProp G calcSym sym σ
    match prop.1.bind fun p => propRange p.1 with
    | none => prop.2
    | some (left, right) =>
      let val := strtoll base (prop.2.sym sym).curr.val.text
      let clamp (σ : State ι) (val2 : ℤ) : State ι :=
        σ.modify sym fun st =>
          { st with curr := { st.curr with val := .str (printBound (G.type sym) val2) } }
      let low := symGetRangeVal G calcSym left base prop.2
      if val ≥ low.1 then
        let high := symGetRangeVal G calcSym right base low.2
        if val ≤ high.1 then high.2 else clamp high.2 high.1
      else clamp low.2 low.1

/-! ### `sym_calc_value` -/

/-- The entries of `val_dep` whose condition, as `sym_calc_visibility` stored it, is not `n`. -/
def activeValDep (sym : ι) (σ : State ι) : List (SelectValue ι) :=
  ((G.symbol sym).valDep.zipIdx.filter fun esv => (σ.sym sym).valDepTri esv.2 ≠ .no).map Prod.fst

/-- The maximum of `tri` and the values of the active entries from number `i` on. -/
def orSelectValues (sym : ι) :
    ℕ → List (SelectValue ι) → Tristate → State ι → Tristate × State ι
  | _, [], tri, σ => (tri, σ)
  | i, esv :: esvs, tri, σ =>
    if (σ.sym sym).valDepTri i ≠ .no then
      let val := exprCalc G calcSym esv.value σ
      orSelectValues sym (i + 1) esvs (exprOr tri val.1) val.2
    else orSelectValues sym (i + 1) esvs tri σ

/-- `expr_calc_value(prop->expr)`; a property without an expression counts as `y`. -/
def propValue (p : Property ι) (σ : State ι) : Tristate × State ι :=
  match p.expr with
  | .expr e => exprCalc G calcSym e σ
  | _ => (.yes, σ)

def defaultTristate (sym : ι) (σ : State ι) : Tristate × State ι :=
  let prop := symGetDefaultProp G calcSym sym σ
  match prop.1 with
  | none => (.no, prop.2)
  | some (p, tri) =>
    let val := propValue G calcSym p (prop.2.setWrite sym)
    (exprAnd val.1 tri, val.2)

/-- The value of a boolean or tristate symbol before its selects: the user's value when the
symbol is visible and has one, else the first visible default. -/
def baseTristate (sym : ι) (σ : State ι) : Tristate × State ι :=
  let visible := (σ.sym sym).visible
  let σ := if visible ≠ .no then σ.setWrite sym else σ
  if visible ≠ .no ∧ (σ.sym sym).flagDefUser then
    (exprAnd (σ.sym sym).defUser.tri visible, σ)
  else
    let σ :=
      if (σ.sym sym).revDepTri ≠ .no ∨ activeValDep G sym σ ≠ [] then σ.setWrite sym else σ
    if G.isChoice sym then (.no, σ) else defaultTristate G calcSym sym σ

/-- The values that the warning about unmet direct dependencies looks at. -/
def warnUnmet (sym : ι) (σ : State ι) : State ι :=
  if (σ.sym sym).dirDepTri = .no then
    (orSelectValues G calcSym sym 0 (G.symbol sym).valDep .no σ).2
  else σ

/-- The `S_BOOLEAN`/`S_TRISTATE` case of `sym_calc_value`. -/
def calcTristate (sym : ι) (σ : State ι) : Tristate × State ι :=
  let newval :=
    if G.isChoiceValue sym ∧ (σ.sym sym).visible = .yes then
      match G.choiceOf sym with
      | some choice => (if (σ.sym choice).curr.val = .sym sym then .yes else .no, σ)
      | none => (.no, σ)
    else
      let newval := baseTristate G calcSym sym σ
      let σ := warnUnmet G calcSym sym newval.2
      orSelectValues G calcSym sym 0 (G.symbol sym).valDep
        (exprOr newval.1 (σ.sym sym).revDepTri) σ
  if newval.1 = .mod ∧ symGetType G newval.2 sym = .boolean then (.yes, newval.2) else newval

/-- `esv->value->left.sym`. -/
def valueSym : Expr ι → Option ι
  | .symbol s => some s
  | .equal s _ => some s
  | .unequal s _ => some s
  | _ => none

/-- The `S_STRING`/`S_HEX`/`S_INT` case of `sym_calc_value`. -/
def calcString (sym : ι) (σ : State ι) : Val ι × State ι :=
  let visible := (σ.sym sym).visible
  let σ := if visible ≠ .no then σ.setWrite sym else σ
  if visible ≠ .no ∧ (σ.sym sym).flagDefUser then ((σ.sym sym).defUser.val, σ)
  else
    match (activeValDep G sym σ).head?.bind fun esv => valueSym esv.value with
    | some ss =>
      let σ := calcSym ss (σ.setWrite sym)
      ((σ.sym ss).curr.val, σ)
    | none =>
      let prop := symGetDefaultProp G calcSym sym σ
      match prop.1.bind fun p => propGetSymbol p.1 with
      | some ds =>
        let σ := calcSym ds (prop.2.setWrite sym)
        ((σ.sym ds).curr.val, σ)
      | none => (.str [], prop.2)

def markMembers : List ι → State ι → State ι
  | [], σ => σ
  | s :: members, σ =>
    markMembers members
      (if (σ.sym s).visible ≠ .no then σ.setWrite s else σ)

/-- `sym->curr = newval`, the pick of a choice and the range of a number. -/
def storeValue (sym : ι) (newval : Value ι) (σ : State ι) : State ι :=
  let σ := σ.modify sym fun st => { st with curr := newval }
  let σ := if G.isChoice sym ∧ newval.tri = .yes then symCalcChoice G calcSym sym σ else σ
  symValidateRange G calcSym sym σ

/-- What `sym_calc_value` does once the value is final. -/
def finishCalc (sym : ι) (oldval : Value ι) (σ : State ι) : State ι :=
  let σ :=
    if oldval ≠ (σ.sym sym).curr ∧ G.modulesSym = sym then
      { σ with modulesVal := (σ.sym sym).curr.tri }
    else σ
  let σ :=
    if G.isChoice sym ∧ (σ.sym sym).flagWrite then markMembers (G.members sym) σ else σ
  if (G.symbol sym).flagAuto then σ.modify sym fun st => { st with flagWrite := false } else σ

/-- The visibility of the symbol, and a provisional value for recursive calls. -/
def prepare (sym : ι) (newval : Value ι) (σ : State ι) : State ι :=
  let σ :=
    if G.isChoiceValue sym then σ else σ.modify sym fun st => { st with flagWrite := false }
  let σ := symCalcVisibility G calcSym sym σ
  σ.modify sym fun st => { st with curr := newval }

/-- `sym_calc_value` on a symbol whose `SYMBOL_VALID` is not set, with `SYMBOL_VALID` set. -/
def calcInvalid (sym : ι) (σ : State ι) : State ι :=
  let oldval := (σ.sym sym).curr
  match G.type sym with
  | .unknown | .other =>
    σ.modify sym fun st => { st with curr := ⟨.str ((G.symbol sym).name.getD []), .no⟩ }
  | type =>
    let newval := if type = .boolean ∨ type = .tristate then noCurr else emptyCurr
    let σ := prepare G calcSym sym newval σ
    if symGetType G σ sym = .boolean ∨ symGetType G σ sym = .tristate then
      let tri := calcTristate G calcSym sym σ
      finishCalc G sym oldval (storeValue G calcSym sym ⟨newval.val, tri.1⟩ tri.2)
    else
      let val := calcString G calcSym sym σ
      finishCalc G sym oldval (storeValue G calcSym sym ⟨val.1, newval.tri⟩ val.2)

/-- One level of `sym_calc_value`. -/
def symCalcStep (sym : ι) (σ : State ι) : State ι :=
  if (σ.sym sym).flagValid then σ
  else calcInvalid G calcSym sym (σ.modify sym fun st => { st with flagValid := true })

/-! The three kinds of symbols that `sym_calc_value` tells apart. -/

section
variable {G} {calcSym} {σ : State ι} {s : ι}

theorem calcInvalid_named (ht : G.type s = .unknown ∨ G.type s = .other) :
    calcInvalid G calcSym s σ =
      σ.modify s fun st => { st with curr := ⟨.str ((G.symbol s).name.getD []), .no⟩ } := by
  unfold calcInvalid
  rcases ht with ht | ht <;> rw [ht]

omit [DecidableEq ι] in
theorem symGetType_tristate (h : G.type s = .boolean ∨ G.type s = .tristate) :
    symGetType G σ s = .boolean ∨ symGetType G σ s = .tristate := by
  unfold symGetType
  split
  · split
    · exact .inl rfl
    · split
      · exact .inl rfl
      · exact .inr rfl
  · exact h

theorem calcInvalid_tristate (ht : G.type s = .boolean ∨ G.type s = .tristate) :
    calcInvalid G calcSym s σ =
      let tri := calcTristate G calcSym s (prepare G calcSym s noCurr σ)
      finishCalc G s (σ.sym s).curr (storeValue G calcSym s ⟨noCurr.val, tri.1⟩ tri.2) := by
  have hget := symGetType_tristate (σ := prepare G calcSym s noCurr σ) ht
  unfold calcInvalid
  rcases ht with ht | ht
  · simp only [ht, true_or, if_true]
    exact if_pos hget
  · simp only [ht, or_true, if_true]
    exact if_pos hget

omit [DecidableEq ι] in
theorem symGetType_string (h : ¬(G.type s = .boolean ∨ G.type s = .tristate)) :
    symGetType G σ s = G.type s := by
  rw [symGetType, if_neg fun ht => h (.inr ht)]

theorem calcInvalid_string (ht : G.type s = .int ∨ G.type s = .hex ∨ G.type s = .string) :
    calcInvalid G calcSym s σ =
      let val := calcString G calcSym s (prepare G calcSym s emptyCurr σ)
      finishCalc G s (σ.sym s).curr
        (storeValue G calcSym s ⟨val.1, (emptyCurr : Value ι).tri⟩ val.2) := by
  have hn : ¬(G.type s = .boolean ∨ G.type s = .tristate) := by
    rcases ht with ht | ht | ht <;> simp [ht]
  have hget := symGetType_string (σ := prepare G calcSym s emptyCurr σ) hn
  rw [← hget] at hn
  unfold calcInvalid
  rcases ht with ht | ht | ht
  all_goals
    simp only [ht, reduceCtorEq, or_self, if_false]
    exact if_neg hn

end
end

def symCalcFuel : ℕ → Calc ι
  | 0 => fun _ σ => σ
  | fuel + 1 => symCalcStep G (symCalcFuel fuel)

/-- `sym_calc_value`. -/
def symCalcValue : Calc ι := symCalcFuel G G.symbols.length

/-- Evaluation of a list of symbols, one after the other. -/
def symCalcList (syms : List ι) (σ : State ι) : State ι :=
  syms.foldl (fun σ sym => symCalcValue G sym σ) σ

/-- The loop over `for_all_symbols` that clears `SYMBOL_VALID`. -/
def clearValid (syms : List ι) (σ : State ι) : State ι :=
  syms.foldl (fun σ sym => σ.modify sym fun st => { st with flagValid := false }) σ

/-- `sym_clear_all_valid`. -/
def symClearAllValid (σ : State ι) : State ι :=
  let σ := clearValid G.allSymbols σ
  symCalcValue G G.modulesSym { σ with changeCount := σ.changeCount + 1 }

end OpenADK.Kconfig
