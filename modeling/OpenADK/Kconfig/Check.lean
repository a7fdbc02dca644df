import OpenADK.Kconfig.Symbol

/-!
# The check for recursive dependencies

`sym_check_deps` and the functions it calls. `SYMBOL_CHECK` marks the symbols whose
dependencies are being walked and `SYMBOL_CHECKED` those that have been reached before;
`met` records that a symbol with `SYMBOL_CHECK` set was met, which is when the source
prints the recursion. The stack that the printout walks is left out.

Every level of the recursion reaches a new symbol or passes from a choice value to its
choice, so twice the number of symbols bounds the depth.
-/

namespace OpenADK.Kconfig
variable {ι : Type} [DecidableEq ι]

structure CheckState (ι : Type) where
  flagCheck : ι → Bool
  flagChecked : ι → Bool
  met : Bool

namespace CheckState

def setCheck (st : CheckState ι) (sym : ι) : CheckState ι :=
  { st with
    flagCheck := Function.update st.flagCheck sym true
    flagChecked := Function.update st.flagChecked sym true }

def clearCheck (st : CheckState ι) (sym : ι) : CheckState ι :=
  { st with flagCheck := Function.update st.flagCheck sym false }

end CheckState

namespace SymbolTable
variable (G : SymbolTable ι)

/-- The type of `sym_check_deps`: the symbol at which a recursion was found. -/
abbrev Check (ι : Type) := ι → CheckState ι → Option ι × CheckState ι

section
variable (checkDeps : Check ι)

/-- `sym_check_expr_deps`. -/
def symCheckExprDeps : Expr ι → CheckState ι → Option ι × CheckState ι
  | .symbol s, st => checkDeps s st
  | .not e, st => symCheckExprDeps e st
  | .equal s t, st | .unequal s t, st =>
    let sym := checkDeps s st
    if sym.1.isSome then sym else checkDeps t sym.2
  | .and l r, st | .or l r, st =>
    let sym := symCheckExprDeps l st
    if sym.1.isSome then sym else symCheckExprDeps r sym.2

def symCheckCondDeps : Option (Expr ι) → CheckState ι → Option ι × CheckState ι
  | none, st => (none, st)
  | some e, st => symCheckExprDeps checkDeps e st

/-- The loop over the properties in `sym_check_sym_deps`. -/
def symCheckPropDeps (sym : ι) : List (Property ι) → CheckState ι → Option ι × CheckState ι
  | [], st => (none, st)
  | prop :: props, st =>
    if prop.type = .choice ∨ prop.type = .select then symCheckPropDeps sym props st
    else
      let sym2 := symCheckCondDeps checkDeps prop.visible st
      if sym2.1.isSome then sym2
      else if prop.type ≠ .default ∨ G.isChoice sym then symCheckPropDeps sym props sym2.2
      else
        let sym3 := match prop.expr with
          | .expr e => symCheckExprDeps checkDeps e sym2.2
          | _ => (none, sym2.2)
        if sym3.1.isSome then sym3 else symCheckPropDeps sym props sym3.2

/-- `sym_check_sym_deps`. -/
def symCheckSymDeps (sym : ι) (st : CheckState ι) : Option ι × CheckState ι :=
  let sym2 := symCheckCondDeps checkDeps (G.symbol sym).revDep st
  if sym2.1.isSome then sym2 else symCheckPropDeps G checkDeps sym (G.symbol sym).prop sym2.2

/-- The loop over the members in `sym_check_choice_deps`. -/
def symCheckMemberDeps : List ι → CheckState ι → Option ι × CheckState ι
  | [], st => (none, st)
  | sym :: members, st =>
    let sym2 := symCheckSymDeps G checkDeps sym st
    if sym2.1.isSome then sym2 else symCheckMemberDeps members sym2.2

/-- `sym_check_choice_deps`. -/
def symCheckChoiceDeps (choice : ι) (st : CheckState ι) : Option ι × CheckState ι :=
  let st := ((G.members choice).foldl CheckState.setCheck st).setCheck choice
  let sym2 := symCheckSymDeps G checkDeps choice st
  let sym2 := (sym2.1, sym2.2.clearCheck choice)
  let sym2 := if sym2.1.isSome then sym2 else symCheckMemberDeps G checkDeps (G.members choice) sym2.2
  let st := (G.members choice).foldl CheckState.clearCheck sym2.2
  match sym2.1 with
  | some s => (some (if G.isChoiceValue s ∧ G.choiceOf s = some choice then choice else s), st)
  | none => (none, st)

/-- One level of `sym_check_deps`. -/
def symCheckStep (sym : ι) (st : CheckState ι) : Option ι × CheckState ι :=
  if st.flagCheck sym then (some sym, { st with met := true })
  else if st.flagChecked sym then (none, st)
  else
    let sym2 :=
      if G.isChoiceValue sym then
        match G.choiceOf sym with
        | some choice => checkDeps choice st
        | none => (none, st)
      else if G.isChoice sym then symCheckChoiceDeps G checkDeps sym st
      else
        let sym2 := symCheckSymDeps G checkDeps sym (st.setCheck sym)
        (sym2.1, sym2.2.clearCheck sym)
    if sym2.1 = some sym then (none, sym2.2) else sym2

end

def symCheckFuel : ℕ → Check ι
  | 0 => fun _ st => (none, st)
  | fuel + 1 => symCheckStep G (symCheckFuel fuel)

/-- `sym_check_deps`. -/
def symCheckDeps : Check ι := symCheckFuel G (2 * G.symbols.length + 1)

/-- The loop of `conf_parse` over all symbols. -/
def checkAll : CheckState ι :=
  G.allSymbols.foldl (fun st sym => (symCheckDeps G sym st).2) ⟨fun _ => false, fun _ => false, false⟩

/-- The pass never meets a symbol whose `SYMBOL_CHECK` flag is set. -/
def DetectsNoRecursion : Prop := G.checkAll.met = false

instance : Decidable G.DetectsNoRecursion := inferInstanceAs (Decidable (_ = _))

end SymbolTable
end OpenADK.Kconfig
