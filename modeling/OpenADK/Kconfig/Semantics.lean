import OpenADK.Kconfig.Calc

/-!
# What the value of a symbol is

The equations that `sym_calc_value` solves, as functions of an environment `env` (the
values of all symbols), of `modules_val` (`mv`) and of the user's value of the symbol. They
say nothing about evaluation: no flags, no order and no caches. `reads` is the set of
symbols whose values the equation of a symbol mentions, and each function of this module is
determined by the values on its reads.
-/

namespace OpenADK.Kconfig
open Tristate

abbrev Env (ι : Type) := ι → Value ι

/-- What the user set for a symbol: `SYMBOL_DEF_USER` and `def[S_DEF_USER]`. -/
structure UserValue (ι : Type) where
  has : Bool
  value : Value ι

namespace SymbolTable
variable {ι : Type} (G : SymbolTable ι)

def stringIn (env : Env ι) (s : ι) : Text :=
  match G.type s with
  | .boolean | .tristate =>
    match (env s).tri with
    | .no => ['n']
    | .yes => ['y']
    | .mod => if (env G.modulesSym).tri = .no then ['n'] else ['m']
  | _ => (env s).val.text

def exprIn (env : Env ι) : Expr ι → Tristate
  | .symbol s => (env s).tri
  | .and l r => min (exprIn env l) (exprIn env r)
  | .or l r => max (exprIn env l) (exprIn env r)
  | .not e => exprNot (exprIn env e)
  | .equal s t => if G.stringIn env s = G.stringIn env t then .yes else .no
  | .unequal s t => if G.stringIn env s = G.stringIn env t then .no else .yes

/-- A missing condition is `y`. -/
def condIn (env : Env ι) : Option (Expr ι) → Tristate
  | none => .yes
  | some e => G.exprIn env e

/-- `sym_get_type` for a symbol with the given visibility. -/
def typeIn (mv visible : Tristate) (s : ι) : SymType :=
  if G.type s = .tristate then
    if G.isChoiceValue s ∧ visible = .yes then .boolean
    else if mv = .no then .boolean
    else .tristate
  else G.type s

/-- `m` counts as `y` where the symbol is evaluated as a boolean. -/
def roundIn (mv visible : Tristate) (s : ι) (tri : Tristate) : Tristate :=
  if tri = .mod ∧ G.typeIn mv visible s = .boolean then .yes else tri

/-- The largest prompt condition, from `tri` on. -/
def promptsIn (env : Env ι) : List (Property ι) → Tristate → Tristate
  | [], tri => tri
  | prop :: props, tri => promptsIn env props (max tri (G.condIn env prop.visible))

def visibleIn (mv : Tristate) (env : Env ι) (s : ι) : Tristate :=
  let tri := G.promptsIn env (G.symbol s).prompts .no
  if tri = .mod ∧ (G.type s ≠ .tristate ∨ mv = .no) then .yes else tri

def dirDepIn (env : Env ι) (s : ι) : Tristate :=
  let tri := G.condIn env (G.symbol s).dirDep
  if tri = .mod then .yes else tri

/-- A missing reverse dependency is `n`. -/
def revDepValueIn (env : Env ι) : Option (Expr ι) → Tristate
  | none => .no
  | some e => G.exprIn env e

def revDepIn (mv : Tristate) (env : Env ι) (s : ι) : Tristate :=
  G.roundIn mv (G.visibleIn mv env s) s (G.revDepValueIn env (G.symbol s).revDep)

def selectIn (mv : Tristate) (env : Env ι) (s : ι) (esv : SelectValue ι) : Tristate :=
  G.roundIn mv (G.visibleIn mv env s) s (G.exprIn env esv.expr)

/-- The value-carrying selects whose condition is not `n`. -/
def activeIn (mv : Tristate) (env : Env ι) (s : ι) : List (SelectValue ι) :=
  (G.symbol s).valDep.filter fun esv => G.selectIn mv env s esv ≠ .no

/-- The first property whose condition is not `n`, with the value of the condition. -/
def firstIn (env : Env ι) : List (Property ι) → Option (Property ι × Tristate)
  | [] => none
  | prop :: props =>
    if G.condIn env prop.visible ≠ .no then some (prop, G.condIn env prop.visible)
    else firstIn env props

def defaultIn (env : Env ι) (s : ι) : Option (Property ι × Tristate) :=
  G.firstIn env (G.symbol s).defaults

/-- The value of a property's expression; a property without one counts as `y`. -/
def propValueIn (env : Env ι) (p : Property ι) : Tristate :=
  match p.expr with
  | .expr e => G.exprIn env e
  | _ => .yes

/-- The value of the first visible default, limited by its condition. -/
def defaultTristateIn (env : Env ι) (s : ι) : Tristate :=
  match G.defaultIn env s with
  | none => .no
  | some (p, tri) => min (G.propValueIn env p) tri

def baseIn (user : UserValue ι) (mv : Tristate) (env : Env ι) (s : ι) : Tristate :=
  if G.visibleIn mv env s ≠ .no ∧ user.has then min user.value.tri (G.visibleIn mv env s)
  else if G.isChoice s then .no
  else G.defaultTristateIn env s

/-- The maximum of `tri` and the values of the entries. -/
def orValuesIn (env : Env ι) (esvs : List (SelectValue ι)) (tri : Tristate) : Tristate :=
  esvs.foldl (fun tri esv => max tri (G.exprIn env esv.value)) tri

/-- The value of a boolean or tristate symbol that does not follow its choice. -/
def ownTristateIn (user : UserValue ι) (mv : Tristate) (env : Env ι) (s : ι) : Tristate :=
  G.roundIn mv (G.visibleIn mv env s) s
    (G.orValuesIn env (G.activeIn mv env s)
      (max (G.baseIn user mv env s) (G.revDepIn mv env s)))

/-- A choice value follows its choice when it is visible. -/
def followsChoice (mv : Tristate) (env : Env ι) (s : ι) : Prop :=
  G.isChoiceValue s ∧ G.visibleIn mv env s = .yes

instance (mv : Tristate) (env : Env ι) (s : ι) : Decidable (G.followsChoice mv env s) :=
  inferInstanceAs (Decidable (_ ∧ _))

section
variable [DecidableEq ι]

def tristateIn (user : UserValue ι) (mv : Tristate) (env : Env ι) (s : ι) : Tristate :=
  if G.followsChoice mv env s then
    match G.choiceOf s with
    | some choice => if (env choice).val = .sym s then .yes else .no
    | none => .no
  else G.ownTristateIn user mv env s

/-! ### Choices -/

/-- The environment in which a choice looks at its members: its own value is `tri`. -/
def memberEnv (env : Env ι) (choice : ι) (tri : Tristate) : Env ι :=
  Function.update env choice ⟨.str ['n'], tri⟩

/-- The first default with a condition other than `n` that names a visible symbol. -/
def visibleDefaultIn (mv : Tristate) (env : Env ι) : List (Property ι) → Option ι
  | [] => none
  | prop :: props =>
    match propGetSymbol prop with
    | some d =>
      if G.condIn env prop.visible ≠ .no ∧ G.visibleIn mv env d ≠ .no then some d
      else visibleDefaultIn mv env props
    | none => visibleDefaultIn mv env props

/-- `sym_choice_default`. -/
def choiceDefaultIn (mv : Tristate) (env : Env ι) (choice : ι) : Option ι :=
  match (G.members choice).find? fun s => G.revDepIn mv env s ≠ .no with
  | some s => some s
  | none =>
    match G.visibleDefaultIn mv env (G.symbol choice).defaults with
    | some s => some s
    | none => (G.members choice).find? fun s => G.visibleIn mv env s ≠ .no

def userPickIn (user : UserValue ι) (mv : Tristate) (env : Env ι) : Option ι :=
  match user.value.val with
  | .sym s => if G.visibleIn mv env s ≠ .no then some s else none
  | _ => none

/-- `sym_calc_choice`. -/
def pickIn (user : UserValue ι) (mv : Tristate) (env : Env ι) (choice : ι) : Option ι :=
  match G.userPickIn user mv env with
  | some s => some s
  | none => G.choiceDefaultIn mv env choice

def boolValueIn (user : UserValue ι) (mv : Tristate) (env : Env ι) (s : ι) : Value ι :=
  let tri := G.tristateIn user mv env s
  if G.isChoice s ∧ tri = .yes then
    match G.pickIn user mv (memberEnv env s tri) s with
    | some m => ⟨.sym m, .yes⟩
    | none => ⟨.null, .no⟩
  else ⟨.str ['n'], tri⟩

end

/-! ### Strings and numbers -/

/-- The value of a string, int or hex symbol before its range. -/
def stringValueIn (user : UserValue ι) (mv : Tristate) (env : Env ι) (s : ι) : Val ι :=
  if G.visibleIn mv env s ≠ .no ∧ user.has then user.value.val
  else
    match (G.activeIn mv env s).head?.bind fun esv => valueSym esv.value with
    | some ss => (env ss).val
    | none =>
      match (G.defaultIn env s).bind fun p => propGetSymbol p.1 with
      | some ds => (env ds).val
      | none => .str []

/-- `sym_get_range_val`. -/
def boundIn (env : Env ι) (base : ℕ) (s : ι) : ℤ :=
  strtoll ((numberBase (G.type s)).getD base) (env s).val.text

def rangeIn (env : Env ι) (base : ℕ) (s : ι) : Option (ℤ × ℤ) :=
  ((G.firstIn env (G.symbol s).ranges).bind fun p => propRange p.1).map fun bounds =>
    (G.boundIn env base bounds.1, G.boundIn env base bounds.2)

/-- `sym_validate_range`. -/
def clampIn (env : Env ι) (s : ι) (val : Val ι) : Val ι :=
  match numberBase (G.type s) with
  | none => val
  | some base =>
    match G.rangeIn env base s with
    | none => val
    | some (low, high) =>
      if low ≤ strtoll base val.text then
        if strtoll base val.text ≤ high then val else .str (printBound (G.type s) high)
      else .str (printBound (G.type s) low)

def valueIn [DecidableEq ι] (user : UserValue ι) (mv : Tristate) (env : Env ι) (s : ι) : Value ι :=
  match G.type s with
  | .unknown | .other => ⟨.str ((G.symbol s).name.getD []), .no⟩
  | .boolean | .tristate => G.boolValueIn user mv env s
  | _ => ⟨G.clampIn env s (G.stringValueIn user mv env s), .no⟩

section
variable {G} [DecidableEq ι] {user : UserValue ι} {mv : Tristate} {env : Env ι} {s : ι}

theorem valueIn_named (h : G.type s = .unknown ∨ G.type s = .other) :
    G.valueIn user mv env s = ⟨.str ((G.symbol s).name.getD []), .no⟩ := by
  unfold valueIn
  rcases h with h | h <;> rw [h]

theorem valueIn_tristate (h : G.type s = .boolean ∨ G.type s = .tristate) :
    G.valueIn user mv env s = G.boolValueIn user mv env s := by
  unfold valueIn
  rcases h with h | h <;> rw [h]

theorem valueIn_string (h : G.type s = .int ∨ G.type s = .hex ∨ G.type s = .string) :
    G.valueIn user mv env s = ⟨G.clampIn env s (G.stringValueIn user mv env s), .no⟩ := by
  unfold valueIn
  rcases h with h | h | h <;> rw [h]

end

theorem clampIn_tristate {G : SymbolTable ι} {env : Env ι} {s : ι} {v : Val ι}
    (h : G.type s = .boolean ∨ G.type s = .tristate) : G.clampIn env s v = v := by
  unfold clampIn
  rcases h with h | h <;> rw [h] <;> rfl

end SymbolTable
end OpenADK.Kconfig
