import OpenADK.Kconfig.Tristate

/-!
# Expressions, properties and symbols

The static part of a configuration (`expr.h`) is a `SymbolTable`: a record for every
symbol, the three constant symbols `y`, `m` and `n`, and the order in which
`for_all_symbols` walks the hash table. The part that evaluation and the user
change is a `State`: one `SymState` for every symbol and the globals
`modules_val` and `sym_change_count`.

Symbols are the elements of an arbitrary type `ι`, which stands for the pointers
of the source. A null pointer is `none`.
-/

namespace OpenADK.Kconfig

/-- A C string without its terminating zero. -/
abbrev Text := List Char

/-- Identity of a `struct menu`. -/
abbrev MenuId := ℕ

/-- `struct expr` on the node types of dependency expressions. -/
inductive Expr (ι : Type)
  | symbol (s : ι)
  | not (e : Expr ι)
  | equal (s t : ι)
  | unequal (s t : ι)
  | and (l r : Expr ι)
  | or (l r : Expr ι)
  deriving DecidableEq, Repr

/-- `expr_alloc_and`: a missing operand is neutral. -/
def exprAllocAnd {ι : Type} : Option (Expr ι) → Option (Expr ι) → Option (Expr ι)
  | none, e2 => e2
  | some e1, none => some e1
  | some e1, some e2 => some (.and e1 e2)

/-- `expr_alloc_or`: a missing operand is neutral. -/
def exprAllocOr {ι : Type} : Option (Expr ι) → Option (Expr ι) → Option (Expr ι)
  | none, e2 => e2
  | some e1, none => some e1
  | some e1, some e2 => some (.or e1 e2)

inductive SymType
  | unknown
  | boolean
  | tristate
  | int
  | hex
  | string
  | other
  deriving DecidableEq, Repr

inductive PropType
  | prompt
  | comment
  | menu
  | default
  | choice
  | select
  | range
  | env
  | symbol
  deriving DecidableEq, Repr

/-- `prop->expr`: nothing, an expression, the `E_LIST` of a choice or an `E_RANGE`. -/
inductive PropExpr (ι : Type)
  | null
  | expr (e : Expr ι)
  | list (members : List ι)
  | range (left right : ι)
  deriving DecidableEq, Repr

structure Property (ι : Type) where
  type : PropType
  text : Option Text := none
  visible : Option (Expr ι) := none
  expr : PropExpr ι := .null
  menu : Option MenuId := none
  value : Option (Expr ι) := none
  deriving DecidableEq, Repr

/-- `struct expr_select_value` without its cached value. -/
structure SelectValue (ι : Type) where
  expr : Expr ι
  value : Expr ι
  deriving DecidableEq, Repr

/-- `struct symbol` without what evaluation writes; the flags are those that
parsing and `menu_finalize` set. -/
structure Symbol (ι : Type) where
  name : Option Text
  type : SymType
  prop : List (Property ι) := []
  dirDep : Option (Expr ι) := none
  revDep : Option (Expr ι) := none
  valDep : List (SelectValue ι) := []
  flagConst : Bool := false
  flagChoice : Bool := false
  flagChoiceval : Bool := false
  flagOptional : Bool := false
  flagAuto : Bool := false
  deriving DecidableEq, Repr

namespace Symbol
variable {ι : Type} (sym : Symbol ι)

/-- `sym_get_choice_prop`. -/
def getChoiceProp : Option (Property ι) := sym.prop.find? fun p => p.type = .choice

/-- The symbols that `expr_list_for_each_sym` visits in the choice property. -/
def choiceMembers : List ι :=
  match sym.getChoiceProp with
  | some { expr := .list members, .. } => members
  | _ => []

/-- The default properties, in the order of `for_all_defaults`. -/
def defaults : List (Property ι) := sym.prop.filter fun p => p.type = .default

/-- The range properties, in the order of `for_all_properties (sym, prop, P_RANGE)`. -/
def ranges : List (Property ι) := sym.prop.filter fun p => p.type = .range

/-- The properties with a text, in the order of `for_all_prompts`. -/
def prompts : List (Property ι) := sym.prop.filter fun p => p.text.isSome

end Symbol

/-- `prop_get_symbol`. -/
def propGetSymbol {ι : Type} (p : Property ι) : Option ι :=
  match p.expr with
  | .expr (.symbol s) => some s
  | _ => none

/-- The bounds `prop->expr->left.sym` and `prop->expr->right.sym` of a range. -/
def propRange {ι : Type} (p : Property ι) : Option (ι × ι) :=
  match p.expr with
  | .range left right => some (left, right)
  | _ => none

/-- What a `void *val` points to: nothing, a string, or the picked member of a choice. -/
inductive Val (ι : Type)
  | null
  | str (t : Text)
  | sym (s : ι)
  deriving DecidableEq, Repr

/-- `struct symbol_value`. -/
structure Value (ι : Type) where
  val : Val ι
  tri : Tristate
  deriving DecidableEq, Repr

/-- The string behind a value pointer. -/
def Val.text {ι : Type} : Val ι → Text
  | .str t => t
  | _ => []

structure SymState (ι : Type) where
  curr : Value ι := ⟨.null, .no⟩
  /-- `def[S_DEF_USER]` -/
  defUser : Value ι := ⟨.null, .no⟩
  visible : Tristate := .no
  dirDepTri : Tristate := .no
  revDepTri : Tristate := .no
  /-- The cached values of the `val_dep` entries, by position. -/
  valDepTri : ℕ → Tristate := fun _ => .no
  /-- `prop->visible.tri` of the prompts, by position. -/
  promptTri : ℕ → Tristate := fun _ => .no
  flagValid : Bool := false
  flagWrite : Bool := false
  flagDefUser : Bool := false

structure State (ι : Type) where
  sym : ι → SymState ι
  modulesVal : Tristate
  changeCount : ℕ

/-- The symbol table after `conf_parse`. -/
structure SymbolTable (ι : Type) where
  symbol : ι → Symbol ι
  symbolYes : ι
  symbolMod : ι
  symbolNo : ι
  /-- The buckets of `symbol_hash`, concatenated. -/
  symbolHash : List ι
  modulesSym : ι

namespace SymbolTable
variable {ι : Type} (G : SymbolTable ι)

/-- Every symbol there is: the constants and the hash table. -/
def symbols : List ι := G.symbolYes :: G.symbolMod :: G.symbolNo :: G.symbolHash

/-- The symbols `for_all_symbols` visits, in its order. -/
def allSymbols : List ι := G.symbolHash.filter fun s => (G.symbol s).type ≠ .other

def type (s : ι) : SymType := (G.symbol s).type

def isChoice (s : ι) : Bool := (G.symbol s).flagChoice

def isChoiceValue (s : ι) : Bool := (G.symbol s).flagChoiceval

/-- `prop_get_symbol(sym_get_choice_prop(sym))` for a choice value. -/
def choiceOf (s : ι) : Option ι := (G.symbol s).getChoiceProp.bind propGetSymbol

def members (s : ι) : List ι := (G.symbol s).choiceMembers

end SymbolTable

namespace State
variable {ι : Type} [DecidableEq ι]

def modify (σ : State ι) (s : ι) (f : SymState ι → SymState ι) : State ι :=
  { σ with sym := Function.update σ.sym s (f (σ.sym s)) }

@[simp] theorem modify_sym_self (σ : State ι) (s : ι) (f : SymState ι → SymState ι) :
    (σ.modify s f).sym s = f (σ.sym s) := by simp [modify]

@[simp] theorem modify_sym_of_ne (σ : State ι) {s t : ι} (f : SymState ι → SymState ι)
    (h : t ≠ s) : (σ.modify s f).sym t = σ.sym t := by simp [modify, h]

theorem modify_sym (σ : State ι) (s t : ι) (f : SymState ι → SymState ι) :
    (σ.modify s f).sym t = if t = s then f (σ.sym t) else σ.sym t := by
  by_cases h : t = s
  · subst h; simp
  · simp [h]

@[simp] theorem modify_modulesVal (σ : State ι) (s : ι) (f : SymState ι → SymState ι) :
    (σ.modify s f).modulesVal = σ.modulesVal := rfl

/-- `sym->flags |= SYMBOL_WRITE`. -/
def setWrite (σ : State ι) (s : ι) : State ι := σ.modify s fun st => { st with flagWrite := true }

@[simp] theorem modify_changeCount (σ : State ι) (s : ι) (f : SymState ι → SymState ι) :
    (σ.modify s f).changeCount = σ.changeCount := rfl

end State
end OpenADK.Kconfig
