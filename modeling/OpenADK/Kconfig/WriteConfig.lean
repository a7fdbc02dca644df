import OpenADK.Kconfig.Edit

/-!
# Writing a configuration

The menu tree, `menu_is_visible`, `conf_write` and `conf_write_defconfig`. Both writers walk the tree
in preorder, evaluate each symbol, and clear `SYMBOL_WRITE` of what they have seen. The
output is a list of items; `printItem` and `confHeading` print them.
-/

namespace OpenADK.Kconfig
open Tristate
variable {ι : Type}

/-! ### The menu tree -/

/-- The fields of a `struct menu` that the writers read. -/
structure MenuEntry (ι : Type) where
  sym : Option ι
  prompt : Option (Property ι) := none
  /-- The position of the prompt among the prompts of the symbol. -/
  promptIndex : ℕ := 0
  visibility : Option (Expr ι) := none

/-- A pointer to a `struct menu`: the entry, `menu->list` and `menu->next`. -/
inductive Menu (ι : Type)
  | null
  | menu (entry : MenuEntry ι) (list next : Menu ι)

/-- `rootmenu`. -/
structure RootMenu (ι : Type) where
  prompt : Text
  list : Menu ι

def Menu.syms : Menu ι → List ι
  | .null => []
  | .menu e list next => e.sym.toList ++ list.syms ++ next.syms

section
variable [DecidableEq ι] (G : SymbolTable ι)

/-- `menu_is_visible`, where `children` looks for a visible entry of `menu->list`. -/
def menuIsVisible (e : MenuEntry ι) (children : State ι → Bool × State ι) (σ : State ι) :
    Bool × State ι :=
  match e.prompt with
  | none => (false, σ)
  | some prompt =>
    let visibility := exprCalcValue G (symCalcValue G) e.visibility σ
    if visibility.1 = .no then (false, visibility.2)
    else
      match e.sym with
      | none =>
        let visible := exprCalcValue G (symCalcValue G) prompt.visible visibility.2
        (visible.1 ≠ .no, visible.2)
      | some s =>
        let σ := symCalcValue G s visibility.2
        if (σ.sym s).promptTri e.promptIndex ≠ .no then (true, σ)
        else if (σ.sym s).curr.tri = .no then (false, σ)
        else
          let child := children σ
          (child.1, if child.1 then child.2.modify s fun st => { st with flagDefUser := true }
            else child.2)

def anyVisible : Menu ι → State ι → Bool × State ι
  | .null, σ => (false, σ)
  | .menu e list next, σ =>
    let visible := menuIsVisible G e (anyVisible list) σ
    if visible.1 then (true, visible.2) else anyVisible next visible.2

/-! ### The output -/

inductive Item (ι : Type)
  | title (text : Text)
  | symbol (s : ι) (value : Text)
  deriving DecidableEq

/-- `sym_escape_string_value`, between the quotes. -/
def escape : Text → Text
  | [] => []
  | c :: cs => if c = '"' ∨ c = '\\' then '\\' :: c :: escape cs else c :: escape cs

/-- `kconfig_print_symbol`. -/
def printSymbol (name : Text) (type : SymType) (value : Text) : Text :=
  if (type = .boolean ∨ type = .tristate) ∧ value.head? = some 'n' then
    ['#', ' '] ++ name ++ ' ' :: isNotSet ++ ['\n']
  else name ++ '=' :: value ++ ['\n']

def printItem : Item ι → Text
  | .title text => ['\n', '#', '\n', '#', ' '] ++ text ++ ['\n', '#', '\n']
  | .symbol s value =>
    let name := (G.symbol s).name.getD []
    if G.type s = .string then printSymbol name .string ('"' :: escape value ++ ['"'])
    else printSymbol name (G.type s) value

def printCommentLine (line : Text) : Text :=
  '#' :: (if line = [] then [] else ' ' :: line) ++ ['\n']

/-- `kconfig_print_comment`. -/
def printComment (value : Text) : Text := (value.splitOn '\n').flatMap printCommentLine

/-- `Automatically generated file; DO NOT EDIT.` -/
def generatedNotice : Text :=
  ['A', 'u', 't', 'o', 'm', 'a', 't', 'i', 'c', 'a', 'l', 'l', 'y', ' ', 'g', 'e', 'n', 'e', 'r',
    'a', 't', 'e', 'd', ' ', 'f', 'i', 'l', 'e', ';', ' ', 'D', 'O', ' ', 'N', 'O', 'T', ' ', 'E',
    'D', 'I', 'T', '.']

/-- `conf_write_heading`, with its buffer of 256 bytes. -/
def confHeading (root : RootMenu ι) : Text :=
  printComment (('\n' :: generatedNotice ++ '\n' :: root.prompt ++ ['\n']).take 255)

/-- `conf_write_symbol`: the value to print. -/
def confWriteSymbol (s : ι) (σ : State ι) : List (Item ι) × State ι :=
  match G.type s with
  | .other | .unknown => ([], σ)
  | _ =>
    let value := symGetStringValue G (symCalcValue G) s σ
    ([.symbol s value.1], value.2)

/-- `sym->flags &= ~SYMBOL_WRITE`. -/
def clearWrite (s : ι) (σ : State ι) : State ι :=
  σ.modify s fun st => { st with flagWrite := false }

/-! ### `conf_write` -/

/-- What `conf_write` does with a symbol that is no choice. -/
def writeSymbol (s : ι) (σ : State ι) : List (Item ι) × State ι :=
  let σ := symCalcValue G s σ
  if (σ.sym s).flagWrite then confWriteSymbol G s (clearWrite s σ) else ([], σ)

/-- One entry in the loop of `conf_write`. -/
def writeEntry (e : MenuEntry ι) (list : Menu ι) (σ : State ι) : List (Item ι) × State ι :=
  match e.sym with
  | none =>
    let visible := menuIsVisible G e (anyVisible G list) σ
    (if visible.1 then [.title ((e.prompt.bind (·.text)).getD [])] else [], visible.2)
  | some s => if G.isChoice s then ([], σ) else writeSymbol G s σ

/-- The walk over the menu tree, with what is done at an entry. -/
def walk (visit : MenuEntry ι → Menu ι → State ι → List (Item ι) × State ι) :
    Menu ι → State ι → List (Item ι) × State ι
  | .null, σ => ([], σ)
  | .menu e list next, σ =>
    let here := visit e list σ
    let inner := walk visit list here.2
    let after := walk visit next inner.2
    (here.1 ++ inner.1 ++ after.1, after.2)

/-- How the file system answers a writer. -/
inductive Outcome
  | cannotOpen
  | renameFails
  | written
  deriving DecidableEq

/-- `conf_write`: whether it returns 1, what it has printed and the state. -/
def confWrite (root : RootMenu ι) (outcome : Outcome) (σ : State ι) :
    Bool × List (Item ι) × State ι :=
  match outcome with
  | .cannotOpen => (true, [], σ)
  | outcome =>
    let σ := if σ.changeCount = 0 then symClearAllValid G σ else σ
    let out := walk (writeEntry G) root.list σ
    if outcome = .renameFails then (true, out.1, out.2)
    else (false, out.1, { out.2 with changeCount := 0 })

def confText (root : RootMenu ι) (items : List (Item ι)) : Text :=
  confHeading root ++ items.flatMap (printItem G)

/-! ### `conf_write_defconfig` -/

def tristateText : Tristate → Text
  | .no => ['n']
  | .mod => ['m']
  | .yes => ['y']

/-- `sym_get_string_default`. -/
def symGetStringDefault (s : ι) (σ : State ι) : Text × State ι :=
  let σ := symCalcVisibility G (symCalcValue G) s σ
  let σ := symCalcValue G G.modulesSym σ
  let prop := symGetDefaultProp G (symCalcValue G) s σ
  match G.type s with
  | .boolean | .tristate =>
    let val : Tristate × State ι := match prop.1 with
      | none => (.no, prop.2)
      | some (p, tri) =>
        let val := propValue G (symCalcValue G) p prop.2
        (exprAnd val.1 tri, val.2)
    let σ := val.2
    let val := exprOr val.1 (σ.sym s).revDepTri
    let val :=
      if val = .mod ∧ ¬G.isChoiceValue s ∧ (σ.sym G.modulesSym).curr.tri = .no then .yes else val
    let val := if G.type s = .boolean ∧ val = .mod then .yes else val
    (tristateText val, σ)
  | .int | .hex | .string =>
    match prop.1.bind fun p => propGetSymbol p.1 with
    | some ds =>
      let σ := symCalcValue G ds prop.2
      ((σ.sym ds).curr.val.text, σ)
    | none => ([], prop.2)
  | _ => ([], prop.2)

/-- `sym_is_changable`. -/
def symIsChangable (s : ι) (st : SymState ι) : Bool := selectTri G s st < st.visible

/-- Whether the symbol is the default of its choice, which is not optional. -/
def isChoiceDefault (s : ι) (σ : State ι) : Bool × State ι :=
  match G.isChoiceValue s, G.choiceOf s with
  | true, some cs =>
    let ds := symChoiceDefault G (symCalcValue G) cs σ
    (!(G.symbol cs).flagOptional && ds.1 = some s && G.type s = .boolean &&
      (ds.2.sym s).curr.tri = .yes, ds.2)
  | _, _ => (false, σ)

/-- What `conf_write_defconfig` does with a symbol that is no choice. -/
def writeDefSymbol (s : ι) (σ : State ι) : List (Item ι) × State ι :=
  let σ := symCalcValue G s σ
  if (σ.sym s).flagWrite then
    let σ := clearWrite s σ
    if symIsChangable G s (σ.sym s) then
      let value := symGetStringValue G (symCalcValue G) s σ
      let dflt := symGetStringDefault G s value.2
      if value.1 = dflt.1 then ([], dflt.2)
      else
        let skip := isChoiceDefault G s dflt.2
        if skip.1 then ([], skip.2) else confWriteSymbol G s skip.2
    else ([], σ)
  else ([], σ)

/-- One entry in the loop of `conf_write_defconfig`. -/
def writeDefEntry (e : MenuEntry ι) (list : Menu ι) (σ : State ι) : List (Item ι) × State ι :=
  match e.sym with
  | none => ([], (menuIsVisible G e (anyVisible G list) σ).2)
  | some s => if G.isChoice s then ([], σ) else writeDefSymbol G s σ

/-- `conf_write_defconfig`: whether it returns 1, what it has printed and the state. -/
def confWriteDefconfig (root : RootMenu ι) (opens : Bool) (σ : State ι) :
    Bool × List (Item ι) × State ι :=
  if opens then
    let out := walk (writeDefEntry G) root.list (symClearAllValid G σ)
    (false, out.1, out.2)
  else (true, [], σ)

end
end OpenADK.Kconfig
