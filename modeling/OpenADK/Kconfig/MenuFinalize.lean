import OpenADK.Kconfig.Submenu

/-!
# The menu structure

`menu_finalize`, from the tree that parsing leaves. It hands the conditions of an entry down to what is
below it, moves entries under the one before them, and puts the entries below one without a prompt
after it. An entry is reached through `menu->list` and `menu->next` of the entries before it; these
pointers are the structure of a `Chain`, and `menu->parent` is a field.
-/

namespace OpenADK.Kconfig
namespace MenuFinalize
variable {ι : Type}

/-- The fields of a `struct menu` that `menu_finalize` reads or writes. The prompt of an entry with a
symbol is a property of the symbol. -/
structure Entry (ι : Type) where
  id : MenuId
  parent : Option MenuId
  sym : Option ι
  dep : Option (Expr ι) := none
  prompt : Option (Property ι) := none

/-- A `struct menu *`: the entry, `menu->list` and `menu->next`. -/
inductive Chain (ι : Type)
  | null
  | menu (entry : Entry ι) (list next : Chain ι)

structure Node (ι : Type) where
  entry : Entry ι
  list : Chain ι
  next : Chain ι

/-- The symbols, and the entries on which `menu_finalize` has been called. -/
structure Pass (ι : Type) where
  table : SymbolTable ι
  calls : List MenuId

namespace Chain

/-- The pointer is not `NULL`. -/
def isMenu : Chain ι → Bool
  | null => false
  | menu .. => true

def preorder : Chain ι → List MenuId
  | null => []
  | menu m list next => m.id :: list.preorder ++ next.preorder

def entries : Chain ι → List (Entry ι)
  | null => []
  | menu m _ next => m :: next.entries

/-- The entries below an entry have it as their parent, at every depth. -/
def Parented (parent : Option MenuId) : Chain ι → Prop
  | null => True
  | menu m list next => m.parent = parent ∧ Parented (some m.id) list ∧ Parented parent next

/-- `last->next = c`. -/
def append : Chain ι → Chain ι → Chain ι
  | null, c => c
  | menu m list next, c => menu m list (append next c)

/-- `menu->parent = parent` for the entries of the chain. -/
def setParent (parent : MenuId) : Chain ι → Chain ι
  | null => null
  | menu m list next => menu { m with parent := some parent } list (setParent parent next)

end Chain

def Node.preorder (node : Node ι) : List MenuId :=
  node.entry.id :: node.list.preorder ++ node.next.preorder

section
variable [DecidableEq ι] (G : SymbolTable ι)

/-! ### Conditions -/

/-- `expr_trans_bool`. -/
def exprTransBool : Expr ι → Expr ι
  | .and l r => .and (exprTransBool l) (exprTransBool r)
  | .or l r => .or (exprTransBool l) (exprTransBool r)
  | .not e => .not (exprTransBool e)
  | .unequal s t => if G.type s = .tristate ∧ t = G.symbolNo then .symbol s else .unequal s t
  | e => e

/-- `expr_eliminate_dups (expr_alloc_and (e1, expr_transform (e2)))`. -/
def joinConditions (e1 e2 : Option (Expr ι)) : Option (Expr ι) :=
  (exprAllocAnd e1 (e2.map (exprTransform G))).map fun e => (exprEliminateDups G e.height e).1

/-- `menu->prompt`: of the properties that parsing adds for an entry, the last one with a text. -/
def promptOf (m : Entry ι) : Option (Property ι) :=
  match m.sym with
  | none => m.prompt
  | some s => (G.symbol s).prop.reverse.find? fun p => p.menu = some m.id ∧ p.text.isSome

/-- The condition of the prompt, or of the entry when it has no prompt. -/
def conditionOf (m : Entry ι) : Option (Expr ι) :=
  match promptOf G m with
  | some prompt => prompt.visible
  | none => m.dep

/-- `parentdep`. -/
def parentDep (m : Entry ι) : Option (Expr ι) :=
  match m.sym with
  | some s => if G.isChoice s then some (.symbol s) else conditionOf G m
  | none => conditionOf G m

end

section
variable [DecidableEq ι]

def Pass.modify (p : Pass ι) (s : ι) (f : Symbol ι → Symbol ι) : Pass ι :=
  { p with table := { p.table with symbol := Function.update p.table.symbol s (f (p.table.symbol s)) } }

/-- `menu_set_type`. -/
def menuSetType (type : SymType) (s : ι) (p : Pass ι) : Pass ι :=
  if p.table.type s = .unknown then p.modify s fun sym => { sym with type := type } else p

def setChoiceTypes (choice : ι) (members : List (Entry ι)) (p : Pass ι) : Pass ι :=
  let typed := members.findSome? fun m => m.sym.bind fun s =>
    if p.table.type s ≠ .unknown then some (p.table.type s) else none
  let p := match typed with
    | some type => menuSetType type choice p
    | none => p
  members.foldl (fun p m => match m.sym with
    | some s => menuSetType (p.table.type choice) s p
    | none => p) p

def setTypes (node : Node ι) (p : Pass ι) : Pass ι :=
  match node.entry.sym with
  | some s => if p.table.isChoice s then setChoiceTypes s node.list.entries p else p
  | none => p

/-- `finalize_select`. -/
def finalizeSelect (sym : ι) (prop : Property ι) (p : Pass ι) : Pass ι :=
  match propGetSymbol prop with
  | none => p
  | some es =>
    let dep := match prop.visible with
      | some e => .and (.symbol sym) e
      | none => .symbol sym
    match prop.value with
    | some value => p.modify es fun s => { s with valDep := ⟨dep, value⟩ :: s.valDep }
    | none => p.modify es fun s => { s with revDep := exprAllocOr s.revDep (some dep) }

def finalizeProp (G : SymbolTable ι) (m : Entry ι) (prop : Property ι) : Property ι :=
  let dep := joinConditions G m.dep prop.visible
  let isBool : Bool := match m.sym with
    | some s => G.type s ≠ .tristate
    | none => false
  { prop with visible := if isBool then dep.map (exprTransBool G) else dep }

/-- `menu_finalize` hands the condition of the parent down to an entry. -/
def inheritDep (parentdep : Option (Expr ι)) (m : Entry ι) (p : Pass ι) : Entry ι × Pass ι :=
  let m := { m with dep := joinConditions p.table parentdep m.dep }
  match m.sym with
  | none =>
    ({ m with
        prompt := m.prompt.map fun prop =>
          if prop.menu = some m.id then finalizeProp p.table m prop else prop }, p)
  | some s =>
    let props := (p.table.symbol s).prop.map fun prop =>
      if prop.menu = some m.id then finalizeProp p.table m prop else prop
    let p := p.modify s fun sym => { sym with prop := props }
    (m, (props.filter fun prop => prop.menu = some m.id ∧ prop.type = .select).foldl
      (fun p prop => finalizeSelect s prop p) p)

def inheritDeps (parentdep : Option (Expr ι)) : Chain ι → Pass ι → Chain ι × Pass ι
  | .null, p => (.null, p)
  | .menu m list next, p =>
    let out := inheritDep parentdep m p
    let rest := inheritDeps parentdep next out.2
    (.menu out.1 list rest.1, rest.2)

def addChoiceValue (parent m : Entry ι) (p : Pass ι) : Entry ι × Pass ι :=
  match parent.sym, m.sym with
  | some choice, some s =>
    if p.table.isChoice choice ∧ ¬p.table.isChoiceValue s then
      let onlyYes : Expr ι := .equal choice p.table.symbolYes
      let boolMember := p.table.type choice = .tristate ∧ p.table.type s ≠ .tristate
      let p := p.modify s fun sym =>
        { sym with
          flagChoiceval := true
          prop := (if boolMember then
              sym.prop.map fun prop => if prop.menu = some m.id then
                { prop with visible := exprAllocAnd (some onlyYes) prop.visible } else prop
            else sym.prop) ++
            [{ type := .choice, expr := .expr (.symbol choice), menu := some m.id }] }
      let p := p.modify choice fun sym =>
        { sym with
          prop := sym.prop.map fun prop => if sym.getChoiceProp = some prop then
            { prop with expr := .list (sym.choiceMembers ++ [s]) } else prop }
      (if boolMember then { m with dep := exprAllocAnd (some onlyYes) m.dep } else m, p)
    else (m, p)
  | _, _ => (m, p)

/-- A visible symbol that is not optional is at least `m`. -/
def limitRevDep (m : Entry ι) (p : Pass ι) : Pass ι :=
  match m.sym, promptOf p.table m with
  | some s, some prompt =>
    if (p.table.symbol s).flagOptional then p
    else
      let visible := match prompt.visible with
        | some e => .and e (.symbol p.table.symbolMod)
        | none => .symbol p.table.symbolMod
      p.modify s fun sym =>
        { sym with
          revDep := exprAllocOr sym.revDep (some visible)
          valDep := sym.valDep.map fun esv => { esv with expr := .or esv.expr visible } }
  | _, _ => p

/-! ### `menu_finalize` -/

/-- A result of `menu_finalize`, and nothing when the recursion is too deep. -/
abbrev Result (ι : Type) := Option (Pass ι × Node ι)

/-- The loop over `parent->list` that calls `menu_finalize`. -/
def finalizeList (finalize : Pass ι → Node ι → Result ι) : ℕ → Pass ι → Chain ι →
    Option (Pass ι × Chain ι)
  | _, p, .null => some (p, .null)
  | 0, _, .menu .. => none
  | n + 1, p, .menu m list next =>
    (finalize p ⟨m, list, next⟩).bind fun out =>
      (finalizeList finalize n out.1 out.2.next).map fun rest =>
        (rest.1, .menu out.2.entry out.2.list rest.2)

/-- The loop over the entries after `parent`: those that are moved, and the rest. -/
def moveEntries (finalize : Pass ι → Node ι → Result ι) (parent : MenuId) (basedep : Expr ι)
    (sym : ι) : ℕ → Pass ι → Chain ι → Option (Pass ι × Chain ι × Chain ι)
  | _, p, .null => some (p, .null, .null)
  | 0, _, .menu .. => none
  | n + 1, p, .menu m list next =>
    if dependsOnEntry p.table basedep sym (conditionOf p.table m) then
      (finalize p ⟨m, list, next⟩).bind fun out =>
        (moveEntries finalize parent basedep sym n out.1 out.2.next).map fun rest =>
          (rest.1, .menu { out.2.entry with parent := some parent } out.2.list rest.2.1, rest.2.2)
    else some (p, .null, .menu m list next)

/-- The loop over `parent->list` after that: choice values, and entries without a prompt. -/
def finishList (parent : Entry ι) : ℕ → Pass ι → Chain ι → Option (Pass ι × Chain ι)
  | _, p, .null => some (p, .null)
  | 0, _, .menu .. => none
  | n + 1, p, .menu m list next =>
    let out := addChoiceValue parent m p
    if list.isMenu ∧ ((promptOf out.2.table out.1).bind fun prompt => prompt.text) = none then
      (finishList parent n out.2 ((list.setParent parent.id).append next)).map fun rest =>
        (rest.1, .menu out.1 .null rest.2)
    else
      (finishList parent n out.2 next).map fun rest => (rest.1, .menu out.1 list rest.2)

/-- What `menu_finalize` does before it looks at `parent->list` for the last time. -/
def finalizeBelow (finalize : Pass ι → Node ι → Result ι) (n : ℕ) (p : Pass ι) (node : Node ι) :
    Result ι :=
  if node.list.isMenu then
    let p := setTypes node p
    let out := inheritDeps (parentDep p.table node.entry) node.list p
    (finalizeList finalize n out.2 out.1).map fun rest => (rest.1, { node with list := rest.2 })
  else
    match node.entry.sym with
    | some s =>
      let basedep := comparedCondition p.table
        ((promptOf p.table node.entry).bind fun prompt => prompt.visible)
      (moveEntries finalize node.entry.id basedep s n p node.next).map fun rest =>
        (rest.1.modify s fun sym =>
            { sym with dirDep := exprAllocOr sym.dirDep node.entry.dep },
          { node with list := rest.2.1, next := rest.2.2 })
    | none => some (p, node)

/-- `menu_finalize`, to the given depth of recursion. -/
def menuFinalize : ℕ → Pass ι → Node ι → Result ι
  | 0, _, _ => none
  | n + 1, p, node =>
    (finalizeBelow (menuFinalize n) n { p with calls := p.calls ++ [node.entry.id] } node).bind
      fun out => (finishList out.2.entry n out.1 out.2.list).map fun rest =>
        (limitRevDep out.2.entry rest.1, { out.2 with list := rest.2 })

end
end MenuFinalize
end OpenADK.Kconfig
