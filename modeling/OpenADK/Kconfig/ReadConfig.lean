import OpenADK.Kconfig.Calc

/-!
# Reading a configuration

`conf_read_simple` with `S_DEF_USER`, and `conf_read`. `CONFIG_` is the empty string, its
value when the environment does not set it, so every line that does not start with `#` is
taken for an assignment. The file is what `zconf_fopen` returned, without NUL characters and without
a last line of a single `#` that lacks its newline: there `conf_read_simple` looks at what the buffer
held before.
-/

namespace OpenADK.Kconfig
open Tristate

/-! ### Lines -/

/-- The lines that `compat_getline` returns, each with its newline. -/
def confLines : Text → List Text
  | [] => []
  | c :: cs =>
    if c = '\n' then [c] :: confLines cs
    else
      match confLines cs with
      | [] => [[c]]
      | line :: lines => (c :: line) :: lines

/-- What is before and after the first `c`, as `strchr` finds it. -/
def strchr (c : Char) (t : Text) : Option (Text × Text) :=
  match t.dropWhile (· ≠ c) with
  | [] => none
  | _ :: rest => some (t.takeWhile (· ≠ c), rest)

/-- The text up to the newline, without a carriage return before it. -/
def chomp (p : Text) : Text :=
  match strchr '\n' p with
  | none => p
  | some (value, _) => if value.getLast? = some '\r' then value.dropLast else value

inductive ConfLine
  | unset (name : Text)
  | assign (name value : Text)
  | ignored
  deriving DecidableEq, Repr

/-- `is not set` -/
def isNotSet : Text := ['i', 's', ' ', 'n', 'o', 't', ' ', 's', 'e', 't']

def parseLine (line : Text) : ConfLine :=
  match line with
  | '#' :: _ :: rest =>
    match strchr ' ' rest with
    | some (name, p) => if isNotSet.isPrefixOf p then .unset name else .ignored
    | none => .ignored
  | ['#'] => .ignored
  | line =>
    match strchr '=' line with
    | some (name, p) => .assign name (chomp p)
    | none => .ignored

/-- The text up to the closing quote, without the backslashes that escape. -/
def unescape : Text → Option Text
  | [] => none
  | '"' :: _ => some []
  | ['\\'] => none
  | '\\' :: c :: cs => (unescape cs).map (c :: ·)
  | c :: cs => (unescape cs).map (c :: ·)

/-! ### Numbers -/

def isDigit (c : Char) : Bool := '0' ≤ c && c ≤ '9'

def isXDigit (c : Char) : Bool :=
  isDigit c || ('a' ≤ c && c ≤ 'f') || ('A' ≤ c && c ≤ 'F')

/-- The `S_INT` case of `sym_string_valid`, after the sign. -/
def intDigitsValid : Text → Bool
  | [] => false
  | c :: cs => isDigit c && !(c = '0' && !cs.isEmpty) && cs.all isDigit

def intValid : Text → Bool
  | '-' :: cs => intDigitsValid cs
  | cs => intDigitsValid cs

/-- The digits after an optional `0x`. -/
def hexDigits : Text → Text
  | '0' :: 'x' :: cs => cs
  | '0' :: 'X' :: cs => cs
  | cs => cs

def hexValid (str : Text) : Bool := !(hexDigits str).isEmpty && (hexDigits str).all isXDigit

/-- The tristate that the first character of a value names, in either case. -/
def tristateOfText : Text → Option Tristate
  | 'y' :: _ | 'Y' :: _ => some .yes
  | 'm' :: _ | 'M' :: _ => some .mod
  | 'n' :: _ | 'N' :: _ => some .no
  | _ => none

/-- `sym_string_valid`. -/
def symStringValid (type : SymType) (str : Text) : Bool :=
  match type with
  | .string => true
  | .int => intValid str
  | .hex => hexValid str
  | .boolean | .tristate => (tristateOfText str).isSome
  | _ => false

/-! ### `conf_read_simple` -/

/-- The state and `conf_warnings`. -/
structure Reading (ι : Type) where
  state : State ι
  warnings : ℕ

section
variable {ι : Type} [DecidableEq ι] (G : SymbolTable ι)

/-- `sym_find`. -/
def symFind (name : Text) : Option ι :=
  match name with
  | ['y'] => some G.symbolYes
  | ['m'] => some G.symbolMod
  | ['n'] => some G.symbolNo
  | name => G.symbolHash.find? fun s => (G.symbol s).name = some name ∧ ¬(G.symbol s).flagConst

namespace Reading

/-- `conf_warning`. -/
def warn (ρ : Reading ι) : Reading ι := { ρ with warnings := ρ.warnings + 1 }

def modify (ρ : Reading ι) (s : ι) (f : SymState ι → SymState ι) : Reading ι :=
  { ρ with state := ρ.state.modify s f }

@[simp] theorem modify_state (ρ : Reading ι) (s : ι) (f : SymState ι → SymState ι) :
    (ρ.modify s f).state = ρ.state.modify s f := rfl

/-- `sym_add_change_count (1)`. -/
def addChange (ρ : Reading ι) : Reading ι :=
  { ρ with state := { ρ.state with changeCount := ρ.state.changeCount + 1 } }

/-- The warning about a symbol that has been set before. -/
def warnOverride (s : ι) (ρ : Reading ι) : Reading ι :=
  if (ρ.state.sym s).flagDefUser then ρ.warn else ρ

def setTri (s : ι) (tri : Tristate) (ρ : Reading ι) : Reading ι :=
  ρ.modify s fun st => { st with defUser := { st.defUser with tri := tri }, flagDefUser := true }

def setVal (s : ι) (val : Text) (ρ : Reading ι) : Reading ι :=
  ρ.modify s fun st =>
    { st with defUser := { st.defUser with val := .str val }, flagDefUser := true }

end Reading

/-- `conf_set_sym_val`: whether the value was accepted. -/
def confSetSymVal (s : ι) (p : Text) (ρ : Reading ι) : Bool × Reading ι :=
  match G.type s with
  | .tristate =>
    match p with
    | 'm' :: _ => (true, ρ.setTri s .mod)
    | 'y' :: _ => (true, ρ.setTri s .yes)
    | 'n' :: _ => (true, ρ.setTri s .no)
    | _ => (false, ρ.warn)
  | .boolean =>
    match p with
    | 'y' :: _ => (true, ρ.setTri s .yes)
    | 'n' :: _ => (true, ρ.setTri s .no)
    | _ => (false, ρ.warn)
  | .string =>
    match p with
    | '"' :: p =>
      match unescape p with
      | some p => (true, ρ.setVal s p)
      | none => (false, ρ.warn)
    | _ => (true, ρ)
  | .int | .hex =>
    if symStringValid (G.type s) p then (true, ρ.setVal s p) else (false, ρ.warn)
  | _ => (true, ρ)

/-- The code at `setsym`: a choice value tells its choice. -/
def tellChoice (s : ι) (ρ : Reading ι) : Reading ι :=
  match G.isChoiceValue s, G.choiceOf s with
  | true, some cs =>
    let tri := (ρ.state.sym s).defUser.tri
    let ρ : Reading ι := match tri with
      | .no => ρ
      | .mod =>
        if (ρ.state.sym cs).defUser.tri = .yes then
          ρ.warn.modify cs fun st => { st with flagDefUser := false }
        else ρ
      | .yes =>
        (if (ρ.state.sym cs).defUser.tri ≠ .no then ρ.warn else ρ).modify cs fun st =>
          { st with defUser := { st.defUser with val := .sym s } }
    ρ.modify cs fun st =>
      { st with defUser := { st.defUser with tri := exprOr st.defUser.tri tri } }
  | _, _ => ρ

def readLine (ρ : Reading ι) (line : Text) : Reading ι :=
  match parseLine line with
  | .ignored => ρ
  | .unset name =>
    match symFind G name with
    | none => ρ.addChange
    | some s =>
      let ρ := ρ.warnOverride s
      let ρ := if G.type s = .boolean ∨ G.type s = .tristate then ρ.setTri s .no else ρ
      tellChoice G s ρ
  | .assign name value =>
    match symFind G name with
    | none => ρ.addChange
    | some s =>
      let set := confSetSymVal G s value (ρ.warnOverride s)
      if set.1 then tellChoice G s set.2 else set.2

/-- The loop over `for_all_symbols` that drops the user's values. -/
def dropUserValues (σ : State ι) : State ι :=
  G.allSymbols.foldl (fun σ s => σ.modify s fun st =>
    { st with flagValid := false, flagDefUser := G.isChoice s, defUser := ⟨.null, .no⟩ }) σ

def loadFile (file : Text) (σ : State ι) : Reading ι :=
  (confLines file).foldl (readLine G) ⟨dropUserValues G σ, 0⟩

/-- The file that `conf_read_simple` opens. -/
inductive ConfFile (ι : Type)
  | opened (contents : Text)
  /-- There is no `.config`, but a file that a default of `sym_defconfig_list` names. The
  conditions of the defaults evaluate some symbols. -/
  | fallback (evaluated : List ι) (contents : Text)
  /-- The file with the given name cannot be opened. -/
  | missing
  /-- No name is given, and there is no file to fall back to. -/
  | absent

/-- `conf_read_simple (name, S_DEF_USER)`: nothing when it returns 1, else `conf_warnings`. -/
def confReadSimple (file : ConfFile ι) (σ : State ι) : Option ℕ × State ι :=
  match file with
  | .missing => (none, σ)
  | .absent =>
    (none, symCalcValue G G.modulesSym { σ with changeCount := σ.changeCount + 1 })
  | .opened contents =>
    let ρ := loadFile G contents σ
    (some ρ.warnings, symCalcValue G G.modulesSym ρ.state)
  | .fallback evaluated contents =>
    let σ := symCalcList G evaluated { σ with changeCount := σ.changeCount + 1 }
    let ρ := loadFile G contents σ
    (some ρ.warnings, symCalcValue G G.modulesSym ρ.state)

/-! ### `conf_read` -/

/-- The comparison of a calculated value with the value of the file. -/
def agreesWithFile (s : ι) (st : SymState ι) : Bool :=
  match G.type s with
  | .boolean | .tristate => st.defUser.tri = st.curr.tri
  | _ => st.curr.val.text = st.defUser.val.text

/-- Whether `conf_read` counts the symbol in `conf_unsaved`. -/
def countsUnsaved (s : ι) (st : SymState ι) : Bool :=
  if G.isChoice s || (G.symbol s).flagAuto then false
  else if st.flagDefUser && st.flagWrite then !agreesWithFile G s st
  else st.flagDefUser || st.flagWrite

/-- The loop of `conf_read` that calculates all symbols, with `conf_unsaved`. -/
def calcUnsaved : List ι → ℕ → State ι → ℕ × State ι
  | [], unsaved, σ => (unsaved, σ)
  | s :: syms, unsaved, σ =>
    let σ := symCalcValue G s σ
    calcUnsaved syms (if countsUnsaved G s (σ.sym s) then unsaved + 1 else unsaved) σ

/-- `sym_string_within_range` for a string, int or hex symbol. -/
def symStringWithinRange (s : ι) (str : Text) (σ : State ι) : Bool × State ι :=
  match numberBase (G.type s) with
  | none => (symStringValid (G.type s) str, σ)
  | some base =>
    if symStringValid (G.type s) str then
      let prop := symGetRangeProp G (symCalcValue G) s σ
      match prop.1.bind fun p => propRange p.1 with
      | none => (true, prop.2)
      | some (left, right) =>
        let val := strtoll base str
        let low := symGetRangeVal G (symCalcValue G) left base prop.2
        if val ≥ low.1 then
          let high := symGetRangeVal G (symCalcValue G) right base low.2
          (val ≤ high.1, high.2)
        else (false, low.2)
    else (false, σ)

/-- What the last loop of `conf_read` does with a symbol that has a value and is no choice value. -/
def resetValue (s : ι) (unsaved : ℕ) (σ : State ι) : ℕ × State ι :=
  let σ :=
    if (σ.sym s).visible = .no ∧ unsaved = 0 then
      σ.modify s fun st => { st with flagDefUser := false }
    else σ
  match G.type s with
  | .string | .int | .hex =>
    let within := symStringWithinRange G s (σ.sym s).defUser.val.text σ
    if within.1 then (unsaved, within.2)
    else (unsaved + 1, within.2.modify s fun st => { st with flagValid := false, flagDefUser := false })
  | _ => (unsaved, σ)

def resetValues : List ι → ℕ → State ι → ℕ × State ι
  | [], unsaved, σ => (unsaved, σ)
  | s :: syms, unsaved, σ =>
    let next :=
      if (σ.sym s).flagDefUser ∧ ¬G.isChoiceValue s then resetValue G s unsaved σ else (unsaved, σ)
    resetValues syms next.1 next.2

/-- `conf_read`, with its return value. -/
def confRead (file : ConfFile ι) (σ : State ι) : Bool × State ι :=
  let simple := confReadSimple G file { σ with changeCount := 0 }
  match simple.1 with
  | none => (true, simple.2)
  | some warnings =>
    let unsaved := calcUnsaved G G.allSymbols 0 simple.2
    let unsaved := resetValues G G.allSymbols unsaved.1 unsaved.2
    let changed := if warnings ≠ 0 ∨ unsaved.1 ≠ 0 then 1 else 0
    (false, { unsaved.2 with changeCount := unsaved.2.changeCount + changed })

end
end OpenADK.Kconfig
