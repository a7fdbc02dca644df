import OpenADK.Kconfig.ReadConfig

/-!
# Setting a symbol

`sym_tristate_within_range`, `sym_set_tristate_value` and `sym_set_string_value`. They look
at what the last evaluation left in the symbol and end with `sym_clear_all_valid` when the value
changes.
-/

namespace OpenADK.Kconfig
open Tristate
variable {ι : Type} [DecidableEq ι] (G : SymbolTable ι)

/-- The maximum of `rev_dep.tri` and of the values in `val_dep`, as the last visibility
calculation left them. -/
def selectTri (s : ι) (st : SymState ι) : Tristate :=
  (G.symbol s).valDep.zipIdx.foldl (fun tri esv => exprOr tri (st.valDepTri esv.2)) st.revDepTri

/-- `sym_tristate_within_range`. -/
def symTristateWithinRange (s : ι) (val : Tristate) (σ : State ι) : Bool :=
  let type := symGetType G σ s
  let visible := (σ.sym s).visible
  let tri := selectTri G s (σ.sym s)
  if visible = .no then false
  else if type ≠ .boolean ∧ type ≠ .tristate then false
  else if type = .boolean ∧ val = .mod then false
  else if visible ≤ tri then false
  else if G.isChoiceValue s ∧ visible = .yes then val = .yes
  else tri ≤ val ∧ val ≤ visible

def markVisibleSet (members : List ι) (σ : State ι) : State ι :=
  members.foldl (fun σ m =>
    if (σ.sym m).visible ≠ .no then σ.modify m fun st => { st with flagDefUser := true } else σ) σ

/-- The choice of a value that is set to `y` picks it. -/
def setPick (s : ι) (σ : State ι) : State ι :=
  match G.choiceOf s with
  | none => σ
  | some cs =>
    markVisibleSet (G.members cs) (σ.modify cs fun st =>
      { st with defUser := { st.defUser with val := .sym s }, flagDefUser := true })

/-- `sym_set_tristate_value`. -/
def symSetTristateValue (s : ι) (val : Tristate) (σ : State ι) : Bool × State ι :=
  let oldval := (σ.sym s).curr.tri
  if oldval ≠ val ∧ ¬symTristateWithinRange G s val σ then (false, σ)
  else
    let σ := σ.modify s fun st => { st with flagDefUser := true }
    let σ := if G.isChoiceValue s ∧ val = .yes then setPick G s σ else σ
    let σ := σ.modify s fun st => { st with defUser := { st.defUser with tri := val } }
    (true, if oldval ≠ val then symClearAllValid G σ else σ)

/-- Whether a hexadecimal number starts with `0x`. -/
def hasHexPrefix : Text → Bool
  | '0' :: 'x' :: _ | '0' :: 'X' :: _ => true
  | _ => false

/-- `sym_set_string_value` on a symbol that is neither boolean nor tristate. -/
def setString (s : ι) (newval : Text) (σ : State ι) : Bool × State ι :=
  let within := symStringWithinRange G s newval σ
  if within.1 then
    let σ := within.2.modify s fun st => { st with flagDefUser := true }
    let store (val : Text) : Bool × State ι :=
      (true, symClearAllValid G (σ.modify s fun st =>
        { st with defUser := { st.defUser with val := .str val } }))
    if G.type s = .hex ∧ ¬hasHexPrefix newval then store ('0' :: 'x' :: newval)
    else if (σ.sym s).defUser.val ≠ .str newval then store newval
    else (true, σ)
  else (false, within.2)

/-- `sym_set_string_value`. -/
def symSetStringValue (s : ι) (newval : Text) (σ : State ι) : Bool × State ι :=
  match G.type s with
  | .boolean | .tristate =>
    match tristateOfText newval with
    | some val => symSetTristateValue G s val σ
    | none => (false, σ)
  | _ => setString G s newval σ

end OpenADK.Kconfig
