import OpenADK.Kconfig.Choices

/-!
# Selects that carry a value

`select <symbol> <value> if <condition>` adds an entry to `val_dep` of an int, hex or string
symbol, which `sym_is_changable` then does not let the user change. `sym_calc_value` looks at the
user's value before it looks at the entries.
-/

namespace OpenADK.Kconfig
open Tristate
namespace SymbolTable
variable {ι : Type}

def selectedSymIn (G : SymbolTable ι) (mv : Tristate) (env : Env ι) (s : ι) : Option ι :=
  (G.activeIn mv env s).head?.bind fun esv => valueSym esv.value

/-- Some entry of `val_dep` has the condition `y`. -/
def Selected (G : SymbolTable ι) (mv : Tristate) (env : Env ι) (s : ι) : Prop :=
  ∃ esv ∈ (G.symbol s).valDep, G.selectIn mv env s esv = .yes

/-- The value of `s` is that of the symbol `v`, within the range of `s`. -/
def TakesValue (G : SymbolTable ι) (env : Env ι) (s v : ι) : Prop :=
  (env s).val = G.clampIn env s (env v).val

/-- The user has no say in the value of `s`, or says what the symbol `v` says. -/
def UserAgrees (G : SymbolTable ι) (user : UserValue ι) (mv : Tristate) (env : Env ι) (s v : ι) :
    Prop :=
  G.visibleIn mv env s ≠ .no → user.has → G.clampIn env s user.value.val = G.clampIn env s (env v).val

section
variable {G : SymbolTable ι} {mv : Tristate} {env : Env ι} {user : UserValue ι} {s v : ι}

theorem stringValueIn_selected (h : G.selectedSymIn mv env s = some v) :
    G.stringValueIn user mv env s =
      if G.visibleIn mv env s ≠ .no ∧ user.has then user.value.val else (env v).val := by
  unfold stringValueIn
  unfold selectedSymIn at h
  rw [h]

end

section
variable [DecidableEq ι] {G : SymbolTable ι} {user : ι → UserValue ι} {stale : ι → Prop}
variable {σ : State ι} {s v : ι}

theorem Current.val_selected (h : G.Current user σ s)
    (ht : G.type s = .int ∨ G.type s = .hex ∨ G.type s = .string)
    (hv : G.selectedSymIn σ.modulesVal (envOf σ) s = some v) :
    (envOf σ s).val = G.clampIn (envOf σ) s
      (if G.visibleIn σ.modulesVal (envOf σ) s ≠ .no ∧ (user s).has then (user s).value.val
        else (envOf σ v).val) := by
  have heq := congrArg Value.val h
  rw [valueIn_string ht, stringValueIn_selected hv] at heq
  exact heq

/-- In a computed state the first active entry gives its value to a symbol that is not stale exactly
when the user does not say otherwise. -/
theorem takesValue_iff (hG : G.Finalized) (h : G.Stratified) (hσ : G.Traced user stale σ)
    (hall : ∀ t, (σ.sym t).flagValid) (hs : s ∈ G.symbolHash) (hst : ¬stale s)
    (ht : G.type s = .int ∨ G.type s = .hex ∨ G.type s = .string)
    (hv : G.selectedSymIn σ.modulesVal (envOf σ) s = some v) :
    G.TakesValue (envOf σ) s v ↔ G.UserAgrees (user s) σ.modulesVal (envOf σ) s v := by
  have hval := ((hσ.tracks hG h).current hall hs hst).val_selected ht hv
  unfold TakesValue UserAgrees
  rw [hval]
  by_cases hu : G.visibleIn σ.modulesVal (envOf σ) s ≠ .no ∧ (user s).has
  · rw [if_pos hu]
    exact ⟨fun heq _ _ => heq, fun heq => heq hu.1 hu.2⟩
  · rw [if_neg hu]
    exact ⟨fun _ hvis hhas => absurd ⟨hvis, hhas⟩ hu, fun _ => rfl⟩

end
end SymbolTable

namespace SelectedNumber

/-! ### A select with a value that loses -/

/-- The symbols of
```
config X
	bool "x"
	select S 5
config S
	int "s"
```
with the constants. -/
inductive Name
  | y | m | n | x | num | five
  deriving DecidableEq

open Name

instance : Fintype Name := ⟨{y, m, n, x, num, five}, by intro s; cases s <;> decide⟩

def table : SymbolTable Name where
  symbolYes := y
  symbolMod := m
  symbolNo := n
  symbolHash := [x, num, five]
  modulesSym := n
  symbol
    | y => { name := some ['y'], type := .unknown, flagConst := true }
    | m => { name := some ['m'], type := .unknown, flagConst := true }
    | n => { name := some ['n'], type := .unknown, flagConst := true }
    | five => { name := some ['5'], type := .unknown, flagConst := true }
    | x =>
      { name := some ['X']
        type := .boolean
        prop :=
          [{ type := .symbol, expr := .expr (.symbol x), menu := some 1 },
            { type := .prompt, text := some ['x'], menu := some 1 },
            { type := .select, expr := .expr (.symbol num), menu := some 1, value := some (.symbol five) }] }
    | num =>
      { name := some ['S']
        type := .int
        prop :=
          [{ type := .symbol, expr := .expr (.symbol num), menu := some 2 },
            { type := .prompt, text := some ['s'], menu := some 2 }]
        valDep := [⟨.symbol x, .symbol five⟩] }

/-- `X=y` and `S=3` -/
def three : Text := ['X', '=', 'y', '\n', 'S', '=', '3', '\n']

/-- `X=y` -/
def unset : Text := ['X', '=', 'y', '\n']

theorem finalized : table.Finalized := by decide

def rank : Name → ℕ
  | x => 1
  | five => 1
  | num => 2
  | _ => 0

theorem stratified : table.Stratified where
  acyclic := Ranking.acyclic_of_rank rank (by decide)
  defaults s hs := by cases s <;> simp [SymbolTable.isChoice, table] at hs
  consults s hs := by cases s <;> simp [SymbolTable.isChoiceValue, table] at hs

def state (file : Text) : State Name :=
  symCalcList table [x, num, five] (symCalcValue table n
    (loadFile table file { table.initial with changeCount := 0 }).state)

def user (file : Text) : Name → UserValue Name :=
  SymbolTable.userIn (loadFile table file { table.initial with changeCount := 0 }).state

theorem evaluated (file : Text) : table.Evaluated (user file) (state file) :=
  .loaded 0 file .refl fun t ht => by
    rw [finalized.allSymbols] at ht
    exact ht

theorem not_takesValue :
    ¬∀ (G : SymbolTable Name) (user : Name → UserValue Name) (σ : State Name), G.Finalized →
      G.Stratified → G.Evaluated user σ → ∀ s ∈ G.symbolHash,
        G.type s = .int ∨ G.type s = .hex ∨ G.type s = .string →
        G.Selected σ.modulesVal (SymbolTable.envOf σ) s →
        ∀ v, G.selectedSymIn σ.modulesVal (SymbolTable.envOf σ) s = some v →
          G.TakesValue (SymbolTable.envOf σ) s v := by
  intro h
  have hval := h table _ _ finalized stratified (evaluated three) num (by decide) (.inl rfl)
    ⟨⟨.symbol x, .symbol five⟩, by decide, by decide⟩ five (by decide)
  exact absurd hval (by unfold SymbolTable.TakesValue; decide)

/-- The user has not set `S`. -/
theorem takesValue_iff_unset :
    table.TakesValue (SymbolTable.envOf (state unset)) num five ↔
      table.UserAgrees (user unset num) (state unset).modulesVal (SymbolTable.envOf (state unset))
        num five :=
  SymbolTable.takesValue_iff finalized stratified ((evaluated _).traced finalized)
    ((evaluated _).computed finalized stratified).valid (by decide) not_false (.inl rfl) (by decide)

end SelectedNumber
end OpenADK.Kconfig
