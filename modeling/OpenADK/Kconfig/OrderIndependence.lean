import OpenADK.Kconfig.Finalized
import OpenADK.Kconfig.Check

/-!
# The order of evaluation

After `sym_clear_all_valid` the front ends call `sym_calc_value` on the symbols in an order
of their own. The result does not depend on that order when no symbol depends on itself
through anything that evaluation reads. `sym_check_deps` walks less than that: it leaves out
the conditions and values of `val_dep`, the bounds of ranges, and `dir_dep`.
-/

namespace OpenADK.Kconfig
namespace SymbolTable
variable {ι : Type} [DecidableEq ι] {G : SymbolTable ι}

/-- Evaluation of `s` reads `t`. The `modules` symbol has been evaluated before. -/
def EvaluationEdge (G : SymbolTable ι) (t s : ι) : Prop :=
  t ∈ G.reads s ∧ t ≠ G.modulesSym ∧ s ≠ G.modulesSym

/-- Evaluation reads nothing before it is final. -/
structure OrderSafe (G : SymbolTable ι) : Prop where
  acyclic : Ranking.Acyclic G.EvaluationEdge
  defaults : ∀ c, G.isChoice c → G.DefaultsInside c
  consults : ∀ s, G.Consults s

/-- The values after `sym_clear_all_valid` do not depend on the order of evaluation. -/
def OrderIndependent (G : SymbolTable ι) : Prop :=
  ∀ σ, G.Started σ → ∀ syms syms' : List ι, syms.Perm G.allSymbols → syms'.Perm G.allSymbols →
    ∀ s ∈ G.allSymbols,
      ((symCalcList G syms (symClearAllValid G σ)).sym s).curr =
        ((symCalcList G syms' (symClearAllValid G σ)).sym s).curr

theorem evaluable_symClearAllValid (hG : G.Finalized) (h : G.OrderSafe) {σ : State ι}
    (hσ : G.Started σ) : G.Evaluable (symClearAllValid G σ) where
  complete := hG.complete
  acyclic := by
    apply h.acyclic.mono
    intro t s hts
    have hm := valid_modules_symClearAllValid (G := G) (σ := σ)
    exact ⟨hts.1, fun ht => hts.2.1 (ht ▸ hm), fun hs => hts.2.2 (hs ▸ hm)⟩
  wellPosed s _ :=
    { defaults := h.defaults s
      picks := (hσ.symClearAllValid hG).picks s
      choiceType := hG.choiceType s }
  consults s _ := h.consults s
  const := ⟨(hσ.symClearAllValid hG).no_valid, by rw [(hσ.symClearAllValid hG).no_curr]; rfl⟩
  hides := (hσ.symClearAllValid hG).hides

end SymbolTable

/-! ### A cycle that the check does not walk -/

namespace SelectedBound

/-- The symbols of the tree
```
config A
	bool "a"
	depends on B!=1
	select B 1
config B
	int
	default 0
```
with its constants. -/
inductive Name
  | y | m | n | zero | one | a | b
  deriving DecidableEq

open Name

instance : Fintype Name := ⟨{y, m, n, zero, one, a, b}, by intro s; cases s <;> decide⟩

/-- The tree with the dependency `dep` of `A`. -/
def table (dep : Option (Expr Name)) : SymbolTable Name where
  symbolYes := y
  symbolMod := m
  symbolNo := n
  symbolHash := [zero, one, a, b]
  modulesSym := n
  symbol
    | y => { name := some ['y'], type := .unknown, flagConst := true }
    | m => { name := some ['m'], type := .unknown, flagConst := true }
    | n => { name := some ['n'], type := .unknown, flagConst := true }
    | zero => { name := some ['0'], type := .unknown }
    | one => { name := some ['1'], type := .unknown }
    | a =>
      { name := some ['A']
        type := .boolean
        prop :=
          [{ type := .symbol, expr := .expr (.symbol a), visible := dep, menu := some 1 },
            { type := .prompt, text := some ['a'], visible := dep, menu := some 1 },
            { type := .select, expr := .expr (.symbol b), visible := dep, menu := some 1
              value := some (.symbol one) }]
        dirDep := dep
        flagOptional := true }
    | b =>
      { name := some ['B']
        type := .int
        prop :=
          [{ type := .symbol, expr := .expr (.symbol b), menu := some 2 },
            { type := .default, expr := .expr (.symbol zero), menu := some 2 }]
        valDep := [⟨(exprAllocAnd (some (.symbol a)) dep).getD (.symbol a), .symbol one⟩]
        flagOptional := true }

/-- The user has set `A`. -/
def state : State Name where
  sym
    | y => { curr := ⟨.str ['y'], .yes⟩, flagValid := true }
    | m => { curr := ⟨.str ['m'], .mod⟩, flagValid := true }
    | n => { curr := ⟨.str ['n'], .no⟩, flagValid := true }
    | a => { defUser := ⟨.null, .yes⟩, flagDefUser := true }
    | _ => {}
  modulesVal := .no
  changeCount := 0

/-- `B!=1` -/
def unequal : Option (Expr Name) := some (.unequal b one)

theorem finalized (dep : Option (Expr Name)) : (table dep).Finalized where
  complete s := by cases s <;> simp [SymbolTable.symbols, table]
  yes_not_mem := by simp [table]
  mod_not_mem := by simp [table]
  no_not_mem := by simp [table]
  constants := by simp [table]
  modules := .inl rfl
  type_ne_other s := by cases s <;> simp [SymbolTable.type, table]
  choiceType s _ := by cases s <;> rfl
  choice_mem c hc := by cases c <;> simp [SymbolTable.isChoice, table] at hc
  memberOf s c hs := by cases s <;> simp [SymbolTable.isChoiceValue, table] at hs
  member c s hc := by cases c <;> simp [SymbolTable.isChoice, table] at hc
  memberType c s hc := by cases c <;> simp [SymbolTable.isChoice, table] at hc

theorem started (dep : Option (Expr Name)) : (table dep).Started state where
  yes_valid := rfl
  yes_curr := rfl
  mod_valid := rfl
  mod_curr := rfl
  no_valid := rfl
  no_curr := rfl
  picks c hc := by cases c <;> simp [SymbolTable.isChoice, table] at hc
  hides s _ := by cases s <;> rfl

/-- Without the dependency, `A` comes before `B` in every order. -/
def rank : Name → ℕ
  | a => 1
  | b => 2
  | _ => 0

theorem rank_lt_of_mem_reads : ∀ t s, t ∈ (table none).reads s → rank t < rank s := by decide

theorem orderSafe : (table none).OrderSafe where
  acyclic := Ranking.acyclic_of_rank rank fun t s h => rank_lt_of_mem_reads t s h.1
  defaults c hc := by cases c <;> simp [SymbolTable.isChoice, table] at hc
  consults s hs := by cases s <;> simp [SymbolTable.isChoiceValue, table] at hs

end SelectedBound
end OpenADK.Kconfig
