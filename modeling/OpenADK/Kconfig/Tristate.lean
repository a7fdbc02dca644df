import Mathlib.Order.Lattice
import Mathlib.Order.BoundedOrder.Basic
import Mathlib.Order.Defs.LinearOrder
import Mathlib.Data.Fintype.Basic

/-!
# The three values of a configuration symbol

`no < mod < yes`, with the macros `EXPR_OR`, `EXPR_AND` and `EXPR_NOT` of `expr.h`.
The macros are the maximum, the minimum and the order reversal of a three-element
chain, and the rest of the development uses them in that form.
-/

namespace OpenADK.Kconfig

inductive Tristate
  | no
  | mod
  | yes
  deriving DecidableEq, Repr, Inhabited

namespace Tristate

instance : Fintype Tristate := ⟨{no, mod, yes}, by intro a; cases a <;> decide⟩

/-- The integer the enumerator stands for. -/
def toNat : Tristate → ℕ
  | no => 0
  | mod => 1
  | yes => 2

theorem toNat_injective : Function.Injective toNat := by
  intro a b h
  cases a <;> cases b <;> first | rfl | cases h

instance : LinearOrder Tristate := LinearOrder.lift' toNat toNat_injective

instance : BoundedOrder Tristate where
  top := yes
  le_top := by decide
  bot := no
  bot_le := by decide

/-- `EXPR_OR`. -/
def exprOr (dep1 dep2 : Tristate) : Tristate := if dep1 > dep2 then dep1 else dep2

/-- `EXPR_AND`. -/
def exprAnd (dep1 dep2 : Tristate) : Tristate := if dep1 < dep2 then dep1 else dep2

/-- `EXPR_NOT`. -/
def exprNot : Tristate → Tristate
  | no => yes
  | mod => mod
  | yes => no

@[simp] theorem exprOr_eq_max : ∀ a b : Tristate, exprOr a b = max a b := by decide

@[simp] theorem exprAnd_eq_min : ∀ a b : Tristate, exprAnd a b = min a b := by decide

@[simp] theorem exprNot_exprNot : ∀ a : Tristate, exprNot (exprNot a) = a := by decide

theorem exprNot_max : ∀ a b : Tristate, exprNot (max a b) = min (exprNot a) (exprNot b) := by decide

theorem exprNot_min : ∀ a b : Tristate, exprNot (min a b) = max (exprNot a) (exprNot b) := by decide

@[simp] theorem bot_eq_no : (⊥ : Tristate) = no := rfl

@[simp] theorem top_eq_yes : (⊤ : Tristate) = yes := rfl

@[simp] theorem no_le (a : Tristate) : no ≤ a := bot_le

@[simp] theorem le_yes (a : Tristate) : a ≤ yes := le_top

@[simp] theorem le_no_iff {a : Tristate} : a ≤ no ↔ a = no := le_bot_iff

@[simp] theorem yes_le_iff {a : Tristate} : yes ≤ a ↔ a = yes := top_le_iff

@[simp] theorem max_no (a : Tristate) : max a no = a := max_eq_left (no_le a)

@[simp] theorem no_max (a : Tristate) : max no a = a := max_eq_right (no_le a)

@[simp] theorem min_yes (a : Tristate) : min a yes = a := min_eq_left (le_yes a)

@[simp] theorem yes_min (a : Tristate) : min yes a = a := min_eq_right (le_yes a)

@[simp] theorem max_yes (a : Tristate) : max a yes = yes := max_eq_right (le_yes a)

@[simp] theorem yes_max (a : Tristate) : max yes a = yes := max_eq_left (le_yes a)

@[simp] theorem min_no (a : Tristate) : min a no = no := min_eq_right (no_le a)

@[simp] theorem no_min (a : Tristate) : min no a = no := min_eq_left (no_le a)

end Tristate
end OpenADK.Kconfig
