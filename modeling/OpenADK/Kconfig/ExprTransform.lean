import OpenADK.Kconfig.Semantics

/-!
# Negation normal form

`expr_transform` pushes negations down to the symbols and turns comparisons of a boolean symbol
with a constant into the symbol or its negation. It calls itself on nodes that it has just built, so
it is given fuel here; `nnf` is the structural function that it computes.
-/

namespace OpenADK.Kconfig
open Tristate
variable {ι : Type} [DecidableEq ι] (G : SymbolTable ι)

/-- `expr_transform` on an `E_EQUAL` node. -/
def transformEqual (s t : ι) : Expr ι :=
  if G.type s ≠ .boolean then .equal s t
  else if t = G.symbolNo then .not (.symbol s)
  else if t = G.symbolMod then .symbol G.symbolNo
  else if t = G.symbolYes then .symbol s
  else .equal s t

/-- `expr_transform` on an `E_UNEQUAL` node. -/
def transformUnequal (s t : ι) : Expr ι :=
  if G.type s ≠ .boolean then .unequal s t
  else if t = G.symbolNo then .symbol s
  else if t = G.symbolMod then .symbol G.symbolYes
  else if t = G.symbolYes then .not (.symbol s)
  else .unequal s t

/-- `expr_transform` on the negation of a symbol. -/
def transformNotSymbol (s : ι) : Expr ι :=
  if s = G.symbolYes then .symbol G.symbolNo
  else if s = G.symbolMod then .symbol G.symbolMod
  else if s = G.symbolNo then .symbol G.symbolYes
  else .not (.symbol s)

/-- `expr_transform` on the negation of an operand that has been transformed. -/
def transformNot (transform : Expr ι → Option (Expr ι)) : Expr ι → Option (Expr ι)
  | .not a => transform a
  | .equal s t => some (.unequal s t)
  | .unequal s t => some (.equal s t)
  | .or a b => transform (.and (.not a) (.not b))
  | .and a b => transform (.or (.not a) (.not b))
  | .symbol s => some (transformNotSymbol G s)

/-- `expr_transform`, to the given depth of recursion. -/
def exprTransformFuel : ℕ → Expr ι → Option (Expr ι)
  | 0, _ => none
  | _ + 1, .symbol s => some (.symbol s)
  | _ + 1, .equal s t => some (transformEqual G s t)
  | _ + 1, .unequal s t => some (transformUnequal G s t)
  | n + 1, .and l r => do
    let l ← exprTransformFuel n l
    let r ← exprTransformFuel n r
    return .and l r
  | n + 1, .or l r => do
    let l ← exprTransformFuel n l
    let r ← exprTransformFuel n r
    return .or l r
  | n + 1, .not e => (exprTransformFuel n e).bind (transformNot G (exprTransformFuel n))

/-- The height of an expression; a comparison counts as a negated symbol. -/
def Expr.height : Expr ι → ℕ
  | .symbol _ => 1
  | .equal _ _ | .unequal _ _ => 2
  | .not e => e.height + 1
  | .and l r | .or l r => max l.height r.height + 1

/-- `expr_transform`. -/
def exprTransform (e : Expr ι) : Expr ι := (exprTransformFuel G (2 * e.height + 1) e).getD e

def negate : Expr ι → Expr ι
  | .symbol s => transformNotSymbol G s
  | .not e => e
  | .equal s t => .unequal s t
  | .unequal s t => .equal s t
  | .and l r => .or (negate l) (negate r)
  | .or l r => .and (negate l) (negate r)

def nnf : Expr ι → Expr ι
  | .symbol s => .symbol s
  | .equal s t => transformEqual G s t
  | .unequal s t => transformUnequal G s t
  | .and l r => .and (nnf l) (nnf r)
  | .or l r => .or (nnf l) (nnf r)
  | .not e => negate G (nnf e)

namespace SymbolTable

/-- One of the symbols `y`, `m` and `n`. -/
def IsConstant (s : ι) : Prop := s = G.symbolYes ∨ s = G.symbolMod ∨ s = G.symbolNo

/-- The constants have no type. -/
def Untyped : Prop := ∀ s, G.IsConstant s → G.type s = .unknown

/-- Negations stand before symbols that are no constants, and no boolean symbol is compared
with a constant. -/
def Normal : Expr ι → Prop
  | .symbol _ => True
  | .not (.symbol s) => ¬G.IsConstant s
  | .not _ => False
  | .equal s t | .unequal s t => G.type s = .boolean → ¬G.IsConstant t
  | .and l r | .or l r => Normal l ∧ Normal r

structure ConstantValues (env : Env ι) : Prop where
  yes : env G.symbolYes = ⟨.str ['y'], .yes⟩
  mod : env G.symbolMod = ⟨.str ['m'], .mod⟩
  no : env G.symbolNo = ⟨.str ['n'], .no⟩

/-- The values that symbols may have: no boolean symbol is `m`. -/
structure Valuation (env : Env ι) : Prop extends G.ConstantValues env where
  boolean : ∀ s, G.type s = .boolean → (env s).tri ≠ .mod

end SymbolTable

section
variable {G} {e x : Expr ι} {n : ℕ}

/-! ### Normal forms -/

omit [DecidableEq ι] in
theorem Expr.one_le_height (e : Expr ι) : 1 ≤ e.height := by
  cases e <;> simp [height]

theorem normal_transformEqual (hG : G.Untyped) (s t : ι) : G.Normal (transformEqual G s t) := by
  unfold transformEqual
  split_ifs with hb hn hm hy
  · exact fun h => absurd h hb
  · exact fun hc => by rw [hG s hc] at hb; simp at hb
  · trivial
  · trivial
  · rintro - (h | h | h)
    · exact hy h
    · exact hm h
    · exact hn h

theorem normal_transformUnequal (hG : G.Untyped) (s t : ι) :
    G.Normal (transformUnequal G s t) := by
  unfold transformUnequal
  split_ifs with hb hn hm hy
  · exact fun h => absurd h hb
  · trivial
  · trivial
  · exact fun hc => by rw [hG s hc] at hb; simp at hb
  · rintro - (h | h | h)
    · exact hy h
    · exact hm h
    · exact hn h

theorem normal_transformNotSymbol (s : ι) : G.Normal (transformNotSymbol G s) := by
  unfold transformNotSymbol
  split_ifs with hy hm hn
  · trivial
  · trivial
  · trivial
  · rintro (h | h | h)
    · exact hy h
    · exact hm h
    · exact hn h

theorem normal_negate (h : G.Normal x) : G.Normal (negate G x) := by
  induction x with
  | symbol s => exact normal_transformNotSymbol s
  | not e =>
    cases e with
    | symbol s => trivial
    | not _ | equal _ _ | unequal _ _ | and _ _ | or _ _ => exact h.elim
  | equal s t => exact h
  | unequal s t => exact h
  | and l r ihl ihr => exact ⟨ihl h.1, ihr h.2⟩
  | or l r ihl ihr => exact ⟨ihl h.1, ihr h.2⟩

theorem normal_nnf (hG : G.Untyped) (e : Expr ι) : G.Normal (nnf G e) := by
  induction e with
  | symbol s => trivial
  | not e ih => exact normal_negate ih
  | equal s t => exact normal_transformEqual hG s t
  | unequal s t => exact normal_transformUnequal hG s t
  | and l r ihl ihr => exact ⟨ihl, ihr⟩
  | or l r ihl ihr => exact ⟨ihl, ihr⟩

/-- A comparison that is not of a boolean symbol with a constant stays. -/
theorem transformEqual_of_normal {s t : ι} (h : G.Normal (.equal s t)) :
    transformEqual G s t = .equal s t := by
  unfold transformEqual
  split_ifs with hb hn hm hy
  · rfl
  · exact absurd (.inr (.inr hn)) (h (not_not.mp hb))
  · exact absurd (.inr (.inl hm)) (h (not_not.mp hb))
  · exact absurd (.inl hy) (h (not_not.mp hb))
  · rfl

theorem transformUnequal_of_normal {s t : ι} (h : G.Normal (.unequal s t)) :
    transformUnequal G s t = .unequal s t := by
  unfold transformUnequal
  split_ifs with hb hn hm hy
  · rfl
  · exact absurd (.inr (.inr hn)) (h (not_not.mp hb))
  · exact absurd (.inr (.inl hm)) (h (not_not.mp hb))
  · exact absurd (.inl hy) (h (not_not.mp hb))
  · rfl

theorem transformNotSymbol_of_not_isConstant {s : ι} (h : ¬G.IsConstant s) :
    transformNotSymbol G s = .not (.symbol s) := by
  unfold transformNotSymbol
  rw [if_neg fun hy => h (.inl hy), if_neg fun hm => h (.inr (.inl hm)),
    if_neg fun hn => h (.inr (.inr hn))]

/-- A normal form is its own normal form. -/
theorem nnf_of_normal (h : G.Normal x) : nnf G x = x := by
  induction x with
  | symbol s => rfl
  | not e _ =>
    cases e with
    | symbol s => exact transformNotSymbol_of_not_isConstant h
    | not _ | equal _ _ | unequal _ _ | and _ _ | or _ _ => exact h.elim
  | equal s t => exact transformEqual_of_normal h
  | unequal s t => exact transformUnequal_of_normal h
  | and l r ihl ihr => rw [nnf, ihl h.1, ihr h.2]
  | or l r ihl ihr => rw [nnf, ihl h.1, ihr h.2]

/-! ### Termination -/

theorem height_transformNotSymbol_le (s : ι) : (transformNotSymbol G s).height ≤ 2 := by
  unfold transformNotSymbol
  split_ifs <;> simp [Expr.height]

theorem height_negate_le (x : Expr ι) : (negate G x).height ≤ x.height + 1 := by
  induction x with
  | symbol s => exact height_transformNotSymbol_le s
  | not e ih =>
    simp only [negate, Expr.height]
    omega
  | equal s t | unequal s t => simp [negate, Expr.height]
  | and l r ihl ihr | or l r ihl ihr =>
    simp only [negate, Expr.height]
    omega

theorem height_nnf_le (e : Expr ι) : (nnf G e).height ≤ e.height := by
  induction e with
  | symbol s => exact le_rfl
  | not e ih =>
    have h := height_negate_le (G := G) (nnf G e)
    simp only [nnf, Expr.height]
    omega
  | equal s t =>
    simp only [nnf, transformEqual, Expr.height]
    split_ifs <;> simp [Expr.height]
  | unequal s t =>
    simp only [nnf, transformUnequal, Expr.height]
    split_ifs <;> simp [Expr.height]
  | and l r ihl ihr | or l r ihl ihr =>
    simp only [nnf, Expr.height]
    omega

/-- A normal form is transformed into itself. -/
theorem exprTransformFuel_of_normal (h : G.Normal x) (hn : x.height ≤ n) :
    exprTransformFuel G n x = some x := by
  induction x generalizing n with
  | symbol s | equal s t | unequal s t =>
    obtain ⟨n, rfl⟩ : ∃ k, n = k + 1 := ⟨n - 1, by simp only [Expr.height] at hn; omega⟩
    first
      | rfl
      | rw [exprTransformFuel, transformEqual_of_normal h]
      | rw [exprTransformFuel, transformUnequal_of_normal h]
  | not e _ =>
    cases e with
    | symbol s =>
      obtain ⟨n, rfl⟩ : ∃ k, n = k + 2 := ⟨n - 2, by simp only [Expr.height] at hn; omega⟩
      simp [exprTransformFuel, transformNot, transformNotSymbol_of_not_isConstant h]
    | not _ | equal _ _ | unequal _ _ | and _ _ | or _ _ => exact h.elim
  | and l r ihl ihr | or l r ihl ihr =>
    simp only [Expr.height] at hn
    obtain ⟨n, rfl⟩ : ∃ k, n = k + 1 := ⟨n - 1, by omega⟩
    have hl := ihl h.1 (n := n) (by omega)
    have hr := ihr h.2 (n := n) (by omega)
    simp [exprTransformFuel, hl, hr]

theorem exprTransformFuel_succ_not (h : exprTransformFuel G n e = some x) :
    exprTransformFuel G (n + 1) (.not e) = transformNot G (exprTransformFuel G n) x := by
  rw [exprTransformFuel, h, Option.bind_some]

/-- The step of `expr_transform` on a negation, once the operand is normal. -/
theorem exprTransformFuel_not (h : G.Normal x) (hn : 2 * x.height + 1 ≤ n) :
    transformNot G (exprTransformFuel G n) x = some (negate G x) := by
  induction x generalizing n with
  | symbol s | equal s t | unequal s t => rfl
  | not e _ =>
    cases e with
    | symbol s =>
      simp only [Expr.height] at hn
      exact exprTransformFuel_of_normal trivial (by simp only [Expr.height]; omega)
    | not _ | equal _ _ | unequal _ _ | and _ _ | or _ _ => exact h.elim
  | and l r ihl ihr | or l r ihl ihr =>
    simp only [Expr.height] at hn
    obtain ⟨n, rfl⟩ : ∃ k, n = k + 2 := ⟨n - 2, by omega⟩
    have hl := ihl h.1 (n := n) (by omega)
    have hr := ihr h.2 (n := n) (by omega)
    have hxl := exprTransformFuel_succ_not (exprTransformFuel_of_normal h.1 (n := n) (by omega))
    have hxr := exprTransformFuel_succ_not (exprTransformFuel_of_normal h.2 (n := n) (by omega))
    rw [transformNot, exprTransformFuel, hxl, hxr, hl, hr]
    rfl

/-- With enough fuel `expr_transform` returns the normal form. -/
theorem exprTransformFuel_eq_nnf (hG : G.Untyped) (hn : 2 * e.height + 1 ≤ n) :
    exprTransformFuel G n e = some (nnf G e) := by
  induction e generalizing n with
  | symbol s | equal s t | unequal s t =>
    obtain ⟨n, rfl⟩ : ∃ k, n = k + 1 := ⟨n - 1, by omega⟩
    rfl
  | not e ih =>
    simp only [Expr.height] at hn
    obtain ⟨n, rfl⟩ : ∃ k, n = k + 1 := ⟨n - 1, by omega⟩
    have hx := height_nnf_le (G := G) e
    have hnot := exprTransformFuel_not (normal_nnf hG e) (n := n) (by omega)
    rw [exprTransformFuel_succ_not (ih (by omega)), hnot, nnf]
  | and l r ihl ihr | or l r ihl ihr =>
    simp only [Expr.height] at hn
    obtain ⟨n, rfl⟩ : ∃ k, n = k + 1 := ⟨n - 1, by omega⟩
    rw [exprTransformFuel, ihl (by omega), ihr (by omega)]
    rfl

theorem exprTransform_eq_nnf (hG : G.Untyped) (e : Expr ι) : exprTransform G e = nnf G e := by
  rw [exprTransform, exprTransformFuel_eq_nnf hG le_rfl, Option.getD_some]

/-! ### Values -/

section
variable {env : Env ι}

omit [DecidableEq ι] in
theorem SymbolTable.Valuation.stringIn (hG : G.Untyped) (h : G.Valuation env) :
    G.stringIn env G.symbolYes = ['y'] ∧ G.stringIn env G.symbolMod = ['m'] ∧
      G.stringIn env G.symbolNo = ['n'] := by
  unfold SymbolTable.stringIn
  rw [hG _ (.inl rfl), hG _ (.inr (.inl rfl)), hG _ (.inr (.inr rfl)), h.yes, h.mod, h.no]
  exact ⟨rfl, rfl, rfl⟩

omit [DecidableEq ι] in
/-- A boolean symbol reads as `n` or `y`. -/
theorem SymbolTable.Valuation.stringIn_boolean (h : G.Valuation env) {s : ι}
    (hs : G.type s = .boolean) :
    (env s).tri = .no ∧ G.stringIn env s = ['n'] ∨ (env s).tri = .yes ∧ G.stringIn env s = ['y'] := by
  have hm := h.boolean s hs
  unfold SymbolTable.stringIn
  rw [hs]
  cases htri : (env s).tri with
  | no => exact .inl ⟨rfl, rfl⟩
  | mod => exact absurd htri hm
  | yes => exact .inr ⟨rfl, rfl⟩

theorem exprIn_transformEqual (hG : G.Untyped) (h : G.Valuation env) (s t : ι) :
    G.exprIn env (transformEqual G s t) = G.exprIn env (.equal s t) := by
  obtain ⟨hyes, hmod, hno⟩ := h.stringIn hG
  unfold transformEqual
  split_ifs with hb hn hm hy
  · rfl
  all_goals
    rcases h.stringIn_boolean (not_not.mp hb) with ⟨htri, hs⟩ | ⟨htri, hs⟩
    all_goals simp_all [SymbolTable.exprIn, h.no, exprNot]

theorem exprIn_transformUnequal (hG : G.Untyped) (h : G.Valuation env) (s t : ι) :
    G.exprIn env (transformUnequal G s t) = G.exprIn env (.unequal s t) := by
  obtain ⟨hyes, hmod, hno⟩ := h.stringIn hG
  unfold transformUnequal
  split_ifs with hb hn hm hy
  · rfl
  all_goals
    rcases h.stringIn_boolean (not_not.mp hb) with ⟨htri, hs⟩ | ⟨htri, hs⟩
    all_goals simp_all [SymbolTable.exprIn, h.yes, exprNot]

theorem exprIn_transformNotSymbol (h : G.Valuation env) (s : ι) :
    G.exprIn env (transformNotSymbol G s) = exprNot (env s).tri := by
  unfold transformNotSymbol
  split_ifs with hy hm hn
  · rw [hy, h.yes, SymbolTable.exprIn, h.no]
    rfl
  · rw [hm, SymbolTable.exprIn, h.mod]
    rfl
  · rw [hn, h.no, SymbolTable.exprIn, h.yes]
    rfl
  · rfl

theorem exprIn_negate (h : G.Valuation env) (x : Expr ι) :
    G.exprIn env (negate G x) = exprNot (G.exprIn env x) := by
  induction x with
  | symbol s => exact exprIn_transformNotSymbol h s
  | not e _ => rw [negate, SymbolTable.exprIn, exprNot_exprNot]
  | equal s t | unequal s t =>
    simp only [negate, SymbolTable.exprIn]
    split_ifs <;> rfl
  | and l r ihl ihr => rw [negate, SymbolTable.exprIn, SymbolTable.exprIn, ihl, ihr, exprNot_min]
  | or l r ihl ihr => rw [negate, SymbolTable.exprIn, SymbolTable.exprIn, ihl, ihr, exprNot_max]

/-- The normal form has the same value. -/
theorem exprIn_nnf (hG : G.Untyped) (h : G.Valuation env) (e : Expr ι) :
    G.exprIn env (nnf G e) = G.exprIn env e := by
  induction e with
  | symbol s => rfl
  | not e ih => rw [nnf, exprIn_negate h, ih, SymbolTable.exprIn]
  | equal s t => exact exprIn_transformEqual hG h s t
  | unequal s t => exact exprIn_transformUnequal hG h s t
  | and l r ihl ihr => rw [nnf, SymbolTable.exprIn, SymbolTable.exprIn, ihl, ihr]
  | or l r ihl ihr => rw [nnf, SymbolTable.exprIn, SymbolTable.exprIn, ihl, ihr]

end

/-- `expr_transform` terminates, keeps the value, is idempotent and returns a normal form. -/
theorem exprTransform_correct (hG : G.Untyped) (e : Expr ι) :
    (∃ n, ∀ k ≥ n, exprTransformFuel G k e = some (exprTransform G e)) ∧
      (∀ env, G.Valuation env → G.exprIn env (exprTransform G e) = G.exprIn env e) ∧
      exprTransform G (exprTransform G e) = exprTransform G e ∧ G.Normal (exprTransform G e) := by
  simp only [exprTransform_eq_nnf hG]
  refine ⟨⟨2 * e.height + 1, fun k hk => exprTransformFuel_eq_nnf hG hk⟩, fun env h => ?_, ?_, ?_⟩
  · exact exprIn_nnf hG h e
  · exact nnf_of_normal (normal_nnf hG e)
  · exact normal_nnf hG e

end

namespace Samples

/-- The boolean symbol `MODULES`, the tristate symbols `FOO` and `BAR`, and the constants. -/
inductive Name
  | y | m | n | modules | foo | bar
  deriving DecidableEq

open Name

def table : SymbolTable Name where
  symbolYes := y
  symbolMod := m
  symbolNo := n
  symbolHash := [modules, foo, bar]
  modulesSym := modules
  symbol
    | y => { name := some ['y'], type := .unknown, flagConst := true }
    | m => { name := some ['m'], type := .unknown, flagConst := true }
    | n => { name := some ['n'], type := .unknown, flagConst := true }
    | modules => { name := some ['M', 'O', 'D', 'U', 'L', 'E', 'S'], type := .boolean }
    | foo => { name := some ['F', 'O', 'O'], type := .tristate }
    | bar => { name := some ['B', 'A', 'R'], type := .tristate }

theorem untyped : table.Untyped := by
  rintro s (rfl | rfl | rfl) <;> rfl

/-- `!(MODULES!=y || !FOO)` -/
def sample : Expr Name := .not (.or (.unequal modules y) (.not (.symbol foo)))

theorem exprTransform_correct_sample :
    (∃ n, ∀ k ≥ n, exprTransformFuel table k sample = some (exprTransform table sample)) ∧
      (∀ env, table.Valuation env →
        table.exprIn env (exprTransform table sample) = table.exprIn env sample) ∧
      exprTransform table (exprTransform table sample) = exprTransform table sample ∧
      table.Normal (exprTransform table sample) :=
  exprTransform_correct untyped sample

end Samples
end OpenADK.Kconfig
