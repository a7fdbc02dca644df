import OpenADK.Kconfig.Contradictions

/-!
# Implicit submenus

`menu_finalize` moves an entry under the one before it when the condition of the entry depends on
the symbol of that one. `expr_depends_symbol` is the first test. For the second one
`expr_trans_compare` turns both conditions into comparisons with `n`, and the operands of the one
must be among the operands of the other.
-/

namespace OpenADK.Kconfig
open Tristate
variable {ι : Type}

/-- `expr_contains_symbol`. -/
def exprContainsSymbol [DecidableEq ι] (sym : ι) : Expr ι → Bool
  | .and l r | .or l r => exprContainsSymbol sym l || exprContainsSymbol sym r
  | .symbol s => s = sym
  | .equal s t | .unequal s t => s = sym || t = sym
  | .not e => exprContainsSymbol sym e

/-- The node types `E_EQUAL` and `E_UNEQUAL`. -/
inductive Comparison
  | equal
  | unequal
  deriving DecidableEq

def Comparison.node (type : Comparison) (s t : ι) : Expr ι :=
  match type with
  | .equal => .equal s t
  | .unequal => .unequal s t

def Comparison.flip : Comparison → Comparison
  | .equal => .unequal
  | .unequal => .equal

/-- `E_NOT` around an expression that has been compared for equality. -/
def Comparison.negated (type : Comparison) (e : Expr ι) : Expr ι :=
  match type with
  | .equal => e
  | .unequal => .not e

section
variable (G : SymbolTable ι)

/-- `expr_depends_symbol`. -/
def exprDependsSymbol [DecidableEq ι] (sym : ι) : Expr ι → Bool
  | .and l r => exprDependsSymbol sym l || exprDependsSymbol sym r
  | .symbol s => s = sym
  | .equal s t => s = sym && (t = G.symbolYes || t = G.symbolMod)
  | .unequal s t => s = sym && t = G.symbolNo
  | _ => false

/-- `expr_trans_compare (e, type, &symbol_no)`. -/
def exprTransCompare : Comparison → Expr ι → Expr ι
  | type, .and l r => type.negated (.or (exprTransCompare .equal l) (exprTransCompare .equal r))
  | type, .or l r => type.negated (.and (exprTransCompare .equal l) (exprTransCompare .equal r))
  | type, .not e => exprTransCompare type.flip e
  | .equal, .unequal s t => .not (.unequal s t)
  | .equal, .equal s t => .not (.equal s t)
  | .unequal, .unequal s t => .unequal s t
  | .unequal, .equal s t => .equal s t
  | type, .symbol s => type.node s G.symbolNo

/-- `expr_trans_compare (e, E_UNEQUAL, &symbol_no)` on a condition that may be missing. -/
def transUnequalNo : Option (Expr ι) → Expr ι
  | none => .not (.symbol G.symbolNo)
  | some e => exprTransCompare G .unequal e

section
variable [DecidableEq ι]

/-- How `menu_finalize` prepares a condition. -/
def comparedCondition (e : Option (Expr ι)) : Expr ι :=
  let e' := exprTransform G (transUnequalNo G e)
  (exprEliminateDups G e'.height e').1

/-- `expr_is_yes`. -/
def exprIsYes (e : Expr ι) : Bool := e = .symbol G.symbolYes

/-- Whether `menu_finalize` moves an entry with the condition `dep` under an entry with the symbol
`sym`, once the condition of its prompt has been prepared. -/
def dependsOnEntry (basedep : Expr ι) (sym : ι) (dep : Option (Expr ι)) : Bool :=
  match dep with
  | none => false
  | some e =>
    exprContainsSymbol sym e &&
      (exprDependsSymbol G sym e ||
        exprIsYes G (exprEliminateEq G (exprEq G) (comparedCondition G dep) basedep).2)

end
end

/-! ### What the conditions say -/

/-- The symbols that are operands themselves, under an odd number of negations or an even one. -/
def Expr.bare : Bool → Expr ι → List ι
  | odd, .symbol s => if odd then [] else [s]
  | odd, .not e => e.bare !odd
  | odd, .and l r | odd, .or l r => l.bare odd ++ r.bare odd
  | _, .equal _ _ | _, .unequal _ _ => []

namespace SymbolTable

/-- The values that evaluation gives to symbols: only boolean and tristate symbols have one other
than `n` besides their string. -/
structure SymbolValues (G : SymbolTable ι) (env : Env ι) : Prop extends G.Assignment env where
  other : ∀ s, G.type s ≠ .boolean → G.type s ≠ .tristate → ¬G.IsConstant s → (env s).tri = .no

/-- The symbol is `y` where it is not `n`. -/
def TwoValuedSymbol (G : SymbolTable ι) (s : ι) : Prop :=
  G.type s = .boolean ∨ s = G.symbolYes ∨ s = G.symbolNo

/-- The symbol reads as `n` where it is `n`. -/
def TristateSymbol (G : SymbolTable ι) (s : ι) : Prop :=
  G.type s = .boolean ∨ G.type s = .tristate ∨ G.IsConstant s

/-- No operand of an expression is `m`. -/
def TwoValued (env : Env ι) : Expr ι → Prop
  | .symbol s => (env s).tri ≠ .mod
  | .not e => TwoValued env e
  | .equal _ _ | .unequal _ _ => True
  | .and l r | .or l r => TwoValued env l ∧ TwoValued env r

/-- Comparing with `n` does not err: no symbol that may be `m` stands under an odd number of
negations in the condition of the entry, and no string or undefined symbol under an even number of
negations in the condition of the prompt. -/
structure ComparesSafely (G : SymbolTable ι) (visible : Option (Expr ι)) (dep : Expr ι) : Prop where
  dep : ∀ s ∈ dep.bare true, G.TwoValuedSymbol s
  visible : ∀ e, visible = some e → ∀ s ∈ e.bare false, G.TristateSymbol s

end SymbolTable

/-! ### Values of comparisons -/

section
variable {G : SymbolTable ι} {env : Env ι} {e l r : Expr ι} {s sym : ι}

open SymbolTable

theorem SymbolTable.TwoValued.exprIn_ne_mod (h : TwoValued env e) : G.exprIn env e ≠ .mod := by
  have hop : ∀ a b : Tristate, a ≠ .mod → b ≠ .mod → min a b ≠ .mod ∧ max a b ≠ .mod := by decide
  have hnot : ∀ a : Tristate, a ≠ .mod → exprNot a ≠ .mod := by decide
  induction e with
  | symbol s => exact h
  | not e ih => exact hnot _ (ih h)
  | equal s t =>
    rw [SymbolTable.exprIn]
    split <;> decide
  | unequal s t =>
    rw [SymbolTable.exprIn]
    split <;> decide
  | and l r ihl ihr => exact (hop _ _ (ihl h.1) (ihr h.2)).1
  | or l r ihl ihr => exact (hop _ _ (ihl h.1) (ihr h.2)).2

theorem stringIn_symbolNo (hG : G.Untyped) (h : G.ConstantValues env) :
    G.stringIn env G.symbolNo = ['n'] := by
  rw [SymbolTable.stringIn, hG _ (.inr (.inr rfl)), h.no]
  rfl

/-- A symbol that is not `n` does not read as `n`. -/
theorem SymbolTable.SymbolValues.string_ne (hG : G.Untyped) (h : G.SymbolValues env)
    (hs : (env s).tri ≠ .no) : G.stringIn env s ≠ ['n'] := by
  by_cases ht : G.type s = .boolean ∨ G.type s = .tristate
  · rcases h.read ht with ⟨htri, -⟩ | ⟨-, hstr⟩ | ⟨-, hstr, -⟩
    · exact absurd htri hs
    · rw [hstr]
      decide
    · rw [hstr]
      decide
  · rw [not_or] at ht
    by_cases hc : G.IsConstant s
    · rw [SymbolTable.stringIn, hG s hc]
      rcases hc with rfl | rfl | rfl
      · rw [h.yes]
        exact show (['y'] : Text) ≠ ['n'] by decide
      · rw [h.mod]
        exact show (['m'] : Text) ≠ ['n'] by decide
      · rw [h.no] at hs
        exact absurd rfl hs
    · exact absurd (h.other s ht.1 ht.2 hc) hs

/-- A boolean or tristate symbol that does not read as `n` is not `n`. -/
theorem SymbolTable.SymbolValues.tri_ne (hG : G.Untyped) (h : G.SymbolValues env)
    (ht : G.TristateSymbol s) (hs : G.stringIn env s ≠ ['n']) : (env s).tri ≠ .no := by
  rcases ht with ht | ht | hc
  · rcases h.read (.inl ht) with ⟨-, hstr⟩ | ⟨htri, -⟩ | ⟨htri, -⟩
    · exact absurd hstr hs
    · rw [htri]
      decide
    · rw [htri]
      decide
  · rcases h.read (.inr ht) with ⟨-, hstr⟩ | ⟨htri, -⟩ | ⟨htri, -⟩
    · exact absurd hstr hs
    · rw [htri]
      decide
    · rw [htri]
      decide
  · rcases hc with rfl | rfl | rfl
    · rw [h.yes]
      exact show Tristate.yes ≠ .no by decide
    · rw [h.mod]
      exact show Tristate.mod ≠ .no by decide
    · exact absurd (stringIn_symbolNo hG h.toConstantValues) hs

theorem SymbolTable.SymbolValues.tri_yes (hG : G.Untyped) (h : G.SymbolValues env)
    (ht : G.TwoValuedSymbol s) (hs : G.stringIn env s ≠ ['n']) : (env s).tri = .yes := by
  rcases ht with ht | rfl | rfl
  · rcases h.read (.inl ht) with ⟨-, hstr⟩ | ⟨htri, -⟩ | ⟨-, -, ht'⟩
    · exact absurd hstr hs
    · exact htri
    · rw [ht] at ht'
      cases ht'
  · rw [h.yes]
  · exact absurd (stringIn_symbolNo hG h.toConstantValues) hs

theorem exprIn_unequal_no (hG : G.Untyped) (h : G.ConstantValues env) (s : ι) :
    G.exprIn env (.unequal s G.symbolNo) = if G.stringIn env s = ['n'] then .no else .yes := by
  rw [SymbolTable.exprIn, stringIn_symbolNo hG h]

/-- Comparing for equality is the negation of comparing for inequality. -/
theorem exprIn_transCompare_equal (e : Expr ι) :
    G.exprIn env (exprTransCompare G .equal e) =
      exprNot (G.exprIn env (exprTransCompare G .unequal e)) := by
  induction e with
  | symbol s =>
    simp only [exprTransCompare, Comparison.node, SymbolTable.exprIn]
    split <;> rfl
  | not e ih =>
    simp only [exprTransCompare, Comparison.flip]
    rw [ih, exprNot_exprNot]
  | equal s t => rfl
  | unequal s t => rfl
  | and l r => simp only [exprTransCompare, Comparison.negated, SymbolTable.exprIn, exprNot_exprNot]
  | or l r => simp only [exprTransCompare, Comparison.negated, SymbolTable.exprIn, exprNot_exprNot]

theorem exprIn_transCompare_and (l r : Expr ι) :
    G.exprIn env (exprTransCompare G .unequal (.and l r)) =
      min (G.exprIn env (exprTransCompare G .unequal l))
        (G.exprIn env (exprTransCompare G .unequal r)) := by
  simp only [exprTransCompare, Comparison.negated, SymbolTable.exprIn, exprIn_transCompare_equal,
    exprNot_max, exprNot_exprNot]

theorem exprIn_transCompare_or (l r : Expr ι) :
    G.exprIn env (exprTransCompare G .unequal (.or l r)) =
      max (G.exprIn env (exprTransCompare G .unequal l))
        (G.exprIn env (exprTransCompare G .unequal r)) := by
  simp only [exprTransCompare, Comparison.negated, SymbolTable.exprIn, exprIn_transCompare_equal,
    exprNot_min, exprNot_exprNot]

theorem exprIn_transCompare_not (e : Expr ι) :
    G.exprIn env (exprTransCompare G .unequal (.not e)) =
      exprNot (G.exprIn env (exprTransCompare G .unequal e)) := by
  simp only [exprTransCompare, Comparison.flip, exprIn_transCompare_equal]

/-- A relation between the value of a condition and that of its comparison with `n`, which a
negation changes into another relation. -/
structure Related (G : SymbolTable ι) (env : Env ι) (good : ι → Prop)
    (R : Bool → Tristate → Tristate → Prop) : Prop where
  min : ∀ odd v u v' u', R odd v u → R odd v' u' → R odd (min v v') (min u u')
  max : ∀ odd v u v' u', R odd v u → R odd v' u' → R odd (max v v') (max u u')
  not : ∀ odd v u, R (!odd) v u → R odd (exprNot v) (exprNot u)
  compare : ∀ odd v, v ≠ .mod → R odd v v
  odd : ∀ s, R true (env s).tri (G.exprIn env (.unequal s G.symbolNo))
  even : ∀ s, good s → R false (env s).tri (G.exprIn env (.unequal s G.symbolNo))

theorem Related.transCompare {good : ι → Prop} {R : Bool → Tristate → Tristate → Prop}
    (h : Related G env good R) {odd : Bool} (hgood : ∀ s ∈ e.bare odd, good s) :
    R odd (G.exprIn env e) (G.exprIn env (exprTransCompare G .unequal e)) := by
  induction e generalizing odd with
  | symbol s =>
    cases odd with
    | true => exact h.odd s
    | false => exact h.even s (hgood s (List.mem_singleton_self s))
  | not e ih =>
    rw [exprIn_transCompare_not]
    exact h.not _ _ _ (ih hgood)
  | equal s t => exact h.compare _ _ (TwoValued.exprIn_ne_mod (e := .equal s t) trivial)
  | unequal s t => exact h.compare _ _ (TwoValued.exprIn_ne_mod (e := .unequal s t) trivial)
  | and l r ihl ihr =>
    rw [exprIn_transCompare_and]
    exact h.min _ _ _ _ _ (ihl fun s hs => hgood s (List.mem_append_left _ hs))
      (ihr fun s hs => hgood s (List.mem_append_right _ hs))
  | or l r ihl ihr =>
    rw [exprIn_transCompare_or]
    exact h.max _ _ _ _ _ (ihl fun s hs => hgood s (List.mem_append_left _ hs))
      (ihr fun s hs => hgood s (List.mem_append_right _ hs))

/-- A condition that is not `n` compares as `y`, and under a negation the converse. -/
theorem related_dep (hG : G.Untyped) (h : G.SymbolValues env) :
    Related G env G.TwoValuedSymbol fun odd v u =>
      u ≠ .mod ∧ if odd then v ≠ .no → u = .yes else u = .yes → v = .yes where
  min := by decide
  max := by decide
  not := by decide
  compare := by decide
  odd s := by
    refine ⟨TwoValued.exprIn_ne_mod (e := .unequal s G.symbolNo) trivial, ?_⟩
    rw [if_pos rfl, exprIn_unequal_no hG h.toConstantValues]
    exact fun hs => if_neg (h.string_ne hG hs)
  even s hs := by
    refine ⟨TwoValued.exprIn_ne_mod (e := .unequal s G.symbolNo) trivial, ?_⟩
    rw [if_neg Bool.false_ne_true, exprIn_unequal_no hG h.toConstantValues]
    intro hu
    apply h.tri_yes hG hs
    intro hstr
    rw [if_pos hstr] at hu
    cases hu

/-- A condition that compares as `y` is not `n`, and under a negation the converse. -/
theorem related_visible (hG : G.Untyped) (h : G.SymbolValues env) :
    Related G env G.TristateSymbol fun odd v u =>
      u ≠ .mod ∧ if odd then v = .yes → u = .yes else u = .yes → v ≠ .no where
  min := by decide
  max := by decide
  not := by decide
  compare := by decide
  odd s := by
    refine ⟨TwoValued.exprIn_ne_mod (e := .unequal s G.symbolNo) trivial, ?_⟩
    rw [if_pos rfl, exprIn_unequal_no hG h.toConstantValues]
    exact fun hs => if_neg (h.string_ne hG (by rw [hs]; decide))
  even s hs := by
    refine ⟨TwoValued.exprIn_ne_mod (e := .unequal s G.symbolNo) trivial, ?_⟩
    rw [if_neg Bool.false_ne_true, exprIn_unequal_no hG h.toConstantValues]
    intro hu
    apply h.tri_ne hG hs
    intro hstr
    rw [if_pos hstr] at hu
    cases hu

/-! ### No operand becomes `m` -/

section
variable {j : Junction} {p q : Position} {e1 e2 x tmp : Expr ι}

theorem twoValued_transCompare (type : Comparison) (e : Expr ι) :
    TwoValued env (exprTransCompare G type e) := by
  induction e generalizing type with
  | symbol s => cases type <;> trivial
  | not e ih => exact ih type.flip
  | equal s t => cases type <;> trivial
  | unequal s t => cases type <;> trivial
  | and l r ihl ihr => cases type <;> exact ⟨ihl .equal, ihr .equal⟩
  | or l r ihl ihr => cases type <;> exact ⟨ihl .equal, ihr .equal⟩

theorem twoValued_yes (h : G.ConstantValues env) : TwoValued env (.symbol G.symbolYes) := by
  rw [TwoValued, h.yes]
  exact nofun

theorem twoValued_no (h : G.ConstantValues env) : TwoValued env (.symbol G.symbolNo) := by
  rw [TwoValued, h.no]
  exact nofun

theorem twoValued_transUnequalNo (h : G.ConstantValues env) (e : Option (Expr ι)) :
    TwoValued env (transUnequalNo G e) := by
  cases e with
  | none => exact twoValued_no h
  | some e => exact twoValued_transCompare .unequal e

variable [DecidableEq ι]

theorem twoValued_negate (h : G.ConstantValues env) (hx : TwoValued env x) :
    TwoValued env (negate G x) := by
  induction x with
  | symbol s =>
    unfold negate transformNotSymbol
    split_ifs with hyes hmod hno
    · exact twoValued_no h
    · rw [TwoValued, hmod, h.mod] at hx
      exact absurd rfl hx
    · exact twoValued_yes h
    · exact hx
  | not e => exact hx
  | equal s t => trivial
  | unequal s t => trivial
  | and l r ihl ihr => exact ⟨ihl hx.1, ihr hx.2⟩
  | or l r ihl ihr => exact ⟨ihl hx.1, ihr hx.2⟩

theorem twoValued_nnf (h : G.Valuation env) (he : TwoValued env e) : TwoValued env (nnf G e) := by
  have hc := h.toConstantValues
  induction e with
  | symbol s => exact he
  | not e ih => exact twoValued_negate hc (ih he)
  | equal s t =>
    unfold nnf transformEqual
    split_ifs with ht
    · trivial
    · exact h.boolean s (not_not.mp ht)
    · exact twoValued_no hc
    · exact h.boolean s (not_not.mp ht)
    · trivial
  | unequal s t =>
    unfold nnf transformUnequal
    split_ifs with ht
    · trivial
    · exact h.boolean s (not_not.mp ht)
    · exact twoValued_yes hc
    · exact h.boolean s (not_not.mp ht)
    · trivial
  | and l r ihl ihr => exact ⟨ihl he.1, ihr he.2⟩
  | or l r ihl ihr => exact ⟨ihl he.1, ihr he.2⟩

omit [DecidableEq ι] in
/-- Where no operand is `m`, no nest is. -/
theorem contingentNests_of_twoValued {above : Option Junction} (he : TwoValued env e) :
    ContingentNests G env above e := by
  induction e generalizing above with
  | and l r ihl ihr | or l r ihl ihr =>
    exact ⟨fun _ _ hmod => absurd hmod he.exprIn_ne_mod, ihl he.1, ihr he.2⟩
  | _ => trivial

/-- The preparation of a condition keeps the value of the comparison. -/
theorem exprIn_comparedCondition (hG : G.Untyped) (h : G.Assignment env) (e : Option (Expr ι)) :
    G.exprIn env (comparedCondition G e) = G.exprIn env (transUnequalNo G e) := by
  have htwo := twoValued_nnf h.toValuation (twoValued_transUnequalNo h.toConstantValues e)
  rw [← exprTransform_eq_nnf hG] at htwo
  rw [comparedCondition, exprIn_exprEliminateDups hG h _ (contingentNests_of_twoValued htwo),
    exprTransform_eq_nnf hG, exprIn_nnf hG h.toValuation]

/-! ### What moving an entry means -/

omit [DecidableEq ι] in
theorem Cancels.le {out : Expr ι × Expr ι} (h : Cancels G env j e1 e2 out)
    (hle : G.exprIn env out.1 ≤ G.exprIn env out.2) : G.exprIn env e1 ≤ G.exprIn env e2 := by
  obtain ⟨c, h1, h2⟩ := h
  rw [← h1, ← h2]
  cases j
  · exact min_le_min le_rfl hle
  · exact max_le_max le_rfl hle

/-- When nothing is left of the condition of the prompt, it is at least the other condition. -/
theorem exprIn_le_of_exprEliminateEq (h : G.ConstantValues env)
    (heq : ∀ e1 e2, eq e1 e2 → G.exprIn env e1 = G.exprIn env e2)
    (hyes : exprIsYes G (exprEliminateEq G eq e1 e2).2) :
    G.exprIn env e1 ≤ G.exprIn env e2 := by
  have hle : ∀ {a b : Expr ι}, exprIsYes G b → G.exprIn env a ≤ G.exprIn env b := by
    intro a b hb
    rw [of_decide_eq_true hb, SymbolTable.exprIn, h.yes]
    exact le_yes _
  have hlast : ∀ {a b : Expr ι}, exprIsYes G (exprEliminateYn G b) →
      G.exprIn env a ≤ G.exprIn env b := by
    intro a b hb
    rw [← exprIn_exprEliminateYn h b]
    exact hle hb
  have hcancels : ∀ (j : Junction) (a b : Expr ι), Cancels G env j a b (eliminateEq G eq j a b) :=
    fun j a b => cancels_eliminateEq h heq
  unfold exprEliminateEq at hyes
  extract_lets first second at hyes
  have hsecond : G.exprIn env first.1 ≤ G.exprIn env first.2 := by
    unfold second at hyes
    split at hyes
    · split at hyes
      · exact (hcancels _ first.1 first.2).le (hlast hyes)
      · exact hlast hyes
    · exact hlast hyes
  unfold first at hsecond
  split at hsecond
  · exact (hcancels _ e1 e2).le hsecond
  · exact hsecond

/-- An entry whose condition depends on a symbol is not visible when the symbol is `n`. -/
theorem string_ne_of_exprDependsSymbol (hG : G.Untyped) (h : G.SymbolValues env)
    (hdep : exprDependsSymbol G sym e) (he : G.exprIn env e ≠ .no) :
    G.stringIn env sym ≠ ['n'] := by
  have hmin : ∀ a b : Tristate, min a b ≠ .no → a ≠ .no ∧ b ≠ .no := by decide
  induction e with
  | symbol s =>
    obtain rfl := of_decide_eq_true hdep
    exact h.string_ne hG he
  | not e => cases hdep
  | equal s t =>
    simp only [exprDependsSymbol, Bool.and_eq_true, Bool.or_eq_true, decide_eq_true_eq] at hdep
    obtain ⟨rfl, ht⟩ := hdep
    rw [SymbolTable.exprIn] at he
    split at he
    · next heq =>
      rw [heq]
      apply h.string_ne hG
      rcases ht with rfl | rfl
      · rw [h.yes]
        simp
      · rw [h.mod]
        simp
    · exact absurd rfl he
  | unequal s t =>
    simp only [exprDependsSymbol, Bool.and_eq_true, decide_eq_true_eq] at hdep
    obtain ⟨rfl, rfl⟩ := hdep
    rw [exprIn_unequal_no hG h.toConstantValues] at he
    intro hstr
    exact he (if_pos hstr)
  | and l r ihl ihr =>
    obtain ⟨hl, hr⟩ := hmin _ _ he
    rcases Bool.or_eq_true_iff.mp hdep with hdep | hdep
    · exact ihl hdep hl
    · exact ihr hdep hr
  | or l r => cases hdep

/-- Safe comparisons: the entry is visible only where the prompt is. -/
theorem condIn_ne_of_exprIsYes (hG : G.Untyped) (h : G.SymbolValues env) {basedep : Expr ι}
    {visible : Option (Expr ι)} (hsafe : G.ComparesSafely visible e)
    (hbase : G.exprIn env basedep = G.exprIn env (transUnequalNo G visible))
    (hyes : exprIsYes G (exprEliminateEq G (exprEq G) (comparedCondition G (some e)) basedep).2)
    (he : G.exprIn env e ≠ .no) : G.condIn env visible ≠ .no := by
  have hc := h.toConstantValues
  have hle := exprIn_le_of_exprEliminateEq hc (fun _ _ => exprIn_eq_of_exprEq hc) hyes
  rw [exprIn_comparedCondition hG h.toAssignment, hbase] at hle
  have hdep := ((related_dep hG h).transCompare hsafe.dep).2
  rw [if_pos rfl] at hdep
  rw [transUnequalNo, hdep he, yes_le_iff] at hle
  cases visible with
  | none => exact nofun
  | some v =>
    have hvisible := ((related_visible hG h).transCompare (hsafe.visible v rfl)).2
    rw [if_neg Bool.false_ne_true] at hvisible
    exact hvisible hle

/-- The rule for submenus: where the entry is visible, the symbol is not `n` or the prompt is
visible. -/
def SubmenuRule (G : SymbolTable ι) (visible : Option (Expr ι)) (sym : ι) (dep : Option (Expr ι)) :
    Prop :=
  ∀ env, G.SymbolValues env → G.condIn env dep ≠ .no →
    G.stringIn env sym ≠ ['n'] ∨ G.condIn env visible ≠ .no

/-- An entry that is moved obeys the rule, when comparing with `n` does not err. -/
theorem submenuRule_of_dependsOnEntry (hG : G.Untyped) {visible dep : Option (Expr ι)}
    {basedep : Expr ι}
    (hbase : ∀ env, G.SymbolValues env →
      G.exprIn env basedep = G.exprIn env (transUnequalNo G visible))
    (hmoves : dependsOnEntry G basedep sym dep)
    (hsafe : ∀ e, dep = some e → exprDependsSymbol G sym e ∨ G.ComparesSafely visible e) :
    SubmenuRule G visible sym dep := by
  intro env h hdep
  cases dep with
  | none => cases hmoves
  | some e =>
    obtain ⟨-, hmoves⟩ := Bool.and_eq_true_iff.mp hmoves
    rcases hsafe e rfl with hdepends | hsafe
    · exact .inl (string_ne_of_exprDependsSymbol hG h hdepends hdep)
    rcases Bool.or_eq_true_iff.mp hmoves with hdepends | hyes
    · exact .inl (string_ne_of_exprDependsSymbol hG h hdepends hdep)
    · exact .inr (condIn_ne_of_exprIsYes hG h hsafe (hbase env h) hyes hdep)

end
end

namespace Submenus

/-- The boolean symbol `MODULES`, the tristate symbols `A`, `X`, `P` and `C`, and the constants. -/
inductive Name
  | y | m | n | modules | a | x | parent | child
  deriving DecidableEq

open Name

def table : SymbolTable Name where
  symbolYes := y
  symbolMod := m
  symbolNo := n
  symbolHash := [modules, a, x, parent, child]
  modulesSym := modules
  symbol
    | y => { name := some ['y'], type := .unknown, flagConst := true }
    | m => { name := some ['m'], type := .unknown, flagConst := true }
    | n => { name := some ['n'], type := .unknown, flagConst := true }
    | modules => { name := some ['M', 'O', 'D', 'U', 'L', 'E', 'S'], type := .boolean }
    | a => { name := some ['A'], type := .tristate }
    | x => { name := some ['X'], type := .tristate }
    | parent => { name := some ['P'], type := .tristate }
    | child => { name := some ['C'], type := .tristate }

theorem untyped : table.Untyped := by
  rintro s (rfl | rfl | rfl) <;> rfl

/-- Modules are enabled, `A` is `m`, `X` is `y`, and `P` and `C` are `n`. -/
def env : Env Name
  | y | modules | x => ⟨.str ['y'], .yes⟩
  | m | a => ⟨.str ['m'], .mod⟩
  | n | parent | child => ⟨.str ['n'], .no⟩

end Submenus
end OpenADK.Kconfig
