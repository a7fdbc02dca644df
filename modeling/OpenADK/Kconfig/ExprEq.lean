import OpenADK.Kconfig.ExprTransform
import Mathlib.Data.Multiset.Filter

/-!
# Comparing expressions

`expr_eq` decides whether two expressions are the same up to the order of operands. On `E_AND` and
`E_OR` nodes it cancels pairs of equal operands against the neutral constant, simplifies both
sides with `expr_eliminate_yn` and compares what is left.
-/

namespace OpenADK.Kconfig
open Tristate
variable {ι : Type}

/-- The node types `E_AND` and `E_OR`. -/
inductive Junction
  | and
  | or
  deriving DecidableEq

namespace Junction

def node (j : Junction) (l r : Expr ι) : Expr ι :=
  match j with
  | .and => .and l r
  | .or => .or l r

def op (j : Junction) (a b : Tristate) : Tristate :=
  match j with
  | .and => min a b
  | .or => max a b

def neutral (j : Junction) (G : SymbolTable ι) : ι :=
  match j with
  | .and => G.symbolYes
  | .or => G.symbolNo

def absorbing (j : Junction) (G : SymbolTable ι) : ι :=
  match j with
  | .and => G.symbolNo
  | .or => G.symbolYes

end Junction

/-- The type of the expression, when it is `E_AND` or `E_OR`. -/
def Expr.junction : Expr ι → Option Junction
  | .and _ _ => some .and
  | .or _ _ => some .or
  | _ => none

section
variable [DecidableEq ι] (G : SymbolTable ι)

/-- `expr_eliminate_yn` on a node whose operands have been simplified. -/
def joinYn (j : Junction) (l r : Expr ι) : Expr ι :=
  if l = .symbol (j.absorbing G) then .symbol (j.absorbing G)
  else if l = .symbol (j.neutral G) then r
  else if r = .symbol (j.absorbing G) then .symbol (j.absorbing G)
  else if r = .symbol (j.neutral G) then l
  else j.node l r

/-- `expr_eliminate_yn`. -/
def exprEliminateYn : Expr ι → Expr ι
  | .and l r => joinYn G .and (exprEliminateYn l) (exprEliminateYn r)
  | .or l r => joinYn G .or (exprEliminateYn l) (exprEliminateYn r)
  | e => e

section
variable (eq : Expr ι → Expr ι → Bool)

/-- `__expr_eliminate_eq` on two operands that are no nodes of type `j`. -/
def eliminatePair (j : Junction) (e1 e2 : Expr ι) : Expr ι × Expr ι :=
  if e1 = e2 ∧ (e1 = .symbol G.symbolYes ∨ e1 = .symbol G.symbolNo) then (e1, e2)
  else if eq e1 e2 then (.symbol (j.neutral G), .symbol (j.neutral G))
  else (e1, e2)

/-- `__expr_eliminate_eq` on an operand `e1` and the operands of `e2`. -/
def eliminateOperand (j : Junction) (e1 : Expr ι) : Expr ι → Expr ι × Expr ι
  | .and l r =>
    if j = .and then
      let left := eliminateOperand j e1 l
      let right := eliminateOperand j left.1 r
      (right.1, .and left.2 right.2)
    else eliminatePair G eq j e1 (.and l r)
  | .or l r =>
    if j = .or then
      let left := eliminateOperand j e1 l
      let right := eliminateOperand j left.1 r
      (right.1, .or left.2 right.2)
    else eliminatePair G eq j e1 (.or l r)
  | e2 => eliminatePair G eq j e1 e2

/-- `__expr_eliminate_eq`. -/
def eliminateEq (j : Junction) : Expr ι → Expr ι → Expr ι × Expr ι
  | .and l r, e2 =>
    if j = .and then
      let left := eliminateEq j l e2
      let right := eliminateEq j r left.2
      (.and left.1 right.1, right.2)
    else eliminateOperand G eq j (.and l r) e2
  | .or l r, e2 =>
    if j = .or then
      let left := eliminateEq j l e2
      let right := eliminateEq j r left.2
      (.or left.1 right.1, right.2)
    else eliminateOperand G eq j (.or l r) e2
  | e1, e2 => eliminateOperand G eq j e1 e2

/-- `expr_eliminate_eq`. -/
def exprEliminateEq (e1 e2 : Expr ι) : Expr ι × Expr ι :=
  let first := match e1.junction with
    | some j => eliminateEq G eq j e1 e2
    | none => (e1, e2)
  let second := match first.2.junction with
    | some j => if first.1.junction ≠ some j then eliminateEq G eq j first.1 first.2 else first
    | none => first
  (exprEliminateYn G second.1, exprEliminateYn G second.2)

end

def sameSymbol : Expr ι × Expr ι → Bool
  | (.symbol s, .symbol t) => s = t
  | _ => false

/-- `expr_eq`, to the given depth of recursion. -/
def exprEqFuel : ℕ → Expr ι → Expr ι → Bool
  | 0, _, _ => false
  | _ + 1, .equal s t, .equal s' t' => s = s' ∧ t = t'
  | _ + 1, .unequal s t, .unequal s' t' => s = s' ∧ t = t'
  | _ + 1, .symbol s, .symbol s' => s = s'
  | n + 1, .not a, .not b => exprEqFuel n a b
  | n + 1, .and l r, .and l' r' =>
    sameSymbol (exprEliminateEq G (exprEqFuel n) (.and l r) (.and l' r'))
  | n + 1, .or l r, .or l' r' =>
    sameSymbol (exprEliminateEq G (exprEqFuel n) (.or l r) (.or l' r'))
  | _ + 1, _, _ => false

/-- `expr_eq`, which calls itself on operands of `e1` only. -/
def exprEq (e1 e2 : Expr ι) : Bool := exprEqFuel G e1.height e1 e2

end

/-- Permuting and reassociating the operands of `E_AND` and `E_OR` nodes at every level. -/
inductive Reorders : Expr ι → Expr ι → Prop
  | refl (e : Expr ι) : Reorders e e
  | symm {e e' : Expr ι} (h : Reorders e e') : Reorders e' e
  | trans {e e' e'' : Expr ι} (h : Reorders e e') (h' : Reorders e' e'') : Reorders e e''
  | comm (j : Junction) (l r : Expr ι) : Reorders (j.node l r) (j.node r l)
  | assoc (j : Junction) (a b c : Expr ι) :
    Reorders (j.node (j.node a b) c) (j.node a (j.node b c))
  | not {e e' : Expr ι} (h : Reorders e e') : Reorders (.not e) (.not e')
  | node (j : Junction) {l l' r r' : Expr ι} (h : Reorders l l') (h' : Reorders r r') :
    Reorders (j.node l r) (j.node l' r')

/-! ### Equal expressions have equal values -/

section
variable {G : SymbolTable ι} {env : Env ι} {j : Junction} {e e1 e2 l r : Expr ι} {n : ℕ}

namespace Junction

theorem op_comm (j : Junction) (a b : Tristate) : j.op a b = j.op b a := by
  cases j
  · exact min_comm a b
  · exact max_comm a b

theorem op_assoc (j : Junction) (a b c : Tristate) : j.op (j.op a b) c = j.op a (j.op b c) := by
  cases j
  · exact min_assoc a b c
  · exact max_assoc a b c

theorem op_op_op_comm (j : Junction) (a b c d : Tristate) :
    j.op (j.op a b) (j.op c d) = j.op (j.op a c) (j.op b d) := by
  rw [op_assoc, op_assoc, ← j.op_assoc b c d, j.op_comm b c, j.op_assoc c b d]

theorem op_neutral (h : G.ConstantValues env) (j : Junction) (a : Tristate) :
    j.op (env (j.neutral G)).tri a = a := by
  cases j
  · simp [op, neutral, h.yes]
  · simp [op, neutral, h.no]

theorem op_absorbing (h : G.ConstantValues env) (j : Junction) (a : Tristate) :
    j.op (env (j.absorbing G)).tri a = (env (j.absorbing G)).tri := by
  cases j
  · simp [op, absorbing, h.no]
  · simp [op, absorbing, h.yes]

theorem exprIn_node (j : Junction) (l r : Expr ι) :
    G.exprIn env (j.node l r) = j.op (G.exprIn env l) (G.exprIn env r) := by
  cases j <;> rfl

@[simp] theorem junction_node (j : Junction) (l r : Expr ι) : (j.node l r).junction = some j := by
  cases j <;> rfl

@[simp] theorem height_node (j : Junction) (l r : Expr ι) :
    (j.node l r).height = max l.height r.height + 1 := by
  cases j <;> rfl

end Junction

theorem Expr.eq_node_of_junction (h : e.junction = some j) : ∃ l r, e = j.node l r := by
  cases e <;> cases h
  · exact ⟨_, _, rfl⟩
  · exact ⟨_, _, rfl⟩

/-- Induction on the operands of a nest of `j` nodes. -/
@[elab_as_elim]
theorem Expr.operandInduction (j : Junction) {motive : Expr ι → Prop}
    (leaf : ∀ e : Expr ι, e.junction ≠ some j → motive e)
    (node : ∀ l r, motive l → motive r → motive (j.node l r)) (e : Expr ι) : motive e := by
  by_cases hj : e.junction = some j
  · induction e with
    | symbol | equal | unequal | not => cases hj
    | and l r ihl ihr =>
      cases hj
      refine node l r ?_ ?_
      · exact if hl : l.junction = some .and then ihl hl else leaf l hl
      · exact if hr : r.junction = some .and then ihr hr else leaf r hr
    | or l r ihl ihr =>
      cases hj
      refine node l r ?_ ?_
      · exact if hl : l.junction = some .or then ihl hl else leaf l hl
      · exact if hr : r.junction = some .or then ihr hr else leaf r hr
  · exact leaf e hj

variable [DecidableEq ι] {eq : Expr ι → Expr ι → Bool}

theorem exprIn_joinYn (h : G.ConstantValues env) (j : Junction) (l r : Expr ι) :
    G.exprIn env (joinYn G j l r) = j.op (G.exprIn env l) (G.exprIn env r) := by
  unfold joinYn
  split_ifs with hl hl' hr hr'
  · rw [hl]
    exact (j.op_absorbing h _).symm
  · rw [hl']
    exact (j.op_neutral h _).symm
  · rw [hr, j.op_comm]
    exact (j.op_absorbing h _).symm
  · rw [hr', j.op_comm]
    exact (j.op_neutral h _).symm
  · exact j.exprIn_node l r

/-- `expr_eliminate_yn` keeps the value. -/
theorem exprIn_exprEliminateYn (h : G.ConstantValues env) (e : Expr ι) :
    G.exprIn env (exprEliminateYn G e) = G.exprIn env e := by
  induction e with
  | symbol s | equal s t | unequal s t | not e => rfl
  | and l r ihl ihr | or l r ihl ihr =>
    rw [exprEliminateYn, exprIn_joinYn h, ihl, ihr]
    rfl

theorem eliminateOperand_node (j : Junction) (e l r : Expr ι) :
    eliminateOperand G eq j e (j.node l r) =
      let left := eliminateOperand G eq j e l
      let right := eliminateOperand G eq j left.1 r
      (right.1, j.node left.2 right.2) := by
  cases j <;> simp [eliminateOperand, Junction.node]

theorem eliminateOperand_leaf (h : e2.junction ≠ some j) :
    eliminateOperand G eq j e1 e2 = eliminatePair G eq j e1 e2 := by
  cases e2 <;> cases j <;> simp [eliminateOperand, Expr.junction] at h ⊢

theorem eliminateEq_node (j : Junction) (l r e : Expr ι) :
    eliminateEq G eq j (j.node l r) e =
      let left := eliminateEq G eq j l e
      let right := eliminateEq G eq j r left.2
      (j.node left.1 right.1, right.2) := by
  cases j <;> simp [eliminateEq, Junction.node]

theorem eliminateEq_leaf (h : e1.junction ≠ some j) :
    eliminateEq G eq j e1 e2 = eliminateOperand G eq j e1 e2 := by
  cases e1 <;> cases j <;> simp [eliminateEq, Expr.junction] at h ⊢

/-- `p` is what is left of two expressions when the same value is taken from both. -/
def Cancels (G : SymbolTable ι) (env : Env ι) (j : Junction) (e1 e2 : Expr ι)
    (p : Expr ι × Expr ι) : Prop :=
  ∃ c, j.op c (G.exprIn env p.1) = G.exprIn env e1 ∧ j.op c (G.exprIn env p.2) = G.exprIn env e2

section
variable (h : G.ConstantValues env)
variable (heq : ∀ e1 e2, eq e1 e2 → G.exprIn env e1 = G.exprIn env e2)
include h heq

theorem cancels_eliminatePair : Cancels G env j e1 e2 (eliminatePair G eq j e1 e2) := by
  unfold eliminatePair
  split_ifs with hyn he
  · exact ⟨_, j.op_neutral h _, j.op_neutral h _⟩
  · refine ⟨G.exprIn env e1, ?_, ?_⟩
    · rw [j.op_comm]
      exact j.op_neutral h _
    · rw [heq e1 e2 he, j.op_comm]
      exact j.op_neutral h _
  · exact ⟨_, j.op_neutral h _, j.op_neutral h _⟩

theorem cancels_eliminateOperand : Cancels G env j e1 e2 (eliminateOperand G eq j e1 e2) := by
  induction e2 using Expr.operandInduction j generalizing e1 with
  | leaf e2 hj =>
    rw [eliminateOperand_leaf hj]
    exact cancels_eliminatePair h heq
  | node l r ihl ihr =>
    rw [eliminateOperand_node]
    obtain ⟨c, hc1, hc2⟩ := @ihl e1
    obtain ⟨d, hd1, hd2⟩ := @ihr (eliminateOperand G eq j e1 l).1
    refine ⟨j.op c d, ?_, ?_⟩
    · rw [j.op_assoc, hd1, hc1]
    · rw [j.exprIn_node, j.op_op_op_comm, hc2, hd2, j.exprIn_node]

theorem cancels_eliminateEq : Cancels G env j e1 e2 (eliminateEq G eq j e1 e2) := by
  induction e1 using Expr.operandInduction j generalizing e2 with
  | leaf e1 hj =>
    rw [eliminateEq_leaf hj]
    exact cancels_eliminateOperand h heq
  | node l r ihl ihr =>
    rw [eliminateEq_node]
    obtain ⟨c, hc1, hc2⟩ := @ihl e2
    obtain ⟨d, hd1, hd2⟩ := @ihr (eliminateEq G eq j l e2).2
    refine ⟨j.op c d, ?_, ?_⟩
    · rw [j.exprIn_node, j.op_op_op_comm, hc1, hd1, j.exprIn_node]
    · rw [j.op_assoc, hd2, hc2]

end

/-! ### The recursion of `expr_eq` -/

theorem junction_eliminateEq (h : e1.junction = some j) (h' : e2.junction = some j) :
    (eliminateEq G eq j e1 e2).1.junction = some j ∧
      (eliminateEq G eq j e1 e2).2.junction = some j := by
  have hoperand : ∀ e e2 : Expr ι, e2.junction = some j →
      (eliminateOperand G eq j e e2).2.junction = some j := by
    intro e e2 h2
    obtain ⟨l, r, rfl⟩ := Expr.eq_node_of_junction h2
    rw [eliminateOperand_node]
    exact j.junction_node _ _
  have hall : ∀ e e2 : Expr ι, e2.junction = some j →
      (eliminateEq G eq j e e2).2.junction = some j := by
    intro e
    induction e using Expr.operandInduction j with
    | leaf e hj =>
      intro e2 h2
      rw [eliminateEq_leaf hj]
      exact hoperand e e2 h2
    | node l r ihl ihr =>
      intro e2 h2
      rw [eliminateEq_node]
      exact ihr _ (ihl e2 h2)
  refine ⟨?_, hall e1 e2 h'⟩
  obtain ⟨l, r, rfl⟩ := Expr.eq_node_of_junction h
  rw [eliminateEq_node]
  exact j.junction_node _ _

/-- On two nodes of one type `expr_eliminate_eq` walks over the operands once. -/
theorem exprEliminateEq_node (h : e1.junction = some j) (h' : e2.junction = some j) :
    exprEliminateEq G eq e1 e2 =
      (exprEliminateYn G (eliminateEq G eq j e1 e2).1,
        exprEliminateYn G (eliminateEq G eq j e1 e2).2) := by
  have hnodes : (eliminateEq G eq j e1 e2).1.junction = some j ∧
      (eliminateEq G eq j e1 e2).2.junction = some j := junction_eliminateEq h h'
  obtain ⟨h1, h2⟩ := hnodes
  simp [exprEliminateEq, h, h1, h2]

/-- `expr_eliminate_eq` compares the operands of `e1` only. -/
theorem eliminateEq_congr {eq' : Expr ι → Expr ι → Bool}
    (h : ∀ x y : Expr ι, x.height < e1.height → eq x y = eq' x y) (hj : e1.junction = some j) :
    eliminateEq G eq j e1 e2 = eliminateEq G eq' j e1 e2 := by
  have hpair : ∀ x y : Expr ι, (∀ z, eq x z = eq' x z) →
      eliminatePair G eq j x y = eliminatePair G eq' j x y := by
    intro x y hx
    unfold eliminatePair
    rw [hx]
  have hsymbol : ∀ (s : ι) (y : Expr ι), eq (.symbol s) y = eq' (.symbol s) y := by
    intro s y
    obtain ⟨l, r, rfl⟩ := Expr.eq_node_of_junction hj
    refine h _ _ ?_
    have hl := l.one_le_height
    rw [j.height_node]
    simp only [Expr.height]
    omega
  have hleft : ∀ x y : Expr ι, (∀ z, eq x z = eq' x z) →
      ∀ z, eq (eliminatePair G eq' j x y).1 z = eq' (eliminatePair G eq' j x y).1 z := by
    intro x y hx z
    unfold eliminatePair
    split_ifs
    · exact hx z
    · exact hsymbol _ z
    · exact hx z
  have hoperand : ∀ (y x : Expr ι), (∀ z, eq x z = eq' x z) →
      eliminateOperand G eq j x y = eliminateOperand G eq' j x y ∧
        ∀ z, eq (eliminateOperand G eq' j x y).1 z = eq' (eliminateOperand G eq' j x y).1 z := by
    intro y
    induction y using Expr.operandInduction j with
    | leaf y hy =>
      intro x hx
      rw [eliminateOperand_leaf hy, eliminateOperand_leaf hy]
      exact ⟨hpair x y hx, hleft x y hx⟩
    | node l r ihl ihr =>
      intro x hx
      obtain ⟨hl, hxl⟩ := ihl x hx
      obtain ⟨hr, hxr⟩ := ihr _ hxl
      rw [eliminateOperand_node, eliminateOperand_node]
      simp only [hl, hr]
      exact ⟨trivial, hxr⟩
  have hall : ∀ (x y : Expr ι), (x.junction = some j → x.height ≤ e1.height) →
      (x.junction ≠ some j → x.height < e1.height) →
      eliminateEq G eq j x y = eliminateEq G eq' j x y := by
    intro x
    induction x using Expr.operandInduction j with
    | leaf x hx =>
      intro y _ hlt
      rw [eliminateEq_leaf hx, eliminateEq_leaf hx]
      exact (hoperand y x fun z => h x z (hlt hx)).1
    | node l r ihl ihr =>
      intro y hle _
      have hle := hle (j.junction_node l r)
      rw [j.height_node] at hle
      rw [eliminateEq_node, eliminateEq_node]
      simp only [ihl y (fun _ => by omega) (fun _ => by omega),
        ihr _ (fun _ => by omega) (fun _ => by omega)]
  exact hall e1 e2 (fun _ => le_rfl) fun hne => absurd hj hne

/-- More fuel than the height of the first expression changes nothing. -/
theorem exprEqFuel_eq {m : ℕ} (hn : e1.height ≤ n) (hm : e1.height ≤ m) :
    exprEqFuel G n e1 e2 = exprEqFuel G m e1 e2 := by
  induction n generalizing m e1 e2 with
  | zero => exact absurd hn (by have := e1.one_le_height; omega)
  | succ n ih =>
    obtain ⟨m, rfl⟩ : ∃ k, m = k + 1 := ⟨m - 1, by have := e1.one_le_height; omega⟩
    have hnode : ∀ (j : Junction) (l r : Expr ι), e1 = j.node l r → ∀ e2, e2.junction = some j →
        exprEliminateEq G (exprEqFuel G n) (j.node l r) e2 =
          exprEliminateEq G (exprEqFuel G m) (j.node l r) e2 := by
      intro j l r he e2 h2
      have hcongr : eliminateEq G (exprEqFuel G n) j (j.node l r) e2 =
          eliminateEq G (exprEqFuel G m) j (j.node l r) e2 := by
        refine eliminateEq_congr ?_ (j.junction_node l r)
        intro x y hx
        rw [he] at hn hm
        exact ih (by omega) (by omega)
      rw [exprEliminateEq_node (j.junction_node l r) h2, exprEliminateEq_node (j.junction_node l r) h2,
        hcongr]
    cases e1 with
    | symbol s | equal s t | unequal s t => cases e2 <;> rfl
    | not a =>
      simp only [Expr.height] at hn hm
      cases e2 with
      | not b => exact ih (by omega) (by omega)
      | _ => rfl
    | and l r =>
      cases e2 with
      | and l' r' => exact congrArg sameSymbol (hnode .and l r rfl (.and l' r') rfl)
      | _ => rfl
    | or l r =>
      cases e2 with
      | or l' r' => exact congrArg sameSymbol (hnode .or l r rfl (.or l' r') rfl)
      | _ => rfl

theorem exprEq_node (h : e1.junction = some j) (h' : e2.junction = some j) :
    exprEq G e1 e2 = sameSymbol (exprEliminateYn G (eliminateEq G (exprEq G) j e1 e2).1,
      exprEliminateYn G (eliminateEq G (exprEq G) j e1 e2).2) := by
  rw [← exprEliminateEq_node h h']
  obtain ⟨l, r, rfl⟩ := Expr.eq_node_of_junction h
  obtain ⟨l', r', rfl⟩ := Expr.eq_node_of_junction h'
  have hcongr : exprEliminateEq G (exprEqFuel G (max l.height r.height)) (j.node l r) (j.node l' r') =
      exprEliminateEq G (exprEq G) (j.node l r) (j.node l' r') := by
    have hoperands : eliminateEq G (exprEqFuel G (max l.height r.height)) j (j.node l r)
        (j.node l' r') = eliminateEq G (exprEq G) j (j.node l r) (j.node l' r') := by
      refine eliminateEq_congr ?_ (j.junction_node l r)
      intro x y hx
      rw [j.height_node] at hx
      exact exprEqFuel_eq (by omega) le_rfl
    rw [exprEliminateEq_node h h', exprEliminateEq_node h h', hoperands]
  rw [← hcongr, exprEq]
  cases j <;> rfl

@[simp] theorem exprEq_not (a b : Expr ι) : exprEq G (.not a) (.not b) = exprEq G a b := rfl

/-- `expr_eq` is sound. -/
theorem exprIn_eq_of_exprEq (h : G.ConstantValues env) (heq : exprEq G e1 e2) :
    G.exprIn env e1 = G.exprIn env e2 := by
  have hfuel : ∀ n (e1 e2 : Expr ι), exprEqFuel G n e1 e2 → G.exprIn env e1 = G.exprIn env e2 := by
    intro n
    induction n with
    | zero => exact fun _ _ heq => by cases heq
    | succ n ih =>
      have hnode : ∀ (j : Junction) (e1 e2 : Expr ι), e1.junction = some j → e2.junction = some j →
          sameSymbol (exprEliminateEq G (exprEqFuel G n) e1 e2) →
          G.exprIn env e1 = G.exprIn env e2 := by
        intro j e1 e2 h1 h2 hsame
        have hcancels : Cancels G env j e1 e2 (eliminateEq G (exprEqFuel G n) j e1 e2) :=
          cancels_eliminateEq h ih
        obtain ⟨c, hc1, hc2⟩ := hcancels
        rw [exprEliminateEq_node h1 h2] at hsame
        rw [← hc1, ← hc2, ← exprIn_exprEliminateYn h, ← exprIn_exprEliminateYn h (eliminateEq _ _ _ _ _).2]
        unfold sameSymbol at hsame
        split at hsame
        · next s t hst =>
          obtain ⟨hs, ht⟩ := Prod.mk.inj hst
          rw [hs, ht, of_decide_eq_true hsame]
        · cases hsame
      intro e1 e2 heq
      cases e1 with
      | symbol s =>
        cases e2 with
        | symbol s' => rw [of_decide_eq_true heq]
        | _ => cases heq
      | not a =>
        cases e2 with
        | not b => rw [SymbolTable.exprIn, SymbolTable.exprIn, ih a b heq]
        | _ => cases heq
      | equal s t =>
        cases e2 with
        | equal s' t' =>
          obtain ⟨rfl, rfl⟩ := of_decide_eq_true heq
          rfl
        | _ => cases heq
      | unequal s t =>
        cases e2 with
        | unequal s' t' =>
          obtain ⟨rfl, rfl⟩ := of_decide_eq_true heq
          rfl
        | _ => cases heq
      | and l r =>
        cases e2 with
        | and l' r' => exact hnode .and _ _ rfl rfl heq
        | _ => cases heq
      | or l r =>
        cases e2 with
        | or l' r' => exact hnode .or _ _ rfl rfl heq
        | _ => cases heq
  exact hfuel _ e1 e2 heq

end
end OpenADK.Kconfig
