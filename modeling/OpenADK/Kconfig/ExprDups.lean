import OpenADK.Kconfig.ExprEq

/-!
# Eliminating duplicate operands

`expr_eliminate_dups` rewrites a nest of `E_AND` or `E_OR` nodes in place, a pair of operands at a
time, until nothing changes. The operands of a nest are the positions below its root that are
reached through nodes of its type; both operands of a pair lie in the same tree.
-/

namespace OpenADK.Kconfig
open Tristate
variable {ι : Type}

/-! ### Positions -/

/-- A way down from a node: `false` is `left.expr` and `true` is `right.expr`. -/
abbrev Position := List Bool

namespace Expr

def getAt : Expr ι → Position → Expr ι
  | e, [] => e
  | .and l r, b :: p | .or l r, b :: p => if b then r.getAt p else l.getAt p
  | e, _ :: _ => e

def setAt : Expr ι → Position → Expr ι → Expr ι
  | _, [], x => x
  | .and l r, b :: p, x => if b then .and l (r.setAt p x) else .and (l.setAt p x) r
  | .or l r, b :: p, x => if b then .or l (r.setAt p x) else .or (l.setAt p x) r
  | e, _ :: _, _ => e

/-- The positions of the operands of a nest of `j` nodes. -/
def operandPositions (j : Junction) : Expr ι → List Position
  | .and l r =>
    if j = .and then
      (operandPositions j l).map (false :: ·) ++ (operandPositions j r).map (true :: ·)
    else [[]]
  | .or l r =>
    if j = .or then
      (operandPositions j l).map (false :: ·) ++ (operandPositions j r).map (true :: ·)
    else [[]]
  | _ => [[]]

/-- The positions of the operands and of the nodes of a nest, a node after what is below it. -/
def nestPositions (j : Junction) : Expr ι → List Position
  | .and l r =>
    if j = .and then
      (nestPositions j l).map (false :: ·) ++ (nestPositions j r).map (true :: ·) ++ [[]]
    else [[]]
  | .or l r =>
    if j = .or then
      (nestPositions j l).map (false :: ·) ++ (nestPositions j r).map (true :: ·) ++ [[]]
    else [[]]
  | _ => [[]]

end Expr

section
variable [DecidableEq ι] (G : SymbolTable ι)

/-! ### `expr_join_or` and `expr_join_and` -/

/-- `sym1`: the symbol on the left of the first operand. -/
def joinSymbol1 : Expr ι → Option ι
  | .symbol s | .equal s _ | .unequal s _ => some s
  | .not (.symbol s) | .not (.equal s _) | .not (.unequal s _) => some s
  | _ => none

/-- `sym2`: the symbol on the left of the second operand. -/
def joinSymbol2 : Expr ι → Option ι
  | .symbol s | .equal s _ | .unequal s _ => some s
  | .not (.symbol s) => some s
  | _ => none

/-- The symbol that both operands are about, when it is boolean or tristate. -/
def joinSymbol (e1 e2 : Expr ι) : Option ι :=
  match joinSymbol1 e1, joinSymbol2 e2 with
  | some s1, some s2 =>
    if s1 = s2 ∧ (G.type s1 = .boolean ∨ G.type s1 = .tristate) then some s1 else none
  | _, _ => none

/-- The operands are `x` and `y`, in some order. -/
def isPair (e1 e2 x y : Expr ι) : Bool := (e1 = x ∧ e2 = y) ∨ (e1 = y ∧ e2 = x)

/-- The rules of `expr_join_or` for two operands about `s`. -/
def joinOrRules (s : ι) (e1 e2 : Expr ι) : Option (Expr ι) :=
  if G.type s = .tristate ∧ isPair e1 e2 (.equal s G.symbolYes) (.equal s G.symbolMod) then
    some (.unequal s G.symbolNo)
  else if G.type s = .tristate ∧ isPair e1 e2 (.equal s G.symbolYes) (.equal s G.symbolNo) then
    some (.unequal s G.symbolMod)
  else if G.type s = .tristate ∧ isPair e1 e2 (.equal s G.symbolMod) (.equal s G.symbolNo) then
    some (.unequal s G.symbolYes)
  else if G.type s = .boolean ∧ isPair e1 e2 (.not (.symbol s)) (.symbol s) then
    some (.symbol G.symbolYes)
  else none

/-- `expr_join_or`. -/
def exprJoinOr (e1 e2 : Expr ι) : Option (Expr ι) :=
  if exprEq G e1 e2 then some e1
  else (joinSymbol G e1 e2).bind fun s => joinOrRules G s e1 e2

/-- `(a='b') && (a!='c')` for constants `b` and `c`. -/
def joinConstants (s : ι) : Expr ι → Expr ι → Option (Expr ι)
  | .equal _ b, .unequal _ c | .unequal _ c, .equal _ b =>
    if (G.symbol b).flagConst ∧ (G.symbol c).flagConst then
      some (if b ≠ c then .equal s b else .symbol G.symbolNo)
    else none
  | _, _ => none

/-- The rules of `expr_join_and` for two operands about the tristate symbol `s`. -/
def joinAndTristate (s : ι) (e1 e2 : Expr ι) : Option (Expr ι) :=
  match joinConstants G s e1 e2 with
  | some e => some e
  | none =>
    if isPair e1 e2 (.unequal s G.symbolYes) (.unequal s G.symbolNo) then
      some (.equal s G.symbolMod)
    else if isPair e1 e2 (.unequal s G.symbolYes) (.unequal s G.symbolMod) then
      some (.equal s G.symbolNo)
    else if isPair e1 e2 (.unequal s G.symbolMod) (.unequal s G.symbolNo) then
      some (.equal s G.symbolYes)
    else none

/-- The rules of `expr_join_and` for two operands about `s`. -/
def joinAndRules (s : ι) (e1 e2 : Expr ι) : Option (Expr ι) :=
  if isPair e1 e2 (.symbol s) (.equal s G.symbolYes) then some (.equal s G.symbolYes)
  else if isPair e1 e2 (.symbol s) (.unequal s G.symbolNo) then some (.symbol s)
  else if isPair e1 e2 (.symbol s) (.unequal s G.symbolMod) then some (.equal s G.symbolYes)
  else if G.type s = .tristate then joinAndTristate G s e1 e2
  else none

/-- `expr_join_and`. -/
def exprJoinAnd (e1 e2 : Expr ι) : Option (Expr ι) :=
  if exprEq G e1 e2 then some e1
  else (joinSymbol G e1 e2).bind fun s => joinAndRules G s e1 e2

def exprJoin (j : Junction) (e1 e2 : Expr ι) : Option (Expr ι) :=
  match j with
  | .or => exprJoinOr G e1 e2
  | .and => exprJoinAnd G e1 e2

/-! ### `expr_eliminate_dups1` -/

/-- The join of the operands at `p` and `q`, and by how much `trans_count` grows. -/
def dups1Join (j : Junction) (p q : Position) (e : Expr ι) : Expr ι × ℕ :=
  match exprJoin G j (e.getAt p) (e.getAt q) with
  | some tmp => ((e.setAt p (.symbol (j.neutral G))).setAt q tmp, 1)
  | none => (e, 0)

/-- An operand that is itself a nest is rewritten first. -/
def onNest (inner : Junction → Expr ι → Expr ι × ℕ) (e : Expr ι) : Expr ι × ℕ :=
  match e.junction with
  | some k => inner k e
  | none => (e, 0)

/-- `expr_eliminate_dups1` on the operands at `p` and `q`; `inner` is `expr_eliminate_dups1` on a
nest of the other type. -/
def dups1Pair (inner : Junction → Expr ι → Expr ι × ℕ) (j : Junction) (p q : Position)
    (e : Expr ι) : Expr ι × ℕ :=
  if p = q then (e, 0)
  else
    let e1 := onNest inner (e.getAt p)
    let joined := dups1Join G j p q (e.setAt p e1.1)
    (joined.1, e1.2 + joined.2)

def countLoop {α : Type} (step : α → Expr ι → Expr ι × ℕ) : List α → Expr ι → Expr ι × ℕ
  | [], e => (e, 0)
  | a :: as, e =>
    let here := step a e
    let rest := countLoop step as here.1
    (rest.1, here.2 + rest.2)

/-- `expr_eliminate_dups1 (j, &e, &e)`, for nests to the given depth. -/
def exprEliminateDups1 : ℕ → Junction → Expr ι → Expr ι × ℕ
  | 0, _, e => (e, 0)
  | depth + 1, j, e =>
    countLoop (fun p => countLoop (fun q => dups1Pair G (exprEliminateDups1 depth) j p q)
      (e.operandPositions j)) (e.operandPositions j) e

/-! ### `expr_eliminate_dups2` -/

/-- `expr_extract_eq` on two operands: what has been extracted, and what is left. -/
def extractPair (j : Junction) (tmp : Option (Expr ι)) (e1 e2 : Expr ι) :
    Option (Expr ι) × Expr ι × Expr ι :=
  if exprEq G e1 e2 then
    (some (match tmp with
      | some e => j.node e e1
      | none => e1), .symbol (j.neutral G), .symbol (j.neutral G))
  else (tmp, e1, e2)

/-- `expr_extract_eq` on an operand `e1` and the operands of `e2`. -/
def extractOperand (j : Junction) (tmp : Option (Expr ι)) (e1 : Expr ι) :
    Expr ι → Option (Expr ι) × Expr ι × Expr ι
  | .and l r =>
    if j = .and then
      let left := extractOperand j tmp e1 l
      let right := extractOperand j left.1 left.2.1 r
      (right.1, right.2.1, .and left.2.2 right.2.2)
    else extractPair G j tmp e1 (.and l r)
  | .or l r =>
    if j = .or then
      let left := extractOperand j tmp e1 l
      let right := extractOperand j left.1 left.2.1 r
      (right.1, right.2.1, .or left.2.2 right.2.2)
    else extractPair G j tmp e1 (.or l r)
  | e2 => extractPair G j tmp e1 e2

/-- `expr_extract_eq`. -/
def exprExtractEq (j : Junction) (tmp : Option (Expr ι)) :
    Expr ι → Expr ι → Option (Expr ι) × Expr ι × Expr ι
  | .and l r, e2 =>
    if j = .and then
      let left := exprExtractEq j tmp l e2
      let right := exprExtractEq j left.1 r left.2.2
      (right.1, .and left.2.1 right.2.1, right.2.2)
    else extractOperand G j tmp (.and l r) e2
  | .or l r, e2 =>
    if j = .or then
      let left := exprExtractEq j tmp l e2
      let right := exprExtractEq j left.1 r left.2.2
      (right.1, .or left.2.1 right.2.1, right.2.2)
    else extractOperand G j tmp (.or l r) e2
  | e1, e2 => extractOperand G j tmp e1 e2

/-- What `expr_extract_eq_and` and `expr_extract_eq_or` leave of the first expression. -/
def exprExtractEqLeft (j : Junction) (e1 e2 : Expr ι) : Expr ι :=
  let out := exprExtractEq G j none e1 e2
  match out.1 with
  | some _ => exprEliminateYn G out.2.1
  | none => out.2.1

def Junction.dual : Junction → Junction
  | .and => .or
  | .or => .and

/-- Whether all of the operands of `!e1`, for a node `e1` of type `k`, are operands of `e2`: the
test in `expr_eliminate_dups2`. -/
def complements (k : Junction) (e1 e2 : Expr ι) : Bool :=
  exprExtractEqLeft G k.dual (exprTransform G (.not e1)) e2 = .symbol (k.dual.neutral G)

/-- `(FOO || BAR) && (!FOO && !BAR) -> n` and `(FOO && BAR) || (!FOO || !BAR) -> y`, with the
operand that is removed. -/
def dups2Complement (k : Junction) (p q : Position) (e : Expr ι) : Expr ι × List (Expr ι) :=
  if complements G k (e.getAt p) (e.getAt q) then
    (e.setAt p (.symbol (k.neutral G)), [e.getAt p])
  else (e, [])

/-- `expr_eliminate_dups2` on the operand at `p` and what is at `q`; `trans_count` grows by the
number of operands that are removed. -/
def dups2Pair (inner : Junction → Expr ι → Expr ι × List (Expr ι)) (p q : Position) (e : Expr ι) :
    Expr ι × List (Expr ι) :=
  if p = q then (e, [])
  else
    match (e.getAt p).junction with
    | none => (e, [])
    | some k =>
      let e1 := inner k (e.getAt p)
      let out := dups2Complement G k p q (e.setAt p e1.1)
      (out.1, e1.2 ++ out.2)

def removeLoop {α : Type} (step : α → Expr ι → Expr ι × List (Expr ι)) :
    List α → Expr ι → Expr ι × List (Expr ι)
  | [], e => (e, [])
  | a :: as, e =>
    let here := step a e
    let rest := removeLoop step as here.1
    (rest.1, here.2 ++ rest.2)

/-- `expr_eliminate_dups2 (j, &e, &e)`, for nests to the given depth. -/
def exprEliminateDups2 : ℕ → Junction → Expr ι → Expr ι × List (Expr ι)
  | 0, _, e => (e, [])
  | depth + 1, j, e =>
    removeLoop (fun p => removeLoop (fun q => dups2Pair G (exprEliminateDups2 depth) p q)
      (e.nestPositions j)) (e.operandPositions j) e

/-! ### `expr_eliminate_dups` -/

/-- One round of the loop in `expr_eliminate_dups`: the expression, `trans_count` and what the
second pass has removed. -/
def dupsRound (depth : ℕ) (e : Expr ι) : Expr ι × ℕ × List (Expr ι) :=
  match e.junction with
  | some j =>
    let first := exprEliminateDups1 G depth j e
    let second := exprEliminateDups2 G depth j first.1
    (second.1, first.2 + second.2.length, second.2)
  | none => (e, 0, [])

/-- `expr_eliminate_dups`, for a number of rounds: the result and what has been removed. -/
def exprEliminateDupsFuel (depth : ℕ) : ℕ → Expr ι → Option (Expr ι × List (Expr ι))
  | 0, _ => none
  | n + 1, e =>
    let round := dupsRound G depth e
    if round.2.1 = 0 then some (round.1, round.2.2)
    else (exprEliminateDupsFuel depth n (exprEliminateYn G round.1)).map fun out =>
      (out.1, round.2.2 ++ out.2)

/-- What an expression weighs: `y` and `n` weigh nothing. -/
def weight : Expr ι → ℕ
  | .symbol s => if s = G.symbolYes ∨ s = G.symbolNo then 0 else 1
  | .equal _ _ | .unequal _ _ | .not _ => 1
  | .and l r | .or l r => weight l + weight r

/-- `expr_eliminate_dups`, with the operands that the second pass removes. Each round after the
first loses weight. -/
def exprEliminateDups (depth : ℕ) (e : Expr ι) : Expr ι × List (Expr ι) :=
  (exprEliminateDupsFuel G depth (weight G e + 2) e).getD (e, [])

end

/-! ### The positions of a nest -/

/-- `p` is a position in the nest of `j` nodes of the expression. -/
def InNest (j : Junction) : Expr ι → Position → Prop
  | _, [] => True
  | .and l r, b :: p => j = .and ∧ (if b then InNest j r p else InNest j l p)
  | .or l r, b :: p => j = .or ∧ (if b then InNest j r p else InNest j l p)
  | _, _ :: _ => False

section
variable {j : Junction} {e l r x y : Expr ι} {b : Bool} {p q : Position}

namespace Expr

@[simp] theorem getAt_nil (e : Expr ι) : e.getAt [] = e := by cases e <;> rfl

@[simp] theorem setAt_nil (e x : Expr ι) : e.setAt [] x = x := by cases e <;> rfl

theorem getAt_node : (j.node l r).getAt (b :: p) = if b then r.getAt p else l.getAt p := by
  cases j <;> rfl

theorem setAt_node :
    (j.node l r).setAt (b :: p) x = if b then j.node l (r.setAt p x) else j.node (l.setAt p x) r := by
  cases j <;> rfl

theorem junction_setAt_cons (e x : Expr ι) (b : Bool) (p : Position) :
    (e.setAt (b :: p) x).junction = e.junction := by
  cases e <;> cases b <;> rfl

theorem operandPositions_node :
    (j.node l r).operandPositions j =
      (l.operandPositions j).map (false :: ·) ++ (r.operandPositions j).map (true :: ·) := by
  cases j <;> simp [operandPositions, Junction.node]

theorem operandPositions_leaf (h : e.junction ≠ some j) : e.operandPositions j = [[]] := by
  cases e <;> cases j <;> simp [operandPositions, junction] at h ⊢

theorem nestPositions_node :
    (j.node l r).nestPositions j =
      (l.nestPositions j).map (false :: ·) ++ (r.nestPositions j).map (true :: ·) ++ [[]] := by
  cases j <;> simp [nestPositions, Junction.node]

theorem nestPositions_leaf (h : e.junction ≠ some j) : e.nestPositions j = [[]] := by
  cases e <;> cases j <;> simp [nestPositions, junction] at h ⊢

end Expr

@[simp] theorem inNest_nil : InNest j e [] := by cases e <;> trivial

theorem inNest_node : InNest j (j.node l r) (b :: p) ↔ if b then InNest j r p else InNest j l p := by
  cases j <;> simp [InNest, Junction.node]

theorem not_inNest_leaf (h : e.junction ≠ some j) : ¬InNest j e (b :: p) := by
  cases e <;> cases j <;> simp [InNest, Expr.junction] at h ⊢

theorem operandPositions_subset (e : Expr ι) : e.operandPositions j ⊆ e.nestPositions j := by
  induction e using Expr.operandInduction j with
  | leaf e hj => rw [Expr.operandPositions_leaf hj, Expr.nestPositions_leaf hj]; exact List.Subset.refl _
  | node l r ihl ihr =>
    intro p hp
    rw [Expr.operandPositions_node, List.mem_append, List.mem_map, List.mem_map] at hp
    rw [Expr.nestPositions_node, List.mem_append, List.mem_append, List.mem_map, List.mem_map]
    rcases hp with ⟨p, hp, rfl⟩ | ⟨p, hp, rfl⟩
    · exact .inl (.inl ⟨p, ihl hp, rfl⟩)
    · exact .inl (.inr ⟨p, ihr hp, rfl⟩)

theorem inNest_of_mem (h : p ∈ e.nestPositions j) : InNest j e p := by
  induction e using Expr.operandInduction j generalizing p with
  | leaf e hj =>
    rw [Expr.nestPositions_leaf hj, List.mem_singleton] at h
    rw [h]
    exact inNest_nil
  | node l r ihl ihr =>
    rw [Expr.nestPositions_node, List.mem_append, List.mem_append, List.mem_map, List.mem_map] at h
    rcases h with (⟨p, hp, rfl⟩ | ⟨p, hp, rfl⟩) | hp
    · exact inNest_node.mpr (ihl hp)
    · exact inNest_node.mpr (ihr hp)
    · rw [List.mem_singleton.mp hp]
      exact inNest_nil

/-- Nothing of the nest lies below an operand. -/
theorem eq_of_initial (hp : p ∈ e.operandPositions j) (hq : q ∈ e.nestPositions j) (h : p <+: q) :
    p = q := by
  induction e using Expr.operandInduction j generalizing p q with
  | leaf e hj =>
    rw [Expr.operandPositions_leaf hj, List.mem_singleton] at hp
    rw [Expr.nestPositions_leaf hj, List.mem_singleton] at hq
    rw [hp, hq]
  | node l r ihl ihr =>
    rw [Expr.operandPositions_node, List.mem_append, List.mem_map, List.mem_map] at hp
    rw [Expr.nestPositions_node, List.mem_append, List.mem_append, List.mem_map, List.mem_map] at hq
    rcases hp with ⟨p, hp, rfl⟩ | ⟨p, hp, rfl⟩ <;>
      rcases hq with (⟨q, hq, rfl⟩ | ⟨q, hq, rfl⟩) | hq
    · rw [ihl hp hq (List.cons_prefix_cons.mp h).2]
    · cases (List.cons_prefix_cons.mp h).1
    · rw [List.mem_singleton.mp hq] at h
      simp at h
    · cases (List.cons_prefix_cons.mp h).1
    · rw [ihr hp hq (List.cons_prefix_cons.mp h).2]
    · rw [List.mem_singleton.mp hq] at h
      simp at h

theorem junction_getAt_of_mem (hp : p ∈ e.operandPositions j) : (e.getAt p).junction ≠ some j := by
  induction e using Expr.operandInduction j generalizing p with
  | leaf e hj =>
    rw [Expr.operandPositions_leaf hj, List.mem_singleton] at hp
    rwa [hp, Expr.getAt_nil]
  | node l r ihl ihr =>
    rw [Expr.operandPositions_node, List.mem_append, List.mem_map, List.mem_map] at hp
    rcases hp with ⟨p, hp, rfl⟩ | ⟨p, hp, rfl⟩
    · rw [Expr.getAt_node]
      exact ihl hp
    · rw [Expr.getAt_node]
      exact ihr hp

theorem ne_nil_of_mem (he : e.junction = some j) (hp : p ∈ e.operandPositions j) : p ≠ [] := by
  rintro rfl
  exact junction_getAt_of_mem hp (by rwa [Expr.getAt_nil])

theorem setAt_getAt (h : InNest j e p) : e.setAt p (e.getAt p) = e := by
  induction e using Expr.operandInduction j generalizing p with
  | leaf e hj =>
    cases p with
    | nil => simp
    | cons b p => exact absurd h (not_inNest_leaf hj)
  | node l r ihl ihr =>
    cases p with
    | nil => simp
    | cons b p =>
      rw [inNest_node] at h
      rw [Expr.getAt_node, Expr.setAt_node]
      cases b
      · exact congrArg (fun l => j.node l r) (ihl h)
      · exact congrArg (fun r => j.node l r) (ihr h)

theorem getAt_setAt_self (h : InNest j e p) : (e.setAt p x).getAt p = x := by
  induction e using Expr.operandInduction j generalizing p with
  | leaf e hj =>
    cases p with
    | nil => simp
    | cons b p => exact absurd h (not_inNest_leaf hj)
  | node l r ihl ihr =>
    cases p with
    | nil => simp
    | cons b p =>
      rw [inNest_node] at h
      rw [Expr.setAt_node]
      cases b
      · exact Expr.getAt_node.trans (ihl h)
      · exact Expr.getAt_node.trans (ihr h)

/-- What lies apart from a position does not see a change there. -/
theorem getAt_setAt_of_apart (h : InNest j e p) (hpq : ¬p <+: q) (hqp : ¬q <+: p) :
    (e.setAt p x).getAt q = e.getAt q := by
  induction e using Expr.operandInduction j generalizing p q with
  | leaf e hj =>
    cases p with
    | nil => exact absurd List.nil_prefix hpq
    | cons b p => exact absurd h (not_inNest_leaf hj)
  | node l r ihl ihr =>
    cases p with
    | nil => exact absurd List.nil_prefix hpq
    | cons b p =>
      cases q with
      | nil => exact absurd List.nil_prefix hqp
      | cons c q =>
        rw [inNest_node] at h
        rw [Expr.setAt_node, Expr.getAt_node]
        rw [List.cons_prefix_cons, not_and] at hpq hqp
        cases b <;> cases c
        · exact Expr.getAt_node.trans (ihl h (hpq rfl) (hqp rfl))
        · exact Expr.getAt_node
        · exact Expr.getAt_node
        · exact Expr.getAt_node.trans (ihr h (hpq rfl) (hqp rfl))

/-- A change keeps the positions of the nest that are not below it. -/
theorem InNest.setAt (hq : InNest j e q) (h : p <+: q → p = q) : InNest j (e.setAt p x) q := by
  induction e using Expr.operandInduction j generalizing p q with
  | leaf e hj =>
    cases q with
    | nil => exact inNest_nil
    | cons c q => exact absurd hq (not_inNest_leaf hj)
  | node l r ihl ihr =>
    cases q with
    | nil => exact inNest_nil
    | cons c q =>
      rw [inNest_node] at hq
      cases p with
      | nil => cases h List.nil_prefix
      | cons b p =>
        rw [Expr.setAt_node]
        have hbelow : ∀ d : Bool, b = d → c = d → p <+: q → p = q := by
          rintro d rfl rfl hpq
          exact (List.cons.inj (h (List.cons_prefix_cons.mpr ⟨rfl, hpq⟩))).2
        cases b <;> cases c
        · exact inNest_node.mpr (ihl hq (hbelow _ rfl rfl))
        · exact inNest_node.mpr hq
        · exact inNest_node.mpr hq
        · exact inNest_node.mpr (ihr hq (hbelow _ rfl rfl))

/-- All positions of a nest are those of `e'`. -/
def KeepsNest (j : Junction) (e e' : Expr ι) : Prop := ∀ q ∈ e.nestPositions j, InNest j e' q

theorem keepsNest_refl (e : Expr ι) : KeepsNest j e e := fun _ => inNest_of_mem

theorem KeepsNest.setAt {e' : Expr ι} (h : KeepsNest j e e') (hp : p ∈ e.operandPositions j) :
    KeepsNest j e (e'.setAt p x) := fun q hq => (h q hq).setAt (eq_of_initial hp hq)

theorem KeepsNest.operand {e' : Expr ι} (h : KeepsNest j e e') (hp : p ∈ e.operandPositions j) :
    InNest j e' p := h p (operandPositions_subset e hp)

/-- Two operands lie apart. -/
theorem apart_of_mem (hp : p ∈ e.operandPositions j) (hq : q ∈ e.operandPositions j) (hpq : p ≠ q) :
    ¬p <+: q ∧ ¬q <+: p :=
  ⟨fun h => hpq (eq_of_initial hp (operandPositions_subset e hq) h),
    fun h => hpq (eq_of_initial hq (operandPositions_subset e hp) h).symm⟩

end
end OpenADK.Kconfig
