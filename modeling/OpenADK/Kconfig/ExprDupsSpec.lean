import OpenADK.Kconfig.ExprDups

/-!
# What `expr_eliminate_dups` preserves

Each rewriting of a pair of operands keeps the value of the nest, but for the rule of the second
pass: `x && !x` is not `n` when `x` is `m`. Each counted rewriting loses weight.
-/

namespace OpenADK.Kconfig
open Tristate
variable {ι : Type} [DecidableEq ι]

namespace SymbolTable

/-- The values that evaluation gives to symbols: a tristate symbol is `m` only while modules are
enabled, and different constants have different names. -/
structure Assignment (G : SymbolTable ι) (env : Env ι) : Prop extends G.Valuation env where
  modules : ∀ s, G.type s = .tristate → (env s).tri = .mod → (env G.modulesSym).tri ≠ .no
  constants : ∀ b c, (G.symbol b).flagConst → (G.symbol c).flagConst →
    G.stringIn env b = G.stringIn env c → b = c

end SymbolTable

section
variable {G : SymbolTable ι} {env : Env ι} {j : Junction} {e e1 e2 tmp x y : Expr ι} {s : ι}
variable {p q : Position}

/-! ### Joining two operands -/

theorem Junction.op_self (j : Junction) (a : Tristate) : j.op a a = a := by
  cases j
  · exact min_self a
  · exact max_self a

theorem exprIn_of_isPair (h : isPair e1 e2 x y) (j : Junction) :
    j.op (G.exprIn env e1) (G.exprIn env e2) = j.op (G.exprIn env x) (G.exprIn env y) := by
  rcases of_decide_eq_true h with ⟨rfl, rfl⟩ | ⟨rfl, rfl⟩
  · rfl
  · exact j.op_comm _ _

omit [DecidableEq ι] in
/-- What a boolean or tristate symbol reads as. -/
theorem SymbolTable.Assignment.read (h : G.Assignment env)
    (hs : G.type s = .boolean ∨ G.type s = .tristate) :
    (env s).tri = .no ∧ G.stringIn env s = ['n'] ∨ (env s).tri = .yes ∧ G.stringIn env s = ['y'] ∨
      (env s).tri = .mod ∧ G.stringIn env s = ['m'] ∧ G.type s = .tristate := by
  rcases hs with hs | hs
  · rcases h.stringIn_boolean hs with h | h
    · exact .inl h
    · exact .inr (.inl h)
  · have hm := h.modules s hs
    unfold SymbolTable.stringIn
    rw [hs]
    cases htri : (env s).tri with
    | no => exact .inl ⟨rfl, rfl⟩
    | yes => exact .inr (.inl ⟨rfl, rfl⟩)
    | mod => exact .inr (.inr ⟨rfl, if_neg (hm htri), rfl⟩)

theorem joinSymbol_eq_some (h : joinSymbol G e1 e2 = some s) :
    joinSymbol1 e1 = some s ∧ joinSymbol2 e2 = some s ∧
      (G.type s = .boolean ∨ G.type s = .tristate) := by
  unfold joinSymbol at h
  split at h
  · next s1 s2 h1 h2 =>
    split at h
    · next hs =>
      cases h
      exact ⟨h1, h2.trans (congrArg some hs.1.symm), hs.2⟩
    · cases h
  · cases h

theorem exprIn_joinOrRules (hG : G.Untyped) (h : G.Assignment env)
    (hs : G.type s = .boolean ∨ G.type s = .tristate) (hj : joinOrRules G s e1 e2 = some tmp) :
    G.exprIn env tmp = max (G.exprIn env e1) (G.exprIn env e2) := by
  obtain ⟨hyes, hmod, hno⟩ := h.toValuation.stringIn hG
  unfold joinOrRules at hj
  split_ifs at hj with h1 h2 h3 h4
  all_goals
    cases hj
    first
      | rw [show max _ _ = _ from exprIn_of_isPair h1.2 .or]
      | rw [show max _ _ = _ from exprIn_of_isPair h2.2 .or]
      | rw [show max _ _ = _ from exprIn_of_isPair h3.2 .or]
      | rw [show max _ _ = _ from exprIn_of_isPair h4.2 .or]
    rcases h.read hs with ⟨htri, hstr⟩ | ⟨htri, hstr⟩ | ⟨htri, hstr, ht⟩
    all_goals simp_all [SymbolTable.exprIn, Junction.op, exprNot, h.yes]

theorem exprIn_joinConstants (h : G.Assignment env) (h1 : joinSymbol1 e1 = some s)
    (h2 : joinSymbol2 e2 = some s) (hno : (env G.symbolNo).tri = .no)
    (hj : joinConstants G s e1 e2 = some tmp) :
    G.exprIn env tmp = min (G.exprIn env e1) (G.exprIn env e2) := by
  have hpair : ∀ b c, (G.symbol b).flagConst → (G.symbol c).flagConst →
      G.exprIn env (if b ≠ c then .equal s b else .symbol G.symbolNo) =
        min (G.exprIn env (.equal s b)) (G.exprIn env (.unequal s c)) := by
    intro b c hb hc
    by_cases hbc : b = c
    · subst hbc
      simp only [ne_eq, not_true_eq_false, if_false, SymbolTable.exprIn, hno]
      split_ifs <;> rfl
    · rw [if_pos hbc]
      have hne := fun heq => hbc (h.constants b c hb hc heq)
      simp only [SymbolTable.exprIn]
      by_cases hsb : G.stringIn env s = G.stringIn env b
      · rw [if_pos hsb, if_neg fun hsc => hne (hsb.symm.trans hsc)]
        rfl
      · rw [if_neg hsb, no_min]
  unfold joinConstants at hj
  split at hj
  · next s1 b s2 c =>
    cases h1
    cases h2
    split at hj
    · next hbc =>
      cases hj
      exact hpair b c hbc.1 hbc.2
    · cases hj
  · next s1 c s2 b =>
    cases h1
    cases h2
    split at hj
    · next hbc =>
      cases hj
      rw [min_comm]
      exact hpair b c hbc.1 hbc.2
    · cases hj
  · cases hj

theorem exprIn_joinAndTristate (hG : G.Untyped) (h : G.Assignment env) (hs : G.type s = .tristate)
    (h1 : joinSymbol1 e1 = some s) (h2 : joinSymbol2 e2 = some s)
    (hj : joinAndTristate G s e1 e2 = some tmp) :
    G.exprIn env tmp = min (G.exprIn env e1) (G.exprIn env e2) := by
  obtain ⟨hyes, hmod, hno⟩ := h.toValuation.stringIn hG
  unfold joinAndTristate at hj
  split at hj
  · next e he =>
    cases hj
    exact exprIn_joinConstants h h1 h2 (by rw [h.no]) he
  · split_ifs at hj with h1 h2 h3
    all_goals
      cases hj
      first
        | rw [show min _ _ = _ from exprIn_of_isPair h1 .and]
        | rw [show min _ _ = _ from exprIn_of_isPair h2 .and]
        | rw [show min _ _ = _ from exprIn_of_isPair h3 .and]
      rcases h.read (.inr hs) with ⟨htri, hstr⟩ | ⟨htri, hstr⟩ | ⟨htri, hstr, ht⟩
      all_goals simp_all [SymbolTable.exprIn, Junction.op]

theorem exprIn_joinAndRules (hG : G.Untyped) (h : G.Assignment env)
    (hs : G.type s = .boolean ∨ G.type s = .tristate) (h1 : joinSymbol1 e1 = some s)
    (h2 : joinSymbol2 e2 = some s) (hj : joinAndRules G s e1 e2 = some tmp) :
    G.exprIn env tmp = min (G.exprIn env e1) (G.exprIn env e2) := by
  obtain ⟨hyes, hmod, hno⟩ := h.toValuation.stringIn hG
  unfold joinAndRules at hj
  split_ifs at hj with ha hb hc ht
  · cases hj
    rw [show min _ _ = _ from exprIn_of_isPair ha .and]
    rcases h.read hs with ⟨htri, hstr⟩ | ⟨htri, hstr⟩ | ⟨htri, hstr, -⟩ <;>
      simp_all [SymbolTable.exprIn, Junction.op]
  · cases hj
    rw [show min _ _ = _ from exprIn_of_isPair hb .and]
    rcases h.read hs with ⟨htri, hstr⟩ | ⟨htri, hstr⟩ | ⟨htri, hstr, -⟩ <;>
      simp_all [SymbolTable.exprIn, Junction.op]
  · cases hj
    rw [show min _ _ = _ from exprIn_of_isPair hc .and]
    rcases h.read hs with ⟨htri, hstr⟩ | ⟨htri, hstr⟩ | ⟨htri, hstr, -⟩ <;>
      simp_all [SymbolTable.exprIn, Junction.op]
  · exact exprIn_joinAndTristate hG h ht h1 h2 hj

/-- A joined pair has the value of the pair. -/
theorem exprIn_exprJoin (hG : G.Untyped) (h : G.Assignment env) (hj : exprJoin G j e1 e2 = some tmp) :
    G.exprIn env tmp = j.op (G.exprIn env e1) (G.exprIn env e2) := by
  have hequal : exprEq G e1 e2 → G.exprIn env e1 = j.op (G.exprIn env e1) (G.exprIn env e2) := by
    intro heq
    rw [← exprIn_eq_of_exprEq h.toConstantValues heq, j.op_self]
  cases j with
  | or =>
    simp only [exprJoin, exprJoinOr] at hj
    split at hj
    · next heq =>
      cases hj
      exact hequal heq
    · obtain ⟨s, hs, hrule⟩ := Option.bind_eq_some_iff.mp hj
      exact exprIn_joinOrRules hG h (joinSymbol_eq_some hs).2.2 hrule
  | and =>
    simp only [exprJoin, exprJoinAnd] at hj
    split at hj
    · next heq =>
      cases hj
      exact hequal heq
    · obtain ⟨s, hs, hrule⟩ := Option.bind_eq_some_iff.mp hj
      obtain ⟨h1, h2, ht⟩ := joinSymbol_eq_some hs
      exact exprIn_joinAndRules hG h ht h1 h2 hrule

/-! ### The value of a nest -/

omit [DecidableEq ι] in
theorem exists_exprIn_setAt (h : G.ConstantValues env) (hp : InNest j e p) :
    ∃ c, ∀ x, G.exprIn env (e.setAt p x) = j.op c (G.exprIn env x) := by
  induction e using Expr.operandInduction j generalizing p with
  | leaf e hj =>
    cases p with
    | nil =>
      refine ⟨(env (j.neutral G)).tri, fun x => ?_⟩
      rw [Expr.setAt_nil, j.op_neutral h]
    | cons b p => exact absurd hp (not_inNest_leaf hj)
  | node l r ihl ihr =>
    cases p with
    | nil =>
      refine ⟨(env (j.neutral G)).tri, fun x => ?_⟩
      rw [Expr.setAt_nil, j.op_neutral h]
    | cons b p =>
      rw [inNest_node] at hp
      cases b
      · obtain ⟨c, hc⟩ := ihl hp
        refine ⟨j.op c (G.exprIn env r), fun x => ?_⟩
        rw [Expr.setAt_node, if_neg Bool.false_ne_true, j.exprIn_node, hc, j.op_assoc, j.op_assoc,
          j.op_comm (G.exprIn env x)]
      · obtain ⟨c, hc⟩ := ihr hp
        refine ⟨j.op c (G.exprIn env l), fun x => ?_⟩
        rw [Expr.setAt_node, if_pos rfl, j.exprIn_node, hc, ← j.op_assoc, j.op_comm _ c]

omit [DecidableEq ι] in
theorem exists_exprIn_setAt_two (h : G.ConstantValues env) (hp : InNest j e p) (hq : InNest j e q)
    (hpq : ¬p <+: q) (hqp : ¬q <+: p) :
    ∃ c, ∀ x y, G.exprIn env ((e.setAt p x).setAt q y) =
      j.op c (j.op (G.exprIn env x) (G.exprIn env y)) := by
  induction e using Expr.operandInduction j generalizing p q with
  | leaf e hj =>
    cases p with
    | nil => exact absurd List.nil_prefix hpq
    | cons b p => exact absurd hp (not_inNest_leaf hj)
  | node l r ihl ihr =>
    cases p with
    | nil => exact absurd List.nil_prefix hpq
    | cons b p =>
      cases q with
      | nil => exact absurd List.nil_prefix hqp
      | cons b' q =>
        rw [inNest_node] at hp hq
        rw [List.cons_prefix_cons, not_and] at hpq hqp
        cases b <;> cases b'
        · obtain ⟨c, hc⟩ := ihl hp hq (hpq rfl) (hqp rfl)
          refine ⟨j.op c (G.exprIn env r), fun x y => ?_⟩
          rw [Expr.setAt_node, if_neg Bool.false_ne_true, Expr.setAt_node,
            if_neg Bool.false_ne_true, j.exprIn_node, hc, j.op_assoc c, j.op_assoc c,
            j.op_comm (G.exprIn env r)]
        · obtain ⟨c, hc⟩ := exists_exprIn_setAt h hp
          obtain ⟨d, hd⟩ := exists_exprIn_setAt h hq
          refine ⟨j.op c d, fun x y => ?_⟩
          rw [Expr.setAt_node, if_neg Bool.false_ne_true, Expr.setAt_node, if_pos rfl,
            j.exprIn_node, hc, hd, j.op_op_op_comm]
        · obtain ⟨c, hc⟩ := exists_exprIn_setAt h hp
          obtain ⟨d, hd⟩ := exists_exprIn_setAt h hq
          refine ⟨j.op d c, fun x y => ?_⟩
          rw [Expr.setAt_node, if_pos rfl, Expr.setAt_node, if_neg Bool.false_ne_true,
            j.exprIn_node, hc, hd, j.op_op_op_comm, j.op_comm (G.exprIn env y)]
        · obtain ⟨c, hc⟩ := ihr hp hq (hpq rfl) (hqp rfl)
          refine ⟨j.op c (G.exprIn env l), fun x y => ?_⟩
          rw [Expr.setAt_node, if_pos rfl, Expr.setAt_node, if_pos rfl, j.exprIn_node, hc,
            ← j.op_assoc, j.op_comm _ c]

omit [DecidableEq ι] in
/-- A nest is bounded by what it contains. -/
theorem op_exprIn_getAt (hp : InNest j e p) :
    j.op (G.exprIn env e) (G.exprIn env (e.getAt p)) = G.exprIn env e := by
  induction e using Expr.operandInduction j generalizing p with
  | leaf e hj =>
    cases p with
    | nil => rw [Expr.getAt_nil, j.op_self]
    | cons b p => exact absurd hp (not_inNest_leaf hj)
  | node l r ihl ihr =>
    cases p with
    | nil => rw [Expr.getAt_nil, j.op_self]
    | cons b p =>
      rw [inNest_node] at hp
      rw [Expr.getAt_node, j.exprIn_node]
      cases b
      · rw [if_neg Bool.false_ne_true, j.op_assoc, j.op_comm (G.exprIn env r), ← j.op_assoc, ihl hp]
      · rw [if_pos rfl, j.op_assoc, ihr hp]

omit [DecidableEq ι] in
/-- Replacing an operand by one with the same value. -/
theorem exprIn_setAt_of_eq (h : G.ConstantValues env) (hp : InNest j e p)
    (hx : G.exprIn env x = G.exprIn env (e.getAt p)) :
    G.exprIn env (e.setAt p x) = G.exprIn env e := by
  obtain ⟨c, hc⟩ := exists_exprIn_setAt h hp
  rw [hc, hx, ← hc, setAt_getAt hp]

/-! ### The loops -/

omit [DecidableEq ι] in
theorem countLoop_rel {α : Type} {step : α → Expr ι → Expr ι × ℕ} {as : List α}
    {R : Expr ι → ℕ → Prop} {n : ℕ}
    (hstep : ∀ a ∈ as, ∀ e n, R e n → R (step a e).1 (n + (step a e).2)) (h : R e n) :
    R (countLoop step as e).1 (n + (countLoop step as e).2) := by
  induction as generalizing e n with
  | nil => exact h
  | cons a as ih =>
    have hrest := ih (fun b hb => hstep b (List.mem_cons_of_mem _ hb))
      (hstep a List.mem_cons_self e n h)
    rw [countLoop]
    simpa only [Nat.add_assoc] using hrest

omit [DecidableEq ι] in
theorem removeLoop_rel {α : Type} {step : α → Expr ι → Expr ι × List (Expr ι)} {as : List α}
    {R : Expr ι → List (Expr ι) → Prop} {xs : List (Expr ι)}
    (hstep : ∀ a ∈ as, ∀ e xs, R e xs → R (step a e).1 (xs ++ (step a e).2)) (h : R e xs) :
    R (removeLoop step as e).1 (xs ++ (removeLoop step as e).2) := by
  induction as generalizing e xs with
  | nil => rwa [removeLoop, List.append_nil]
  | cons a as ih =>
    have hrest := ih (fun b hb => hstep b (List.mem_cons_of_mem _ hb))
      (hstep a List.mem_cons_self e xs h)
    rw [removeLoop]
    simpa only [List.append_assoc] using hrest

/-! ### The first pass -/

/-- A join keeps the value. -/
theorem exprIn_dups1Join (hG : G.Untyped) (h : G.Assignment env) (hp : InNest j e p)
    (hq : InNest j e q) (hpq : ¬p <+: q) (hqp : ¬q <+: p) :
    G.exprIn env (dups1Join G j p q e).1 = G.exprIn env e := by
  unfold dups1Join
  split
  · next tmp hj =>
    obtain ⟨c, hc⟩ := exists_exprIn_setAt_two h.toConstantValues hp hq hpq hqp
    have hself := hc (e.getAt p) (e.getAt q)
    rw [setAt_getAt hp, setAt_getAt hq, ← exprIn_exprJoin hG h hj] at hself
    have hneutral : G.exprIn env (.symbol (j.neutral G)) = (env (j.neutral G)).tri := rfl
    rw [hc, hneutral, j.op_neutral h.toConstantValues, hself]
  · rfl

omit [DecidableEq ι] in
theorem exprIn_onNest {inner : Junction → Expr ι → Expr ι × ℕ}
    (hinner : ∀ k x, G.exprIn env (inner k x).1 = G.exprIn env x) (e : Expr ι) :
    G.exprIn env (onNest inner e).1 = G.exprIn env e := by
  unfold onNest
  split
  · exact hinner _ _
  · rfl

theorem KeepsNest.dups1Pair {inner : Junction → Expr ι → Expr ι × ℕ} {e' : Expr ι}
    (h : KeepsNest j e e') (hp : p ∈ e.operandPositions j) (hq : q ∈ e.operandPositions j) :
    KeepsNest j e (dups1Pair G inner j p q e').1 := by
  unfold Kconfig.dups1Pair
  split
  · exact h
  · unfold dups1Join
    simp only
    split
    · exact ((h.setAt hp).setAt hp).setAt hq
    · exact h.setAt hp

/-- A step of the first pass keeps the value. -/
theorem exprIn_dups1Pair (hG : G.Untyped) (h : G.Assignment env)
    {inner : Junction → Expr ι → Expr ι × ℕ}
    (hinner : ∀ k x, G.exprIn env (inner k x).1 = G.exprIn env x) {e' : Expr ι}
    (hkeeps : KeepsNest j e e') (hp : p ∈ e.operandPositions j) (hq : q ∈ e.operandPositions j) :
    G.exprIn env (dups1Pair G inner j p q e').1 = G.exprIn env e' := by
  unfold dups1Pair
  by_cases hpq : p = q
  · rw [if_pos hpq]
  · rw [if_neg hpq]
    obtain ⟨hpre, hpre'⟩ := apart_of_mem hp hq hpq
    have hkeeps' := hkeeps.setAt hp (x := (onNest inner (e'.getAt p)).1)
    rw [exprIn_dups1Join hG h (hkeeps'.operand hp) (hkeeps'.operand hq) hpre hpre']
    exact exprIn_setAt_of_eq h.toConstantValues (hkeeps.operand hp) (exprIn_onNest hinner _)

/-- An invariant of the steps is one of the first pass. -/
theorem exprEliminateDups1_rel {depth : ℕ} {R : Expr ι → ℕ → Prop}
    (hstep : ∀ p ∈ e.operandPositions j, ∀ q ∈ e.operandPositions j, ∀ e' n,
      KeepsNest j e e' → R e' n →
      R (dups1Pair G (exprEliminateDups1 G depth) j p q e').1
        (n + (dups1Pair G (exprEliminateDups1 G depth) j p q e').2)) (h : R e 0) :
    R (exprEliminateDups1 G (depth + 1) j e).1 (exprEliminateDups1 G (depth + 1) j e).2 := by
  have hloop := countLoop_rel (R := fun e' n => KeepsNest j e e' ∧ R e' n) (n := 0)
    (fun p hp _ _ he' => countLoop_rel (R := fun e' n => KeepsNest j e e' ∧ R e' n)
      (fun q hq e' n he' => ⟨he'.1.dups1Pair hp hq, hstep p hp q hq e' n he'.1 he'.2⟩) he')
    (⟨keepsNest_refl e, h⟩ : KeepsNest j e e ∧ R e 0)
  rw [Nat.zero_add] at hloop
  exact hloop.2

theorem exprIn_exprEliminateDups1 (hG : G.Untyped) (h : G.Assignment env) (depth : ℕ) :
    ∀ j e, G.exprIn env (exprEliminateDups1 G depth j e).1 = G.exprIn env e := by
  induction depth with
  | zero => exact fun _ _ => rfl
  | succ depth ih =>
    intro j e
    refine exprEliminateDups1_rel (R := fun e' _ => G.exprIn env e' = G.exprIn env e) ?_ rfl
    intro p hp q hq e' n hkeeps hvalue
    rw [exprIn_dups1Pair hG h ih hkeeps hp hq, hvalue]

/-! ### The second pass -/

theorem extractOperand_node (j : Junction) (tmp : Option (Expr ι)) (e l r : Expr ι) :
    extractOperand G j tmp e (j.node l r) =
      let left := extractOperand G j tmp e l
      let right := extractOperand G j left.1 left.2.1 r
      (right.1, right.2.1, j.node left.2.2 right.2.2) := by
  cases j <;> simp [extractOperand, Junction.node]

theorem extractOperand_leaf {tmp : Option (Expr ι)} (h : e2.junction ≠ some j) :
    extractOperand G j tmp e1 e2 = extractPair G j tmp e1 e2 := by
  cases e2 <;> cases j <;> simp [extractOperand, Expr.junction] at h ⊢

theorem exprExtractEq_node (j : Junction) (tmp : Option (Expr ι)) (l r e : Expr ι) :
    exprExtractEq G j tmp (j.node l r) e =
      let left := exprExtractEq G j tmp l e
      let right := exprExtractEq G j left.1 r left.2.2
      (right.1, j.node left.2.1 right.2.1, right.2.2) := by
  cases j <;> simp [exprExtractEq, Junction.node]

theorem exprExtractEq_leaf {tmp : Option (Expr ι)} (h : e1.junction ≠ some j) :
    exprExtractEq G j tmp e1 e2 = extractOperand G j tmp e1 e2 := by
  cases e1 <;> cases j <;> simp [exprExtractEq, Expr.junction] at h ⊢

theorem cancels_extractPair (h : G.ConstantValues env) (tmp : Option (Expr ι)) :
    Cancels G env j e1 e2 (extractPair G j tmp e1 e2).2 := by
  unfold extractPair
  split_ifs with he
  · have hvalue := exprIn_eq_of_exprEq h he
    refine ⟨G.exprIn env e1, ?_, ?_⟩
    · rw [j.op_comm]
      exact j.op_neutral h _
    · rw [hvalue, j.op_comm]
      exact j.op_neutral h _
  · exact ⟨_, j.op_neutral h _, j.op_neutral h _⟩

theorem cancels_extractOperand (h : G.ConstantValues env) (tmp : Option (Expr ι)) :
    Cancels G env j e1 e2 (extractOperand G j tmp e1 e2).2 := by
  induction e2 using Expr.operandInduction j generalizing e1 tmp with
  | leaf e2 hj =>
    rw [extractOperand_leaf hj]
    exact cancels_extractPair h tmp
  | node l r ihl ihr =>
    rw [extractOperand_node]
    obtain ⟨c, hc1, hc2⟩ := @ihl e1 tmp
    obtain ⟨d, hd1, hd2⟩ := @ihr (extractOperand G j tmp e1 l).2.1
      (extractOperand G j tmp e1 l).1
    refine ⟨j.op c d, ?_, ?_⟩
    · rw [j.op_assoc, hd1, hc1]
    · rw [j.exprIn_node, j.op_op_op_comm, hc2, hd2, j.exprIn_node]

theorem cancels_exprExtractEq (h : G.ConstantValues env) (tmp : Option (Expr ι)) :
    Cancels G env j e1 e2 (exprExtractEq G j tmp e1 e2).2 := by
  induction e1 using Expr.operandInduction j generalizing e2 tmp with
  | leaf e1 hj =>
    rw [exprExtractEq_leaf hj]
    exact cancels_extractOperand h tmp
  | node l r ihl ihr =>
    rw [exprExtractEq_node]
    obtain ⟨c, hc1, hc2⟩ := @ihl e2 tmp
    obtain ⟨d, hd1, hd2⟩ := @ihr (exprExtractEq G j tmp l e2).2.2
      (exprExtractEq G j tmp l e2).1
    refine ⟨j.op c d, ?_, ?_⟩
    · rw [j.exprIn_node, j.op_op_op_comm, hc1, hd1, j.exprIn_node]
    · rw [j.op_assoc, hd2, hc2]

/-- An expression from which everything has been extracted bounds the other one. -/
theorem op_exprIn_of_exprExtractEqLeft (h : G.ConstantValues env)
    (hleft : exprExtractEqLeft G j e1 e2 = .symbol (j.neutral G)) :
    j.op (G.exprIn env e1) (G.exprIn env e2) = G.exprIn env e2 := by
  have hcancels : Cancels G env j e1 e2 (exprExtractEq G j none e1 e2).2 :=
    cancels_exprExtractEq h none
  obtain ⟨c, hc1, hc2⟩ := hcancels
  have hrest : G.exprIn env (exprExtractEq G j none e1 e2).2.1 = (env (j.neutral G)).tri := by
    unfold exprExtractEqLeft at hleft
    simp only at hleft
    split at hleft
    · rw [← exprIn_exprEliminateYn h, hleft]
      rfl
    · rw [hleft]
      rfl
  rw [hrest, j.op_comm, j.op_neutral h] at hc1
  rw [← hc1, ← hc2, ← j.op_assoc, j.op_self]

/-- A node of type `k` and its complement, unless it is `m`. -/
theorem op_dual_of_complements (hG : G.Untyped) (h : G.Assignment env) {k : Junction}
    (hm : G.exprIn env e1 ≠ .mod) (hc : complements G k e1 e2) :
    k.dual.op (G.exprIn env e1) (G.exprIn env e2) = (env (k.neutral G)).tri := by
  have hbound := op_exprIn_of_exprExtractEqLeft h.toConstantValues (of_decide_eq_true hc)
  rw [exprTransform_eq_nnf hG, exprIn_nnf hG h.toValuation, SymbolTable.exprIn] at hbound
  have hdecide : ∀ a b : Tristate, a ≠ .mod →
      (min (exprNot a) b = b → min a b = .no) ∧ (max (exprNot a) b = b → max a b = .yes) := by decide
  cases k with
  | and =>
    rw [Junction.neutral, h.yes]
    exact (hdecide _ _ hm).2 hbound
  | or =>
    rw [Junction.neutral, h.no]
    exact (hdecide _ _ hm).1 hbound

/-- What holds of a nest of type `j` while the second pass rewrites the operands of `e`. -/
structure SecondPass (j : Junction) (e e' : Expr ι) : Prop where
  keeps : KeepsNest j e e'
  operand : ∀ p ∈ e.operandPositions j, (e'.getAt p).junction ≠ some j

omit [DecidableEq ι] in
theorem secondPass_refl (e : Expr ι) : SecondPass j e e :=
  ⟨keepsNest_refl e, fun _ => junction_getAt_of_mem⟩

omit [DecidableEq ι] in
theorem SecondPass.setAt {e' : Expr ι} (h : SecondPass j e e') (hp : p ∈ e.operandPositions j)
    (hx : x.junction ≠ some j) : SecondPass j e (e'.setAt p x) where
  keeps := h.keeps.setAt hp
  operand q hq := by
    by_cases hpq : p = q
    · rwa [← hpq, getAt_setAt_self (h.keeps.operand hp)]
    · obtain ⟨hpre, hpre'⟩ := apart_of_mem hp hq hpq
      rw [getAt_setAt_of_apart (h.keeps.operand hp) hpre hpre']
      exact h.operand q hq

theorem SecondPass.dups2Pair {inner : Junction → Expr ι → Expr ι × List (Expr ι)} {e' : Expr ι}
    (hinner : ∀ k x, x.junction = some k → (inner k x).1.junction = some k)
    (h : SecondPass j e e') (hp : p ∈ e.operandPositions j) :
    SecondPass j e (dups2Pair G inner p q e').1 := by
  unfold Kconfig.dups2Pair
  split
  · exact h
  · split
    · exact h
    · next k hk =>
      have hne := h.operand p hp
      have hset := h.setAt hp (x := (inner k (e'.getAt p)).1)
        (by rw [hinner k _ hk, ← hk]; exact hne)
      unfold dups2Complement
      simp only
      split
      · exact hset.setAt hp (by simp [Expr.junction])
      · exact hset

/-- An invariant of the steps is one of the second pass. -/
theorem exprEliminateDups2_rel {depth : ℕ} {R : Expr ι → List (Expr ι) → Prop}
    (hinner : ∀ k x, x.junction = some k → (exprEliminateDups2 G depth k x).1.junction = some k)
    (hstep : ∀ p ∈ e.operandPositions j, ∀ q ∈ e.nestPositions j, ∀ e' xs,
      SecondPass j e e' → R e' xs →
      R (dups2Pair G (exprEliminateDups2 G depth) p q e').1
        (xs ++ (dups2Pair G (exprEliminateDups2 G depth) p q e').2)) (h : R e []) :
    R (exprEliminateDups2 G (depth + 1) j e).1 (exprEliminateDups2 G (depth + 1) j e).2 := by
  have hloop := removeLoop_rel (R := fun e' xs => SecondPass j e e' ∧ R e' xs)
    (fun p hp _ _ he' => removeLoop_rel (R := fun e' xs => SecondPass j e e' ∧ R e' xs)
      (fun q hq e' xs he' => ⟨he'.1.dups2Pair hinner hp, hstep p hp q hq e' xs he'.1 he'.2⟩) he')
    (⟨secondPass_refl e, h⟩ : SecondPass j e e ∧ R e [])
  exact hloop.2

/-- The second pass leaves a node a node. -/
theorem junction_exprEliminateDups2 (depth : ℕ) :
    ∀ j e, e.junction = some j → (exprEliminateDups2 G depth j e).1.junction = some j := by
  induction depth with
  | zero => exact fun _ _ h => h
  | succ depth ih =>
    intro j e he
    refine exprEliminateDups2_rel (R := fun e' _ => e'.junction = some j) ih ?_ he
    intro p hp q _ e' _ _ hj
    obtain ⟨b, p, rfl⟩ := List.exists_cons_of_ne_nil (ne_nil_of_mem he hp)
    unfold dups2Pair
    split
    · exact hj
    · split
      · exact hj
      · unfold dups2Complement
        simp only
        split
        · rw [Expr.junction_setAt_cons, Expr.junction_setAt_cons, hj]
        · rw [Expr.junction_setAt_cons, hj]

/-- Removing an operand that is not `m` keeps the value. -/
theorem exprIn_dups2Complement (hG : G.Untyped) (h : G.Assignment env) {k : Junction}
    (hp : InNest k.dual e p) (hq : InNest k.dual e q)
    (hm : ∀ x ∈ (dups2Complement G k p q e).2, G.exprIn env x ≠ .mod) :
    G.exprIn env (dups2Complement G k p q e).1 = G.exprIn env e := by
  unfold dups2Complement at hm ⊢
  split
  · next hc =>
    rw [if_pos hc] at hm
    have hvalue := op_dual_of_complements hG h (hm _ (List.mem_singleton_self _)) hc
    obtain ⟨c, hcs⟩ := exists_exprIn_setAt h.toConstantValues hp
    have hself := hcs (e.getAt p)
    rw [setAt_getAt hp] at hself
    have hbound := @op_exprIn_getAt _ G env _ _ _ hq
    have habs : k.neutral G = k.dual.absorbing G := by cases k <;> rfl
    have hsymbol : G.exprIn env (.symbol (k.neutral G)) = (env (k.dual.absorbing G)).tri := by
      rw [habs]
      rfl
    rw [habs] at hvalue
    have he : G.exprIn env e = (env (k.dual.absorbing G)).tri := by
      rw [hself, k.dual.op_assoc, hvalue, k.dual.op_comm] at hbound
      rw [k.dual.op_absorbing h.toConstantValues] at hbound
      rw [hself, ← hbound]
    rw [hcs, hsymbol, k.dual.op_comm, k.dual.op_absorbing h.toConstantValues, he]
  · rfl

/-! ### Rewriting loses weight -/

/-- No operand of a node is `y` or `n`. -/
def Reduced (G : SymbolTable ι) : Expr ι → Prop
  | .and l r | .or l r =>
    (∀ s, s = G.symbolYes ∨ s = G.symbolNo → l ≠ .symbol s ∧ r ≠ .symbol s) ∧ Reduced G l ∧
      Reduced G r
  | _ => True

theorem weight_node (l r : Expr ι) : weight G (j.node l r) = weight G l + weight G r := by
  cases j <;> rfl

omit [DecidableEq ι] in
theorem reduced_node {l r : Expr ι} : Reduced G (j.node l r) ↔
    (∀ s, s = G.symbolYes ∨ s = G.symbolNo → l ≠ .symbol s ∧ r ≠ .symbol s) ∧ Reduced G l ∧
      Reduced G r := by
  cases j <;> rfl

theorem weight_neutral (j : Junction) : weight G (.symbol (j.neutral G)) = 0 := by
  cases j <;> simp [weight, Junction.neutral]

/-- What is reduced and no constant has some weight. -/
theorem weight_pos (he : Reduced G e) (h : ∀ s, s = G.symbolYes ∨ s = G.symbolNo → e ≠ .symbol s) :
    0 < weight G e := by
  induction e with
  | symbol s =>
    have hs : ¬(s = G.symbolYes ∨ s = G.symbolNo) := fun hs => h s hs rfl
    simp [weight, hs]
  | equal s t | unequal s t | not e => exact Nat.one_pos
  | and l r ihl ihr | or l r ihl ihr =>
    have hl := ihl he.2.1 fun s hs => (he.1 s hs).1
    simp only [weight]
    omega

theorem weight_joinYn_le (j : Junction) (l r : Expr ι) :
    weight G (joinYn G j l r) ≤ weight G l + weight G r := by
  have habs : weight G (.symbol (j.absorbing G)) = 0 := by
    cases j <;> simp [weight, Junction.absorbing]
  unfold joinYn
  split_ifs
  · rw [habs]
    exact Nat.zero_le _
  · exact Nat.le_add_left _ _
  · rw [habs]
    exact Nat.zero_le _
  · exact Nat.le_add_right _ _
  · rw [weight_node]

theorem weight_exprEliminateYn_le (e : Expr ι) : weight G (exprEliminateYn G e) ≤ weight G e := by
  induction e with
  | symbol s | equal s t | unequal s t | not e => exact le_rfl
  | and l r ihl ihr | or l r ihl ihr =>
    rw [exprEliminateYn]
    exact (weight_joinYn_le _ _ _).trans (Nat.add_le_add ihl ihr)

theorem reduced_exprEliminateYn (e : Expr ι) : Reduced G (exprEliminateYn G e) := by
  have hjoin : ∀ (j : Junction) (l r : Expr ι), Reduced G l → Reduced G r →
      Reduced G (joinYn G j l r) := by
    intro j l r hl hr
    unfold joinYn
    split_ifs with h1 h2 h3 h4
    · trivial
    · exact hr
    · trivial
    · exact hl
    · refine reduced_node.mpr ⟨fun s hs => ?_, hl, hr⟩
      have hcases : s = j.absorbing G ∨ s = j.neutral G := by
        cases j
        · exact hs.symm
        · exact hs
      rcases hcases with rfl | rfl
      · exact ⟨h1, h3⟩
      · exact ⟨h2, h4⟩
  induction e with
  | symbol s | equal s t | unequal s t | not e => trivial
  | and l r ihl ihr => exact hjoin .and _ _ ihl ihr
  | or l r ihl ihr => exact hjoin .or _ _ ihl ihr

theorem weight_setAt (hp : InNest j e p) :
    weight G (e.setAt p x) + weight G (e.getAt p) = weight G e + weight G x := by
  induction e using Expr.operandInduction j generalizing p with
  | leaf e hj =>
    cases p with
    | nil => rw [Expr.setAt_nil, Expr.getAt_nil, Nat.add_comm]
    | cons b p => exact absurd hp (not_inNest_leaf hj)
  | node l r ihl ihr =>
    cases p with
    | nil => rw [Expr.setAt_nil, Expr.getAt_nil, Nat.add_comm]
    | cons b p =>
      rw [inNest_node] at hp
      rw [Expr.setAt_node, Expr.getAt_node, weight_node]
      cases b
      · have hl := ihl hp
        simp only [Bool.false_eq_true, if_false, weight_node]
        omega
      · have hr := ihr hp
        simp only [if_true, weight_node]
        omega

omit [DecidableEq ι] in
theorem Reduced.getAt (h : Reduced G e) (hp : InNest j e p) :
    Reduced G (e.getAt p) ∧
      (p ≠ [] → ∀ s, s = G.symbolYes ∨ s = G.symbolNo → e.getAt p ≠ .symbol s) := by
  induction e using Expr.operandInduction j generalizing p with
  | leaf e hj =>
    cases p with
    | nil => exact ⟨by rwa [Expr.getAt_nil], fun hne => absurd rfl hne⟩
    | cons b p => exact absurd hp (not_inNest_leaf hj)
  | node l r ihl ihr =>
    cases p with
    | nil => exact ⟨by rwa [Expr.getAt_nil], fun hne => absurd rfl hne⟩
    | cons b p =>
      obtain ⟨hconst, hl, hr⟩ := reduced_node.mp h
      rw [inNest_node] at hp
      rw [Expr.getAt_node]
      have hchild : ∀ c : Expr ι, (Reduced G (c.getAt p) ∧
          (p ≠ [] → ∀ s, s = G.symbolYes ∨ s = G.symbolNo → c.getAt p ≠ .symbol s)) →
          (∀ s, s = G.symbolYes ∨ s = G.symbolNo → c ≠ .symbol s) →
          Reduced G (c.getAt p) ∧ (b :: p ≠ [] →
            ∀ s, s = G.symbolYes ∨ s = G.symbolNo → c.getAt p ≠ .symbol s) := by
        intro c hc hne
        refine ⟨hc.1, fun _ => ?_⟩
        cases p with
        | nil => rwa [Expr.getAt_nil]
        | cons d p => exact hc.2 (List.cons_ne_nil _ _)
      cases b
      · exact hchild l (ihl hl hp) fun s hs => (hconst s hs).1
      · exact hchild r (ihr hr hp) fun s hs => (hconst s hs).2

/-- A join of two operands about one symbol. -/
theorem weight_of_rules (hG : G.Untyped) (hs : joinSymbol G e1 e2 = some s)
    (htmp : weight G tmp ≤ 1) : weight G tmp < weight G e1 + weight G e2 := by
  obtain ⟨h1, h2, ht⟩ := joinSymbol_eq_some hs
  have hsymbol : ¬(s = G.symbolYes ∨ s = G.symbolNo) := by
    intro hconst
    have huntyped := hG s (hconst.imp_right .inr)
    rw [huntyped] at ht
    simp at ht
  have hw1 : weight G e1 = 1 := by
    unfold joinSymbol1 at h1
    split at h1 <;> cases h1 <;> simp [weight, hsymbol]
  have hw2 : weight G e2 = 1 := by
    unfold joinSymbol2 at h2
    split at h2 <;> cases h2 <;> simp [weight, hsymbol]
  omega

theorem weight_symbol_le (s : ι) : weight G (.symbol s) ≤ 1 := by
  simp only [weight]
  split_ifs <;> omega

theorem weight_joinConstants_le (hj : joinConstants G s e1 e2 = some tmp) : weight G tmp ≤ 1 := by
  unfold joinConstants at hj
  split at hj
  · split at hj
    · cases hj
      split_ifs
      · exact le_rfl
      · exact weight_symbol_le _
    · cases hj
  · split at hj
    · cases hj
      split_ifs
      · exact le_rfl
      · exact weight_symbol_le _
    · cases hj
  · cases hj

theorem weight_joinAndTristate_le (hj : joinAndTristate G s e1 e2 = some tmp) :
    weight G tmp ≤ 1 := by
  unfold joinAndTristate at hj
  split at hj
  · next t ht =>
    cases hj
    exact weight_joinConstants_le ht
  · split_ifs at hj <;> cases hj <;> exact le_rfl

theorem weight_rules_le (hj : joinOrRules G s e1 e2 = some tmp ∨ joinAndRules G s e1 e2 = some tmp) :
    weight G tmp ≤ 1 := by
  rcases hj with hj | hj
  · unfold joinOrRules at hj
    split_ifs at hj <;> cases hj
    · exact le_rfl
    · exact le_rfl
    · exact le_rfl
    · exact weight_symbol_le _
  · unfold joinAndRules at hj
    split_ifs at hj
    · cases hj
      exact le_rfl
    · cases hj
      exact weight_symbol_le _
    · cases hj
      exact le_rfl
    · exact weight_joinAndTristate_le hj

/-- A join keeps one of two equal operands, or is lighter. -/
theorem weight_exprJoin (hG : G.Untyped) (hj : exprJoin G j e1 e2 = some tmp) :
    tmp = e1 ∨ weight G tmp < weight G e1 + weight G e2 := by
  cases j with
  | or =>
    simp only [exprJoin, exprJoinOr] at hj
    split at hj
    · cases hj
      exact .inl rfl
    · obtain ⟨s, hs, hrule⟩ := Option.bind_eq_some_iff.mp hj
      exact .inr (weight_of_rules hG hs (weight_rules_le (.inl hrule)))
  | and =>
    simp only [exprJoin, exprJoinAnd] at hj
    split at hj
    · cases hj
      exact .inl rfl
    · obtain ⟨s, hs, hrule⟩ := Option.bind_eq_some_iff.mp hj
      exact .inr (weight_of_rules hG hs (weight_rules_le (.inr hrule)))

/-- `e'` comes from `e` by `n` counted rewritings: nothing has happened, or weight has been lost. -/
def Lighter (G : SymbolTable ι) (e e' : Expr ι) (n : ℕ) : Prop :=
  (n = 0 ∧ e' = e) ∨ weight G e' < weight G e

theorem dups1Join_weight (hG : G.Untyped) (hp : InNest j e p) (hq : InNest j e q)
    (hpq : ¬p <+: q) (hqp : ¬q <+: p) :
    weight G (dups1Join G j p q e).1 ≤ weight G e ∧
      (Reduced G e → Lighter G e (dups1Join G j p q e).1 (dups1Join G j p q e).2) := by
  unfold dups1Join
  split
  · next tmp hj =>
    have hq' : InNest j (e.setAt p (.symbol (j.neutral G))) q := hq.setAt fun h => absurd h hpq
    have h1 := weight_setAt (G := G) (x := .symbol (j.neutral G)) hp
    have h2 := weight_setAt (G := G) (x := tmp) hq'
    rw [getAt_setAt_of_apart hp hpq hqp] at h2
    rw [weight_neutral] at h1
    have hle := weight_exprJoin hG hj
    refine ⟨?_, fun hr => .inr ?_⟩
    · show weight G ((e.setAt p (.symbol (j.neutral G))).setAt q tmp) ≤ weight G e
      rcases hle with rfl | hlt
      · omega
      · omega
    · show weight G ((e.setAt p (.symbol (j.neutral G))).setAt q tmp) < weight G e
      have hpos : 0 < weight G (e.getAt q) := by
        obtain ⟨hred, hne⟩ := hr.getAt hq
        exact weight_pos hred (hne fun hnil => hqp (hnil ▸ List.nil_prefix))
      rcases hle with rfl | hlt
      · omega
      · omega
  · exact ⟨le_rfl, fun _ => .inl ⟨rfl, rfl⟩⟩

/-- A rewriting that never gains weight, and loses some of a reduced expression that it changes. -/
structure Loses (G : SymbolTable ι) (e : Expr ι) (out : Expr ι × ℕ) : Prop where
  le : weight G out.1 ≤ weight G e
  lighter : Reduced G e → Lighter G e out.1 out.2

theorem loses_refl (e : Expr ι) : Loses G e (e, 0) := ⟨le_rfl, fun _ => .inl ⟨rfl, rfl⟩⟩

theorem loses_onNest {inner : Junction → Expr ι → Expr ι × ℕ}
    (hinner : ∀ k x, Loses G x (inner k x)) (e : Expr ι) : Loses G e (onNest inner e) := by
  unfold onNest
  split
  · exact hinner _ _
  · exact loses_refl e

/-- A rewriting of an operand, followed by one of the nest. -/
theorem Loses.operand {out : Expr ι × ℕ} {next : Expr ι → Expr ι × ℕ} (hp : InNest j e p)
    (h : Loses G (e.getAt p) out) (hnext : ∀ e', e' = e.setAt p out.1 → Loses G e' (next e')) :
    Loses G e ((next (e.setAt p out.1)).1, out.2 + (next (e.setAt p out.1)).2) := by
  have hset := weight_setAt (G := G) (x := out.1) hp
  have hnext' := hnext _ rfl
  refine ⟨?_, fun hr => ?_⟩
  · have h1 := h.le
    have h2 := hnext'.le
    show weight G (next (e.setAt p out.1)).1 ≤ weight G e
    omega
  · rcases h.lighter (hr.getAt hp).1 with ⟨hn, he⟩ | hlt
    · rw [he, setAt_getAt hp] at hnext' ⊢
      rw [hn, Nat.zero_add]
      exact hnext'.lighter hr
    · refine .inr ?_
      have h2 := hnext'.le
      show weight G (next (e.setAt p out.1)).1 < weight G e
      omega

theorem loses_dups1Pair (hG : G.Untyped) {inner : Junction → Expr ι → Expr ι × ℕ}
    (hinner : ∀ k x, Loses G x (inner k x)) {e' : Expr ι}
    (hkeeps : KeepsNest j e e') (hp : p ∈ e.operandPositions j) (hq : q ∈ e.operandPositions j) :
    Loses G e' (dups1Pair G inner j p q e') := by
  unfold dups1Pair
  by_cases hpq : p = q
  · rw [if_pos hpq]
    exact loses_refl e'
  · rw [if_neg hpq]
    obtain ⟨hpre, hpre'⟩ := apart_of_mem hp hq hpq
    refine Loses.operand (hkeeps.operand hp) (loses_onNest hinner _) ?_
    rintro _ rfl
    have hkeeps' := hkeeps.setAt hp (x := (onNest inner (e'.getAt p)).1)
    have hjoin := dups1Join_weight hG (hkeeps'.operand hp) (hkeeps'.operand hq) hpre hpre'
    exact ⟨hjoin.1, hjoin.2⟩

/-- What a loop of such rewritings does. -/
theorem Loses.step {e' : Expr ι} {n : ℕ} {out : Expr ι × ℕ} (h : Loses G e (e', n))
    (hout : Loses G e' out) : Loses G e (out.1, n + out.2) := by
  refine ⟨hout.le.trans h.le, fun hr => ?_⟩
  rcases h.lighter hr with ⟨hn, he⟩ | hlt
  · simp only at hn he
    subst hn he
    rw [Nat.zero_add]
    exact hout.lighter hr
  · exact .inr (lt_of_le_of_lt hout.le hlt)

theorem loses_exprEliminateDups1 (hG : G.Untyped) (depth : ℕ) :
    ∀ j e, Loses G e (exprEliminateDups1 G depth j e) := by
  induction depth with
  | zero => exact fun _ e => loses_refl e
  | succ depth ih =>
    intro j e
    exact exprEliminateDups1_rel (R := fun e' n => Loses G e (e', n))
      (fun p hp q hq e' n hkeeps h => h.step (loses_dups1Pair hG ih hkeeps hp hq)) (loses_refl e)

theorem loses_dups2Complement {k : Junction} (hp : InNest k.dual e p) (hk : (e.getAt p).junction = some k) :
    Loses G e ((dups2Complement G k p q e).1, (dups2Complement G k p q e).2.length) := by
  unfold dups2Complement
  split
  · have hset := weight_setAt (G := G) (x := .symbol (k.neutral G)) hp
    rw [weight_neutral] at hset
    refine ⟨?_, fun hr => .inr ?_⟩
    · show weight G (e.setAt p (.symbol (k.neutral G))) ≤ weight G e
      omega
    have hpos : 0 < weight G (e.getAt p) := by
      refine weight_pos (hr.getAt hp).1 fun s _ hs => ?_
      rw [hs] at hk
      cases hk
    show weight G (e.setAt p (.symbol (k.neutral G))) < weight G e
    omega
  · exact loses_refl e

theorem loses_exprEliminateDups2 (depth : ℕ) :
    ∀ j e, e.junction = some j →
      Loses G e ((exprEliminateDups2 G depth j e).1, (exprEliminateDups2 G depth j e).2.length) := by
  induction depth with
  | zero => exact fun _ e _ => loses_refl e
  | succ depth ih =>
    intro j e he
    refine exprEliminateDups2_rel (R := fun e' xs => Loses G e (e', xs.length))
      (junction_exprEliminateDups2 depth) ?_ (loses_refl e)
    intro p hp q hq e' xs hpass h
    rw [List.length_append]
    have hne := hpass.operand p hp
    refine @Loses.step _ _ _ _ _ _ (_, _) h ?_
    unfold dups2Pair
    split
    · exact loses_refl e'
    split
    · exact loses_refl e'
    next k hk =>
    have hkj : k.dual = j := by
      rw [hk] at hne
      cases k <;> cases j <;> first | rfl | exact absurd rfl hne
    subst hkj
    simp only [List.length_append]
    have hcomplement : ∀ e2, e2 = e'.setAt p (exprEliminateDups2 G depth k (e'.getAt p)).1 →
        Loses G e2 ((dups2Complement G k p q e2).1, (dups2Complement G k p q e2).2.length) := by
      rintro _ rfl
      have hj := junction_exprEliminateDups2 (G := G) depth k _ hk
      have hset := hpass.setAt hp (x := (exprEliminateDups2 G depth k (e'.getAt p)).1)
        (by rw [hj, ← hk]; exact hne)
      refine loses_dups2Complement (hset.keeps.operand hp) ?_
      rw [getAt_setAt_self (hpass.keeps.operand hp), hj]
    exact Loses.operand (hpass.keeps.operand hp) (ih k _ hk) hcomplement

/-! ### `expr_eliminate_dups` -/

/-- The first pass leaves a node a node. -/
theorem junction_exprEliminateDups1 (depth : ℕ) (he : e.junction = some j) :
    (exprEliminateDups1 G depth j e).1.junction = some j := by
  cases depth with
  | zero => exact he
  | succ depth =>
    refine exprEliminateDups1_rel (R := fun e' _ => e'.junction = some j) ?_ he
    intro p hp q hq e' n _ hj
    obtain ⟨b, p, rfl⟩ := List.exists_cons_of_ne_nil (ne_nil_of_mem he hp)
    obtain ⟨c, q, rfl⟩ := List.exists_cons_of_ne_nil (ne_nil_of_mem he hq)
    unfold dups1Pair dups1Join
    split
    · exact hj
    · simp only
      split
      · rw [Expr.junction_setAt_cons, Expr.junction_setAt_cons, Expr.junction_setAt_cons, hj]
      · rw [Expr.junction_setAt_cons, hj]

theorem loses_dupsRound (hG : G.Untyped) (depth : ℕ) (e : Expr ι) :
    Loses G e ((dupsRound G depth e).1, (dupsRound G depth e).2.1) := by
  unfold dupsRound
  split
  · next j hj =>
    exact (loses_exprEliminateDups1 hG depth j e).step
      (loses_exprEliminateDups2 depth j _ (junction_exprEliminateDups1 depth hj))
  · exact loses_refl e

/-- A reduced expression needs no more rounds than it weighs. -/
theorem exprEliminateDupsFuel_isSome (hG : G.Untyped) (depth : ℕ) {n : ℕ} (hr : Reduced G e)
    (hn : weight G e < n) : (exprEliminateDupsFuel G depth n e).isSome := by
  induction n generalizing e with
  | zero => exact absurd hn (Nat.not_lt_zero _)
  | succ n ih =>
    rw [exprEliminateDupsFuel]
    split
    · rfl
    · next hcount =>
      rcases (loses_dupsRound hG depth e).lighter hr with ⟨hzero, -⟩ | hlt
      · exact absurd hzero hcount
      · have hyn := weight_exprEliminateYn_le (G := G) (dupsRound G depth e).1
        have hlt' : weight G (dupsRound G depth e).1 < weight G e := hlt
        have hrest := ih (reduced_exprEliminateYn (G := G) (dupsRound G depth e).1) (by omega)
        rw [Option.isSome_map]
        exact hrest

theorem exprEliminateDupsFuel_mono {depth n k : ℕ} {out : Expr ι × List (Expr ι)} (hk : n ≤ k)
    (h : exprEliminateDupsFuel G depth n e = some out) :
    exprEliminateDupsFuel G depth k e = some out := by
  induction n generalizing k e out with
  | zero => cases h
  | succ n ih =>
    obtain ⟨k, rfl⟩ : ∃ m, k = m + 1 := ⟨k - 1, by omega⟩
    rw [exprEliminateDupsFuel] at h ⊢
    split
    · next hzero => rwa [if_pos hzero] at h
    · next hcount =>
      rw [if_neg hcount] at h
      obtain ⟨rest, hrest, rfl⟩ := Option.map_eq_some_iff.mp h
      rw [ih (by omega) hrest]
      rfl

/-- The loop ends. -/
theorem exprEliminateDupsFuel_eq (hG : G.Untyped) (depth : ℕ) (e : Expr ι) :
    exprEliminateDupsFuel G depth (weight G e + 2) e = some (exprEliminateDups G depth e) := by
  have hsome : (exprEliminateDupsFuel G depth (weight G e + 2) e).isSome := by
    rw [exprEliminateDupsFuel]
    split
    · rfl
    · have hyn := weight_exprEliminateYn_le (G := G) (dupsRound G depth e).1
      have hle : weight G (dupsRound G depth e).1 ≤ weight G e := (loses_dupsRound hG depth e).le
      have hrest := exprEliminateDupsFuel_isSome (n := weight G e + 1) hG depth
        (reduced_exprEliminateYn (G := G) (dupsRound G depth e).1) (by omega)
      rw [Option.isSome_map]
      exact hrest
  obtain ⟨out, hout⟩ := Option.isSome_iff_exists.mp hsome
  rw [exprEliminateDups, hout, Option.getD_some]

end
end OpenADK.Kconfig
