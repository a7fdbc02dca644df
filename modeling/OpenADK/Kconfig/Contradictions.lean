import OpenADK.Kconfig.ExprDupsSpec

/-!
# Contradictions that are `m`

The second pass of `expr_eliminate_dups` takes `x && !x` for `n` and `x || !x` for `y`, which is
wrong when `x` is `m`. It removes an operand that is a nest, beside operands that contradict it.
A rewriting never changes a value of `y` or `n`, and it keeps the operands that are nests at `y`
where they are all `y`: so the nests that go wrong can be told from the expression at the start.
-/

namespace OpenADK.Kconfig
open Tristate
variable {ι : Type}

/-- The value of the neutral operand. -/
def Junction.unit : Junction → Tristate
  | .and => .yes
  | .or => .no

/-- The value of the absorbing operand. -/
def Junction.zero : Junction → Tristate
  | .and => .no
  | .or => .yes

section
variable (G : SymbolTable ι) (env : Env ι)

/-- An operand of the nest of `j` nodes is itself a nest, and `m`. -/
def HasModNest (j : Junction) : Expr ι → Prop
  | .and l r =>
    if j = .and then HasModNest j l ∨ HasModNest j r else G.exprIn env (.and l r) = .mod
  | .or l r =>
    if j = .or then HasModNest j l ∨ HasModNest j r else G.exprIn env (.or l r) = .mod
  | _ => False

/-- All operands of the nest of `j` nodes that are nests are `y`, for `E_AND`, or `n`. -/
def UnitNests (j : Junction) : Expr ι → Prop
  | .and l r =>
    if j = .and then UnitNests j l ∧ UnitNests j r else G.exprIn env (.and l r) = j.unit
  | .or l r =>
    if j = .or then UnitNests j l ∧ UnitNests j r else G.exprIn env (.or l r) = j.unit
  | _ => True

/-- A nest that is `m`, and one of whose operands is a nest and `m`, is no contradiction of these
operands with the others: under some valuation all of the operands that are nests are `y`, and the
nest is not `n`. For `E_OR`, `y` and `n` change places. -/
def Contingent (j : Junction) (e : Expr ι) : Prop :=
  HasModNest G env j e → G.exprIn env e = .mod →
    ∃ env', G.Assignment env' ∧ UnitNests G env' j e ∧ G.exprIn env' e ≠ j.zero

/-- All nests in the expression are contingent; `above` is the type of the node above it. -/
def ContingentNests : Option Junction → Expr ι → Prop
  | above, .and l r => (above ≠ some .and → Contingent G env .and (.and l r)) ∧
      ContingentNests (some .and) l ∧ ContingentNests (some .and) r
  | above, .or l r => (above ≠ some .or → Contingent G env .or (.or l r)) ∧
      ContingentNests (some .or) l ∧ ContingentNests (some .or) r
  | _, _ => True

/-- `e'` has the value of `e`, and has it under every valuation that makes `e` `y` or `n`, or the
operands of `e` that are nests. -/
structure KeepsDecided (j : Junction) (e e' : Expr ι) : Prop where
  same : G.exprIn env e' = G.exprIn env e
  decided : ∀ env', G.Assignment env' → G.exprIn env' e ≠ .mod →
    G.exprIn env' e' = G.exprIn env' e
  units : ∀ env', G.Assignment env' → UnitNests G env' j e →
    G.exprIn env' e' = G.exprIn env' e

end

section
variable {G : SymbolTable ι} {env : Env ι} {j k : Junction} {above : Option Junction}
variable {e e' e1 e2 l r tmp x y : Expr ι} {p q : Position} {s : ι}

/-! ### Nests in nests -/

theorem hasModNest_node :
    HasModNest G env j (j.node l r) ↔ HasModNest G env j l ∨ HasModNest G env j r := by
  cases j <;> simp [HasModNest, Junction.node]

theorem not_hasModNest (h : e.junction = none) : ¬HasModNest G env j e := by
  cases e <;> simp [HasModNest, Expr.junction] at h ⊢

/-- An operand that is a nest. -/
theorem hasModNest_operand (h : e.junction = some k) (hk : k ≠ j) :
    HasModNest G env j e ↔ G.exprIn env e = .mod := by
  cases e <;> cases h <;> cases j <;> simp [HasModNest] at hk ⊢

theorem HasModNest.setAt (hp : InNest j e p) (h : HasModNest G env j (e.setAt p x)) :
    HasModNest G env j x ∨ HasModNest G env j e := by
  induction e using Expr.operandInduction j generalizing p with
  | leaf e hj =>
    cases p with
    | nil => exact .inl (by rwa [Expr.setAt_nil] at h)
    | cons b p => exact absurd hp (not_inNest_leaf hj)
  | node l r ihl ihr =>
    cases p with
    | nil => exact .inl (by rwa [Expr.setAt_nil] at h)
    | cons b p =>
      rw [inNest_node] at hp
      rw [Expr.setAt_node] at h
      rw [hasModNest_node]
      cases b
      · rcases hasModNest_node.mp h with h | h
        · exact (ihl hp h).imp_right .inl
        · exact .inr (.inr h)
      · rcases hasModNest_node.mp h with h | h
        · exact .inr (.inl h)
        · exact (ihr hp h).imp_right .inr

theorem HasModNest.of_getAt (hp : InNest j e p) (h : HasModNest G env j (e.getAt p)) :
    HasModNest G env j e := by
  induction e using Expr.operandInduction j generalizing p with
  | leaf e hj =>
    cases p with
    | nil => rwa [Expr.getAt_nil] at h
    | cons b p => exact absurd hp (not_inNest_leaf hj)
  | node l r ihl ihr =>
    cases p with
    | nil => rwa [Expr.getAt_nil] at h
    | cons b p =>
      rw [inNest_node] at hp
      rw [Expr.getAt_node] at h
      rw [hasModNest_node]
      cases b
      · exact .inl (ihl hp h)
      · exact .inr (ihr hp h)

/-- A nest is bounded by its operands. -/
theorem HasModNest.bound (h : HasModNest G env j e) :
    j.op (G.exprIn env e) .mod = G.exprIn env e := by
  induction e using Expr.operandInduction j with
  | leaf e hj =>
    cases hk : e.junction with
    | none => exact absurd h (not_hasModNest hk)
    | some k =>
      have hmod := (hasModNest_operand hk fun hkj => hj (by rw [hk, hkj])).mp h
      rw [hmod, j.op_self]
  | node l r ihl ihr =>
    rw [j.exprIn_node]
    rcases hasModNest_node.mp h with h | h
    · rw [j.op_assoc, j.op_comm (G.exprIn env r), ← j.op_assoc, ihl h]
    · rw [j.op_assoc, ihr h]

theorem unitNests_node :
    UnitNests G env j (j.node l r) ↔ UnitNests G env j l ∧ UnitNests G env j r := by
  cases j <;> simp [UnitNests, Junction.node]

theorem unitNests_leaf (h : e.junction = none) : UnitNests G env j e := by
  cases e with
  | symbol | equal | unequal | not => trivial
  | and | or => cases h

theorem unitNests_operand (h : e.junction = some k) (hk : k ≠ j) :
    UnitNests G env j e ↔ G.exprIn env e = j.unit := by
  cases e <;> cases h <;> cases j <;> simp [UnitNests] at hk ⊢

theorem UnitNests.setAt (hp : InNest j e p) (h : UnitNests G env j e)
    (hx : UnitNests G env j x) : UnitNests G env j (e.setAt p x) := by
  induction e using Expr.operandInduction j generalizing p with
  | leaf e hj =>
    cases p with
    | nil => rwa [Expr.setAt_nil]
    | cons b p => exact absurd hp (not_inNest_leaf hj)
  | node l r ihl ihr =>
    cases p with
    | nil => rwa [Expr.setAt_nil]
    | cons b p =>
      rw [inNest_node] at hp
      rw [Expr.setAt_node]
      obtain ⟨hl, hr⟩ := unitNests_node.mp h
      cases b
      · exact unitNests_node.mpr ⟨ihl hp hl, hr⟩
      · exact unitNests_node.mpr ⟨hl, ihr hp hr⟩

theorem UnitNests.getAt (hp : InNest j e p) (h : UnitNests G env j e) :
    UnitNests G env j (e.getAt p) := by
  induction e using Expr.operandInduction j generalizing p with
  | leaf e hj =>
    cases p with
    | nil => rwa [Expr.getAt_nil]
    | cons b p => exact absurd hp (not_inNest_leaf hj)
  | node l r ihl ihr =>
    cases p with
    | nil => rwa [Expr.getAt_nil]
    | cons b p =>
      rw [inNest_node] at hp
      rw [Expr.getAt_node]
      obtain ⟨hl, hr⟩ := unitNests_node.mp h
      cases b
      · exact ihl hp hl
      · exact ihr hp hr

theorem op_eq_unit {a b : Tristate} (h : j.op a b = j.unit) : a = j.unit ∧ b = j.unit := by
  revert a b
  cases j <;> decide

theorem unitNests_of_unit (h : G.exprIn env e = j.unit) : UnitNests G env j e := by
  induction e using Expr.operandInduction j with
  | leaf e hj =>
    cases hk : e.junction with
    | none => exact unitNests_leaf hk
    | some k => exact (unitNests_operand hk fun hkj => hj (by rw [hk, hkj])).mpr h
  | node l r ihl ihr =>
    rw [j.exprIn_node] at h
    obtain ⟨hl, hr⟩ := op_eq_unit h
    exact unitNests_node.mpr ⟨ihl hl, ihr hr⟩

/-! ### Contingent nests -/

theorem keepsDecided_refl (e : Expr ι) : KeepsDecided G env j e e :=
  ⟨rfl, fun _ _ _ => rfl, fun _ _ _ => rfl⟩

theorem keepsDecided_of_eq (h : G.Assignment env)
    (heq : ∀ env', G.Assignment env' → G.exprIn env' e' = G.exprIn env' e) :
    KeepsDecided G env j e e' :=
  ⟨heq env h, fun env' ha _ => heq env' ha, fun env' ha _ => heq env' ha⟩

theorem Contingent.of_same (h : Contingent G env j e) (hsame : G.exprIn env e' = G.exprIn env e)
    (hmods : G.exprIn env e = .mod → HasModNest G env j e' → HasModNest G env j e)
    (hunits : ∀ env', G.Assignment env' → UnitNests G env' j e →
      UnitNests G env' j e' ∧ G.exprIn env' e' = G.exprIn env' e) : Contingent G env j e' := by
  intro hnest hmod
  rw [hsame] at hmod
  obtain ⟨env', ha, hnests, hzero⟩ := h (hmods hmod hnest) hmod
  obtain ⟨hnests', hvalue⟩ := hunits env' ha hnests
  exact ⟨env', ha, hnests', by rwa [hvalue]⟩

theorem contingentNests_node : ContingentNests G env above (j.node l r) ↔
    (above ≠ some j → Contingent G env j (j.node l r)) ∧
      ContingentNests G env (some j) l ∧ ContingentNests G env (some j) r := by
  cases j <;> simp only [Junction.node, ContingentNests]

theorem contingentNests_leaf (h : e.junction = none) : ContingentNests G env above e := by
  cases e with
  | symbol | equal | unequal | not => trivial
  | and | or => cases h

/-- What is known of a nest. -/
theorem contingentNests_iff (h : e.junction = some j) : ContingentNests G env above e ↔
    (above ≠ some j → Contingent G env j e) ∧ ContingentNests G env (some j) e := by
  obtain ⟨l, r, rfl⟩ := Expr.eq_node_of_junction h
  rw [contingentNests_node, contingentNests_node]
  simp

theorem ContingentNests.setAt (hp : InNest j e p) (h : ContingentNests G env (some j) e)
    (hx : ContingentNests G env (some j) x) : ContingentNests G env (some j) (e.setAt p x) := by
  induction e using Expr.operandInduction j generalizing p with
  | leaf e hj =>
    cases p with
    | nil => rwa [Expr.setAt_nil]
    | cons b p => exact absurd hp (not_inNest_leaf hj)
  | node l r ihl ihr =>
    cases p with
    | nil => rwa [Expr.setAt_nil]
    | cons b p =>
      rw [inNest_node] at hp
      rw [Expr.setAt_node]
      obtain ⟨-, hl, hr⟩ := contingentNests_node.mp h
      cases b
      · exact contingentNests_node.mpr ⟨fun hne => absurd rfl hne, ihl hp hl, hr⟩
      · exact contingentNests_node.mpr ⟨fun hne => absurd rfl hne, hl, ihr hp hr⟩

theorem ContingentNests.getAt (hp : InNest j e p) (h : ContingentNests G env (some j) e) :
    ContingentNests G env (some j) (e.getAt p) := by
  induction e using Expr.operandInduction j generalizing p with
  | leaf e hj =>
    cases p with
    | nil => rwa [Expr.getAt_nil]
    | cons b p => exact absurd hp (not_inNest_leaf hj)
  | node l r ihl ihr =>
    cases p with
    | nil => rwa [Expr.getAt_nil]
    | cons b p =>
      rw [inNest_node] at hp
      rw [Expr.getAt_node]
      obtain ⟨-, hl, hr⟩ := contingentNests_node.mp h
      cases b
      · exact ihl hp hl
      · exact ihr hp hr

/-- Below a node of another type, a nest stands for itself. -/
theorem ContingentNests.under (h : ContingentNests G env (some j) e)
    (hnest : e.junction = some j → above ≠ some j → Contingent G env j e) :
    ContingentNests G env above e := by
  cases hk : e.junction with
  | none => exact contingentNests_leaf hk
  | some k =>
    obtain ⟨hcontingent, hinside⟩ := (contingentNests_iff hk).mp h
    refine (contingentNests_iff hk).mpr ⟨fun hne => ?_, hinside⟩
    by_cases hkj : k = j
    · subst hkj
      exact hnest hk hne
    · exact hcontingent fun heq => hkj (Option.some.inj heq).symm

/-- The nests among the operands of `e'` come from those of `e`, and all in `e'` are contingent. -/
structure NestsKept (G : SymbolTable ι) (env : Env ι) (j : Junction) (e e' : Expr ι) : Prop where
  mods : HasModNest G env j e' → HasModNest G env j e
  units : ∀ env', G.Assignment env' → UnitNests G env' j e → UnitNests G env' j e'
  nests : ContingentNests G env (some j) e'

theorem nestsKept_refl (h : ContingentNests G env (some j) e) : NestsKept G env j e e :=
  ⟨id, fun _ _ => id, h⟩

theorem nestsKept_leaf (h : x.junction = none) : NestsKept G env j e x :=
  ⟨fun hx => absurd hx (not_hasModNest h), fun _ _ _ => unitNests_leaf h, contingentNests_leaf h⟩

theorem NestsKept.trans {e'' : Expr ι} (h : NestsKept G env j e e')
    (h' : NestsKept G env j e' e'') : NestsKept G env j e e'' where
  mods he := h.mods (h'.mods he)
  units env' ha hunits := h'.units env' ha (h.units env' ha hunits)
  nests := h'.nests

theorem NestsKept.setAt (hp : InNest j e p) (he : ContingentNests G env (some j) e)
    (h : NestsKept G env j (e.getAt p) x) : NestsKept G env j e (e.setAt p x) where
  mods hset := by
    rcases HasModNest.setAt hp hset with hx | he
    · exact HasModNest.of_getAt hp (h.mods hx)
    · exact he
  units env' ha hunits := hunits.setAt hp (h.units env' ha (hunits.getAt hp))
  nests := he.setAt hp h.nests

theorem Contingent.of_keeps (h : Contingent G env j e) (hkeeps : KeepsDecided G env j e e')
    (hnests : NestsKept G env j e e') : Contingent G env j e' :=
  h.of_same hkeeps.same (fun _ => hnests.mods) fun env' ha hunits =>
    ⟨hnests.units env' ha hunits, hkeeps.units env' ha hunits⟩

/-- What is kept inside of an operand is kept of it. -/
theorem NestsKept.operand (h : NestsKept G env k x y) (hx : x.junction = some k)
    (hy : y.junction = some k) (hkeeps : KeepsDecided G env k x y)
    (hnests : ContingentNests G env (some j) x) : NestsKept G env j x y := by
  by_cases hkj : k = j
  · subst hkj
    exact h
  · refine ⟨fun hmod => ?_, fun env' ha hunits => ?_,
      (contingentNests_iff hy).mpr ⟨fun hne => ?_, h.nests⟩⟩
    · rw [hasModNest_operand hy hkj, hkeeps.same] at hmod
      exact (hasModNest_operand hx hkj).mpr hmod
    · rw [unitNests_operand hx hkj] at hunits
      rw [unitNests_operand hy hkj]
      rw [hkeeps.decided env' ha (by rw [hunits]; cases j <;> decide), hunits]
    · exact (((contingentNests_iff hx).mp hnests).1 hne).of_keeps hkeeps h

theorem KeepsDecided.trans {e'' : Expr ι} (h : KeepsDecided G env j e e')
    (hnests : NestsKept G env j e e') (h' : KeepsDecided G env j e' e'') :
    KeepsDecided G env j e e'' where
  same := h'.same.trans h.same
  decided env' ha hne := by
    have heq := h.decided env' ha hne
    rw [h'.decided env' ha (by rwa [heq]), heq]
  units env' ha hunits := by
    rw [h'.units env' ha (hnests.units env' ha hunits), h.units env' ha hunits]

theorem op_of_ne_mod {a b : Tristate} (h : j.op a .mod ≠ .mod) : j.op a b = j.op a .mod := by
  revert a b
  cases j <;> decide

/-- Replacing an operand by what its rewriting gives. -/
theorem KeepsDecided.setAt (ha : G.Assignment env) (hp : InNest j e p)
    (hx : (e.getAt p).junction = some k) (hk : k ≠ j) (h : KeepsDecided G env k (e.getAt p) x) :
    KeepsDecided G env j e (e.setAt p x) where
  same := exprIn_setAt_of_eq ha.toConstantValues hp h.same
  decided env' ha' hne := by
    obtain ⟨c, hc⟩ := exists_exprIn_setAt ha'.toConstantValues hp
    have hself := hc (e.getAt p)
    rw [setAt_getAt hp] at hself
    rw [hc, hself]
    by_cases hm : G.exprIn env' (e.getAt p) = .mod
    · rw [hself, hm] at hne
      rw [hm, op_of_ne_mod hne]
    · rw [h.decided env' ha' hm]
  units env' ha' hunits := by
    have hunit := (unitNests_operand hx hk).mp (hunits.getAt hp)
    exact exprIn_setAt_of_eq ha'.toConstantValues hp
      (h.decided env' ha' (by rw [hunit]; cases j <;> decide))

variable [DecidableEq ι]

/-! ### `expr_eliminate_yn` -/

theorem op_mod_left {a b : Tristate} (h : j.op (j.op a b) .mod = .mod) : j.op a .mod = .mod := by
  revert a b
  cases j <;> decide

/-- `expr_eliminate_yn` makes no new operands that are nests, unless the nest is `y` or `n`. -/
theorem HasModNest.of_exprEliminateYn (h : G.ConstantValues env)
    (hmod : j.op (G.exprIn env e) .mod = .mod) (hnest : HasModNest G env j (exprEliminateYn G e)) :
    HasModNest G env j e := by
  induction e using Expr.operandInduction j with
  | leaf e hj =>
    cases hk : e.junction with
    | none =>
      have he : exprEliminateYn G e = e := by cases e <;> first | rfl | cases hk
      rwa [he] at hnest
    | some k =>
      refine (hasModNest_operand hk fun hkj => hj (by rw [hk, hkj])).mpr ?_
      have hbound := hnest.bound
      rw [exprIn_exprEliminateYn h] at hbound
      exact hbound.symm.trans hmod
  | node l r ihl ihr =>
    rw [j.exprIn_node] at hmod
    have hl := op_mod_left hmod
    have hr := op_mod_left (by rwa [j.op_comm (G.exprIn env r)])
    have hjoin : exprEliminateYn G (j.node l r) =
        joinYn G j (exprEliminateYn G l) (exprEliminateYn G r) := by
      cases j <;> rfl
    rw [hjoin] at hnest
    rw [hasModNest_node]
    unfold joinYn at hnest
    split_ifs at hnest
    · exact absurd hnest (not_hasModNest rfl)
    · exact .inr (ihr hr hnest)
    · exact absurd hnest (not_hasModNest rfl)
    · exact .inl (ihl hl hnest)
    · exact (hasModNest_node.mp hnest).imp (ihl hl) (ihr hr)

theorem UnitNests.exprEliminateYn (h : G.ConstantValues env) (hunits : UnitNests G env j e) :
    UnitNests G env j (exprEliminateYn G e) := by
  induction e using Expr.operandInduction j with
  | leaf e hj =>
    cases hk : e.junction with
    | none =>
      have he : Kconfig.exprEliminateYn G e = e := by cases e <;> first | rfl | cases hk
      rwa [he]
    | some k =>
      rw [unitNests_operand hk fun hkj => hj (by rw [hk, hkj])] at hunits
      exact unitNests_of_unit ((exprIn_exprEliminateYn h e).trans hunits)
  | node l r ihl ihr =>
    obtain ⟨hl, hr⟩ := unitNests_node.mp hunits
    have hjoin : Kconfig.exprEliminateYn G (j.node l r) =
        joinYn G j (Kconfig.exprEliminateYn G l) (Kconfig.exprEliminateYn G r) := by
      cases j <;> rfl
    rw [hjoin]
    unfold joinYn
    split_ifs
    · trivial
    · exact ihr hr
    · trivial
    · exact ihl hl
    · exact unitNests_node.mpr ⟨ihl hl, ihr hr⟩

/-- `expr_eliminate_yn` keeps the nests contingent. -/
theorem ContingentNests.exprEliminateYn (ha : G.Assignment env)
    (h : ContingentNests G env above e) : ContingentNests G env above (exprEliminateYn G e) := by
  have hnode : ∀ (j : Junction) (l r : Expr ι) (above : Option Junction),
      (∀ above, ContingentNests G env above l →
        ContingentNests G env above (Kconfig.exprEliminateYn G l)) →
      (∀ above, ContingentNests G env above r →
        ContingentNests G env above (Kconfig.exprEliminateYn G r)) →
      ContingentNests G env above (j.node l r) →
      ContingentNests G env above (Kconfig.exprEliminateYn G (j.node l r)) := by
    intro j l r above ihl ihr h
    obtain ⟨hcontingent, hl, hr⟩ := contingentNests_node.mp h
    have hl' := ihl _ hl
    have hr' := ihr _ hr
    have hvalue : ∀ env', G.Assignment env' →
        G.exprIn env' (Kconfig.exprEliminateYn G (j.node l r)) = G.exprIn env' (j.node l r) :=
      fun env' ha' => exprIn_exprEliminateYn ha'.toConstantValues _
    have hwhole : above ≠ some j →
        Contingent G env j (Kconfig.exprEliminateYn G (j.node l r)) := fun hne =>
      (hcontingent hne).of_same (hvalue env ha)
        (fun hmod hnest =>
          hnest.of_exprEliminateYn ha.toConstantValues (by rw [hmod, j.op_self]))
        fun env' ha' hunits => ⟨hunits.exprEliminateYn ha'.toConstantValues, hvalue env' ha'⟩
    refine ContingentNests.under (j := j) ?_ fun _ => hwhole
    have hjoin : Kconfig.exprEliminateYn G (j.node l r) =
        joinYn G j (Kconfig.exprEliminateYn G l) (Kconfig.exprEliminateYn G r) := by
      cases j <;> rfl
    rw [hjoin]
    unfold joinYn
    split_ifs
    · trivial
    · exact hr'
    · trivial
    · exact hl'
    · exact contingentNests_node.mpr ⟨fun hne => absurd rfl hne, hl', hr'⟩
  induction e generalizing above with
  | symbol s | equal s t | unequal s t | not e => trivial
  | and l r ihl ihr => exact hnode .and l r above (fun _ => ihl) (fun _ => ihr) h
  | or l r ihl ihr => exact hnode .or l r above (fun _ => ihl) (fun _ => ihr) h

/-! ### The first pass -/

/-- A join keeps one of two equal operands, or is no nest. -/
theorem exprJoin_eq_or_leaf (hj : exprJoin G j e1 e2 = some tmp) :
    tmp = e1 ∨ tmp.junction = none := by
  have hconstants : ∀ s t, joinConstants G s e1 e2 = some t → t.junction = none := by
    intro s t ht
    unfold joinConstants at ht
    split at ht
    · split at ht <;> cases ht
      split <;> rfl
    · split at ht <;> cases ht
      split <;> rfl
    · cases ht
  have htristate : ∀ s t, joinAndTristate G s e1 e2 = some t → t.junction = none := by
    intro s t ht
    unfold joinAndTristate at ht
    split at ht
    · next t' ht' =>
      cases ht
      exact hconstants s t ht'
    · split_ifs at ht <;> cases ht <;> rfl
  cases j with
  | or =>
    simp only [exprJoin, exprJoinOr] at hj
    split at hj
    · cases hj
      exact .inl rfl
    · obtain ⟨s, -, hrule⟩ := Option.bind_eq_some_iff.mp hj
      unfold joinOrRules at hrule
      split_ifs at hrule <;> cases hrule <;> exact .inr rfl
  | and =>
    simp only [exprJoin, exprJoinAnd] at hj
    split at hj
    · cases hj
      exact .inl rfl
    · obtain ⟨s, -, hrule⟩ := Option.bind_eq_some_iff.mp hj
      unfold joinAndRules at hrule
      split_ifs at hrule
      · cases hrule
        exact .inr rfl
      · cases hrule
        exact .inr rfl
      · cases hrule
        exact .inr rfl
      · exact .inr (htristate s tmp hrule)

theorem nestsKept_dups1Join (h : ContingentNests G env (some j) e) (hp : InNest j e p)
    (hq : InNest j e q) (hpq : ¬p <+: q) :
    NestsKept G env j e (dups1Join G j p q e).1 := by
  unfold dups1Join
  split
  · next tmp hj =>
    have hneutral : NestsKept G env j e (e.setAt p (.symbol (j.neutral G))) :=
      NestsKept.setAt hp h (nestsKept_leaf rfl)
    have hq' : InNest j (e.setAt p (.symbol (j.neutral G))) q :=
      hq.setAt fun hpre => absurd hpre hpq
    have htmp : NestsKept G env j e tmp := by
      rcases exprJoin_eq_or_leaf hj with rfl | hleaf
      · exact ⟨HasModNest.of_getAt hp, fun env' _ hunits => hunits.getAt hp, h.getAt hp⟩
      · exact nestsKept_leaf hleaf
    refine ⟨fun hset => ?_, fun env' ha hunits => ?_, hneutral.nests.setAt hq' htmp.nests⟩
    · rcases HasModNest.setAt hq' hset with htmp' | hset'
      · exact htmp.mods htmp'
      · exact hneutral.mods hset'
    · exact (hneutral.units env' ha hunits).setAt hq' (htmp.units env' ha hunits)
  · exact nestsKept_refl h

theorem nestsKept_exprEliminateDups1 (hG : G.Untyped) (ha : G.Assignment env) (depth : ℕ) :
    ∀ j e, ContingentNests G env (some j) e →
      NestsKept G env j e (exprEliminateDups1 G depth j e).1 := by
  induction depth with
  | zero => exact fun _ _ h => nestsKept_refl h
  | succ depth ih =>
    intro j e h
    refine exprEliminateDups1_rel (R := fun e' _ => NestsKept G env j e e') ?_ (nestsKept_refl h)
    intro p hp q hq e' n hkeeps hkept
    unfold dups1Pair
    by_cases hpq : p = q
    · rw [if_pos hpq]
      exact hkept
    rw [if_neg hpq]
    have hp' := hkeeps.operand hp
    have hoperand : NestsKept G env j (e'.getAt p)
        (onNest (exprEliminateDups1 G depth) (e'.getAt p)).1 := by
      have hnests := hkept.nests.getAt hp'
      unfold onNest
      split
      · next k hk =>
        have hinside := ih k _ ((contingentNests_iff hk).mp hnests).2
        refine hinside.operand hk (junction_exprEliminateDups1 depth hk) ?_ hnests
        exact keepsDecided_of_eq ha fun env' ha' => exprIn_exprEliminateDups1 hG ha' depth k _
      · exact nestsKept_refl hnests
    have hset := hkept.trans (NestsKept.setAt hp' hkept.nests hoperand)
    have hkeeps' := hkeeps.setAt hp (x := (onNest (exprEliminateDups1 G depth) (e'.getAt p)).1)
    exact hset.trans (nestsKept_dups1Join hset.nests (hkeeps'.operand hp) (hkeeps'.operand hq)
      (apart_of_mem hp hq hpq).1)

/-! ### The second pass -/

theorem op_zero (c : Tristate) : j.op c j.zero = j.zero := by
  revert c
  cases j <;> decide

/-- Removing an operand whose complement is there, in a contingent nest. -/
theorem keepsDecided_dups2Complement (hG : G.Untyped) (ha : G.Assignment env)
    (hp : InNest k.dual e p) (hq : InNest k.dual e q) (hk : (e.getAt p).junction = some k)
    (h : Contingent G env k.dual e) :
    KeepsDecided G env k.dual e (dups2Complement G k p q e).1 := by
  by_cases hc : complements G k (e.getAt p) (e.getAt q)
  swap
  · rw [dups2Complement, if_neg hc]
    exact keepsDecided_refl e
  have hnot : ∀ env', G.Assignment env' → G.exprIn env' (e.getAt p) ≠ .mod →
      G.exprIn env' (dups2Complement G k p q e).1 = G.exprIn env' e := by
    intro env' ha' hm
    refine exprIn_dups2Complement hG ha' hp hq ?_
    rw [dups2Complement, if_pos hc]
    simpa using hm
  have hremoved : (dups2Complement G k p q e).1 = e.setAt p (.symbol (k.neutral G)) := by
    rw [dups2Complement, if_pos hc]
  have hdecided : ∀ env', G.Assignment env' → G.exprIn env' e ≠ .mod →
      G.exprIn env' (dups2Complement G k p q e).1 = G.exprIn env' e := by
    intro env' ha' hne
    by_cases hm : G.exprIn env' (e.getAt p) = .mod
    · obtain ⟨c, hcs⟩ := exists_exprIn_setAt ha'.toConstantValues hp
      have hself := hcs (e.getAt p)
      rw [setAt_getAt hp, hm] at hself
      rw [hself] at hne
      rw [hremoved, hcs, hself, op_of_ne_mod hne]
    · exact hnot env' ha' hm
  have hkdual : k ≠ k.dual := by cases k <;> decide
  have hunits : ∀ env', G.Assignment env' → UnitNests G env' k.dual e →
      G.exprIn env' (dups2Complement G k p q e).1 = G.exprIn env' e := by
    intro env' ha' hunits
    have hunit := (unitNests_operand hk hkdual).mp (hunits.getAt hp)
    exact hnot env' ha' (by rw [hunit]; cases k <;> decide)
  refine ⟨?_, hdecided, hunits⟩
  by_cases hmod : G.exprIn env e = .mod
  swap
  · exact hdecided env ha hmod
  by_cases hm : G.exprIn env (e.getAt p) = .mod
  swap
  · exact hnot env ha hm
  -- The nest is `m`, and so is the operand: some valuation tells the nest from the constant.
  have hoperand := HasModNest.of_getAt hp ((hasModNest_operand hk hkdual).mpr hm)
  obtain ⟨env', ha', hnests, hzero⟩ := h hoperand hmod
  have hvalue := hunits env' ha' hnests
  obtain ⟨c, hcs⟩ := exists_exprIn_setAt ha'.toConstantValues hp
  have hneutral : G.exprIn env' (.symbol (k.neutral G)) = k.dual.zero := by
    cases k
    · exact congrArg Value.tri ha'.yes
    · exact congrArg Value.tri ha'.no
  rw [hremoved, hcs, hneutral, op_zero] at hvalue
  exact absurd hvalue.symm hzero

/-- The second pass keeps a contingent nest. -/
theorem keeps_exprEliminateDups2 (hG : G.Untyped) (ha : G.Assignment env) (depth : ℕ) :
    ∀ j e, e.junction = some j → Contingent G env j e → ContingentNests G env (some j) e →
      KeepsDecided G env j e (exprEliminateDups2 G depth j e).1 ∧
        NestsKept G env j e (exprEliminateDups2 G depth j e).1 := by
  induction depth with
  | zero => exact fun _ e _ _ h => ⟨keepsDecided_refl e, nestsKept_refl h⟩
  | succ depth ih =>
    intro j e _ hcontingent h
    refine exprEliminateDups2_rel
      (R := fun e' _ => KeepsDecided G env j e e' ∧ NestsKept G env j e e')
      (junction_exprEliminateDups2 depth) ?_ ⟨keepsDecided_refl e, nestsKept_refl h⟩
    intro p hp q hq e' xs hpass hkept
    obtain ⟨hkeeps, hnests⟩ := hkept
    have hne := hpass.operand p hp
    have hp' := hpass.keeps.operand hp
    unfold dups2Pair
    split
    · exact ⟨hkeeps, hnests⟩
    split
    · exact ⟨hkeeps, hnests⟩
    next k hk =>
    have hkj : k.dual = j := by
      rw [hk] at hne
      cases k <;> cases j <;> first | rfl | exact absurd rfl hne
    subst hkj
    have hkdual : k ≠ k.dual := by cases k <;> decide
    have hjunction := junction_exprEliminateDups2 (G := G) depth k _ hk
    -- The operand is rewritten first.
    have hoperand := hnests.nests.getAt hp'
    obtain ⟨hinside, hinside'⟩ := (contingentNests_iff hk).mp hoperand
    obtain ⟨hx, hx'⟩ := ih k _ hk (hinside fun heq => hkdual (Option.some.inj heq).symm) hinside'
    have hset := hkeeps.trans hnests (KeepsDecided.setAt ha hp' hk hkdual hx)
    have hset' := hnests.trans
      (NestsKept.setAt hp' hnests.nests (hx'.operand hk hjunction hx hoperand))
    -- Then it is compared with what is at `q`.
    have hpass' := hpass.setAt hp (x := (exprEliminateDups2 G depth k (e'.getAt p)).1)
      (by rw [hjunction, ← hk]; exact hne)
    have hself : ((e'.setAt p (exprEliminateDups2 G depth k (e'.getAt p)).1).getAt p).junction =
        some k := by
      rw [getAt_setAt_self hp', hjunction]
    have hwhole := hcontingent.of_keeps hset hset'
    refine ⟨hset.trans hset' (keepsDecided_dups2Complement hG ha (hpass'.keeps.operand hp)
      (hpass'.keeps q hq) hself hwhole), hset'.trans ?_⟩
    unfold dups2Complement
    simp only
    split
    · exact NestsKept.setAt (hpass'.keeps.operand hp) hset'.nests (nestsKept_leaf rfl)
    · exact nestsKept_refl hset'.nests

/-! ### `expr_eliminate_dups` -/

/-- A round keeps the value and the nests contingent. -/
theorem exprIn_dupsRound (hG : G.Untyped) (ha : G.Assignment env) (depth : ℕ)
    (h : ContingentNests G env none e) :
    G.exprIn env (dupsRound G depth e).1 = G.exprIn env e ∧
      ContingentNests G env none (dupsRound G depth e).1 := by
  unfold dupsRound
  split
  · next j hj =>
    obtain ⟨hcontingent, hnests⟩ := (contingentNests_iff hj).mp h
    have hfirst : KeepsDecided G env j e (exprEliminateDups1 G depth j e).1 :=
      keepsDecided_of_eq ha fun env' ha' => exprIn_exprEliminateDups1 hG ha' depth j e
    have hkept := nestsKept_exprEliminateDups1 hG ha depth j e hnests
    have hj' := junction_exprEliminateDups1 (G := G) depth hj
    have hcontingent' := (hcontingent (Option.some_ne_none j).symm).of_keeps hfirst hkept
    obtain ⟨hsecond, hkept'⟩ :=
      keeps_exprEliminateDups2 hG ha depth j _ hj' hcontingent' hkept.nests
    refine ⟨(hfirst.trans hkept hsecond).same, ?_⟩
    refine (contingentNests_iff (junction_exprEliminateDups2 depth j _ hj')).mpr ⟨fun _ => ?_, ?_⟩
    · exact hcontingent'.of_keeps hsecond hkept'
    · exact hkept'.nests
  · exact ⟨rfl, h⟩

theorem exprIn_of_exprEliminateDupsFuel (hG : G.Untyped) (ha : G.Assignment env) {depth n : ℕ}
    {out : Expr ι × List (Expr ι)} (hout : exprEliminateDupsFuel G depth n e = some out)
    (h : ContingentNests G env none e) : G.exprIn env out.1 = G.exprIn env e := by
  induction n generalizing e out with
  | zero => cases hout
  | succ n ih =>
    obtain ⟨hvalue, hnests⟩ := exprIn_dupsRound hG ha depth h
    rw [exprEliminateDupsFuel] at hout
    split at hout
    · cases hout
      exact hvalue
    · obtain ⟨rest, hrest, rfl⟩ := Option.map_eq_some_iff.mp hout
      have hyn := exprIn_exprEliminateYn ha.toConstantValues (dupsRound G depth e).1
      exact (ih hrest (hnests.exprEliminateYn ha)).trans (hyn.trans hvalue)

theorem exprIn_exprEliminateDups (hG : G.Untyped) (ha : G.Assignment env) (depth : ℕ)
    (h : ContingentNests G env none e) :
    G.exprIn env (exprEliminateDups G depth e).1 = G.exprIn env e :=
  exprIn_of_exprEliminateDupsFuel hG ha (exprEliminateDupsFuel_eq hG depth e) h

end

namespace Samples
open Name

/-- `(FOO || BAR) && (!FOO && !BAR)` -/
def contradiction : Expr Name :=
  .and (.or (.symbol foo) (.symbol bar)) (.and (.not (.symbol foo)) (.not (.symbol bar)))

/-- Modules are enabled, `FOO` has the given value and `BAR` is `m`. -/
def env (value : Tristate) : Env Name
  | y | modules => ⟨.str ['y'], .yes⟩
  | m | bar => ⟨.str ['m'], .mod⟩
  | n => ⟨.str ['n'], .no⟩
  | foo => match value with
    | .yes => ⟨.str ['y'], .yes⟩
    | .mod => ⟨.str ['m'], .mod⟩
    | .no => ⟨.str ['n'], .no⟩

theorem assignment (value : Tristate) : table.Assignment (env value) where
  yes := rfl
  mod := rfl
  no := rfl
  boolean s hs := by
    cases s <;> first | exact absurd hs (by decide) | exact show Tristate.yes ≠ .mod by decide
  modules _ _ _ := show Tristate.yes ≠ .no by decide
  constants b c hb hc h := by
    cases value <;> cases b <;> cases c <;>
      first
        | rfl
        | exact absurd hb (by decide)
        | exact absurd hc (by decide)
        | exact absurd h (by decide)

theorem normal_contradiction : table.Normal contradiction := by
  simp [contradiction, SymbolTable.Normal, SymbolTable.IsConstant, table]

end Samples
end OpenADK.Kconfig
