import OpenADK.Kconfig.ExprEq

/-!
# Which reorderings `expr_eq` recognises

`expr_eq` pairs off each operand with the first operand that is equal to it. That works when
equality is transitive on the operands, which it is unless some operand is a node that
`expr_eliminate_yn` turns into a single symbol.
-/

namespace OpenADK.Kconfig
variable {ι : Type} [DecidableEq ι] (G : SymbolTable ι)

/-- The operands of a nest of `j` nodes, in the order in which `expr_eq` meets them. -/
def operands (j : Junction) : Expr ι → List (Expr ι)
  | .and l r => if j = .and then operands j l ++ operands j r else [.and l r]
  | .or l r => if j = .or then operands j l ++ operands j r else [.or l r]
  | e => [e]

def proper (j : Junction) (es : List (Expr ι)) : List (Expr ι) :=
  es.filter fun e => e ≠ .symbol (j.neutral G)

/-- `expr_eliminate_yn` makes a symbol of a symbol only. -/
def Plain (e : Expr ι) : Prop := ∀ s, exprEliminateYn G e = .symbol s → e = .symbol s

/-- No operand is a node that `expr_eliminate_yn` turns into a symbol. -/
def Solid : Expr ι → Prop
  | .and l r =>
    (l.junction = some .and ∨ Plain G l) ∧ (r.junction = some .and ∨ Plain G r) ∧ Solid l ∧ Solid r
  | .or l r =>
    (l.junction = some .or ∨ Plain G l) ∧ (r.junction = some .or ∨ Plain G r) ∧ Solid l ∧ Solid r
  | .not e => Solid e
  | _ => True

/-! ### The lists of operands -/

section
variable (eq : Expr ι → Expr ι → Bool)

/-- The walk of one operand over the operands of the other expression. -/
def cancelOne (j : Junction) (x : Expr ι) : List (Expr ι) → Expr ι × List (Expr ι)
  | [] => (x, [])
  | y :: ys =>
    let here := eliminatePair G eq j x y
    let rest := cancelOne j here.1 ys
    (rest.1, here.2 :: rest.2)

def cancelAll (j : Junction) : List (Expr ι) → List (Expr ι) → List (Expr ι) × List (Expr ι)
  | [], ys => ([], ys)
  | x :: xs, ys =>
    let here := cancelOne G eq j x ys
    let rest := cancelAll j xs here.2
    (here.1 :: rest.1, rest.2)

end

section
variable {G} {eq : Expr ι → Expr ι → Bool} {j : Junction} {e e1 e2 l r x : Expr ι}

omit [DecidableEq ι] in
@[simp] theorem operands_node (j : Junction) (l r : Expr ι) :
    operands j (j.node l r) = operands j l ++ operands j r := by
  cases j <;> simp [operands, Junction.node]

omit [DecidableEq ι] in
theorem operands_leaf (h : e.junction ≠ some j) : operands j e = [e] := by
  cases e <;> cases j <;> simp [operands, Expr.junction] at h ⊢

theorem solid_node : Solid G (j.node l r) ↔
    (l.junction = some j ∨ Plain G l) ∧ (r.junction = some j ∨ Plain G r) ∧ Solid G l ∧ Solid G r := by
  cases j <;> rfl

theorem plain_symbol (s : ι) : Plain G (.symbol s) := fun _ h => h

theorem plain_of_junction_eq_none (h : e.junction = none) : Plain G e := by
  intro s hs
  cases e <;> first | exact hs | cases h

/-- The operands of a solid node are plain, solid and no nodes of its type. -/
theorem Solid.operands (h : Solid G e) (he : e.junction = some j ∨ Plain G e) :
    ∀ x ∈ operands j e, x.junction ≠ some j ∧ Plain G x ∧ Solid G x ∧
      x.height + (if e.junction = some j then 1 else 0) ≤ e.height := by
  induction e using Expr.operandInduction j with
  | leaf e hj =>
    intro x hx
    rw [operands_leaf hj, List.mem_singleton] at hx
    subst hx
    exact ⟨hj, he.resolve_left hj, h, by rw [if_neg hj]; exact le_rfl⟩
  | node l r ihl ihr =>
    intro x hx
    obtain ⟨hl, hr, hsl, hsr⟩ := solid_node.mp h
    rw [operands_node, List.mem_append] at hx
    rw [j.junction_node, if_pos rfl, j.height_node]
    rcases hx with hx | hx
    · obtain ⟨h1, h2, h3, h4⟩ := ihl hsl hl x hx
      exact ⟨h1, h2, h3, by omega⟩
    · obtain ⟨h1, h2, h3, h4⟩ := ihr hsr hr x hx
      exact ⟨h1, h2, h3, by omega⟩

theorem cancelOne_append (x : Expr ι) (ys zs : List (Expr ι)) :
    cancelOne G eq j x (ys ++ zs) =
      ((cancelOne G eq j (cancelOne G eq j x ys).1 zs).1,
        (cancelOne G eq j x ys).2 ++ (cancelOne G eq j (cancelOne G eq j x ys).1 zs).2) := by
  induction ys generalizing x with
  | nil => rfl
  | cons y ys ih => simp only [List.cons_append, cancelOne, ih]

theorem cancelAll_append (xs xs' ys : List (Expr ι)) :
    cancelAll G eq j (xs ++ xs') ys =
      ((cancelAll G eq j xs ys).1 ++ (cancelAll G eq j xs' (cancelAll G eq j xs ys).2).1,
        (cancelAll G eq j xs' (cancelAll G eq j xs ys).2).2) := by
  induction xs generalizing ys with
  | nil => rfl
  | cons x xs ih => simp only [List.cons_append, cancelAll, ih]

/-- What a pair of operands leaves is no node of the type. -/
theorem junction_eliminatePair (h1 : e1.junction ≠ some j) (h2 : e2.junction ≠ some j) :
    (eliminatePair G eq j e1 e2).1.junction ≠ some j ∧
      (eliminatePair G eq j e1 e2).2.junction ≠ some j := by
  unfold eliminatePair
  split_ifs
  · exact ⟨h1, h2⟩
  · simp [Expr.junction]
  · exact ⟨h1, h2⟩

theorem eliminateOperand_eq_cancelOne (h : e1.junction ≠ some j) :
    (eliminateOperand G eq j e1 e2).1.junction ≠ some j ∧
      (eliminateOperand G eq j e1 e2).1 = (cancelOne G eq j e1 (operands j e2)).1 ∧
      operands j (eliminateOperand G eq j e1 e2).2 = (cancelOne G eq j e1 (operands j e2)).2 := by
  induction e2 using Expr.operandInduction j generalizing e1 with
  | leaf e2 hj =>
    obtain ⟨h1, h2⟩ := @junction_eliminatePair _ _ G eq j e1 e2 h hj
    rw [eliminateOperand_leaf hj, operands_leaf hj]
    exact ⟨h1, rfl, operands_leaf h2⟩
  | node l r ihl ihr =>
    obtain ⟨hjl, hl1, hl2⟩ := ihl h
    obtain ⟨hjr, hr1, hr2⟩ := ihr hjl
    rw [eliminateOperand_node, operands_node, cancelOne_append]
    simp only [operands_node]
    rw [← hl1, ← hl2, ← hr1, ← hr2]
    exact ⟨hjr, rfl, rfl⟩

theorem eliminateEq_eq_cancelAll :
    (operands j (eliminateEq G eq j e1 e2).1, operands j (eliminateEq G eq j e1 e2).2) =
      cancelAll G eq j (operands j e1) (operands j e2) := by
  induction e1 using Expr.operandInduction j generalizing e2 with
  | leaf e1 hj =>
    obtain ⟨h1, h2, h3⟩ := @eliminateOperand_eq_cancelOne _ _ G eq j e1 e2 hj
    rw [eliminateEq_leaf hj, operands_leaf hj, operands_leaf h1, h2, h3]
    rfl
  | node l r ihl ihr =>
    have hl := @ihl e2
    have hr := @ihr (eliminateEq G eq j l e2).2
    rw [eliminateEq_node, operands_node j l r, cancelAll_append, ← hl]
    simp only [operands_node]
    rw [← hr]

/-! ### What `expr_eliminate_yn` makes of a node -/

omit [DecidableEq ι] in
theorem neutral_ne_absorbing (hG : G.symbolYes ≠ G.symbolNo) (j : Junction) :
    j.neutral G ≠ j.absorbing G := by
  cases j
  · exact hG
  · exact hG.symm

/-- `e'` is what `expr_eliminate_yn` makes of a node with the operands `es`. -/
structure Simplifies (G : SymbolTable ι) (j : Junction) (es : List (Expr ι)) (e' : Expr ι) : Prop where
  absorbing : .symbol (j.absorbing G) ∈ es → e' = .symbol (j.absorbing G)
  neutral : .symbol (j.absorbing G) ∉ es → proper G j es = [] → e' = .symbol (j.neutral G)
  single : .symbol (j.absorbing G) ∉ es → ∀ x, proper G j es = [x] → e' = exprEliminateYn G x
  node : .symbol (j.absorbing G) ∉ es → 2 ≤ (proper G j es).length → e'.junction = some j

theorem mem_of_proper_eq_singleton {es : List (Expr ι)} (h : proper G j es = [x]) :
    x ∈ es ∧ x ≠ .symbol (j.neutral G) := by
  have hx : x ∈ proper G j es := by rw [h]; exact List.mem_singleton_self x
  simpa [proper] using hx

/-- The symbol that is left is an operand, or the neutral constant when there is none. -/
theorem Simplifies.symbol {es : List (Expr ι)} {e' : Expr ι} {s : ι} (h : Simplifies G j es e')
    (hplain : ∀ x ∈ es, Plain G x) (hs : e' = .symbol s)
    (habs : .symbol (j.absorbing G) ∉ es) :
    proper G j es = [] ∧ s = j.neutral G ∨ proper G j es = [.symbol s] := by
  cases hp : proper G j es with
  | nil =>
    have he := h.neutral habs hp
    rw [hs] at he
    exact .inl ⟨rfl, Expr.symbol.inj he⟩
  | cons x xs =>
    cases xs with
    | nil =>
      have he := h.single habs x hp
      rw [hs] at he
      rw [hplain x (mem_of_proper_eq_singleton hp).1 s he.symm]
      exact .inr rfl
    | cons y ys =>
      have he := h.node habs (by rw [hp]; simp)
      rw [hs] at he
      cases he

theorem Simplifies.ne_absorbing {es : List (Expr ι)} {e' : Expr ι} (h : Simplifies G j es e')
    (hG : G.symbolYes ≠ G.symbolNo) (hplain : ∀ x ∈ es, Plain G x)
    (habs : .symbol (j.absorbing G) ∉ es) : e' ≠ .symbol (j.absorbing G) := by
  intro hs
  rcases h.symbol hplain hs habs with ⟨-, heq⟩ | hp
  · exact neutral_ne_absorbing hG j heq.symm
  · exact habs (mem_of_proper_eq_singleton hp).1

theorem Simplifies.eq_neutral_iff {es : List (Expr ι)} {e' : Expr ι} (h : Simplifies G j es e')
    (hplain : ∀ x ∈ es, Plain G x) (habs : .symbol (j.absorbing G) ∉ es) :
    e' = .symbol (j.neutral G) ↔ proper G j es = [] := by
  constructor
  · intro hs
    rcases h.symbol hplain hs habs with ⟨hp, -⟩ | hp
    · exact hp
    · exact absurd rfl (mem_of_proper_eq_singleton hp).2
  · exact h.neutral habs

theorem simplifies_exprEliminateYn (hG : G.symbolYes ≠ G.symbolNo)
    (hplain : ∀ x ∈ operands j e, Plain G x) :
    Simplifies G j (operands j e) (exprEliminateYn G e) := by
  induction e using Expr.operandInduction j with
  | leaf e hj =>
    rw [operands_leaf hj]
    constructor
    · intro habs
      rw [← List.mem_singleton.mp habs]
      rfl
    · intro _ hp
      by_cases he : e = .symbol (j.neutral G)
      · rw [he]
        rfl
      · simp [proper, he] at hp
    · intro _ x hp
      have hx := (mem_of_proper_eq_singleton hp).1
      rw [List.mem_singleton.mp hx]
    · intro _ hp
      have hle : (proper G j [e]).length ≤ [e].length := List.length_filter_le _ _
      simp only [List.length_singleton] at hle
      omega
  | node l r ihl ihr =>
    rw [operands_node] at hplain ⊢
    have hpl := fun x hx => hplain x (List.mem_append_left _ hx)
    have hpr := fun x hx => hplain x (List.mem_append_right _ hx)
    have hl := ihl hpl
    have hr := ihr hpr
    have hyn : exprEliminateYn G (j.node l r) =
        joinYn G j (exprEliminateYn G l) (exprEliminateYn G r) := by cases j <;> rfl
    have happend : proper G j (operands j l ++ operands j r) =
        proper G j (operands j l) ++ proper G j (operands j r) := List.filter_append _ _
    rw [hyn, joinYn]
    by_cases hal : .symbol (j.absorbing G) ∈ operands j l
    · rw [if_pos (hl.absorbing hal)]
      have hmem := List.mem_append_left (operands j r) hal
      exact ⟨fun _ => rfl, fun h => absurd hmem h, fun h => absurd hmem h, fun h => absurd hmem h⟩
    rw [if_neg (hl.ne_absorbing hG hpl hal)]
    by_cases har : .symbol (j.absorbing G) ∈ operands j r
    · have hmem := List.mem_append_right (operands j l) har
      have hra := hr.absorbing har
      refine ⟨fun _ => ?_, fun h => absurd hmem h, fun h => absurd hmem h, fun h => absurd hmem h⟩
      split_ifs
      · exact hra
      · rfl
    have hra := hr.ne_absorbing hG hpr har
    have hnot : Expr.symbol (j.absorbing G) ∉ operands j l ++ operands j r := by
      simp [hal, har]
    by_cases hnl : proper G j (operands j l) = []
    · rw [if_pos ((hl.eq_neutral_iff hpl hal).mpr hnl)]
      rw [hnl, List.nil_append] at happend
      refine ⟨fun h => absurd h hnot, fun _ => ?_, fun _ => ?_, fun _ => ?_⟩
      all_goals rw [happend]
      · exact hr.neutral har
      · exact hr.single har
      · exact hr.node har
    rw [if_neg fun h => hnl ((hl.eq_neutral_iff hpl hal).mp h), if_neg hra]
    by_cases hnr : proper G j (operands j r) = []
    · rw [if_pos ((hr.eq_neutral_iff hpr har).mpr hnr)]
      rw [hnr, List.append_nil] at happend
      refine ⟨fun h => absurd h hnot, fun _ => ?_, fun _ => ?_, fun _ => ?_⟩
      all_goals rw [happend]
      · exact hl.neutral hal
      · exact hl.single hal
      · exact hl.node hal
    rw [if_neg fun h => hnr ((hr.eq_neutral_iff hpr har).mp h)]
    have hlen : 2 ≤ (proper G j (operands j l) ++ proper G j (operands j r)).length := by
      have h1 := List.length_pos_iff.mpr hnl
      have h2 := List.length_pos_iff.mpr hnr
      rw [List.length_append]
      omega
    refine ⟨fun h => absurd h hnot, fun _ hp => ?_, fun _ x hp => ?_, fun _ _ => ?_⟩
    · rw [happend] at hp
      rw [hp] at hlen
      simp at hlen
    · rw [happend] at hp
      rw [hp] at hlen
      simp at hlen
    · exact j.junction_node _ _

/-! ### Pairing off operands -/

/-- On the expressions of `D`, `eq` says whether `q` has the same value; a symbol is equal to
itself only. -/
structure Classified (G : SymbolTable ι) (eq : Expr ι → Expr ι → Bool) {Q : Type} (q : Expr ι → Q)
    (D : Expr ι → Prop) : Prop where
  iff : ∀ x y, D x → D y → (eq x y ↔ q x = q y)
  symbol : ∀ s, D (.symbol s)
  symbol_eq : ∀ s y, q (.symbol s) = q y → D y → y = .symbol s

section
variable {Q : Type} {q : Expr ι → Q} {D : Expr ι → Prop} {xs ys : List (Expr ι)}

def classes (G : SymbolTable ι) (j : Junction) (q : Expr ι → Q) (es : List (Expr ι)) : Multiset Q :=
  ((proper G j es).map q : List Q)

theorem classes_cons_neutral :
    classes G j q (.symbol (j.neutral G) :: ys) = classes G j q ys := by
  simp [classes, proper]

theorem classes_cons (hx : x ≠ .symbol (j.neutral G)) :
    classes G j q (x :: ys) = q x ::ₘ classes G j q ys := by
  simp [classes, proper, hx]

theorem classes_eq_zero : classes G j q ys = 0 ↔ proper G j ys = [] := by
  simp [classes]

variable (hq : Classified G eq q D)
include hq

theorem eliminatePair_constant {y : Expr ι} (hy : D y)
    (hx : x = .symbol (j.neutral G) ∨ x = .symbol (j.absorbing G)) :
    eliminatePair G eq j x y = (x, y) := by
  have hyn : x = .symbol G.symbolYes ∨ x = .symbol G.symbolNo := by
    cases j <;> rcases hx with rfl | rfl <;> simp [Junction.neutral, Junction.absorbing]
  unfold eliminatePair
  split_ifs with h he
  · rfl
  · obtain ⟨s, rfl⟩ : ∃ s, x = .symbol s := by
      rcases hx with rfl | rfl <;> exact ⟨_, rfl⟩
    have hcls := (hq.iff _ y (hq.symbol s) hy).mp he
    exact absurd ⟨(hq.symbol_eq s y hcls hy).symm, hyn⟩ h
  · rfl

/-- A constant cancels nothing. -/
theorem cancelOne_constant (hys : ∀ y ∈ ys, D y)
    (hx : x = .symbol (j.neutral G) ∨ x = .symbol (j.absorbing G)) :
    cancelOne G eq j x ys = (x, ys) := by
  induction ys with
  | nil => rfl
  | cons y ys ih =>
    rw [cancelOne, eliminatePair_constant hq (hys y List.mem_cons_self) hx]
    simp only [ih fun z hz => hys z (List.mem_cons_of_mem _ hz)]

theorem eliminatePair_of_eq {y : Expr ι} (hx : D x) (hy : D y)
    (hxn : x ≠ .symbol (j.neutral G)) (hxa : x ≠ .symbol (j.absorbing G)) (hc : q x = q y) :
    eliminatePair G eq j x y = (.symbol (j.neutral G), .symbol (j.neutral G)) := by
  have hyn : ¬(x = .symbol G.symbolYes ∨ x = .symbol G.symbolNo) := by
    rintro (rfl | rfl) <;> cases j <;> simp [Junction.neutral, Junction.absorbing] at hxn hxa
  unfold eliminatePair
  rw [if_neg fun h => hyn h.2, if_pos ((hq.iff x y hx hy).mpr hc)]

theorem eliminatePair_of_ne {y : Expr ι} (hx : D x) (hy : D y) (hc : q x ≠ q y) :
    eliminatePair G eq j x y = (x, y) := by
  unfold eliminatePair
  rw [if_neg fun h : eq x y => hc ((hq.iff x y hx hy).mp h), ite_self]

/-- An operand that finds no equal stays. -/
theorem cancelOne_of_not_mem (hx : D x) (hys : ∀ y ∈ ys, D y) (hmem : q x ∉ ys.map q) :
    cancelOne G eq j x ys = (x, ys) := by
  induction ys with
  | nil => rfl
  | cons y ys ih =>
    rw [List.map_cons, List.mem_cons, not_or] at hmem
    rw [cancelOne, eliminatePair_of_ne hq hx (hys y List.mem_cons_self) hmem.1]
    simp only [ih (fun z hz => hys z (List.mem_cons_of_mem _ hz)) hmem.2]

/-- An operand that finds an equal is cancelled with it. -/
theorem cancelOne_of_mem (hx : D x) (hys : ∀ y ∈ ys, D y) (hxn : x ≠ .symbol (j.neutral G))
    (hxa : x ≠ .symbol (j.absorbing G)) (hmem : q x ∈ ys.map q) :
    (cancelOne G eq j x ys).1 = .symbol (j.neutral G) ∧
      (∀ y ∈ (cancelOne G eq j x ys).2, y ∈ ys ∨ y = .symbol (j.neutral G)) ∧
      (.symbol (j.absorbing G) ∈ ys → .symbol (j.absorbing G) ∈ (cancelOne G eq j x ys).2) ∧
      classes G j q ys = q x ::ₘ classes G j q (cancelOne G eq j x ys).2 := by
  have hconst : ∀ s, q x = q (.symbol s) → x = .symbol s := fun s h => hq.symbol_eq s x h.symm hx
  induction ys with
  | nil => cases hmem
  | cons y ys ih =>
    have hys' := fun z hz => hys z (List.mem_cons_of_mem _ hz)
    by_cases hc : q x = q y
    · rw [cancelOne, eliminatePair_of_eq hq hx (hys y List.mem_cons_self) hxn hxa hc]
      have hyn : y ≠ .symbol (j.neutral G) := fun h => hxn (hconst _ (by rw [hc, h]))
      have hya : y ≠ .symbol (j.absorbing G) := fun h => hxa (hconst _ (by rw [hc, h]))
      simp only [cancelOne_constant hq hys' (.inl rfl)]
      refine ⟨trivial, fun z hz => ?_, fun ha => ?_, ?_⟩
      · rcases List.mem_cons.mp hz with rfl | hz
        · exact .inr rfl
        · exact .inl (List.mem_cons_of_mem _ hz)
      · rcases List.mem_cons.mp ha with ha | ha
        · exact absurd ha.symm hya
        · exact List.mem_cons_of_mem _ ha
      · rw [classes_cons hyn, classes_cons_neutral, hc]
    · have hmem' : q x ∈ ys.map q := by
        rw [List.map_cons, List.mem_cons] at hmem
        exact hmem.resolve_left hc
      obtain ⟨h1, h2, h3, h4⟩ := ih hys' hmem'
      rw [cancelOne, eliminatePair_of_ne hq hx (hys y List.mem_cons_self) hc]
      refine ⟨h1, fun z hz => ?_, fun ha => ?_, ?_⟩
      · rcases List.mem_cons.mp hz with rfl | hz
        · exact .inl List.mem_cons_self
        · exact (h2 z hz).imp_left (List.mem_cons_of_mem _)
      · rcases List.mem_cons.mp ha with ha | ha
        · rw [← ha]
          exact List.mem_cons_self
        · exact List.mem_cons_of_mem _ (h3 ha)
      · by_cases hyn : y = .symbol (j.neutral G)
        · rw [hyn, classes_cons_neutral, classes_cons_neutral, h4]
        · rw [classes_cons hyn, classes_cons hyn, h4, Multiset.cons_swap]

/-- What is left when all operands have been paired off. -/
structure PairsOff (G : SymbolTable ι) (j : Junction) (q : Expr ι → Q) (xs ys : List (Expr ι))
    (p : List (Expr ι) × List (Expr ι)) : Prop where
  left : ∀ x ∈ p.1, x ∈ xs ∨ x = .symbol (j.neutral G)
  right : ∀ y ∈ p.2, y ∈ ys ∨ y = .symbol (j.neutral G)
  absorbing_left : .symbol (j.absorbing G) ∈ xs → .symbol (j.absorbing G) ∈ p.1
  absorbing_right : .symbol (j.absorbing G) ∈ ys → .symbol (j.absorbing G) ∈ p.2
  differ : .symbol (j.absorbing G) ∉ xs → ∀ x ∈ proper G j p.1, ∀ y ∈ proper G j p.2, q x ≠ q y
  nil : .symbol (j.absorbing G) ∉ xs →
    (proper G j p.1 = [] ∧ proper G j p.2 = [] ↔ classes G j q xs = classes G j q ys)

theorem pairsOff_cancelAll (hxs : ∀ x ∈ xs, D x) (hys : ∀ y ∈ ys, D y) :
    PairsOff G j q xs ys (cancelAll G eq j xs ys) := by
  induction xs generalizing ys with
  | nil =>
    refine ⟨fun _ hx => (by cases hx), fun _ hy => .inl hy, fun h => (by cases h), fun h => h,
      fun _ _ hx => (by cases hx), fun _ => ?_⟩
    have hnil : classes G j q ([] : List (Expr ι)) = 0 := rfl
    rw [hnil]
    exact ⟨fun h => (classes_eq_zero.mpr h.2).symm, fun h => ⟨rfl, classes_eq_zero.mp h.symm⟩⟩
  | cons x xs ih =>
    have hx := hxs x List.mem_cons_self
    have hxs' := fun z hz => hxs z (List.mem_cons_of_mem _ hz)
    -- a constant stays, and an operand that finds no equal does
    have hstay : cancelOne G eq j x ys = (x, ys) →
        (x ≠ .symbol (j.neutral G) → x ≠ .symbol (j.absorbing G) → q x ∉ ys.map q) →
        PairsOff G j q (x :: xs) ys (cancelAll G eq j (x :: xs) ys) := by
      intro hone hno
      have h := ih hxs' hys
      rw [cancelAll, hone]
      refine ⟨fun z hz => ?_, h.right, fun ha => ?_, h.absorbing_right, fun ha z hz y hy => ?_,
        fun ha => ?_⟩
      · rcases List.mem_cons.mp hz with rfl | hz
        · exact .inl List.mem_cons_self
        · exact (h.left z hz).imp_left (List.mem_cons_of_mem _)
      · rcases List.mem_cons.mp ha with ha | ha
        · rw [← ha]
          exact List.mem_cons_self
        · exact List.mem_cons_of_mem _ (h.absorbing_left ha)
      · rw [List.mem_cons, not_or] at ha
        have hz' := List.mem_filter.mp hz
        rcases List.mem_cons.mp hz'.1 with rfl | hmem
        · intro hc
          have hy' := List.mem_filter.mp hy
          have hyys := (h.right y hy'.1).resolve_right (by simpa using hy'.2)
          exact hno (by simpa using hz'.2) (Ne.symm ha.1) (hc ▸ List.mem_map_of_mem hyys)
        · exact h.differ ha.2 z (List.mem_filter.mpr ⟨hmem, hz'.2⟩) y hy
      · rw [List.mem_cons, not_or] at ha
        by_cases hxn : x = .symbol (j.neutral G)
        · rw [hxn, classes_cons_neutral, ← h.nil ha.2]
          simp [proper]
        · have hq' := hno hxn (Ne.symm ha.1)
          rw [classes_cons hxn]
          constructor
          · intro hnil
            simp [proper, hxn] at hnil
          · intro hcls
            have hmem : q x ∈ classes G j q ys := by
              rw [← hcls]
              exact Multiset.mem_cons_self _ _
            obtain ⟨y, hy, hyx⟩ := List.mem_map.mp (Multiset.mem_coe.mp hmem)
            exact absurd (List.mem_map.mpr ⟨y, (List.mem_filter.mp hy).1, hyx⟩) hq'
    by_cases hxn : x = .symbol (j.neutral G)
    · exact hstay (cancelOne_constant hq hys (.inl hxn)) fun h => absurd hxn h
    by_cases hxa : x = .symbol (j.absorbing G)
    · exact hstay (cancelOne_constant hq hys (.inr hxa)) fun _ h => absurd hxa h
    by_cases hmem : q x ∈ ys.map q
    · obtain ⟨h1, h2, h3, h4⟩ := cancelOne_of_mem hq hx hys hxn hxa hmem
      have hys2 : ∀ y ∈ (cancelOne G eq j x ys).2, D y := by
        intro y hy
        rcases h2 y hy with hy | rfl
        · exact hys y hy
        · exact hq.symbol _
      have h := ih hxs' hys2
      rw [cancelAll]
      simp only [h1]
      refine ⟨fun z hz => ?_, fun y hy => ?_, fun ha => ?_, fun ha => h.absorbing_right (h3 ha),
        fun ha z hz y hy => ?_, fun ha => ?_⟩
      · rcases List.mem_cons.mp hz with rfl | hz
        · exact .inr rfl
        · exact (h.left z hz).imp_left (List.mem_cons_of_mem _)
      · rcases h.right y hy with hy | hy
        · exact h2 y hy
        · exact .inr hy
      · rcases List.mem_cons.mp ha with ha | ha
        · exact absurd ha.symm hxa
        · exact List.mem_cons_of_mem _ (h.absorbing_left ha)
      · rw [List.mem_cons, not_or] at ha
        have hz' := List.mem_filter.mp hz
        rcases List.mem_cons.mp hz'.1 with rfl | hmem
        · simp at hz'
        · exact h.differ ha.2 z (List.mem_filter.mpr ⟨hmem, hz'.2⟩) y hy
      · rw [List.mem_cons, not_or] at ha
        rw [classes_cons hxn, h4, Multiset.cons_inj_right, ← h.nil ha.2]
        simp [proper]
    · exact hstay (cancelOne_of_not_mem hq hx hys hmem) fun _ _ => hmem

omit hq in
/-- Two lists of operands that `expr_eq` does not tell apart. -/
def SameOperands (G : SymbolTable ι) (j : Junction) (q : Expr ι → Q) (xs ys : List (Expr ι)) : Prop :=
  (.symbol (j.absorbing G) ∈ xs ↔ .symbol (j.absorbing G) ∈ ys) ∧
    (.symbol (j.absorbing G) ∉ xs → classes G j q xs = classes G j q ys)

omit hq in
theorem sameSymbol_iff {a b : Expr ι} :
    sameSymbol (a, b) ↔ ∃ s, a = .symbol s ∧ b = .symbol s := by
  constructor
  · intro h
    unfold sameSymbol at h
    split at h
    · next s t hst =>
      obtain ⟨rfl, rfl⟩ := Prod.mk.inj hst
      exact ⟨s, rfl, by rw [of_decide_eq_true h]⟩
    · cases h
  · rintro ⟨s, rfl, rfl⟩
    exact decide_eq_true rfl

/-- `expr_eq` on two nodes of one type compares their operands as multisets. -/
theorem exprEq_node_iff (hG : G.symbolYes ≠ G.symbolNo) (heq : eq = exprEq G)
    (h1 : e1.junction = some j) (h2 : e2.junction = some j)
    (hd1 : ∀ x ∈ operands j e1, D x ∧ Plain G x) (hd2 : ∀ x ∈ operands j e2, D x ∧ Plain G x) :
    exprEq G e1 e2 ↔ SameOperands G j q (operands j e1) (operands j e2) := by
  subst heq
  have hpairs := pairsOff_cancelAll (j := j) hq (fun x hx => (hd1 x hx).1) fun x hx => (hd2 x hx).1
  have hops := @eliminateEq_eq_cancelAll _ _ G (exprEq G) j e1 e2
  rw [← hops] at hpairs
  rw [exprEq_node h1 h2, sameSymbol_iff]
  have hneutral : Expr.symbol (j.neutral G) ≠ .symbol (j.absorbing G) := fun h =>
    neutral_ne_absorbing hG j (Expr.symbol.inj h)
  have hplain1 : ∀ x ∈ operands j (eliminateEq G (exprEq G) j e1 e2).1, Plain G x := by
    intro x hx
    rcases hpairs.left x hx with hx | rfl
    · exact (hd1 x hx).2
    · exact plain_symbol _
  have hplain2 : ∀ x ∈ operands j (eliminateEq G (exprEq G) j e1 e2).2, Plain G x := by
    intro x hx
    rcases hpairs.right x hx with hx | rfl
    · exact (hd2 x hx).2
    · exact plain_symbol _
  have habs1 : .symbol (j.absorbing G) ∈ operands j (eliminateEq G (exprEq G) j e1 e2).1 ↔
      .symbol (j.absorbing G) ∈ operands j e1 :=
    ⟨fun h => (hpairs.left _ h).resolve_right hneutral.symm, hpairs.absorbing_left⟩
  have habs2 : .symbol (j.absorbing G) ∈ operands j (eliminateEq G (exprEq G) j e1 e2).2 ↔
      .symbol (j.absorbing G) ∈ operands j e2 :=
    ⟨fun h => (hpairs.right _ h).resolve_right hneutral.symm, hpairs.absorbing_right⟩
  have hs1 := simplifies_exprEliminateYn hG hplain1
  have hs2 := simplifies_exprEliminateYn hG hplain2
  by_cases ha1 : .symbol (j.absorbing G) ∈ operands j e1
  · have hyn1 := hs1.absorbing (habs1.mpr ha1)
    by_cases ha2 : .symbol (j.absorbing G) ∈ operands j e2
    · have hyn2 := hs2.absorbing (habs2.mpr ha2)
      exact ⟨fun _ => ⟨by simp [ha1, ha2], fun h => absurd ha1 h⟩, fun _ => ⟨_, hyn1, hyn2⟩⟩
    · have hyn2 := hs2.ne_absorbing hG hplain2 fun h => ha2 (habs2.mp h)
      constructor
      · rintro ⟨s, hx, hy⟩
        rw [hyn1] at hx
        cases hx
        exact absurd hy hyn2
      · exact fun h => absurd (h.1.mp ha1) ha2
  · have hn1 := fun h => ha1 (habs1.mp h)
    by_cases ha2 : .symbol (j.absorbing G) ∈ operands j e2
    · have hyn2 := hs2.absorbing (habs2.mpr ha2)
      have hyn1 := hs1.ne_absorbing hG hplain1 hn1
      constructor
      · rintro ⟨s, hx, hy⟩
        rw [hyn2] at hy
        cases hy
        exact absurd hx hyn1
      · exact fun h => absurd (h.1.mpr ha2) ha1
    · have hn2 := fun h => ha2 (habs2.mp h)
      have hnil := hpairs.nil ha1
      constructor
      · rintro ⟨s, hx, hy⟩
        refine ⟨by simp [ha1, ha2], fun _ => hnil.mp ?_⟩
        rcases hs1.symbol hplain1 hx hn1 with ⟨hp1, rfl⟩ | hp1
        · exact ⟨hp1, (hs2.eq_neutral_iff hplain2 hn2).mp hy⟩
        · rcases hs2.symbol hplain2 hy hn2 with ⟨-, rfl⟩ | hp2
          · exact absurd rfl (mem_of_proper_eq_singleton hp1).2
          · have hx1 : Expr.symbol s ∈ proper G j (operands j (eliminateEq G (exprEq G) j e1 e2).1) := by
              rw [hp1]
              exact List.mem_singleton_self _
            have hx2 : Expr.symbol s ∈ proper G j (operands j (eliminateEq G (exprEq G) j e1 e2).2) := by
              rw [hp2]
              exact List.mem_singleton_self _
            exact absurd rfl (hpairs.differ ha1 _ hx1 _ hx2)
      · intro h
        obtain ⟨hp1, hp2⟩ := hnil.mpr (h.2 ha1)
        exact ⟨_, hs1.neutral hn1 hp1, hs2.neutral hn2 hp2⟩

end

/-! ### Equality is transitive on solid expressions -/

/-- What `expr_eq` sees of an expression, given the classes of its operands. -/
inductive Shape (ι Q : Type)
  | symbol (s : ι)
  | equal (s t : ι)
  | unequal (s t : ι)
  | not (c : Q)
  | absorbed (j : Junction)
  | node (j : Junction) (cs : Multiset Q)

inductive Kind
  | symbol
  | equal
  | unequal
  | not
  | node (j : Junction)

def Expr.kind : Expr ι → Kind
  | .symbol _ => .symbol
  | .equal _ _ => .equal
  | .unequal _ _ => .unequal
  | .not _ => .not
  | .and _ _ => .node .and
  | .or _ _ => .node .or

def Shape.kind {Q : Type} : Shape ι Q → Kind
  | .symbol _ => .symbol
  | .equal _ _ => .equal
  | .unequal _ _ => .unequal
  | .not _ => .not
  | .absorbed j | .node j _ => .node j

open Classical in
noncomputable def nodeShape {Q : Type} (G : SymbolTable ι) (q : Expr ι → Q) (j : Junction)
    (es : List (Expr ι)) : Shape ι Q :=
  if .symbol (j.absorbing G) ∈ es then .absorbed j else .node j (classes G j q es)

noncomputable def shape {Q : Type} (G : SymbolTable ι) (q : Expr ι → Q) : Expr ι → Shape ι Q
  | .symbol s => .symbol s
  | .equal s t => .equal s t
  | .unequal s t => .unequal s t
  | .not e => .not (q e)
  | .and l r => nodeShape G q .and (operands .and (.and l r))
  | .or l r => nodeShape G q .or (operands .or (.or l r))

theorem nodeShape_eq_iff {Q : Type} {q : Expr ι → Q} {xs ys : List (Expr ι)} :
    nodeShape G q j xs = nodeShape G q j ys ↔ SameOperands G j q xs ys := by
  unfold nodeShape SameOperands
  by_cases hx : .symbol (j.absorbing G) ∈ xs <;> by_cases hy : .symbol (j.absorbing G) ∈ ys <;>
    simp [hx, hy]

/-- `Fits n e`: a solid expression of height at most `n`. -/
def Fits (G : SymbolTable ι) (n : ℕ) (e : Expr ι) : Prop := Solid G e ∧ e.height ≤ n

/-- `q` tells apart the solid expressions of height at most `n` that `expr_eq` does. -/
def Classes (G : SymbolTable ι) (n : ℕ) {Q : Type} (q : Expr ι → Q) : Prop :=
  ∀ x y, Fits G n x → Fits G n y → (exprEq G x y ↔ q x = q y)

theorem exprEq_symbol_iff {s : ι} : exprEq G (.symbol s) e ↔ e = .symbol s := by
  cases e with
  | symbol t =>
    constructor
    · intro h
      rw [of_decide_eq_true h]
    · rintro h
      cases h
      exact decide_eq_true rfl
  | _ =>
    constructor
    · intro h
      cases h
    · intro h
      cases h

theorem fits_symbol {n : ℕ} (s : ι) : Fits G (n + 1) (.symbol s) := by
  refine ⟨?_, Nat.le_add_left 1 n⟩
  unfold Solid
  trivial

theorem Classes.classified {n : ℕ} {Q : Type} {q : Expr ι → Q} (h : Classes G (n + 1) q) :
    Classified G (exprEq G) q (Fits G (n + 1)) where
  iff := h
  symbol s := fits_symbol s
  symbol_eq s y hs hy := exprEq_symbol_iff.mp ((h _ y (fits_symbol s) hy).mpr hs)

theorem Fits.operands {n : ℕ} (h : Fits G (n + 1) e) (he : e.junction = some j) :
    ∀ x ∈ Kconfig.operands j e, Fits G n x ∧ Plain G x := by
  intro x hx
  obtain ⟨-, hplain, hsolid, hlt⟩ := h.1.operands (.inl he) x hx
  rw [if_pos he] at hlt
  exact ⟨⟨hsolid, by have := h.2; omega⟩, hplain⟩

theorem kind_eq_of_exprEq (h : exprEq G e1 e2) : e1.kind = e2.kind := by
  cases e1 <;> cases e2 <;> first | rfl | cases h

theorem kind_shape {Q : Type} (q : Expr ι → Q) (e : Expr ι) : (shape G q e).kind = e.kind := by
  cases e with
  | symbol | equal | unequal | not => rfl
  | and l r | or l r =>
    simp only [shape, nodeShape]
    split <;> rfl

/-- The shapes classify one level more. -/
theorem Classes.shape {n : ℕ} {Q : Type} {q : Expr ι → Q} (hG : G.symbolYes ≠ G.symbolNo)
    (h : Classes G (n + 1) q) : Classes G (n + 2) (shape G q) := by
  have hnode : ∀ (j : Junction) (x y : Expr ι), Fits G (n + 2) x → Fits G (n + 2) y →
      x.junction = some j → y.junction = some j →
      (exprEq G x y ↔
        nodeShape G q j (Kconfig.operands j x) = nodeShape G q j (Kconfig.operands j y)) := by
    intro j x y hx hy hjx hjy
    rw [nodeShape_eq_iff]
    exact exprEq_node_iff h.classified hG rfl hjx hjy (hx.operands hjx) (hy.operands hjy)
  intro x y hx hy
  by_cases hk : x.kind = y.kind
  · cases x with
    | symbol s =>
      cases y with
      | symbol t =>
        rw [exprEq_symbol_iff]
        simp only [Kconfig.shape, Expr.symbol.injEq, Shape.symbol.injEq]
        exact eq_comm
      | _ => cases hk
    | equal s t =>
      cases y with
      | equal s' t' => simp [Kconfig.shape, exprEq, Expr.height, exprEqFuel]
      | _ => cases hk
    | unequal s t =>
      cases y with
      | unequal s' t' => simp [Kconfig.shape, exprEq, Expr.height, exprEqFuel]
      | _ => cases hk
    | not a =>
      cases y with
      | not b =>
        have ha : Fits G (n + 1) a := ⟨hx.1, Nat.le_of_succ_le_succ hx.2⟩
        have hb : Fits G (n + 1) b := ⟨hy.1, Nat.le_of_succ_le_succ hy.2⟩
        rw [exprEq_not, h a b ha hb]
        simp [Kconfig.shape]
      | _ => cases hk
    | and l r =>
      cases y with
      | and l' r' => exact hnode .and _ _ hx hy rfl rfl
      | _ => cases hk
    | or l r =>
      cases y with
      | or l' r' => exact hnode .or _ _ hx hy rfl rfl
      | _ => cases hk
  · constructor
    · exact fun heq => absurd (kind_eq_of_exprEq heq) hk
    · intro hs
      have hkind := congrArg Shape.kind hs
      rw [kind_shape, kind_shape] at hkind
      exact absurd hkind hk

/-- `expr_eq` is an equivalence on solid expressions. -/
theorem exists_classes (hG : G.symbolYes ≠ G.symbolNo) (n : ℕ) :
    ∃ (Q : Type) (q : Expr ι → Q), Classes G (n + 1) q := by
  induction n with
  | zero =>
    refine ⟨Expr ι, id, fun x y hx hy => ?_⟩
    have hsymbol : ∀ z : Expr ι, Fits G 1 z → ∃ s, z = .symbol s := by
      intro z hz
      have hle := hz.2
      cases z with
      | symbol s => exact ⟨s, rfl⟩
      | equal | unequal =>
        simp only [Expr.height] at hle
        omega
      | not a =>
        have ha := a.one_le_height
        simp only [Expr.height] at hle
        omega
      | and l r | or l r =>
        have hl := l.one_le_height
        simp only [Expr.height] at hle
        omega
    obtain ⟨s, rfl⟩ := hsymbol x hx
    obtain ⟨t, rfl⟩ := hsymbol y hy
    rw [exprEq_symbol_iff]
    exact eq_comm
  | succ n ih =>
    obtain ⟨Q, q, hq⟩ := ih
    exact ⟨Shape ι Q, shape G q, hq.shape hG⟩

section
variable {x y z : Expr ι} (hG : G.symbolYes ≠ G.symbolNo)
include hG

theorem exprEq_refl (hx : Solid G x) : exprEq G x x := by
  obtain ⟨Q, q, hq⟩ := exists_classes hG x.height
  have hfit : Fits G (x.height + 1) x := ⟨hx, by omega⟩
  exact (hq x x hfit hfit).mpr rfl

theorem exprEq_symm (hx : Solid G x) (hy : Solid G y) (h : exprEq G x y) : exprEq G y x := by
  obtain ⟨Q, q, hq⟩ := exists_classes hG (max x.height y.height)
  have hfx : Fits G (max x.height y.height + 1) x := ⟨hx, by omega⟩
  have hfy : Fits G (max x.height y.height + 1) y := ⟨hy, by omega⟩
  exact (hq y x hfy hfx).mpr ((hq x y hfx hfy).mp h).symm

theorem exprEq_trans (hx : Solid G x) (hy : Solid G y) (hz : Solid G z) (h : exprEq G x y)
    (h' : exprEq G y z) : exprEq G x z := by
  obtain ⟨Q, q, hq⟩ := exists_classes hG (max x.height (max y.height z.height))
  have hfx : Fits G (max x.height (max y.height z.height) + 1) x := ⟨hx, by omega⟩
  have hfy : Fits G (max x.height (max y.height z.height) + 1) y := ⟨hy, by omega⟩
  have hfz : Fits G (max x.height (max y.height z.height) + 1) z := ⟨hz, by omega⟩
  exact (hq x z hfx hfz).mpr (((hq x y hfx hfy).mp h).trans ((hq y z hfy hfz).mp h'))

end

/-! ### Reordering -/

section
variable {Q : Type} {q : Expr ι → Q} {n : ℕ} {x y : Expr ι} {l' r' : Expr ι}

/-- Equal solid expressions contribute the same operands to a node around them. -/
theorem sameOperands_of_exprEq (hG : G.symbolYes ≠ G.symbolNo) (hq : Classes G (n + 1) q)
    (hx : Fits G (n + 1) x) (hy : Fits G (n + 1) y) (h : exprEq G x y) :
    SameOperands G j q (operands j x) (operands j y) := by
  have hkind := kind_eq_of_exprEq h
  have hjun : x.junction = y.junction := by
    cases x <;> cases y <;> first | rfl | cases hkind
  by_cases hj : x.junction = some j
  · have hfits : ∀ z : Expr ι, Fits G (n + 1) z → Fits G (n + 1 + 1) z := fun z hz =>
      ⟨hz.1, hz.2.trans (Nat.le_succ _)⟩
    exact (exprEq_node_iff hq.classified hG rfl hj (hjun ▸ hj) ((hfits x hx).operands hj)
      ((hfits y hy).operands (hjun ▸ hj))).mp h
  · have hsymbol : ∀ s, x = .symbol s ↔ y = .symbol s := by
      intro s
      constructor
      · rintro rfl
        exact exprEq_symbol_iff.mp h
      · rintro rfl
        exact exprEq_symbol_iff.mp (exprEq_symm hG hx.1 hy.1 h)
    rw [operands_leaf hj, operands_leaf (hjun ▸ hj)]
    constructor
    · simp only [List.mem_singleton, eq_comm (a := Expr.symbol _)]
      exact hsymbol _
    · intro _
      by_cases hn : x = .symbol (j.neutral G)
      · rw [hn, (hsymbol _).mp hn]
      · rw [classes_cons hn, classes_cons fun hy => hn ((hsymbol _).mpr hy), (hq x y hx hy).mp h]

omit [DecidableEq ι] in
theorem SameOperands.append [DecidableEq ι] {xs xs' ys ys' : List (Expr ι)}
    (h : SameOperands G j q xs ys) (h' : SameOperands G j q xs' ys') :
    SameOperands G j q (xs ++ xs') (ys ++ ys') := by
  have happend : ∀ es es' : List (Expr ι),
      classes G j q (es ++ es') = classes G j q es + classes G j q es' := by
    intro es es'
    simp [classes, proper]
  constructor
  · rw [List.mem_append, List.mem_append, h.1, h'.1]
  · intro ha
    rw [List.mem_append, not_or] at ha
    rw [happend, happend, h.2 ha.1, h'.2 ha.2]

theorem SameOperands.comm {xs ys : List (Expr ι)} :
    SameOperands G j q (xs ++ ys) (ys ++ xs) := by
  constructor
  · rw [List.mem_append, List.mem_append, or_comm]
  · intro _
    simp only [classes, proper, List.filter_append, List.map_append, Multiset.coe_eq_coe]
    exact List.perm_append_comm

/-- Nodes with the same operands are equal. -/
theorem exprEq_of_sameOperands (hG : G.symbolYes ≠ G.symbolNo) (hx : Solid G x) (hy : Solid G y)
    (hjx : x.junction = some j) (hjy : y.junction = some j)
    (h : ∀ (n : ℕ) (Q : Type) (q : Expr ι → Q), x.height ≤ n + 1 → y.height ≤ n + 1 →
      Classes G (n + 1) q → SameOperands G j q (operands j x) (operands j y)) : exprEq G x y := by
  obtain ⟨Q, q, hq⟩ := exists_classes hG (max x.height y.height)
  have hfx : Fits G (max x.height y.height + 1 + 1) x := ⟨hx, by omega⟩
  have hfy : Fits G (max x.height y.height + 1 + 1) y := ⟨hy, by omega⟩
  exact (exprEq_node_iff hq.classified hG rfl hjx hjy (hfx.operands hjx) (hfy.operands hjy)).mpr
    (h _ Q q (by omega) (by omega) hq)

/-- Of two equal solid expressions both are plain or none is. -/
theorem plain_of_exprEq (hG : G.symbolYes ≠ G.symbolNo) (hx : Solid G x) (hy : Solid G y)
    (h : exprEq G x y) (hp : Plain G x) : Plain G y := by
  have hkind := kind_eq_of_exprEq h
  have hjun : x.junction = y.junction := by
    cases x <;> cases y <;> first | rfl | cases hkind
  cases hj : x.junction with
  | none => exact plain_of_junction_eq_none (hjun ▸ hj)
  | some k =>
    intro s hs
    exfalso
    obtain ⟨Q, q, hq⟩ := exists_classes hG (max x.height y.height)
    have hfx : Fits G (max x.height y.height + 1) x := ⟨hx, by omega⟩
    have hfy : Fits G (max x.height y.height + 1) y := ⟨hy, by omega⟩
    have hsame := sameOperands_of_exprEq (j := k) hG hq hfx hfy h
    have hjy : y.junction = some k := hjun ▸ hj
    have hpx := fun z hz => (hfx.operands hj z hz).2
    have hpy := fun z hz => (hfy.operands hjy z hz).2
    have hsx := simplifies_exprEliminateYn hG hpx
    have hsy := simplifies_exprEliminateYn hG hpy
    have hnot : ∀ t, exprEliminateYn G x ≠ .symbol t := by
      intro t ht
      rw [hp t ht] at hj
      cases hj
    by_cases ha : .symbol (k.absorbing G) ∈ operands k x
    · exact hnot _ (hsx.absorbing ha)
    · have hlen : (proper G k (operands k x)).length = (proper G k (operands k y)).length := by
        have hcard := congrArg Multiset.card (hsame.2 ha)
        simpa [classes] using hcard
      rcases hsy.symbol hpy hs (fun hay => ha (hsame.1.mpr hay)) with ⟨hnil, -⟩ | hone
      · rw [hnil, List.length_nil] at hlen
        exact hnot _ (hsx.neutral ha (List.length_eq_zero_iff.mp hlen))
      · rw [hone, List.length_singleton] at hlen
        obtain ⟨z, hz⟩ := List.length_eq_one_iff.mp hlen
        have hcls := hsame.2 ha
        rw [classes, classes, hz, hone] at hcls
        have hqz : q z = q (.symbol s) := by simpa using hcls
        have hzmem := (mem_of_proper_eq_singleton hz).1
        have hzfit : Fits G (max x.height y.height + 1) z := by
          obtain ⟨hf, -⟩ := hfx.operands hj z hzmem
          exact ⟨hf.1, hf.2.trans (Nat.le_succ _)⟩
        rw [hq.classified.symbol_eq s z hqz.symm hzfit] at hz
        exact hnot s (hsx.single ha _ hz)

/-- `expr_eq` recognises every reordering of a solid expression. -/
theorem Reorders.exprEq (hG : G.symbolYes ≠ G.symbolNo) (h : Reorders e1 e2) :
    (Solid G e1 ↔ Solid G e2) ∧ (Solid G e1 → Kconfig.exprEq G e1 e2) := by
  induction h with
  | refl e => exact ⟨Iff.rfl, exprEq_refl hG⟩
  | symm _ ih =>
    refine ⟨ih.1.symm, fun hs => ?_⟩
    exact exprEq_symm hG (ih.1.mpr hs) hs (ih.2 (ih.1.mpr hs))
  | trans _ _ ih ih' =>
    refine ⟨ih.1.trans ih'.1, fun hs => ?_⟩
    have hs' := ih.1.mp hs
    exact exprEq_trans hG hs hs' (ih'.1.mp hs') (ih.2 hs) (ih'.2 hs')
  | comm j l r =>
    have hsolid : Solid G (j.node l r) ↔ Solid G (j.node r l) := by
      rw [solid_node, solid_node]
      tauto
    refine ⟨hsolid, fun hs => ?_⟩
    refine exprEq_of_sameOperands hG hs (hsolid.mp hs) (j.junction_node _ _) (j.junction_node _ _) ?_
    intro n Q q _ _ _
    rw [operands_node, operands_node]
    exact SameOperands.comm
  | assoc j a b c =>
    have hsolid : Solid G (j.node (j.node a b) c) ↔ Solid G (j.node a (j.node b c)) := by
      simp only [solid_node, j.junction_node, true_or, true_and]
      tauto
    refine ⟨hsolid, fun hs => ?_⟩
    refine exprEq_of_sameOperands hG hs (hsolid.mp hs) (j.junction_node _ _) (j.junction_node _ _) ?_
    intro n Q q _ _ _
    simp only [operands_node, List.append_assoc]
    exact ⟨Iff.rfl, fun _ => rfl⟩
  | not _ ih => exact ih
  | @node j l l' r r' _ _ ihl ihr =>
    have hplace : ∀ x y : Expr ι, (Solid G x ↔ Solid G y) → (Solid G x → Kconfig.exprEq G x y) →
        (((x.junction = some j ∨ Plain G x) ∧ Solid G x) ↔
          ((y.junction = some j ∨ Plain G y) ∧ Solid G y)) := by
      intro x y hxy heq
      have hone : ∀ u v : Expr ι, Solid G u → Solid G v → Kconfig.exprEq G u v →
          (u.junction = some j ∨ Plain G u) → (v.junction = some j ∨ Plain G v) := by
        intro u v hu hv huv h
        have hkind := kind_eq_of_exprEq huv
        have hjun : u.junction = v.junction := by
          cases u <;> cases v <;> first | rfl | cases hkind
        exact h.imp (fun h => hjun ▸ h) (plain_of_exprEq hG hu hv huv)
      constructor
      · rintro ⟨h, hs⟩
        exact ⟨hone x y hs (hxy.mp hs) (heq hs) h, hxy.mp hs⟩
      · rintro ⟨h, hs⟩
        have hsx := hxy.mpr hs
        exact ⟨hone y x hs hsx (exprEq_symm hG hsx hs (heq hsx)) h, hsx⟩
    have hl := hplace l l' ihl.1 ihl.2
    have hr := hplace r r' ihr.1 ihr.2
    have hsolid : Solid G (j.node l r) ↔ Solid G (j.node l' r') := by
      rw [solid_node, solid_node]
      constructor
      · rintro ⟨hpl, hpr, hsl, hsr⟩
        have hl' := hl.mp ⟨hpl, hsl⟩
        have hr' := hr.mp ⟨hpr, hsr⟩
        exact ⟨hl'.1, hr'.1, hl'.2, hr'.2⟩
      · rintro ⟨hpl, hpr, hsl, hsr⟩
        have hl' := hl.mpr ⟨hpl, hsl⟩
        have hr' := hr.mpr ⟨hpr, hsr⟩
        exact ⟨hl'.1, hr'.1, hl'.2, hr'.2⟩
    refine ⟨hsolid, fun hs => ?_⟩
    have hs' := hsolid.mp hs
    refine exprEq_of_sameOperands hG hs hs' (j.junction_node _ _) (j.junction_node _ _) ?_
    intro n Q q hn hn' hq
    rw [j.height_node] at hn hn'
    obtain ⟨-, -, hsl, hsr⟩ := solid_node.mp hs
    obtain ⟨-, -, hsl', hsr'⟩ := solid_node.mp hs'
    rw [operands_node, operands_node]
    exact (sameOperands_of_exprEq hG hq ⟨hsl, by omega⟩ ⟨hsl', by omega⟩ (ihl.2 hsl)).append
      (sameOperands_of_exprEq hG hq ⟨hsr, by omega⟩ ⟨hsr', by omega⟩ (ihr.2 hsr))

/-- `expr_eq` is sound, and recognises every reordering of a solid expression. -/
theorem exprEq_correct (hG : G.symbolYes ≠ G.symbolNo) (e1 e2 : Expr ι) :
    (Kconfig.exprEq G e1 e2 →
      ∀ env, G.ConstantValues env → G.exprIn env e1 = G.exprIn env e2) ∧
      (Solid G e1 → Reorders e1 e2 → Kconfig.exprEq G e1 e2) :=
  ⟨fun heq _ h => exprIn_eq_of_exprEq h heq, fun hs h => (h.exprEq hG).2 hs⟩

end
end

namespace Samples
open Name

/-- `(n || FOO) && BAR` -/
def left : Expr Name := .and (.or (.symbol n) (.symbol foo)) (.symbol bar)

/-- `FOO && BAR` -/
def middle : Expr Name := .and (.symbol foo) (.symbol bar)

/-- `FOO && (n || BAR)` -/
def right : Expr Name := .and (.symbol foo) (.or (.symbol n) (.symbol bar))

/-- `middle` is equal to both of the others, which are not equal to each other. -/
theorem not_exprEq_comm :
    ¬∀ e e' : Expr Name, Reorders e e' → exprEq table e e' := by
  intro h
  have heq := h (.or (.or middle right) left) (.or left (.or middle right))
    (.comm .or (.or middle right) left)
  exact absurd heq (by decide)

theorem exprEq_correct_middle :
    (∀ env, table.ConstantValues env → table.exprIn env middle = table.exprIn env left) ∧
      exprEq table middle (.and (.symbol bar) (.symbol foo)) := by
  have hG : table.symbolYes ≠ table.symbolNo := by decide
  constructor
  · exact (exprEq_correct hG middle left).1 (by decide)
  · refine (exprEq_correct hG middle _).2 ?_ (.comm .and (.symbol foo) (.symbol bar))
    simp [Solid, Plain, middle, exprEliminateYn]

end Samples
end OpenADK.Kconfig
