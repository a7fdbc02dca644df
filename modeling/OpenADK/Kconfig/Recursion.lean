import OpenADK.Kconfig.Finalized
import OpenADK.Kconfig.Check

/-!
# Recursive dependencies

`conf_parse` counts the symbols for which `sym_check_deps` returns a symbol. What is returned is
the symbol that closes a cycle; it still has `SYMBOL_CHECK` set, and its own call drops it.
-/

namespace OpenADK.Kconfig

/-- The symbols of an expression, as `sym_check_expr_deps` walks them. -/
def Expr.symbols {ι : Type} : Expr ι → List ι
  | .symbol s => [s]
  | .not e => e.symbols
  | .equal s t | .unequal s t => [s, t]
  | .and l r | .or l r => l.symbols ++ r.symbols

namespace SymbolTable
variable {ι : Type} [DecidableEq ι]

section
variable (G : SymbolTable ι)

/-- The symbols that `sym_check_sym_deps` walks for a property. -/
def propWalks (sym : ι) (prop : Property ι) : List ι :=
  if prop.type = .choice ∨ prop.type = .select then []
  else
    prop.visible.elim [] Expr.symbols ++
      if prop.type ≠ .default ∨ G.isChoice sym then []
      else
        match prop.expr with
        | .expr e => e.symbols
        | _ => []

/-- The symbols that `sym_check_sym_deps` walks. -/
def walks (sym : ι) : List ι :=
  (G.symbol sym).revDep.elim [] Expr.symbols ++ (G.symbol sym).prop.flatMap (G.propWalks sym)

def group (sym : ι) : ι :=
  if G.isChoiceValue sym then (G.choiceOf sym).getD sym else sym

/-- The edges of the graph. That a member depends on its own choice is no edge. -/
def DependsOn (g h : ι) : Prop :=
  ∃ s t, G.group s = g ∧ t ∈ G.walks s ∧ G.group t = h ∧ ¬(G.isChoiceValue s ∧ G.choiceOf s = some t)

/-- The graph has a cycle. -/
def Cyclic : Prop := ∃ g, Relation.TransGen G.DependsOn g g

/-- The loop of `conf_parse` over all symbols and the errors it counts. -/
def zconfnerrs (order : List ι) : ℕ :=
  (order.foldl (fun r sym =>
      let sym2 := G.symCheckDeps sym r.2
      (if sym2.1.isSome then r.1 + 1 else r.1, sym2.2))
    (0, ⟨fun _ => false, fun _ => false, false⟩)).1

/-- The members of a choice are only marked while the choice is. -/
def Grouped (st : CheckState ι) : Prop :=
  ∀ c s, G.isChoice c → s ∈ G.members c → st.flagCheck s → st.flagChecked c

/-- What a walk does: it takes its marks away, and what it returns was marked before. -/
structure Walked (st : CheckState ι) (r : Option ι × CheckState ι) : Prop where
  check : r.2.flagCheck = st.flagCheck
  checked : ∀ s, st.flagChecked s → r.2.flagChecked s
  marked : ∀ t, r.1 = some t → st.flagCheck t

end

section
omit [DecidableEq ι]
variable {G : SymbolTable ι} {st : CheckState ι} {r : Option ι × CheckState ι}

theorem Walked.none (st : CheckState ι) : Walked st (none, st) :=
  ⟨rfl, fun _ h => h, fun _ h => nomatch h⟩

theorem Grouped.walked (hg : G.Grouped st) (h : Walked st r) : G.Grouped r.2 := by
  intro c s hc hs hcheck
  rw [h.check] at hcheck
  exact h.checked c (hg c s hc hs hcheck)

theorem Walked.trans (h : Walked st r) {r' : Option ι × CheckState ι} (h' : Walked r.2 r') :
    Walked st r' where
  check := h'.check.trans h.check
  checked s hs := h'.checked s (h.checked s hs)
  marked t ht := h.check ▸ h'.marked t ht

/-- One walk after the other, unless the first returns a symbol. -/
theorem Walked.next (h : Walked st r) {r' : Option ι × CheckState ι} (h' : Walked r.2 r') :
    Walked st (if r.1.isSome then r else r') := by
  split
  · exact h
  · exact h.trans h'

end

section
variable {G : SymbolTable ι} {st : CheckState ι} {checkDeps : Check ι}
  (hpass : ∀ s st, G.Grouped st → Walked st (checkDeps s st))
include hpass

omit [DecidableEq ι] in
theorem walked_symCheckExprDeps (e : Expr ι) (hg : G.Grouped st) :
    Walked st (symCheckExprDeps checkDeps e st) := by
  induction e generalizing st with
  | symbol s => exact hpass s st hg
  | not e ih => exact ih hg
  | equal s t =>
    have h := hpass s st hg
    exact h.next (hpass t _ (hg.walked h))
  | unequal s t =>
    have h := hpass s st hg
    exact h.next (hpass t _ (hg.walked h))
  | and l r ihl ihr =>
    have h := ihl hg
    exact h.next (ihr (hg.walked h))
  | or l r ihl ihr =>
    have h := ihl hg
    exact h.next (ihr (hg.walked h))

omit [DecidableEq ι] in
theorem walked_symCheckCondDeps (e : Option (Expr ι)) (hg : G.Grouped st) :
    Walked st (symCheckCondDeps checkDeps e st) := by
  cases e with
  | none => exact Walked.none st
  | some e => exact walked_symCheckExprDeps hpass e hg

omit [DecidableEq ι] in
theorem walked_symCheckPropDeps (sym : ι) (props : List (Property ι)) (hg : G.Grouped st) :
    Walked st (symCheckPropDeps G checkDeps sym props st) := by
  induction props generalizing st with
  | nil => exact Walked.none st
  | cons prop props ih =>
    unfold symCheckPropDeps
    split
    · exact ih hg
    · have h := walked_symCheckCondDeps hpass prop.visible hg
      apply h.next
      have hg' := hg.walked h
      split
      · exact ih hg'
      · cases prop.expr with
        | expr e =>
          have h' := walked_symCheckExprDeps hpass e hg'
          exact h'.next (ih (hg'.walked h'))
        | null => exact (Walked.none _).next (ih hg')
        | list members => exact (Walked.none _).next (ih hg')
        | range left right => exact (Walked.none _).next (ih hg')

omit [DecidableEq ι] in
theorem walked_symCheckSymDeps (sym : ι) (hg : G.Grouped st) :
    Walked st (symCheckSymDeps G checkDeps sym st) := by
  have h := walked_symCheckCondDeps hpass (G.symbol sym).revDep hg
  exact h.next (walked_symCheckPropDeps hpass sym _ (hg.walked h))

omit [DecidableEq ι] in
theorem walked_symCheckMemberDeps (members : List ι) (hg : G.Grouped st) :
    Walked st (symCheckMemberDeps G checkDeps members st) := by
  induction members generalizing st with
  | nil => exact Walked.none st
  | cons sym members ih =>
    have h := walked_symCheckSymDeps hpass sym hg
    exact h.next (ih (hg.walked h))

end

/-! ### Marking a choice and its members -/

section
variable {G : SymbolTable ι} {st : CheckState ι}

theorem setCheck_flagCheck (st : CheckState ι) (s t : ι) :
    (st.setCheck s).flagCheck t = (decide (t = s) || st.flagCheck t) := by
  by_cases h : t = s
  · simp [CheckState.setCheck, h]
  · simp [CheckState.setCheck, h]

theorem setCheck_flagChecked (st : CheckState ι) (s t : ι) :
    (st.setCheck s).flagChecked t = (decide (t = s) || st.flagChecked t) := by
  by_cases h : t = s
  · simp [CheckState.setCheck, h]
  · simp [CheckState.setCheck, h]

theorem clearCheck_flagCheck (st : CheckState ι) (s t : ι) :
    (st.clearCheck s).flagCheck t = (!decide (t = s) && st.flagCheck t) := by
  by_cases h : t = s
  · simp [CheckState.clearCheck, h]
  · simp [CheckState.clearCheck, h]

theorem foldl_setCheck_flagCheck (l : List ι) (st : CheckState ι) (t : ι) :
    (l.foldl CheckState.setCheck st).flagCheck t = (decide (t ∈ l) || st.flagCheck t) := by
  induction l generalizing st with
  | nil => rfl
  | cons s l ih =>
    rw [List.foldl_cons, ih, setCheck_flagCheck]
    by_cases h : t = s
    · simp [h]
    · simp [h]

theorem foldl_setCheck_flagChecked (l : List ι) (st : CheckState ι) (t : ι) :
    (l.foldl CheckState.setCheck st).flagChecked t = (decide (t ∈ l) || st.flagChecked t) := by
  induction l generalizing st with
  | nil => rfl
  | cons s l ih =>
    rw [List.foldl_cons, ih, setCheck_flagChecked]
    by_cases h : t = s
    · simp [h]
    · simp [h]

theorem foldl_clearCheck_flagCheck (l : List ι) (st : CheckState ι) (t : ι) :
    (l.foldl CheckState.clearCheck st).flagCheck t = (!decide (t ∈ l) && st.flagCheck t) := by
  induction l generalizing st with
  | nil => rfl
  | cons s l ih =>
    rw [List.foldl_cons, ih, clearCheck_flagCheck]
    by_cases h : t = s
    · simp [h]
    · simp [h]

theorem foldl_clearCheck_flagChecked (l : List ι) (st : CheckState ι) :
    (l.foldl CheckState.clearCheck st).flagChecked = st.flagChecked := by
  induction l generalizing st with
  | nil => rfl
  | cons s l ih => rw [List.foldl_cons, ih, CheckState.clearCheck]

/-- The marks while the members of a choice are walked. -/
theorem Grouped.setChoice (hG : G.Finalized) (hg : G.Grouped st) {choice : ι}
    (hchoice : G.isChoice choice) :
    G.Grouped (((G.members choice).foldl CheckState.setCheck st).setCheck choice) := by
  intro c s hc hs hcheck
  rw [setCheck_flagCheck, foldl_setCheck_flagCheck, Bool.or_eq_true, Bool.or_eq_true,
    decide_eq_true_eq, decide_eq_true_eq] at hcheck
  rw [setCheck_flagChecked, foldl_setCheck_flagChecked, Bool.or_eq_true, Bool.or_eq_true,
    decide_eq_true_eq, decide_eq_true_eq]
  rcases hcheck with rfl | hmem | hcheck
  · have hno := (hG.memberType c s hc hs).2.2
    rw [hchoice] at hno
    cases hno
  · have heq := (hG.member c s hc hs).2.symm.trans (hG.member choice s hchoice hmem).2
    exact .inl (Option.some.inj heq)
  · exact .inr (.inr (hg c s hc hs hcheck))

theorem Grouped.setCheck (hG : G.Finalized) (hg : G.Grouped st) {sym : ι}
    (hval : ¬G.isChoiceValue sym) : G.Grouped (st.setCheck sym) := by
  intro c s hc hs hcheck
  rw [setCheck_flagCheck, Bool.or_eq_true, decide_eq_true_eq] at hcheck
  rw [setCheck_flagChecked, Bool.or_eq_true]
  rcases hcheck with rfl | hcheck
  · exact absurd (hG.member c s hc hs).1 hval
  · exact .inr (hg c s hc hs hcheck)

theorem Grouped.clearCheck (hg : G.Grouped st) (sym : ι) : G.Grouped (st.clearCheck sym) := by
  intro c s hc hs hcheck
  rw [clearCheck_flagCheck, Bool.and_eq_true] at hcheck
  exact hg c s hc hs hcheck.2

end

/-! ### The walk -/

section
variable {G : SymbolTable ι} {st : CheckState ι} {checkDeps : Check ι} (hG : G.Finalized)
  (hpass : ∀ s st, G.Grouped st → Walked st (checkDeps s st))
include hG hpass

omit hG in
/-- The walks of a choice and of its members, with the mark of the choice taken away between
them. -/
theorem walked_choice_members (hg : G.Grouped st) (choice : ι) (members : List ι) :
    let sym2 := symCheckSymDeps G checkDeps choice st
    let sym2 := (sym2.1, sym2.2.clearCheck choice)
    let sym2 := if sym2.1.isSome then sym2 else symCheckMemberDeps G checkDeps members sym2.2
    sym2.2.flagCheck = (st.clearCheck choice).flagCheck ∧
      (∀ s, st.flagChecked s → sym2.2.flagChecked s) ∧ ∀ t, sym2.1 = some t → st.flagCheck t := by
  have h := walked_symCheckSymDeps hpass choice hg
  have hclear : ((symCheckSymDeps G checkDeps choice st).2.clearCheck choice).flagCheck =
      (st.clearCheck choice).flagCheck := by
    unfold CheckState.clearCheck
    rw [h.check]
  dsimp only
  split
  · exact ⟨hclear, h.checked, h.marked⟩
  · have h' := walked_symCheckMemberDeps hpass members ((hg.walked h).clearCheck choice)
    refine ⟨h'.check.trans hclear, fun s hs => h'.checked s (h.checked s hs), fun t ht => ?_⟩
    have hmarked := h'.marked t ht
    rw [hclear, clearCheck_flagCheck, Bool.and_eq_true] at hmarked
    exact hmarked.2

/-- The walk of a choice returns the choice itself when a mark of its own was met. -/
theorem walked_symCheckChoiceDeps (hg : G.Grouped st) {choice : ι} (hchoice : G.isChoice choice)
    (hcheck : st.flagCheck choice = false) (hchecked : st.flagChecked choice = false) :
    (symCheckChoiceDeps G checkDeps choice st).2.flagCheck = st.flagCheck ∧
      (∀ s, st.flagChecked s → (symCheckChoiceDeps G checkDeps choice st).2.flagChecked s) ∧
        ∀ t, (symCheckChoiceDeps G checkDeps choice st).1 = some t →
          t = choice ∨ st.flagCheck t := by
  have hmembers (t : ι) (ht : t ∈ G.members choice) : st.flagCheck t = false := by
    apply Bool.eq_false_iff.mpr
    intro hmarked
    rw [hg choice t hchoice ht hmarked] at hchecked
    cases hchecked
  obtain ⟨hflags, hmono, hmarked⟩ := walked_choice_members hpass
    (hg.setChoice hG hchoice) choice (G.members choice)
  unfold symCheckChoiceDeps
  dsimp only at hflags hmono hmarked ⊢
  generalize (if (symCheckSymDeps G checkDeps choice _).1.isSome then _ else _) = sym2
    at hflags hmono hmarked ⊢
  have hrestored : ((G.members choice).foldl CheckState.clearCheck sym2.2).flagCheck =
      st.flagCheck := by
    funext t
    rw [foldl_clearCheck_flagCheck, hflags, clearCheck_flagCheck, setCheck_flagCheck,
      foldl_setCheck_flagCheck]
    by_cases hmem : t ∈ G.members choice
    · simp [hmem, hmembers t hmem]
    · by_cases ht : t = choice
      · subst ht
        simp [hcheck]
      · simp [hmem, ht]
  have hkept (s : ι) (hs : st.flagChecked s) :
      ((G.members choice).foldl CheckState.clearCheck sym2.2).flagChecked s := by
    rw [foldl_clearCheck_flagChecked]
    apply hmono
    rw [setCheck_flagChecked, foldl_setCheck_flagChecked, hs, Bool.or_true, Bool.or_true]
  cases hsym2 : sym2.1 with
  | none => exact ⟨hrestored, hkept, fun t ht => nomatch ht⟩
  | some s =>
    refine ⟨hrestored, hkept, fun t ht => ?_⟩
    have hs := hmarked s hsym2
    rw [setCheck_flagCheck, foldl_setCheck_flagCheck, Bool.or_eq_true, Bool.or_eq_true,
      decide_eq_true_eq, decide_eq_true_eq] at hs
    dsimp only at ht
    split at ht
    · exact .inl (Option.some.inj ht).symm
    · next hown =>
      cases ht
      rcases hs with hs | hs | hs
      · exact .inl hs
      · exact absurd (hG.member choice s hchoice hs) hown
      · exact .inr hs

theorem walked_symCheckStep (sym : ι) (hg : G.Grouped st) :
    Walked st (symCheckStep G checkDeps sym st) := by
  unfold symCheckStep
  split
  · next hcheck =>
    refine ⟨rfl, fun s hs => hs, fun t ht => ?_⟩
    cases ht
    exact hcheck
  split
  · exact Walked.none st
  next hcheck hchecked =>
  rw [Bool.not_eq_true] at hcheck hchecked
  dsimp only
  -- a symbol of its own group never leaves the call
  have hdrop {r : Option ι × CheckState ι} (h : r.2.flagCheck = st.flagCheck ∧
      (∀ s, st.flagChecked s → r.2.flagChecked s) ∧
        ∀ t, r.1 = some t → t = sym ∨ st.flagCheck t) :
      Walked st (if r.1 = some sym then (none, r.2) else r) := by
    split
    · exact ⟨h.1, h.2.1, fun t ht => nomatch ht⟩
    · next hne =>
      refine ⟨h.1, h.2.1, fun t ht => (h.2.2 t ht).resolve_left fun heq => hne ?_⟩
      rw [ht, heq]
  apply hdrop
  split
  · cases hchoice : G.choiceOf sym with
    | none => exact ⟨rfl, fun s hs => hs, fun t ht => nomatch ht⟩
    | some choice =>
      have h := hpass choice st hg
      exact ⟨h.check, h.checked, fun t ht => .inr (h.marked t ht)⟩
  split
  · next hchoice => exact walked_symCheckChoiceDeps hG hpass hg hchoice hcheck hchecked
  · next hval _ =>
    have h := walked_symCheckSymDeps hpass sym (hg.setCheck hG hval)
    refine ⟨?_, fun s hs => h.checked s ?_, fun t ht => ?_⟩
    · funext t
      rw [clearCheck_flagCheck, h.check, setCheck_flagCheck]
      by_cases ht : t = sym
      · simp [ht, hcheck]
      · simp [ht]
    · rw [setCheck_flagChecked, hs, Bool.or_true]
    · have hmarked := h.marked t ht
      rwa [setCheck_flagCheck, Bool.or_eq_true, decide_eq_true_eq] at hmarked

end

section
variable {G : SymbolTable ι} {st : CheckState ι}

theorem walked_symCheckFuel (hG : G.Finalized) (fuel : ℕ) (sym : ι) (st : CheckState ι)
    (hg : G.Grouped st) : Walked st (symCheckFuel G fuel sym st) := by
  induction fuel generalizing sym st with
  | zero => exact Walked.none st
  | succ fuel ih => exact walked_symCheckStep hG ih sym hg

/-- No call from `conf_parse` returns a symbol. -/
theorem zconfnerrs_eq_zero (hG : G.Finalized) (order : List ι) : G.zconfnerrs order = 0 := by
  suffices h : ∀ st : CheckState ι, (∀ s, st.flagCheck s = false) →
      (order.foldl (fun r sym =>
          let sym2 := G.symCheckDeps sym r.2
          (if sym2.1.isSome then r.1 + 1 else r.1, sym2.2)) (0, st)).1 = 0 from
    h _ fun _ => rfl
  induction order with
  | nil => exact fun st _ => rfl
  | cons sym order ih =>
    intro st hst
    have hnone : st.flagCheck = fun _ => false := funext hst
    have hg : G.Grouped st := fun c s _ _ hcheck => by
      rw [hst s] at hcheck
      cases hcheck
    have h := walked_symCheckFuel hG (2 * G.symbols.length + 1) sym st hg
    have hret : (G.symCheckDeps sym st).1.isSome = false := by
      apply Option.isSome_eq_false_iff.mpr
      apply Option.isNone_iff_eq_none.mpr
      apply Option.eq_none_iff_forall_ne_some.mpr
      intro t ht
      have hmarked := h.marked t ht
      rw [hst t] at hmarked
      cases hmarked
    rw [List.foldl_cons]
    dsimp only
    rw [hret]
    apply ih
    intro s
    exact (congrFun h.check s).trans (hst s)

/-- A cycle is never counted as an error. -/
theorem zconfnerrs_pos_iff_cyclic (hG : G.Finalized) (order : List ι) :
    (0 < G.zconfnerrs order ↔ G.Cyclic) ↔ ¬G.Cyclic := by
  rw [zconfnerrs_eq_zero hG order]
  constructor
  · exact fun h hcyclic => lt_irrefl 0 (h.mpr hcyclic)
  · exact fun h => ⟨fun hlt => absurd hlt (lt_irrefl 0), fun hcyclic => absurd hcyclic h⟩

end
end SymbolTable

namespace Mutual

/-- The symbols of the tree
```
config A
	bool "a"
	depends on B
config B
	bool "b"
	depends on A
```
with its constants. -/
inductive Name
  | y | m | n | a | b
  deriving DecidableEq

open Name

def symbolWithPrompt (sym : Name) (text : Text) (dep : Option (Expr Name)) (menu : MenuId) :
    Symbol Name where
  name := some text
  type := .boolean
  prop :=
    [{ type := .symbol, expr := .expr (.symbol sym), visible := dep, menu := some menu },
      { type := .prompt, text := some text, visible := dep, menu := some menu }]
  dirDep := dep
  flagOptional := true

/-- The tree with the dependency `dep` of `B`. -/
def table (dep : Option (Expr Name)) : SymbolTable Name where
  symbolYes := y
  symbolMod := m
  symbolNo := n
  symbolHash := [a, b]
  modulesSym := n
  symbol
    | y => { name := some ['y'], type := .unknown, flagConst := true }
    | m => { name := some ['m'], type := .unknown, flagConst := true }
    | n => { name := some ['n'], type := .unknown, flagConst := true }
    | a => symbolWithPrompt a ['A'] (some (.symbol b)) 1
    | b => symbolWithPrompt b ['B'] dep 2

theorem finalized (dep : Option (Expr Name)) : (table dep).Finalized where
  complete s := by cases s <;> simp [SymbolTable.symbols, table]
  yes_not_mem := by simp [table]
  mod_not_mem := by simp [table]
  no_not_mem := by simp [table]
  constants := by simp [table]
  modules := .inl rfl
  type_ne_other s := by cases s <;> simp [SymbolTable.type, table, symbolWithPrompt]
  choiceType s _ := by cases s <;> rfl
  choice_mem c hc := by cases c <;> simp [SymbolTable.isChoice, table, symbolWithPrompt] at hc
  memberOf s c hs := by cases s <;> simp [SymbolTable.isChoiceValue, table, symbolWithPrompt] at hs
  member c s hc := by cases c <;> simp [SymbolTable.isChoice, table, symbolWithPrompt] at hc
  memberType c s hc := by cases c <;> simp [SymbolTable.isChoice, table, symbolWithPrompt] at hc

/-- Without the dependency of `B` there is nothing to count. -/
theorem zconfnerrs_pos_iff :
    (0 < (table none).zconfnerrs [a, b] ↔ (table none).Cyclic) ↔ ¬(table none).Cyclic :=
  SymbolTable.zconfnerrs_pos_iff_cyclic (finalized none) [a, b]

theorem cyclic : (table (some (.symbol a))).Cyclic := by
  refine ⟨a, .tail (.single (b := b) ⟨a, b, rfl, by decide, rfl, nofun⟩) ?_⟩
  exact ⟨b, a, rfl, by decide, rfl, nofun⟩

/-- Both symbols depend on each other, and no error is counted. -/
theorem not_zconfnerrs_pos :
    ¬∀ G : SymbolTable Name, G.Finalized → ∀ order : List Name, order.Perm G.allSymbols →
      (0 < G.zconfnerrs order ↔ G.Cyclic) := by
  intro h
  have hpos := (h _ (finalized (some (.symbol a))) [a, b] (by decide)).mpr cyclic
  exact absurd hpos (by decide)

end Mutual
end OpenADK.Kconfig
