import OpenADK.Kconfig.Advance

/-!
# What each evaluation function computes

Given that the symbols an evaluation reads are computed by the level below (`Computes`),
each function of `OpenADK.Kconfig.Calc` advances the state, leaves everything it read
evaluated, and returns what the corresponding equation of
`OpenADK.Kconfig.Semantics` says for the view of the state it started in.
-/

namespace OpenADK.Kconfig.Target
open Tristate
variable {ι : Type} {T : Target ι} {G : SymbolTable ι} {calcSym : Calc ι}
variable {r n : ℕ} {σ τ : State ι}

theorem symGetStringValue_spec (hcalc : T.Computes G n calcSym) (hσ : T.Ready G r n σ) {s : ι}
    (hs : (σ.sym s).flagValid)
    (hm : G.type s = .boolean ∨ G.type s = .tristate → (σ.sym G.modulesSym).flagValid) :
    T.Advances G r σ (symGetStringValue G calcSym s σ).2 ∧
      (symGetStringValue G calcSym s σ).1 = G.stringIn (T.view σ) s := by
  have hmod : (σ.sym G.modulesSym).flagValid →
      T.Advances G r σ (calcSym G.modulesSym σ) ∧
        ((calcSym G.modulesSym σ).sym G.modulesSym).curr = T.view σ G.modulesSym := fun hv => by
    have h := hcalc r G.modulesSym σ hσ (.inl hv)
    exact ⟨h.advances, by rw [h.advances.curr hv, view_of_valid hv]⟩
  unfold symGetStringValue SymbolTable.stringIn
  rw [view_of_valid hs]
  cases ht : G.type s with
  | boolean =>
    obtain ⟨hadv, hcurr⟩ := hmod (hm (.inl ht))
    cases htri : (σ.sym s).curr.tri with
    | no => exact ⟨.refl, rfl⟩
    | yes => exact ⟨.refl, rfl⟩
    | mod => exact ⟨hadv, by simp only [hcurr]⟩
  | tristate =>
    obtain ⟨hadv, hcurr⟩ := hmod (hm (.inr ht))
    cases htri : (σ.sym s).curr.tri with
    | no => exact ⟨.refl, rfl⟩
    | yes => exact ⟨.refl, rfl⟩
    | mod => exact ⟨hadv, by simp only [hcurr]⟩
  | unknown | int | hex | string | other => exact ⟨.refl, rfl⟩

/-- A symbol that is called for is evaluated to its value in the view. -/
theorem Computes.calc (hcalc : T.Computes G n calcSym) (hσ : T.Ready G r n σ) {s : ι}
    (hs : T.Callable G r σ s) :
    T.Evaluates G r [s] σ (calcSym s σ) ∧ ((calcSym s σ).sym s).curr = T.view σ s := by
  have h := hcalc r s σ hσ hs
  refine ⟨h, ?_⟩
  rw [← view_of_valid (T := T) (h.valid s (List.mem_singleton_self s)), h.advances.view]

theorem comparedStrings_spec (hcalc : T.Computes G n calcSym) (hσ : T.Ready G r n σ) {s t : ι}
    (hl : ∀ u ∈ s :: t :: (if G.comparesTristate s t then [G.modulesSym] else []),
      T.Callable G r σ u) :
    T.Evaluates G r (s :: t :: if G.comparesTristate s t then [G.modulesSym] else []) σ
        (comparedStrings G calcSym s t σ).2 ∧
      (comparedStrings G calcSym s t σ).1 =
        (G.stringIn (T.view σ) s, G.stringIn (T.view σ) t) := by
  obtain ⟨h1, -⟩ := hcalc.calc hσ (hl s (by simp))
  have hσ1 := hσ.advance h1.advances
  obtain ⟨h2, -⟩ := hcalc.calc hσ1 ((hl t (by simp)).advance h1.advances)
  have hσ2 := hσ1.advance h2.advances
  have h12 : T.Evaluates G r [s, t] σ (calcSym t (calcSym s σ)) := h1.append h2
  have hmod : G.comparesTristate s t = true → (σ.sym G.modulesSym).flagValid :=
    fun hc => (hl G.modulesSym (by simp [hc])).valid_modules
  obtain ⟨h3, hs⟩ := symGetStringValue_spec hcalc hσ2 (h12.valid s (by simp)) fun ht =>
    h12.advances.valid _ (hmod (by
      rcases ht with ht | ht <;> simp [SymbolTable.comparesTristate, ht]))
  have hσ3 := hσ2.advance h3
  obtain ⟨h4, ht⟩ := symGetStringValue_spec hcalc hσ3 (h3.valid t (h12.valid t (by simp)))
    fun ht => h3.valid _ (h12.advances.valid _ (hmod (by
      rcases ht with ht | ht <;> simp [SymbolTable.comparesTristate, ht])))
  refine ⟨⟨h12.advances.trans (h3.trans h4), ?_⟩, ?_⟩
  · intro u hu
    rcases List.mem_cons.mp hu with rfl | hu
    · exact h4.valid _ (h3.valid _ (h12.valid _ (by simp)))
    rcases List.mem_cons.mp hu with rfl | hu
    · exact h4.valid _ (h3.valid _ (h12.valid _ (by simp)))
    · split at hu
      · next hc =>
        cases List.mem_singleton.mp hu
        exact h4.valid _ (h3.valid _ (h12.advances.valid _ (hmod hc)))
      · cases hu
  · exact Prod.ext (by rw [← h12.advances.view, ← hs]; rfl)
      (by rw [← h12.advances.view, ← h3.view, ← ht]; rfl)

theorem exprCalc_spec (hcalc : T.Computes G n calcSym) {e : Expr ι} (hσ : T.Ready G r n σ)
    (hl : ∀ u ∈ G.exprReads e, T.Callable G r σ u) :
    T.Evaluates G r (G.exprReads e) σ (exprCalc G calcSym e σ).2 ∧
      (exprCalc G calcSym e σ).1 = G.exprIn (T.view σ) e := by
  induction e generalizing σ with
  | symbol s =>
    obtain ⟨h, hv⟩ := hcalc.calc hσ (hl s (by simp [SymbolTable.exprReads]))
    exact ⟨h, congrArg Value.tri hv⟩
  | not e ih =>
    obtain ⟨h, hv⟩ := ih hσ hl
    exact ⟨h, congrArg exprNot hv⟩
  | equal s t =>
    obtain ⟨h, hv⟩ := comparedStrings_spec hcalc hσ hl
    exact ⟨h, by simp only [exprCalc, hv, SymbolTable.exprIn]⟩
  | unequal s t =>
    obtain ⟨h, hv⟩ := comparedStrings_spec hcalc hσ hl
    exact ⟨h, by simp only [exprCalc, hv, SymbolTable.exprIn]⟩
  | and a b iha ihb =>
    obtain ⟨ha, hva⟩ := iha hσ fun u hu => hl u (List.mem_append_left _ hu)
    obtain ⟨hb, hvb⟩ := ihb (hσ.advance ha.advances) fun u hu =>
      (hl u (List.mem_append_right _ hu)).advance ha.advances
    refine ⟨ha.append hb, ?_⟩
    simp only [exprCalc, hva, hvb, ha.advances.view, SymbolTable.exprIn, Tristate.exprAnd_eq_min]
  | or a b iha ihb =>
    obtain ⟨ha, hva⟩ := iha hσ fun u hu => hl u (List.mem_append_left _ hu)
    obtain ⟨hb, hvb⟩ := ihb (hσ.advance ha.advances) fun u hu =>
      (hl u (List.mem_append_right _ hu)).advance ha.advances
    refine ⟨ha.append hb, ?_⟩
    simp only [exprCalc, hva, hvb, ha.advances.view, SymbolTable.exprIn, Tristate.exprOr_eq_max]

theorem exprCalcValue_spec (hcalc : T.Computes G n calcSym) {e : Option (Expr ι)}
    (hσ : T.Ready G r n σ) (hl : ∀ u ∈ G.condReads e, T.Callable G r σ u) :
    T.Evaluates G r (G.condReads e) σ (exprCalcValue G calcSym e σ).2 ∧
      (exprCalcValue G calcSym e σ).1 = G.condIn (T.view σ) e := by
  cases e with
  | none => exact ⟨.nil .refl, rfl⟩
  | some e => exact exprCalc_spec hcalc hσ hl

theorem revDepValue_spec (hcalc : T.Computes G n calcSym) {e : Option (Expr ι)}
    (hσ : T.Ready G r n σ) (hl : ∀ u ∈ G.condReads e, T.Callable G r σ u) :
    T.Evaluates G r (G.condReads e) σ (revDepValue G calcSym e σ).2 ∧
      (revDepValue G calcSym e σ).1 = G.revDepValueIn (T.view σ) e := by
  cases e with
  | none => exact ⟨.nil .refl, rfl⟩
  | some e => exact exprCalc_spec hcalc hσ hl

/-- The loop stops at the first property it takes, so it does not evaluate every condition. -/
theorem firstVisibleProp_spec (hcalc : T.Computes G n calcSym) {props : List (Property ι)}
    (hσ : T.Ready G r n σ)
    (hl : ∀ u ∈ props.flatMap fun p => G.condReads p.visible, T.Callable G r σ u) :
    T.Advances G r σ (firstVisibleProp G calcSym props σ).2 ∧
      (firstVisibleProp G calcSym props σ).1 = G.firstIn (T.view σ) props := by
  induction props generalizing σ with
  | nil => exact ⟨.refl, rfl⟩
  | cons p props ih =>
    obtain ⟨h, hv⟩ := exprCalcValue_spec hcalc hσ fun u hu =>
      hl u (by rw [List.flatMap_cons]; exact List.mem_append_left _ hu)
    obtain ⟨h', hv'⟩ := ih (hσ.advance h.advances) fun u hu =>
      (hl u (by rw [List.flatMap_cons]; exact List.mem_append_right _ hu)).advance h.advances
    rw [firstVisibleProp, SymbolTable.firstIn]
    simp only [hv]
    split
    · exact ⟨h.advances, rfl⟩
    · exact ⟨h.advances.trans h', by rw [hv', h.advances.view]⟩

/-! ### Visibility -/

theorem symGetType_eq_typeIn {s : ι} (h : T.Seen G σ s .visible) :
    symGetType G σ s = G.typeIn σ.modulesVal (G.visibleIn σ.modulesVal (T.view σ) s) s := by
  have hv : (σ.sym s).visible = G.visibleIn σ.modulesVal (T.view σ) s := h.cache
  rw [← hv]
  rfl

variable [DecidableEq ι]

theorem promptsVisible_spec (hcalc : T.Computes G n calcSym) {s : ι} {i : ℕ}
    {props : List (Property ι)} {v : Tristate} (hσ : T.Ready G r n σ)
    (hl : ∀ u ∈ props.flatMap fun p => G.condReads p.visible, T.Callable G r σ u) :
    T.Evaluates G r (props.flatMap fun p => G.condReads p.visible) σ
        (promptsVisible G calcSym s i props v σ).2 ∧
      (promptsVisible G calcSym s i props v σ).1 = G.promptsIn (T.view σ) props v := by
  induction props generalizing σ i v with
  | nil => exact ⟨.nil .refl, rfl⟩
  | cons p props ih =>
    obtain ⟨h, hv⟩ := exprCalcValue_spec hcalc hσ fun u hu =>
      hl u (by rw [List.flatMap_cons]; exact List.mem_append_left _ hu)
    have hstore : T.Advances G r (exprCalcValue G calcSym p.visible σ).2
        ((exprCalcValue G calcSym p.visible σ).2.modify s fun st => { st with
          promptTri := Function.update st.promptTri i (exprCalcValue G calcSym p.visible σ).1 }) := by
      apply advances_modify_same
      · exact ⟨fun _ => rfl, fun _ => rfl, fun _ => rfl, fun _ => rfl⟩
      · intro st k
        cases k <;> rfl
    have h1 := h.trans hstore
    obtain ⟨h', hv'⟩ := ih (i := i + 1) (v := exprOr v (exprCalcValue G calcSym p.visible σ).1)
      (hσ.advance h1.advances) fun u hu =>
        (hl u (by rw [List.flatMap_cons]; exact List.mem_append_right _ hu)).advance h1.advances
    rw [promptsVisible, SymbolTable.promptsIn, List.flatMap_cons]
    refine ⟨h1.append h', hv'.trans ?_⟩
    rw [h1.advances.view, hv, Tristate.exprOr_eq_max]

/-- A cache that is set to the value of its equation is up to date from then on. -/
theorem advances_setCache {s : ι} {k : Cache} {v : Tristate}
    (hreads : ∀ u ∈ G.cacheReads s k, (σ.sym u).flagValid)
    (hv : v = G.cacheIn σ.modulesVal (T.view σ) s k) :
    T.Advances G r σ (σ.modify s fun st => st.setCache k v) ∧
      T.Seen G (σ.modify s fun st => st.setCache k v) s k := by
  have hf : CacheUpdate fun st : SymState ι => st.setCache k v := setCache_cacheUpdate k v
  refine ⟨advances_modify hf fun k' hk' => ?_, fun u hu => ?_, ?_⟩
  · rw [SymState.cache_setCache]
    split
    · next hkk => rw [hkk, hv]
    · exact hk'
  · rw [flagValid_modify hf]
    exact hreads u hu
  · rw [State.modify_sym_self, SymState.cache_setCache, if_pos rfl, view_modify hf]
    exact hv

theorem calcValDep_spec (hcalc : T.Computes G n calcSym) {s : ι} {i : ℕ}
    {esvs : List (SelectValue ι)} (hi : (G.symbol s).valDep.drop i = esvs) (hσ : T.Ready G r n σ)
    (hl : ∀ u ∈ esvs.flatMap fun esv => G.exprReads esv.expr, T.Callable G r σ u)
    (hs : T.Seen G σ s .visible) :
    T.Evaluates G r (esvs.flatMap fun esv => G.exprReads esv.expr) σ
        (calcValDep G calcSym s i esvs σ) ∧
      ∀ j, i ≤ j → j < (G.symbol s).valDep.length →
        T.Seen G (calcValDep G calcSym s i esvs σ) s (.valDep j) := by
  induction esvs generalizing σ i with
  | nil =>
    refine ⟨.nil .refl, fun j hij hj => ?_⟩
    have := List.drop_eq_nil_iff.mp hi
    omega
  | cons esv esvs ih =>
    have hesv : (G.symbol s).valDep[i]? = some esv := by
      rw [← List.head?_drop, hi, List.head?_cons]
    have hnext : (G.symbol s).valDep.drop (i + 1) = esvs := by
      rw [← List.tail_drop, hi, List.tail_cons]
    rw [List.flatMap_cons] at hl ⊢
    obtain ⟨h1, hv1⟩ := exprCalc_spec hcalc hσ fun u hu => hl u (List.mem_append_left _ hu)
    have hvis := h1.advances.seen s .visible hs
    have hreads : ∀ u ∈ G.cacheReads s (.valDep i),
        ((exprCalc G calcSym esv.expr σ).2.sym u).flagValid := fun u hu => by
      simp only [SymbolTable.cacheReads, hesv] at hu
      rcases List.mem_append.mp hu with hu | hu
      · exact hvis.reads u hu
      · exact h1.valid u hu
    obtain ⟨h2, hseen⟩ := advances_setCache (r := r) hreads (v := _) (by
      simp only [SymbolTable.cacheIn, hesv, SymbolTable.selectIn, SymbolTable.roundIn]
      rw [← symGetType_eq_typeIn hvis, h1.advances.view, ← hv1])
    obtain ⟨h3, hrest⟩ := ih hnext (hσ.advance (h1.advances.trans h2))
      (fun u hu => (hl u (List.mem_append_right _ hu)).advance (h1.advances.trans h2))
      (h2.seen s .visible hvis)
    refine ⟨(h1.trans h2).append h3, fun j hij hj => ?_⟩
    rcases Nat.eq_or_lt_of_le hij with rfl | hij
    · exact h3.advances.seen s _ hseen
    · exact hrest j hij hj

/-- `sym_calc_visibility` brings every cache of the symbol up to date. -/
theorem symCalcVisibility_spec (hcalc : T.Computes G n calcSym) {s : ι} (hσ : T.Ready G r n σ)
    (hl : ∀ u ∈ G.visReads s, T.Callable G r σ u) :
    T.Evaluates G r (G.visReads s) σ (symCalcVisibility G calcSym s σ) ∧
      ∀ k, HasCache G s k → T.Seen G (symCalcVisibility G calcSym s σ) s k := by
  obtain ⟨hl, hlval⟩ := List.forall_mem_append.mp hl
  obtain ⟨hl, hlrev⟩ := List.forall_mem_append.mp hl
  obtain ⟨hlprompt, hldir⟩ := List.forall_mem_append.mp hl
  obtain ⟨h1, hv1⟩ := promptsVisible_spec (v := .no) hcalc hσ hlprompt
  obtain ⟨h2, hvis⟩ := advances_setCache (r := r) (k := .visible) (v := _) h1.valid (by
    simp only [SymbolTable.cacheIn, SymbolTable.visibleIn]
    rw [h1.advances.view, ← hv1])
  have h12 := h1.trans h2
  obtain ⟨h3, hv3⟩ := exprCalcValue_spec hcalc (hσ.advance h12.advances) fun u hu =>
    (hldir u hu).advance h12.advances
  obtain ⟨h4, hdir⟩ := advances_setCache (r := r) (k := .dirDep) (v := _) h3.valid (by
    simp only [SymbolTable.cacheIn, SymbolTable.dirDepIn]
    rw [h3.advances.view, ← hv3])
  have h14 := h12.append (h3.trans h4)
  obtain ⟨h5, hv5⟩ := revDepValue_spec hcalc (hσ.advance h14.advances) fun u hu =>
    (hlrev u hu).advance h14.advances
  have hvis5 := h5.advances.seen s _ (h4.seen s _ (h3.advances.seen s _ hvis))
  obtain ⟨h6, hrev⟩ := advances_setCache (r := r) (k := .revDep) (v := _)
    (List.forall_mem_append.mpr ⟨hvis5.reads, h5.valid⟩) (by
    simp only [SymbolTable.cacheIn, SymbolTable.revDepIn, SymbolTable.roundIn]
    rw [← symGetType_eq_typeIn hvis5, h5.advances.view, ← hv5])
  have h16 := h14.append (h5.trans h6)
  obtain ⟨h7, hval⟩ := calcValDep_spec hcalc (i := 0) rfl (hσ.advance h16.advances)
    (fun u hu => (hlval u hu).advance h16.advances) (h6.seen s _ hvis5)
  refine ⟨h16.append h7, fun k hk => ?_⟩
  cases k with
  | visible => exact h7.advances.seen s _ (h6.seen s _ hvis5)
  | dirDep => exact h7.advances.seen s _ (h6.seen s _ (h5.advances.seen s _ hdir))
  | revDep => exact h7.advances.seen s _ hrev
  | valDep i => exact hval i (Nat.zero_le i) hk

end OpenADK.Kconfig.Target
