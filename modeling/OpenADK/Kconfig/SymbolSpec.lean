import OpenADK.Kconfig.CalcSpec

/-!
# The value of one symbol

`sym_calc_value` on a symbol that has not been evaluated: once `sym_calc_visibility` has
filled the caches of the symbol (`InFrame`), each branch of `sym_calc_value` returns what the
equation of the symbol says.
-/

namespace OpenADK.Kconfig.Target
open Tristate
variable {ι : Type} {T : Target ι} {G : SymbolTable ι} {calcSym : Calc ι}
variable {r n : ℕ} {σ τ : State ι} {s : ι}

/-- `s` is being evaluated and has its caches filled. -/
structure InFrame (T : Target ι) (G : SymbolTable ι) (s : ι) (σ : State ι) : Prop where
  valid : (σ.sym s).flagValid
  seen : ∀ k, HasCache G s k → T.Seen G σ s k
  flagDefUser : (σ.sym s).flagDefUser = (T.user s).has

theorem InFrame.advance (h : T.InFrame G s σ) (h' : T.Advances G r σ τ) : T.InFrame G s τ where
  valid := h'.valid s h.valid
  seen k hk := h'.seen s k (h.seen k hk)
  flagDefUser := (h'.flagDefUser s (.inl h.valid)).trans h.flagDefUser

theorem InFrame.visible (h : T.InFrame G s σ) :
    (σ.sym s).visible = G.visibleIn σ.modulesVal (T.view σ) s := (h.seen .visible trivial).cache

theorem InFrame.revDepTri (h : T.InFrame G s σ) :
    (σ.sym s).revDepTri = G.revDepIn σ.modulesVal (T.view σ) s := (h.seen .revDep trivial).cache

theorem InFrame.valDepTri (h : T.InFrame G s σ) {i : ℕ} {esv : SelectValue ι}
    (hi : (G.symbol s).valDep[i]? = some esv) :
    (σ.sym s).valDepTri i = G.selectIn σ.modulesVal (T.view σ) s esv := by
  have hc := (h.seen (.valDep i) (List.getElem?_eq_some_iff.mp hi).1).cache
  simpa only [SymState.cache, SymbolTable.cacheIn, hi] using hc

theorem InFrame.symGetType (h : T.InFrame G s σ) :
    symGetType G σ s = G.typeIn σ.modulesVal (G.visibleIn σ.modulesVal (T.view σ) s) s :=
  symGetType_eq_typeIn (h.seen .visible trivial)

theorem filter_zipIdx {α : Type} {l : List α} {p : α → Bool} {q : ℕ → Bool}
    (h : ∀ i a, l[i]? = some a → q i = p a) :
    (l.zipIdx.filter fun e => q e.2).map Prod.fst = l.filter p := by
  have hq : l.zipIdx.filter (fun e => q e.2) = l.zipIdx.filter (p ∘ Prod.fst) := by
    apply List.filter_congr
    intro e he
    exact h e.2 e.1 (List.mem_zipIdx_iff_getElem?.mp he)
  rw [hq, ← List.filter_map, List.zipIdx_map_fst]

theorem InFrame.activeValDep [DecidableEq ι] (h : T.InFrame G s σ) :
    activeValDep G s σ = G.activeIn σ.modulesVal (T.view σ) s := by
  unfold Kconfig.activeValDep SymbolTable.activeIn
  apply filter_zipIdx (q := fun i => decide ((σ.sym s).valDepTri i ≠ .no))
  intro i esv hi
  rw [h.valDepTri hi]

/-- Entries are read one after the other, each under its own cached condition. -/
theorem orSelectValues_spec (hcalc : T.Computes G n calcSym) (hσ : T.Ready G r n σ)
    (hf : T.InFrame G s σ) {i : ℕ} {esvs : List (SelectValue ι)} {v : Tristate}
    (hi : (G.symbol s).valDep.drop i = esvs)
    (hl : ∀ u ∈ esvs.flatMap fun esv => G.exprReads esv.value, T.Callable G r σ u) :
    T.Advances G r σ (orSelectValues G calcSym s i esvs v σ).2 ∧
      (orSelectValues G calcSym s i esvs v σ).1 =
        G.orValuesIn (T.view σ)
          (esvs.filter fun esv => G.selectIn σ.modulesVal (T.view σ) s esv ≠ .no) v := by
  induction esvs generalizing σ i v with
  | nil => exact ⟨.refl, rfl⟩
  | cons esv esvs ih =>
    have hesv : (G.symbol s).valDep[i]? = some esv := by
      rw [← List.head?_drop, hi, List.head?_cons]
    have hnext : (G.symbol s).valDep.drop (i + 1) = esvs := by
      rw [← List.tail_drop, hi, List.tail_cons]
    rw [List.flatMap_cons] at hl
    obtain ⟨hl, hl'⟩ := List.forall_mem_append.mp hl
    rw [orSelectValues, hf.valDepTri hesv]
    by_cases hact : G.selectIn σ.modulesVal (T.view σ) s esv ≠ .no
    · obtain ⟨h1, hv1⟩ := exprCalc_spec hcalc hσ hl
      obtain ⟨h2, hv2⟩ := ih (v := exprOr v (exprCalc G calcSym esv.value σ).1)
        (hσ.advance h1.advances) (hf.advance h1.advances) hnext fun u hu =>
          (hl' u hu).advance h1.advances
      rw [if_pos hact]
      refine ⟨h1.advances.trans h2, ?_⟩
      rw [hv2, h1.advances.view, h1.advances.modulesVal, hv1, List.filter_cons_of_pos (by simpa),
        exprOr_eq_max]
      rfl
    · obtain ⟨h2, hv2⟩ := ih (v := v) hσ hf hnext hl'
      rw [if_neg hact, List.filter_cons_of_neg (by simpa using hact)]
      exact ⟨h2, hv2⟩

theorem propValue_spec (hcalc : T.Computes G n calcSym) {p : Property ι} (hσ : T.Ready G r n σ)
    (hl : ∀ u ∈ G.propReads p, T.Callable G r σ u) :
    T.Advances G r σ (propValue G calcSym p σ).2 ∧
      (propValue G calcSym p σ).1 = G.propValueIn (T.view σ) p := by
  unfold propValue SymbolTable.propValueIn
  unfold SymbolTable.propReads at hl
  cases hp : p.expr with
  | expr e =>
    rw [hp] at hl
    obtain ⟨h, hv⟩ := exprCalc_spec hcalc hσ hl
    exact ⟨h.advances, hv⟩
  | null | list | range => exact ⟨.refl, rfl⟩

theorem defaultCond_callable (hl : ∀ u ∈ G.defaultReads s, T.Callable G r σ u) :
    ∀ u ∈ (G.symbol s).defaults.flatMap fun p => G.condReads p.visible, T.Callable G r σ u := by
  intro u hu
  obtain ⟨p, hp, hu⟩ := List.mem_flatMap.mp hu
  exact hl u (List.mem_flatMap.mpr ⟨p, hp, List.mem_append_left _ hu⟩)

theorem symGetDefaultProp_spec (hcalc : T.Computes G n calcSym) (hσ : T.Ready G r n σ)
    (hl : ∀ u ∈ G.defaultReads s, T.Callable G r σ u) :
    T.Advances G r σ (symGetDefaultProp G calcSym s σ).2 ∧
      (symGetDefaultProp G calcSym s σ).1 = G.defaultIn (T.view σ) s :=
  firstVisibleProp_spec hcalc hσ (defaultCond_callable hl)

theorem warnUnmet_spec (hcalc : T.Computes G n calcSym) (hσ : T.Ready G r n σ)
    (hf : T.InFrame G s σ) (hl : ∀ u ∈ G.selectReads s, T.Callable G r σ u) :
    T.Advances G r σ (warnUnmet G calcSym s σ) := by
  unfold warnUnmet
  split
  · exact (orSelectValues_spec (i := 0) (v := .no) hcalc hσ hf rfl hl).1
  · exact .refl

theorem symGetRangeVal_spec (hcalc : T.Computes G n calcSym) (hσ : T.Ready G r n σ) (base : ℕ)
    (hs : T.Callable G r σ s) :
    T.Advances G r σ (symGetRangeVal G calcSym s base σ).2 ∧
      (symGetRangeVal G calcSym s base σ).1 = G.boundIn (T.view σ) base s := by
  obtain ⟨h, hv⟩ := hcalc.calc hσ hs
  refine ⟨h.advances, ?_⟩
  simp only [symGetRangeVal, SymbolTable.boundIn, hv]
  cases G.type s <;> rfl

theorem symGetRangeProp_spec (hcalc : T.Computes G n calcSym) (hσ : T.Ready G r n σ)
    (hl : ∀ u ∈ G.rangeReads s, T.Callable G r σ u) :
    T.Advances G r σ (symGetRangeProp G calcSym s σ).2 ∧
      (symGetRangeProp G calcSym s σ).1 = G.firstIn (T.view σ) (G.symbol s).ranges := by
  apply firstVisibleProp_spec hcalc hσ
  intro u hu
  obtain ⟨p, hp, hu⟩ := List.mem_flatMap.mp hu
  exact hl u (List.mem_flatMap.mpr ⟨p, hp, List.mem_append_left _ hu⟩)

variable [DecidableEq ι]

theorem defaultTristate_spec (hcalc : T.Computes G n calcSym) (hσ : T.Ready G r n σ)
    (hc : G.isChoice s = false) (hl : ∀ u ∈ G.defaultReads s, T.Callable G r σ u) :
    T.Advances G r σ (defaultTristate G calcSym s σ).2 ∧
      (defaultTristate G calcSym s σ).1 = G.defaultTristateIn (T.view σ) s := by
  obtain ⟨h1, hv1⟩ := symGetDefaultProp_spec hcalc hσ hl
  simp only [defaultTristate, SymbolTable.defaultTristateIn, hv1]
  cases hd : G.defaultIn (T.view σ) s with
  | none => exact ⟨h1, rfl⟩
  | some p =>
    have hp : p.1 ∈ (G.symbol s).defaults := SymbolTable.firstIn_mem hd
    have h2 := h1.trans (advances_setWrite (s := s))
    obtain ⟨h3, hv3⟩ := propValue_spec (p := p.1) hcalc (hσ.advance h2) fun u hu =>
      (hl u (List.mem_flatMap.mpr ⟨p.1, hp, by simp [hc, hu]⟩)).advance h2
    refine ⟨h2.trans h3, ?_⟩
    simp only [hv3, h2.view, exprAnd_eq_min]

theorem baseTristate_spec (hcalc : T.Computes G n calcSym) (hσ : T.Ready G r n σ)
    (hf : T.InFrame G s σ) (hl : ∀ u ∈ G.defaultReads s, T.Callable G r σ u) :
    T.Advances G r σ (baseTristate G calcSym s σ).2 ∧
      (baseTristate G calcSym s σ).1 = G.baseIn (T.user s) σ.modulesVal (T.view σ) s := by
  have h1 : T.Advances G r σ
      (if G.visibleIn σ.modulesVal (T.view σ) s ≠ .no then σ.setWrite s else σ) :=
    advances_ite advances_setWrite
  unfold baseTristate SymbolTable.baseIn
  simp only [hf.visible]
  generalize (if G.visibleIn σ.modulesVal (T.view σ) s ≠ .no then σ.setWrite s else σ) = σ1 at h1 ⊢
  rw [(hf.advance h1).flagDefUser, (hσ.advance h1).defUser s, exprAnd_eq_min]
  split
  · exact ⟨h1, rfl⟩
  · have h2 : T.Advances G r σ
        (if (σ1.sym s).revDepTri ≠ .no ∨ activeValDep G s σ1 ≠ [] then σ1.setWrite s else σ1) :=
      h1.trans (advances_ite advances_setWrite)
    cases hc : G.isChoice s with
    | true => exact ⟨h2, rfl⟩
    | false =>
      obtain ⟨h3, hv3⟩ := defaultTristate_spec hcalc (hσ.advance h2) hc fun u hu =>
        (hl u hu).advance h2
      refine ⟨h2.trans h3, ?_⟩
      rw [← h2.view]
      exact hv3

/-- The value of a symbol that does not follow its choice, before it is rounded. -/
theorem ownTristate_spec (hcalc : T.Computes G n calcSym) (hσ : T.Ready G r n σ)
    (hf : T.InFrame G s σ) (hl : ∀ u ∈ G.reads s, T.Callable G r σ u) :
    let base := baseTristate G calcSym s σ
    let warned := warnUnmet G calcSym s base.2
    let own := orSelectValues G calcSym s 0 (G.symbol s).valDep
      (exprOr base.1 (warned.sym s).revDepTri) warned
    T.Advances G r σ own.2 ∧
      own.1 = G.orValuesIn (T.view σ) (G.activeIn σ.modulesVal (T.view σ) s)
        (max (G.baseIn (T.user s) σ.modulesVal (T.view σ) s)
          (G.revDepIn σ.modulesVal (T.view σ) s)) := by
  intro base warned own
  have hsel : ∀ u ∈ G.selectReads s, T.Callable G r σ u :=
    fun u hu => hl u (G.selectReads_subset_reads s hu)
  obtain ⟨h1, hv1⟩ := baseTristate_spec hcalc hσ hf fun u hu =>
    hl u (G.defaultReads_subset_reads s hu)
  have h2 : T.Advances G r σ warned := h1.trans
    (warnUnmet_spec hcalc (hσ.advance h1) (hf.advance h1) fun u hu => (hsel u hu).advance h1)
  obtain ⟨h3, hv3⟩ := orSelectValues_spec (i := 0) (v := exprOr base.1 (warned.sym s).revDepTri)
    hcalc (hσ.advance h2) (hf.advance h2) rfl fun u hu => (hsel u hu).advance h2
  refine ⟨h2.trans h3, hv3.trans ?_⟩
  rw [(hf.advance h2).revDepTri, h2.view, h2.modulesVal, hv1, exprOr_eq_max]
  rfl

theorem calcTristate_spec (hcalc : T.Computes G n calcSym) (hσ : T.Ready G r n σ)
    (hf : T.InFrame G s σ) (hl : ∀ u ∈ G.reads s, T.Callable G r σ u)
    (hchoice : G.followsChoice σ.modulesVal (T.view σ) s →
      ∀ c, G.choiceOf s = some c → (σ.sym c).flagValid) :
    T.Advances G r σ (calcTristate G calcSym s σ).2 ∧
      (calcTristate G calcSym s σ).1 = G.tristateIn (T.user s) σ.modulesVal (T.view σ) s := by
  unfold calcTristate SymbolTable.tristateIn
  rw [hf.visible]
  by_cases hfollow : G.followsChoice σ.modulesVal (T.view σ) s
  · rw [if_pos hfollow, if_pos (show _ ∧ _ from hfollow)]
    cases hc : G.choiceOf s with
    | none => exact ⟨.refl, rfl⟩
    | some c =>
      simp only [view_of_valid (T := T) (hchoice hfollow c hc)]
      by_cases hpick : (σ.sym c).curr.val = .sym s
      · simp only [hpick, if_true]
        exact ⟨.refl, rfl⟩
      · simp only [hpick, if_false]
        exact ⟨.refl, rfl⟩
  · rw [if_neg hfollow, if_neg (show ¬(_ ∧ _) from hfollow)]
    obtain ⟨h, hv⟩ := ownTristate_spec hcalc hσ hf hl
    simp only [SymbolTable.ownTristateIn, SymbolTable.roundIn]
    rw [hv, (hf.advance h).symGetType, h.view, h.modulesVal]
    split
    · exact ⟨h, rfl⟩
    · exact ⟨h, hv⟩

/-! ### Strings and ranges -/

theorem calcString_spec (hcalc : T.Computes G n calcSym) (hσ : T.Ready G r n σ)
    (hf : T.InFrame G s σ) (hc : G.isChoice s = false)
    (hl : ∀ u ∈ G.reads s, T.Callable G r σ u) :
    T.Advances G r σ (calcString G calcSym s σ).2 ∧
      (calcString G calcSym s σ).1 = G.stringValueIn (T.user s) σ.modulesVal (T.view σ) s := by
  have h1 : T.Advances G r σ
      (if G.visibleIn σ.modulesVal (T.view σ) s ≠ .no then σ.setWrite s else σ) :=
    advances_ite advances_setWrite
  unfold calcString SymbolTable.stringValueIn
  simp only [hf.visible]
  generalize (if G.visibleIn σ.modulesVal (T.view σ) s ≠ .no then σ.setWrite s else σ) = σ1 at h1 ⊢
  rw [(hf.advance h1).flagDefUser, (hσ.advance h1).defUser s, (hf.advance h1).activeValDep,
    h1.view, h1.modulesVal]
  split
  · exact ⟨h1, rfl⟩
  · have hd : ∀ u ∈ G.defaultReads s, T.Callable G r σ u :=
      fun u hu => hl u (G.defaultReads_subset_reads s hu)
    cases hact : (G.activeIn σ.modulesVal (T.view σ) s).head?.bind fun esv => valueSym esv.value with
    | some ss =>
      obtain ⟨esv, hhead, hval⟩ := Option.bind_eq_some_iff.mp hact
      have hmem : esv ∈ (G.symbol s).valDep := List.mem_of_mem_filter (List.mem_of_mem_head? hhead)
      have hss : ss ∈ G.reads s := G.selectReads_subset_reads s
        (List.mem_flatMap.mpr ⟨esv, hmem, SymbolTable.valueSym_mem_exprReads hval⟩)
      have h2 := h1.trans (advances_setWrite (s := s))
      obtain ⟨h3, hv3⟩ := hcalc.calc (hσ.advance h2) ((hl ss hss).advance h2)
      exact ⟨h2.trans h3.advances, by simp only [hv3, h2.view]⟩
    | none =>
      obtain ⟨h2, hv2⟩ := symGetDefaultProp_spec hcalc (hσ.advance h1) fun u hu =>
        (hd u hu).advance h1
      simp only [hv2, h1.view]
      cases hdef : (G.defaultIn (T.view σ) s).bind fun p => propGetSymbol p.1 with
      | none => exact ⟨h1.trans h2, rfl⟩
      | some ds =>
        obtain ⟨p, hp, hds⟩ := Option.bind_eq_some_iff.mp hdef
        have hmem : p.1 ∈ (G.symbol s).defaults := SymbolTable.firstIn_mem hp
        have hreads : ds ∈ G.defaultReads s := List.mem_flatMap.mpr ⟨p.1, hmem,
          List.mem_append_right _ (by
            simpa [hc] using SymbolTable.propGetSymbol_mem_propReads hds)⟩
        have h3 := (h1.trans h2).trans (advances_setWrite (s := s))
        obtain ⟨h4, hv4⟩ := hcalc.calc (hσ.advance h3) ((hd ds hreads).advance h3)
        exact ⟨h3.trans h4.advances, by simp only [hv4, h3.view]⟩
/-- `sym_validate_range` on the value that has just been stored. -/
theorem symValidateRange_spec (hcalc : T.Computes G n calcSym) (hσ : T.Ready G r n σ)
    (hs : (σ.sym s).flagValid) (hl : ∀ u ∈ G.rangeReads s, T.Callable G r σ u) :
    T.AdvancesOff G s r σ (symValidateRange G calcSym s σ) ∧
      ((symValidateRange G calcSym s σ).sym s).curr =
        ⟨G.clampIn (T.view σ) s (σ.sym s).curr.val, (σ.sym s).curr.tri⟩ := by
  unfold symValidateRange SymbolTable.clampIn
  cases hbase : numberBase (G.type s) with
  | none => exact ⟨Advances.refl.off, rfl⟩
  | some base =>
    obtain ⟨h1, hv1⟩ := symGetRangeProp_spec hcalc hσ hl
    simp only [SymbolTable.rangeIn, hv1]
    cases hb : (G.firstIn (T.view σ) (G.symbol s).ranges).bind fun p => propRange p.1 with
    | none => exact ⟨h1.off, h1.curr hs⟩
    | some bounds =>
      obtain ⟨p, hp, hpb⟩ := Option.bind_eq_some_iff.mp hb
      have hmem : p.1 ∈ (G.symbol s).ranges := SymbolTable.firstIn_mem hp
      have hreads : ∀ u ∈ [bounds.1, bounds.2], T.Callable G r σ u := fun u hu =>
        hl u (List.mem_flatMap.mpr ⟨p.1, hmem, List.mem_append_right _ (by
          rwa [SymbolTable.propReads_of_propRange hpb])⟩)
      obtain ⟨h2, hv2⟩ := symGetRangeVal_spec hcalc (hσ.advance h1) base
        ((hreads bounds.1 (by simp)).advance h1)
      have h12 := h1.trans h2
      obtain ⟨h3, hv3⟩ := symGetRangeVal_spec hcalc (hσ.advance h12) base
        ((hreads bounds.2 (by simp)).advance h12)
      have h13 := h12.trans h3
      have hclamp : ∀ {τ : State ι} (t : Text), T.Advances G r σ τ →
          T.AdvancesOff G s r σ
            (τ.modify s fun st => { st with curr := { st.curr with val := .str t } }) ∧
          ((τ.modify s fun st => { st with curr := { st.curr with val := .str t } }).sym s).curr =
            ⟨.str t, (σ.sym s).curr.tri⟩ := fun t h => by
        constructor
        · exact h.off.trans (advancesOff_modify id (.inl (h.valid s hs)) rfl fun k => by
            cases k <;> rfl)
        · rw [State.modify_sym_self, h.curr hs]
      simp only [Option.map_some, hv2, hv3, h1.view, h12.view, h1.curr hs, ge_iff_le]
      split
      · split
        · exact ⟨h13.off, h13.curr hs⟩
        · exact hclamp _ h13
      · exact hclamp _ h12

end OpenADK.Kconfig.Target
