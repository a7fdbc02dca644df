import OpenADK.Kconfig.ChoiceSpec
import OpenADK.Library.RankedSystem
import OpenADK.Library.Acyclic
import Mathlib.Data.Fintype.Order

/-!
# Evaluation reaches the target

`sym_calc_value` gives a symbol the value of its equation: by induction on the fuel, which
the number of symbols still to be evaluated bounds. Evaluating a list of symbols therefore
ends in a state that carries the values of the target, whatever the order of the list.
-/

namespace OpenADK.Kconfig
open Tristate

namespace Target
variable {ι : Type} {T : Target ι} {G : SymbolTable ι} {calcSym : Calc ι}
variable {r n : ℕ} {σ τ : State ι} {s : ι}

theorem pending_lt (h : ∀ t, (σ.sym t).flagValid → (τ.sym t).flagValid)
    (hmem : s ∈ G.symbols) (hs : ¬(σ.sym s).flagValid) (hτ : (τ.sym s).flagValid) :
    pending G τ < pending G σ := by
  have hsub : (G.symbols.filter fun t => !(τ.sym t).flagValid).Sublist
      (G.symbols.filter fun t => !(σ.sym t).flagValid) := by
    apply List.monotone_filter_right
    intro t ht
    simp only [Bool.not_eq_eq_eq_not, Bool.not_true] at ht ⊢
    exact Bool.eq_false_iff.mpr fun hσ => by rw [h t hσ] at ht; cases ht
  refine lt_of_le_of_ne hsub.length_le fun heq => ?_
  have hin : s ∈ G.symbols.filter fun t => !(σ.sym t).flagValid :=
    List.mem_filter.mpr ⟨hmem, by simpa using hs⟩
  rw [← hsub.eq_of_length heq] at hin
  simp [hτ] at hin

theorem pending_pos (hmem : s ∈ G.symbols) (hs : ¬(σ.sym s).flagValid) : 0 < pending G σ :=
  List.length_pos_of_mem (List.mem_filter.mpr ⟨hmem, by simpa using hs⟩)

variable [DecidableEq ι]

theorem advances_markMembers {members : List ι} : T.Advances G r σ (markMembers members σ) := by
  induction members generalizing σ with
  | nil => exact .refl
  | cons m members ih => exact (advances_ite advances_setWrite).trans ih

/-- What a completed evaluation of `s` has done. -/
structure Completes (T : Target ι) (G : SymbolTable ι) (s : ι) (oldval : Value ι) (r : ℕ)
    (σ τ : State ι) : Prop where
  grows : T.GrowsOff s r σ τ
  advances : s ≠ G.modulesSym → T.AdvancesOff G s r σ τ
  valid : (τ.sym s).flagValid
  curr : (τ.sym s).curr = T.env s
  modulesVal : G.type s ≠ .unknown → G.type s ≠ .other → τ.modulesVal =
    if oldval ≠ T.env s ∧ G.modulesSym = s then (T.env s).tri else σ.modulesVal
  filled : ∀ t k, s ∉ G.reads t → ¬(σ.sym t).flagValid → (τ.sym t).flagValid → Fills G t k →
    T.Seen G τ t k

omit [DecidableEq ι] in
/-- A change of `modules_val` leaves the caches up to date that do not depend on it. -/
theorem Seen.modulesVal {t : ι} {k : Cache} (h : T.Seen G σ t k) (hsym : τ.sym = σ.sym)
    (hmv : G.type t = .tristate → σ.modulesVal = τ.modulesVal) : T.Seen G τ t k where
  reads u hu := by rw [hsym]; exact h.reads u hu
  cache := by
    have hview : T.view τ = T.view σ := by
      funext u
      simp only [view, hsym]
    rw [hsym, hview, h.cache]
    exact SymbolTable.cacheIn_congr k hmv fun _ _ => rfl

theorem not_mem_cacheReads {t : ι} {k : Cache} (h : s ∉ G.reads t) : s ∉ G.cacheReads t k :=
  fun hmem => h (G.visReads_subset_reads t (G.cacheReads_subset_visReads t k hmem))

theorem ne_modulesSym_of_not_mem {t : ι} (h : s ∉ G.reads t) (ht : G.type t = .tristate) :
    s ≠ G.modulesSym := by
  rintro rfl
  exact h (G.modulesReads_subset_reads t (by simp [SymbolTable.modulesReads, ht]))

/-- The end of `sym_calc_value`, once the value is final. -/
theorem finishCalc_spec {oldval : Value ι} (h : T.AdvancesOff G s r σ τ)
    (hvalid : (τ.sym s).flagValid) (hcurr : (τ.sym s).curr = T.env s)
    (hself : ∀ k, s ∉ G.reads s → Fills G s k → T.Seen G τ s k) :
    T.Completes G s oldval r σ (finishCalc G s oldval τ) := by
  unfold finishCalc
  rw [hcurr]
  simp only
  -- the modules value changes for the `modules` symbol only
  generalize hmod : (if oldval ≠ T.env s ∧ G.modulesSym = s then
    { τ with modulesVal := (T.env s).tri } else τ) = τ1
  have hsym : τ1.sym = τ.sym := by
    rw [← hmod]
    split <;> rfl
  have hval : τ1.modulesVal =
      if oldval ≠ T.env s ∧ G.modulesSym = s then (T.env s).tri else σ.modulesVal := by
    rw [← hmod, ← h.modulesVal]
    split <;> rfl
  have hsame : s ≠ G.modulesSym → τ1 = τ := fun hs => by
    rw [← hmod, if_neg fun hm => hs hm.2.symm]
  have h2 : T.Advances G r τ1
      (if G.isChoice s ∧ (τ1.sym s).flagWrite then markMembers (G.members s) τ1 else τ1) :=
    advances_ite advances_markMembers
  have h3 := h2.trans (advances_ite (c := (G.symbol s).flagAuto) (advances_flagWrite false (s := s)))
  have hvalid1 : (τ1.sym s).flagValid := by rw [hsym]; exact hvalid
  have hgrow : T.GrowsOff s r σ τ1 := by
    have hg := h.toGrowsOff
    have hview : T.view τ1 = T.view τ := by
      funext t
      simp only [view, hsym]
    exact ⟨fun t ht => by rw [hsym]; exact hg.valid t ht, fun t ht => by rw [hview, hg.view t ht],
      fun t ht => hg.below t (by rwa [hsym] at ht), fun t => by rw [hsym, hg.defUser t],
      fun t hts ht => by rw [hsym] at ht ⊢; exact hg.flagDefUser t hts ht⟩
  exact
    { grows := hgrow.trans h3.off.toGrowsOff
      advances := fun hs => ((hsame hs).symm ▸ h).trans h3.off
      valid := h3.valid s hvalid1
      curr := by rw [h3.curr hvalid1, hsym, hcurr]
      modulesVal := fun _ _ => by rw [h3.modulesVal, hval]
      filled := fun t k hst hσ hυ hk => by
        by_cases hτ : (τ1.sym t).flagValid
        · have hseen : T.Seen G τ t k := by
            rw [hsym] at hτ
            by_cases hts : t = s
            · exact hts ▸ hself k (hts ▸ hst) (hts ▸ hk)
            · exact h.filled t k hts (not_mem_cacheReads hst) hσ hτ hk
          refine h3.seen t k (hseen.modulesVal hsym fun ht => ?_)
          rw [hsame (ne_modulesSym_of_not_mem hst ht)]
        · exact h3.filled t k hτ hυ hk }

/-- `sym->curr = newval`, with the pick of a choice that is `y`. -/
theorem storeValue_spec (hcalc : T.Computes G n calcSym) (hr : r ≤ T.rank s)
    (hσ : T.Ready G r n σ) (hs : (σ.sym s).flagValid) (newval : Value ι)
    (hpick : G.isChoice s → G.PicksMember (T.user s) s)
    (hdef : G.isChoice s → G.DefaultsInside s)
    (hl : ∀ u ∈ G.reads s, u ≠ s ∧ T.Callable G r σ u)
    (hmem : G.isChoice s → ∀ m ∈ G.members s, ∀ u ∈ G.visReads m, T.Callable G r σ u) :
    T.AdvancesOff G s r σ (storeValue G calcSym s newval σ) ∧
      ((storeValue G calcSym s newval σ).sym s).flagValid ∧
      ((storeValue G calcSym s newval σ).sym s).curr =
        let v : Value ι :=
          if G.isChoice s ∧ newval.tri = .yes then
            match G.pickIn (T.user s) σ.modulesVal (Function.update (T.view σ) s newval) s with
            | some m => ⟨.sym m, .yes⟩
            | none => ⟨.null, .no⟩
          else newval
        ⟨G.clampIn (T.view σ) s v.val, v.tri⟩ := by
  have h1 : T.AdvancesOff G s r σ (σ.modify s fun st => { st with curr := newval }) :=
    advancesOff_modify id (.inl hs) rfl fun k => by cases k <;> rfl
  have hview1 : T.view (σ.modify s fun st => { st with curr := newval }) =
      Function.update (T.view σ) s newval := by
    funext t
    by_cases ht : t = s
    · rw [ht, Function.update_self, view_of_valid (h1.valid s hs), State.modify_sym_self]
    · rw [Function.update_of_ne ht, h1.view t ht]
  have hcurr1 : ((σ.modify s fun st => { st with curr := newval }).sym s).curr = newval := by
    rw [State.modify_sym_self]
  unfold storeValue
  simp only
  generalize (σ.modify s fun st => { st with curr := newval }) = σ1 at h1 hview1 hcurr1 ⊢
  have hcall1 : ∀ u, T.Callable G r σ u → T.Callable G r σ1 u := fun u hu =>
    hu.imp_left (h1.valid u)
  have hs1 := h1.valid s hs
  have hσ1 := hσ.off h1 hs hr
  -- the choice picks in the state that carries the new value
  have h2 : T.AdvancesOff G s r σ
        (if G.isChoice s ∧ newval.tri = .yes then symCalcChoice G calcSym s σ1 else σ1) ∧
      ((if G.isChoice s ∧ newval.tri = .yes then symCalcChoice G calcSym s σ1 else σ1).sym s).curr =
        if G.isChoice s ∧ newval.tri = .yes then
          match G.pickIn (T.user s) σ.modulesVal (Function.update (T.view σ) s newval) s with
          | some m => ⟨.sym m, .yes⟩
          | none => ⟨.null, .no⟩
        else newval := by
    by_cases hyes : G.isChoice s ∧ newval.tri = .yes
    · rw [if_pos hyes, if_pos hyes]
      obtain ⟨hoff, hval⟩ := symCalcChoice_spec hcalc hr hσ1 hs1 (by rw [hcurr1, hyes.2])
        (hpick hyes.1) (hdef hyes.1) (fun m hm u hu => hcall1 u (hmem hyes.1 m hm u hu))
        fun u hu => hcall1 u (hl u (G.defaultReads_subset_reads s hu)).2
      rw [hview1, h1.modulesVal] at hval
      exact ⟨h1.trans hoff, hval⟩
    · rw [if_neg hyes, if_neg hyes]
      exact ⟨h1, hcurr1⟩
  generalize (if G.isChoice s ∧ newval.tri = .yes then symCalcChoice G calcSym s σ1 else σ1) = σ2
    at h2 ⊢
  obtain ⟨h2, hcurr2⟩ := h2
  have hs2 := h2.valid s hs
  obtain ⟨h3, hcurr3⟩ := symValidateRange_spec hcalc (hσ.off h2 hs hr) hs2 fun u hu =>
    (hl u (G.rangeReads_subset_reads s hu)).2.imp_left (h2.valid u)
  refine ⟨h2.trans h3, h3.valid s hs2, ?_⟩
  rw [hcurr3, hcurr2, SymbolTable.clampIn_congr fun t ht =>
    h2.view t (hl t (G.rangeReads_subset_reads s ht)).1]

/-! ### One symbol -/

theorem Ready.enter (hσ : T.Ready G (T.rank s) (n + 1) σ) (hs : ¬(σ.sym s).flagValid)
    (hmem : s ∈ G.symbols) :
    T.AdvancesOff G s (T.rank s + 1) σ (σ.modify s fun st => { st with flagValid := true }) ∧
      T.Ready G (T.rank s) n (σ.modify s fun st => { st with flagValid := true }) := by
  have h : T.AdvancesOff G s (T.rank s + 1) σ
      (σ.modify s fun st => { st with flagValid := true }) :=
    advancesOff_modify (fun _ => rfl) (.inr (Nat.lt_succ_self _)) rfl fun k => by cases k <;> rfl
  have hvalid : ((σ.modify s fun st => { st with flagValid := true }).sym s).flagValid = true := by
    rw [State.modify_sym_self]
  refine ⟨h, ?_⟩
  constructor
  · intro t ht
    rw [h.view t (fun hts => absurd ht (by rw [hts]; exact lt_irrefl _)), hσ.known t ht]
  · intro t
    rw [h.defUser t, hσ.defUser t]
  · intro t ht
    rw [h.flagDefUser t (fun hts => ht (hts ▸ hvalid)) (.inr ht)]
    exact hσ.flagDefUser t fun hv => ht (h.valid t hv)
  · have := pending_lt h.valid hmem hs hvalid
    have := hσ.fuel
    omega
  · rw [h.modulesVal, hσ.modulesVal]
  · exact h.hides hσ.hides
  · exact fun t ht => h.valid t (hσ.done t ht)
  · exact hσ.modules.imp_left (h.valid _)

section
variable (hT : T.Sound G) (hσ : T.Ready G (T.rank s) n σ) (hdone : ¬T.done s)
include hT hσ hdone

theorem Sound.callable : ∀ u ∈ G.reads s, u ≠ s ∧ T.Callable G (T.rank s) σ u := by
  intro u hu
  have hlt := hT.reads_lt s hdone u hu
  refine ⟨fun hus => absurd hlt (by rw [hus]; exact lt_irrefl _), ?_⟩
  by_cases hm : u = G.modulesSym
  · left
    rw [hm] at hlt ⊢
    exact hσ.modules.resolve_right (not_le.mpr hlt)
  · exact .inr ⟨hlt, hm⟩

theorem Sound.callable_members (hs : (σ.sym s).flagValid) (hc : G.isChoice s) :
    ∀ m ∈ G.members s, ∀ u ∈ G.visReads m, T.Callable G (T.rank s) σ u := by
  intro m hm u hu
  by_cases hus : u = s
  · exact .inl (hus ▸ hs)
  · apply (hT.callable hσ hdone u _).2
    apply G.memberReads_subset_reads s
    simp only [SymbolTable.memberReads, hc, if_true, List.mem_append, List.mem_filter,
      List.mem_flatMap]
    exact .inl ⟨⟨m, hm, hu⟩, by simp [hus]⟩

/-- Where the reads of `s` are known, the equation of `s` gives the value of the target. -/
theorem Sound.view_reads : ∀ t ∈ G.reads s, T.view σ t = T.env t :=
  fun t ht => hσ.known t (hT.reads_lt s hdone t ht)

theorem Sound.inFrame (hs : (σ.sym s).flagValid)
    (hcalc : T.Computes G n calcSym) (hflag : (σ.sym s).flagDefUser = (T.user s).has)
    (newval : Value ι) (write : Bool) :
    let σ1 := if G.isChoiceValue s then σ else σ.modify s fun st => { st with flagWrite := write }
    let σ2 := (symCalcVisibility G calcSym s σ1).modify s fun st => { st with curr := newval }
    T.AdvancesOff G s (T.rank s) σ σ2 ∧ T.InFrame G s σ2 ∧
      ∀ u ∈ G.visReads s, (σ2.sym u).flagValid := by
  intro σ1 σ2
  have h1 : T.Advances G (T.rank s) σ σ1 := by
    unfold σ1
    split
    · exact .refl
    · exact advances_flagWrite write
  obtain ⟨h2, hseen⟩ := symCalcVisibility_spec hcalc (hσ.advance h1) fun u hu =>
    ((hT.callable hσ hdone u (G.visReads_subset_reads s hu)).2).advance h1
  have h12 := h1.trans h2.advances
  have hs2 := h12.valid s hs
  have h3 : T.AdvancesOff G s (T.rank s) (symCalcVisibility G calcSym s σ1) σ2 :=
    advancesOff_modify id (.inl hs2) rfl fun k => by cases k <;> rfl
  refine ⟨h12.off.trans h3, ⟨h3.valid s hs2, fun k hk => ?_, ?_⟩, fun u hu => h3.valid u (h2.valid u hu)⟩
  · refine h3.seen s k (fun hmem => ?_) (hseen k hk)
    exact (hT.callable hσ hdone s (G.visReads_subset_reads s
      (G.cacheReads_subset_visReads s k hmem))).1 rfl
  · unfold σ2
    rw [State.modify_sym_self, h12.flagDefUser s (.inl hs), hflag]

end

/-- The value of a boolean or tristate symbol, from the state in which its caches are filled. -/
theorem calcTristate_completes (hT : T.Sound G) (hdone : ¬T.done s) (hcalc : T.Computes G n calcSym)
    (hσ : T.Ready G (T.rank s) n σ) (hf : T.InFrame G s σ)
    (hvis : ∀ u ∈ G.visReads s, (σ.sym u).flagValid)
    (ht : G.type s = .boolean ∨ G.type s = .tristate) :
    let tri := calcTristate G calcSym s σ
    let τ := storeValue G calcSym s ⟨noCurr.val, tri.1⟩ tri.2
    T.AdvancesOff G s (T.rank s) σ τ ∧ (τ.sym s).flagValid ∧ (τ.sym s).curr = T.env s := by
  intro tri τ
  have hwp := hT.wellPosed s hdone
  have hreads := hT.view_reads hσ hdone
  have hmv : σ.modulesVal = T.modulesVal := hσ.modulesVal
  obtain ⟨h1, hv1⟩ : T.Advances G (T.rank s) σ tri.2 ∧ tri.1 = _ :=
    calcTristate_spec hcalc hσ hf (fun u hu => (hT.callable hσ hdone u hu).2)
    fun hfollow c hc => by
      refine hvis c (hT.consults s hdone ⟨hfollow.1, ?_⟩ c hc)
      rw [← hfollow.2, hmv, SymbolTable.visibleIn_congr (fun _ => rfl) fun t ht =>
        hreads t (G.visReads_subset_reads s (G.promptReads_subset_visReads s ht))]
  rw [hmv, SymbolTable.tristateIn_congr (fun _ => rfl) hreads] at hv1
  have hσ1 := hσ.advance h1
  have hs1 := h1.valid s hf.valid
  obtain ⟨h2, hvalid, hcurr⟩ := storeValue_spec hcalc le_rfl hσ1 hs1 ⟨noCurr.val, tri.1⟩
    hwp.picks hwp.defaults (hT.callable hσ1 hdone) (hT.callable_members hσ1 hdone hs1)
  refine ⟨h1.off.trans h2, hvalid, hcurr.trans ?_⟩
  have hpick : G.isChoice s → G.pickIn (T.user s) tri.2.modulesVal
        (Function.update (T.view tri.2) s ⟨noCurr.val, tri.1⟩) s =
      G.pickIn (T.user s) T.modulesVal (SymbolTable.memberEnv T.env s tri.1) s := fun hc => by
    rw [hσ1.modulesVal]
    exact SymbolTable.pickIn_memberEnv_congr tri.1 hc (hwp.picks hc) (hwp.defaults hc)
      (fun _ => rfl) (hT.view_reads hσ1 hdone)
  have henv : T.env s = G.boolValueIn (T.user s) T.modulesVal T.env s := by
    rw [← SymbolTable.valueIn_tristate ht, ← hT.solves s hdone]
  rw [henv, SymbolTable.boolValueIn, ← hv1]
  by_cases hc : G.isChoice s ∧ tri.1 = .yes
  · have hpicked := hpick hc.1
    cases h : G.pickIn (T.user s) T.modulesVal (SymbolTable.memberEnv T.env s tri.1) s with
    | none => simp only [if_pos hc, hpicked.trans h, SymbolTable.clampIn_tristate ht]
    | some m => simp only [if_pos hc, hpicked.trans h, SymbolTable.clampIn_tristate ht]
  · simp only [if_neg hc, SymbolTable.clampIn_tristate ht, noCurr]

theorem calcString_completes (hT : T.Sound G) (hdone : ¬T.done s) (hcalc : T.Computes G n calcSym)
    (hσ : T.Ready G (T.rank s) n σ) (hf : T.InFrame G s σ)
    (ht : G.type s = .int ∨ G.type s = .hex ∨ G.type s = .string) :
    let val := calcString G calcSym s σ
    let τ := storeValue G calcSym s ⟨val.1, (emptyCurr : Value ι).tri⟩ val.2
    T.AdvancesOff G s (T.rank s) σ τ ∧ (τ.sym s).flagValid ∧ (τ.sym s).curr = T.env s := by
  intro val τ
  have hwp := hT.wellPosed s hdone
  have hc : G.isChoice s = false := hwp.choiceType ht
  have hmv : σ.modulesVal = T.modulesVal := hσ.modulesVal
  obtain ⟨h1, hv1⟩ : T.Advances G (T.rank s) σ val.2 ∧ val.1 = _ :=
    calcString_spec hcalc hσ hf hc fun u hu => (hT.callable hσ hdone u hu).2
  rw [hmv, SymbolTable.stringValueIn_congr hc (fun _ => rfl) (hT.view_reads hσ hdone)] at hv1
  have hσ1 := hσ.advance h1
  have hs1 := h1.valid s hf.valid
  obtain ⟨h2, hvalid, hcurr⟩ := storeValue_spec hcalc le_rfl hσ1 hs1 ⟨val.1, (emptyCurr : Value ι).tri⟩
    hwp.picks hwp.defaults (hT.callable hσ1 hdone) (hT.callable_members hσ1 hdone hs1)
  refine ⟨h1.off.trans h2, hvalid, hcurr.trans ?_⟩
  have henv : T.env s =
      ⟨G.clampIn T.env s (G.stringValueIn (T.user s) T.modulesVal T.env s), .no⟩ := by
    rw [← SymbolTable.valueIn_string ht, ← hT.solves s hdone]
  rw [henv, ← hv1]
  simp only [hc, Bool.false_eq_true, false_and, if_false, emptyCurr]
  rw [SymbolTable.clampIn_congr fun t ht =>
    hT.view_reads hσ1 hdone t (G.rangeReads_subset_reads s ht)]

/-- `sym_calc_value` on a symbol that has not been evaluated. -/
theorem calcInvalid_spec (hT : T.Sound G) (hcalc : T.Computes G n calcSym)
    (hσ : T.Ready G (T.rank s) (n + 1) σ) (hs : ¬(σ.sym s).flagValid) :
    T.Completes G s (σ.sym s).curr (T.rank s + 1) σ
      (calcInvalid G calcSym s (σ.modify s fun st => { st with flagValid := true })) := by
  have hdone : ¬T.done s := fun hd => hs (hσ.done s hd)
  obtain ⟨h1, hσ1⟩ := hσ.enter hs (hT.complete s)
  have hs1 : ((σ.modify s fun st => { st with flagValid := true }).sym s).flagValid = true := by
    rw [State.modify_sym_self]
  have hflag : ((σ.modify s fun st => { st with flagValid := true }).sym s).flagDefUser =
      (T.user s).has := by
    rw [State.modify_sym_self]
    exact hσ.flagDefUser s hs
  have hold : ((σ.modify s fun st => { st with flagValid := true }).sym s).curr =
      (σ.sym s).curr := by
    rw [State.modify_sym_self]
  generalize (σ.modify s fun st => { st with flagValid := true }) = σ1
    at h1 hσ1 hs1 hflag hold ⊢
  have hle : T.rank s ≤ T.rank s + 1 := Nat.le_succ _
  by_cases hname : G.type s = .unknown ∨ G.type s = .other
  · have h2 : T.AdvancesOff G s (T.rank s + 1) σ1 (σ1.modify s fun st =>
        { st with curr := ⟨.str ((G.symbol s).name.getD []), .no⟩ }) :=
      advancesOff_modify id (.inl hs1) rfl fun k => by cases k <;> rfl
    rw [calcInvalid_named hname]
    refine ⟨(h1.trans h2).toGrowsOff, fun _ => h1.trans h2, h2.valid s hs1, ?_, fun h h' => ?_,
      fun t k hst hσ hτ hk => ?_⟩
    · rw [State.modify_sym_self, hT.solves s hdone, SymbolTable.valueIn_named hname]
    · exact absurd hname (by simp [h, h'])
    · refine (h1.trans h2).filled t k ?_ (not_mem_cacheReads hst) hσ hτ hk
      rintro rfl
      exact hname.elim hk.1 hk.2.1
  by_cases htri : G.type s = .boolean ∨ G.type s = .tristate
  · obtain ⟨h2, hf, hvis⟩ := hT.inFrame hσ1 hdone hs1 hcalc hflag noCurr false
    obtain ⟨h3, hvalid, hcurr⟩ := calcTristate_completes hT hdone hcalc
      (hσ1.off h2 hs1 le_rfl) hf hvis htri
    rw [calcInvalid_tristate htri, hold]
    exact finishCalc_spec (h1.trans ((h2.trans h3).mono hle)) hvalid hcurr fun k hst hk =>
      h3.seen s k (not_mem_cacheReads hst) (hf.seen k hk.2.2)
  · have hstr : G.type s = .int ∨ G.type s = .hex ∨ G.type s = .string := by
      cases ht : G.type s <;> simp [ht] at hname htri ⊢
    obtain ⟨h2, hf, -⟩ := hT.inFrame hσ1 hdone hs1 hcalc hflag emptyCurr false
    obtain ⟨h3, hvalid, hcurr⟩ := calcString_completes hT hdone hcalc
      (hσ1.off h2 hs1 le_rfl) hf hstr
    rw [calcInvalid_string hstr, hold]
    exact finishCalc_spec (h1.trans ((h2.trans h3).mono hle)) hvalid hcurr fun k hst hk =>
      h3.seen s k (not_mem_cacheReads hst) (hf.seen k hk.2.2)

/-! ### Runs -/

/-- Every level of the recursion computes the symbols it may be called for. -/
theorem computes_symCalcFuel (hT : T.Sound G) : T.Computes G n (symCalcFuel G n) := by
  induction n with
  | zero =>
    intro r s σ hσ _
    have hs : (σ.sym s).flagValid := by
      by_contra hs
      have := pending_pos (hT.complete s) hs
      have := hσ.fuel
      omega
    exact ⟨.refl, fun t ht => by cases List.mem_singleton.mp ht; exact hs⟩
  | succ n ih =>
    intro r s σ hσ hcall
    rw [symCalcFuel, symCalcStep]
    by_cases hs : (σ.sym s).flagValid
    · rw [if_pos hs]
      exact ⟨.refl, fun t ht => by cases List.mem_singleton.mp ht; exact hs⟩
    · rw [if_neg hs]
      obtain ⟨hlt, hm⟩ := hcall.resolve_left hs
      have h := calcInvalid_spec hT ih (hσ.mono hlt.le) hs
      refine ⟨((h.advances hm).mono hlt).close hs h.valid h.curr fun t k hσt hτ hk => ?_,
        fun t ht => ?_⟩
      · -- what was evaluated on the way ranks no higher than `s` and does not read it
        refine h.filled t k (fun hmem => ?_) hσt hτ hk
        have hreads := hT.reads_lt t (fun hd => hσt (hσ.done t hd)) s hmem
        have hbelow := (h.grows.below t hτ).resolve_left hσt
        omega
      · cases List.mem_singleton.mp ht
        exact h.valid

theorem symCalcList_advances (hT : T.Sound G) {syms : List ι}
    (hσ : T.Ready G r G.symbols.length σ) (hsyms : ∀ s ∈ syms, T.Callable G r σ s) :
    T.Evaluates G r syms σ (symCalcList G syms σ) := by
  induction syms generalizing σ with
  | nil => exact .nil .refl
  | cons s syms ih =>
    have h := computes_symCalcFuel hT r s σ hσ (hsyms s List.mem_cons_self)
    have hrest := ih (hσ.advance h.advances) fun t ht =>
      (hsyms t (List.mem_cons_of_mem _ ht)).advance h.advances
    exact h.append hrest

end Target

/-! ### Targets of states -/

namespace SymbolTable
variable {ι : Type} [DecidableEq ι] (G : SymbolTable ι)

def userIn (σ : State ι) (s : ι) : UserValue ι := ⟨(σ.sym s).flagDefUser, (σ.sym s).defUser⟩

/-- A choice value whose visibility reads the choice, or that is never visible. -/
def Consults (s : ι) : Prop :=
  G.isChoiceValue s → ∀ c, G.choiceOf s = some c →
    c ∈ G.visReads s ∨ ∀ p ∈ (G.symbol s).prompts, p.visible = some (.symbol G.symbolNo)

/-- The reads among the symbols that are still to be evaluated. -/
def ReadsIn (σ : State ι) (t s : ι) : Prop :=
  t ∈ G.reads s ∧ ¬(σ.sym t).flagValid ∧ ¬(σ.sym s).flagValid

/-- The constant `n` of a running program. -/
def NoIsConstant (σ : State ι) : Prop :=
  (σ.sym G.symbolNo).flagValid ∧ (σ.sym G.symbolNo).curr.tri = .no

structure Evaluable (σ : State ι) : Prop where
  complete : ∀ s, s ∈ G.symbols
  acyclic : Ranking.Acyclic (G.ReadsIn σ)
  wellPosed : ∀ s, ¬(σ.sym s).flagValid → G.WellPosed (userIn σ s) s
  consults : ∀ s, ¬(σ.sym s).flagValid → G.Consults s
  const : G.NoIsConstant σ
  hides : G.Hides σ

/-- The right-hand sides of the equations: a symbol that has been evaluated keeps its value. -/
def equationIn (σ : State ι) (mv : Tristate) (env : Env ι) (s : ι) : Value ι :=
  if (σ.sym s).flagValid then (σ.sym s).curr else G.valueIn (userIn σ s) mv env s

def rankIn (σ : State ι) (rank : ι → ℕ) (s : ι) : ℕ :=
  if (σ.sym s).flagValid then 0 else rank s + 1

/-- The target of a state, along a ranking of what is to be evaluated. -/
def targetOf (σ : State ι) (rank : ι → ℕ) : Target ι where
  done s := (σ.sym s).flagValid
  user := userIn σ
  modulesVal := σ.modulesVal
  env := RankedSystem.solve (rankIn σ rank) (G.equationIn σ σ.modulesVal) fun _ => ⟨.null, .no⟩
  rank := rankIn σ rank

section
variable {G} {σ : State ι} {rank : ι → ℕ}

theorem rankIn_lt (hrank : ∀ t s, G.ReadsIn σ t s → rank t < rank s) {s t : ι}
    (hs : ¬(σ.sym s).flagValid) (ht : t ∈ G.reads s) : rankIn σ rank t < rankIn σ rank s := by
  unfold rankIn
  rw [if_neg hs]
  split
  · exact Nat.succ_pos _
  · next hv =>
    have := hrank t s ⟨ht, hv, hs⟩
    omega

theorem ranked_equationIn (h : G.Evaluable σ) (mv : Tristate)
    (hrank : ∀ t s, G.ReadsIn σ t s → rank t < rank s) :
    RankedSystem.Ranked (rankIn σ rank) (G.equationIn σ mv) := by
  intro s env env' henv
  unfold equationIn
  by_cases hs : (σ.sym s).flagValid
  · rw [if_pos hs, if_pos hs]
  · rw [if_neg hs, if_neg hs]
    exact valueIn_congr (h.wellPosed s hs) (fun _ => rfl) fun t ht =>
      henv t (rankIn_lt hrank hs ht)

theorem targetOf_solves (h : G.Evaluable σ) (hrank : ∀ t s, G.ReadsIn σ t s → rank t < rank s) :
    RankedSystem.Solves (G.equationIn σ σ.modulesVal) (G.targetOf σ rank).env :=
  RankedSystem.solve_solves (ranked_equationIn h _ hrank) _

theorem targetOf_env_valid (h : G.Evaluable σ)
    (hrank : ∀ t s, G.ReadsIn σ t s → rank t < rank s) {s : ι} (hs : (σ.sym s).flagValid) :
    (G.targetOf σ rank).env s = (σ.sym s).curr := by
  rw [targetOf_solves h hrank s, equationIn, if_pos hs]

theorem sound_targetOf (h : G.Evaluable σ) (hrank : ∀ t s, G.ReadsIn σ t s → rank t < rank s) :
    (G.targetOf σ rank).Sound G where
  complete := h.complete
  reads_lt s hs t ht := rankIn_lt hrank hs ht
  solves s hs := (targetOf_solves h hrank s).trans (if_neg hs)
  wellPosed := h.wellPosed
  consults s hs hf c hc := by
    rcases h.consults s hs hf.1 c hc with hmem | hno
    · exact hmem
    · refine absurd hf (not_followsChoice_of_no ?_ hno)
      rw [targetOf_env_valid h hrank h.const.1, h.const.2]

theorem view_targetOf (h : G.Evaluable σ) (hrank : ∀ t s, G.ReadsIn σ t s → rank t < rank s) :
    (G.targetOf σ rank).view σ = (G.targetOf σ rank).env := by
  funext t
  unfold Target.view
  split
  · next hv => rw [targetOf_env_valid h hrank hv]
  · rfl

theorem ready_targetOf (h : G.Evaluable σ) (hrank : ∀ t s, G.ReadsIn σ t s → rank t < rank s)
    {r : ℕ} (hm : (σ.sym G.modulesSym).flagValid ∨ r ≤ rankIn σ rank G.modulesSym) :
    (G.targetOf σ rank).Ready G r G.symbols.length σ where
  known t _ := by rw [view_targetOf h hrank]
  defUser _ := rfl
  flagDefUser _ _ := rfl
  fuel := List.length_filter_le _ _
  modulesVal := rfl
  hides := h.hides
  done _ ht := ht
  modules := hm

/-- A ranking of a state whose symbols it bounds. -/
theorem Evaluable.exists_rank (h : G.Evaluable σ) :
    ∃ rank : ι → ℕ, (∀ t s, G.ReadsIn σ t s → rank t < rank s) ∧ ∃ r, ∀ s, rankIn σ rank s < r := by
  have : Finite ι := Finite.of_surjective (fun i : Fin G.symbols.length => G.symbols.get i) fun s =>
    List.mem_iff_get.mp (h.complete s)
  obtain ⟨rank, hrank⟩ := h.acyclic.exists_rank
  refine ⟨rank, hrank, ?_⟩
  obtain ⟨r, hr⟩ := Finite.bddAbove_range (rankIn σ rank)
  exact ⟨r + 1, fun s => Nat.lt_succ_of_le (hr ⟨s, rfl⟩)⟩

/-- Once the `modules` symbol is evaluated, any list of symbols can be evaluated. -/
theorem Evaluable.exists_evaluates (h : G.Evaluable σ) (hm : (σ.sym G.modulesSym).flagValid) :
    ∃ rank : ι → ℕ, (∀ t s, G.ReadsIn σ t s → rank t < rank s) ∧ ∃ r, ∀ syms,
      (G.targetOf σ rank).Evaluates G r syms σ (symCalcList G syms σ) := by
  obtain ⟨rank, hrank, r, hr⟩ := h.exists_rank
  refine ⟨rank, hrank, r, fun syms => ?_⟩
  apply Target.symCalcList_advances (sound_targetOf h hrank)
  · exact ready_targetOf h hrank (.inl hm)
  · intro s _
    by_cases hs : s = G.modulesSym
    · exact .inl (hs ▸ hm)
    · exact .inr ⟨hr s, hs⟩

/-- Once the `modules` symbol is evaluated, evaluating any list of symbols leads to the one
solution of the equations of the state. -/
theorem Evaluable.exists_solution (h : G.Evaluable σ) (hm : (σ.sym G.modulesSym).flagValid) :
    ∃ env, RankedSystem.Solves (G.equationIn σ σ.modulesVal) env ∧
      ∀ syms, (symCalcList G syms σ).modulesVal = σ.modulesVal ∧
        ∀ s, s ∈ syms ∨ (σ.sym s).flagValid →
          ((symCalcList G syms σ).sym s).flagValid ∧ ((symCalcList G syms σ).sym s).curr = env s := by
  obtain ⟨rank, hrank, r, heval⟩ := h.exists_evaluates hm
  refine ⟨(G.targetOf σ rank).env, targetOf_solves h hrank, fun syms => ?_⟩
  have heval := heval syms
  refine ⟨heval.advances.modulesVal, fun s hs => ?_⟩
  have hvalid : ((symCalcList G syms σ).sym s).flagValid := by
    rcases hs with hs | hs
    · exact heval.valid s hs
    · exact heval.advances.valid s hs
  refine ⟨hvalid, ?_⟩
  rw [← Target.view_of_valid (T := G.targetOf σ rank) hvalid, heval.advances.view,
    view_targetOf h hrank]

end
end SymbolTable
end OpenADK.Kconfig
