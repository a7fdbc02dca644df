import OpenADK.Kconfig.Choices

/-!
# Accepted means set

`sym_tristate_within_range` compares a value with `rev_dep.tri` and with the conditions of the
value-selects as the last evaluation left them. The next evaluation adds the values of these
selects, and a choice and its members look at one another.
-/

namespace OpenADK.Kconfig
open Tristate

/-- A value that `sym_set_tristate_value` accepts is the value that the next `sym_calc_value` gives
the symbol; a value that it rejects changes nothing. -/
structure AcceptedMeansSet {ι : Type} [DecidableEq ι] (G : SymbolTable ι) (s : ι) (val : Tristate)
    (σ : State ι) : Prop where
  accepted : (symSetTristateValue G s val σ).1 = true →
    ((symCalcValue G s (symSetTristateValue G s val σ).2).sym s).curr.tri = val
  rejected : (symSetTristateValue G s val σ).1 = false → (symSetTristateValue G s val σ).2 = σ

namespace SymbolTable
variable {ι : Type}

/-! ### What the symbol looks like when the value is accepted -/

/-- What `sym_tristate_within_range` checks. -/
structure WithinRange (G : SymbolTable ι) (s : ι) (val : Tristate) (σ : State ι) : Prop where
  visible : (σ.sym s).visible ≠ .no
  boolean : symGetType G σ s = .boolean → val ≠ .mod
  follows : G.isChoiceValue s → (σ.sym s).visible = .yes → val = .yes
  bounds : ¬(G.isChoiceValue s ∧ (σ.sym s).visible = .yes) →
    selectTri G s (σ.sym s) ≤ val ∧ val ≤ (σ.sym s).visible

section
variable {G : SymbolTable ι} {σ : State ι} {s : ι} {val : Tristate}

theorem withinRange_of_symTristateWithinRange (h : symTristateWithinRange G s val σ) :
    G.WithinRange s val σ := by
  unfold symTristateWithinRange at h
  simp only [Bool.if_false_left, Bool.and_eq_true, Bool.not_eq_eq_eq_not, Bool.not_true,
    decide_eq_false_iff_not] at h
  obtain ⟨hvis, -, hbool, -, h⟩ := h
  refine ⟨hvis, fun ht hm => hbool ⟨ht, hm⟩, fun hc hv => ?_, fun hf => ?_⟩
  · simpa [hc, hv] using h
  · simpa [if_neg hf] using h

theorem revDepTri_le_selectTri : (σ.sym s).revDepTri ≤ selectTri G s (σ.sym s) := by
  unfold selectTri
  generalize (G.symbol s).valDep.zipIdx = esvs
  generalize (σ.sym s).revDepTri = tri
  induction esvs generalizing tri with
  | nil => exact le_rfl
  | cons esv esvs ih =>
    rw [List.foldl_cons, exprOr_eq_max]
    exact (le_max_left _ _).trans (ih _)

end

/-! ### The value of the symbol on its own -/

def demandIn (G : SymbolTable ι) (mv : Tristate) (env : Env ι) (s : ι) : Tristate :=
  G.orValuesIn env (G.activeIn mv env s) .no

section
variable {G : SymbolTable ι} {mv : Tristate} {env : Env ι} {s : ι} {val d : Tristate}

theorem orValuesIn_eq_max (esvs : List (SelectValue ι)) (tri : Tristate) :
    G.orValuesIn env esvs tri = max tri (G.orValuesIn env esvs .no) := by
  unfold orValuesIn
  induction esvs generalizing tri with
  | nil => simp
  | cons esv esvs ih =>
    rw [List.foldl_cons, List.foldl_cons, ih, ih (max .no _), no_max, max_assoc]

/-- `m` is not a value of a boolean symbol, so that rounding does not reach `val` from below. -/
theorem roundIn_max_eq_iff {visible : Tristate}
    (hbool : G.typeIn mv visible s = .boolean → val ≠ .mod) :
    G.roundIn mv visible s (max val d) = val ↔ d ≤ val := by
  unfold roundIn
  by_cases ht : G.typeIn mv visible s = .boolean
  · have hval := hbool ht
    cases val with
    | mod => exact absurd rfl hval
    | no => cases d <;> simp [ht]
    | yes => simp
  · rw [if_neg fun h => ht h.2]
    exact max_eq_left_iff

variable [DecidableEq ι]

omit [DecidableEq ι] in
/-- An accepted value of the user counts in full. -/
theorem ownTristateIn_user {user : UserValue ι} (hhas : user.has)
    (hvis : G.visibleIn mv env s ≠ .no) (hrev : G.revDepIn mv env s ≤ user.value.tri)
    (hval : user.value.tri ≤ G.visibleIn mv env s) :
    G.ownTristateIn user mv env s = G.roundIn mv (G.visibleIn mv env s) s
      (max user.value.tri (G.demandIn mv env s)) := by
  rw [ownTristateIn, baseIn, if_pos ⟨hvis, hhas⟩, min_eq_left hval, max_eq_left hrev,
    orValuesIn_eq_max]
  rfl

/-- The value of a symbol that does not follow a choice is the accepted one: no value-select asks
for more, and a choice that is to be `y` has a member to pick. A choice may also fall back to `n`
from a value that the selects have raised. -/
theorem boolValueIn_user {user : UserValue ι} (hhas : user.has)
    (hfollow : ¬G.followsChoice mv env s) (hvis : G.visibleIn mv env s ≠ .no)
    (hrev : G.revDepIn mv env s ≤ user.value.tri)
    (hval : user.value.tri ≤ G.visibleIn mv env s)
    (hbool : G.typeIn mv (G.visibleIn mv env s) s = .boolean → user.value.tri ≠ .mod)
    (hpick : G.isChoice s → G.PicksMember user s) (hdef : G.isChoice s → G.DefaultsInside s) :
    (G.boolValueIn user mv env s).tri = user.value.tri ↔
      (G.demandIn mv env s ≤ user.value.tri ∧
          (G.isChoice s → user.value.tri = .yes → G.Pickable mv (memberEnv env s .yes) s)) ∨
        (G.isChoice s ∧ user.value.tri = .no ∧ ¬G.Pickable mv (memberEnv env s .yes) s ∧
          G.roundIn mv (G.visibleIn mv env s) s (G.demandIn mv env s) = .yes) := by
  have hround := roundIn_max_eq_iff (d := G.demandIn mv env s) hbool
  have htri : G.tristateIn user mv env s = G.roundIn mv (G.visibleIn mv env s) s
      (max user.value.tri (G.demandIn mv env s)) := by
    rw [tristateIn, if_neg hfollow, ownTristateIn_user hhas hvis hrev hval]
  rw [boolValueIn_tri, htri]
  by_cases hc : G.isChoice s
  · have hnone : G.pickIn user mv (memberEnv env s .yes) s = none ↔
        ¬G.Pickable mv (memberEnv env s .yes) s := pickIn_eq_none_iff (hpick hc) (hdef hc)
    by_cases hp : G.Pickable mv (memberEnv env s .yes) s
    · rw [if_neg fun h => hnone.mp h.2.2 hp, hround]
      simp [hp]
    have hp' := hnone.mpr hp
    -- without a member to pick only `n` can be reached in both ways
    have hno : user.value.tri = .no → G.roundIn mv (G.visibleIn mv env s) s
        (max user.value.tri (G.demandIn mv env s)) =
          G.roundIn mv (G.visibleIn mv env s) s (G.demandIn mv env s) := by
      intro h
      rw [h, no_max]
    by_cases hyes : G.roundIn mv (G.visibleIn mv env s) s
        (max user.value.tri (G.demandIn mv env s)) = .yes
    · rw [if_pos ⟨hc, hyes, hp'⟩]
      constructor
      · intro h
        exact .inr ⟨hc, h.symm, hp, (hno h.symm).symm.trans hyes⟩
      · rintro (⟨hle, hpick⟩ | ⟨-, h, -, -⟩)
        · exact absurd (hpick hc ((hround.mpr hle).symm.trans hyes)) hp
        · exact h.symm
    · rw [if_neg fun h => hyes h.2.1, hround]
      constructor
      · intro hle
        exact .inl ⟨hle, fun _ h => absurd ((hround.mpr hle).trans h) hyes⟩
      · rintro (h | ⟨-, h, -, hround'⟩)
        · exact h.1
        · exact absurd ((hno h).trans hround') hyes
  · simp [hc, hround]

end

/-! ### What the user has set afterwards -/

section
variable [DecidableEq ι] {G : SymbolTable ι} {σ : State ι} {s t c : ι} {val : Tristate}

theorem markVisibleSet_sym {members : List ι} (ht : t ∉ members) :
    (markVisibleSet members σ).sym t = σ.sym t := by
  unfold markVisibleSet
  induction members generalizing σ with
  | nil => rfl
  | cons m members ih =>
    rw [List.foldl_cons, ih (List.not_mem_of_not_mem_cons ht)]
    split
    · exact State.modify_sym_of_ne _ _ (List.ne_of_not_mem_cons ht)
    · rfl

/-- Setting `s` touches `s`, its choice and the other members only. -/
theorem userIn_storeUser_of_ne (hts : t ≠ s)
    (ht : ∀ c, G.isChoiceValue s → G.choiceOf s = some c → t ≠ c ∧ t ∉ G.members c) :
    userIn (G.storeUser s val σ) t = userIn σ t := by
  unfold userIn storeUser
  simp only [State.modify_sym_of_ne _ _ hts]
  split
  · next hc =>
    unfold setPick
    split
    · rw [State.modify_sym_of_ne _ _ hts]
    · next c hcs =>
      obtain ⟨htc, hmem⟩ := ht c hc.1 hcs
      rw [markVisibleSet_sym hmem, State.modify_sym_of_ne _ _ htc, State.modify_sym_of_ne _ _ hts]
  · rw [State.modify_sym_of_ne _ _ hts]

/-- Without a choice to tell, setting `s` touches `s` only. -/
theorem userIn_storeUser_plain (h : G.isChoiceValue s → val = .yes → G.choiceOf s = none) :
    userIn (G.storeUser s val σ) =
      Function.update (userIn σ) s ⟨true, { (σ.sym s).defUser with tri := val }⟩ := by
  have hpick : ∀ τ : State ι,
      (if G.isChoiceValue s ∧ val = .yes then setPick G s τ else τ) = τ := by
    intro τ
    split
    · next hc =>
      unfold setPick
      rw [h hc.1 hc.2]
    · rfl
  funext t
  unfold userIn storeUser
  simp only [hpick]
  by_cases hts : t = s
  · rw [hts, Function.update_self, State.modify_sym_self, State.modify_sym_self]
  · rw [Function.update_of_ne hts, State.modify_sym_of_ne _ _ hts, State.modify_sym_of_ne _ _ hts]

/-- The choice of a value that is set to `y` picks it. -/
theorem userIn_storeUser_choice (hv : G.isChoiceValue s) (hcs : G.choiceOf s = some c) (hc : c ≠ s)
    (hmem : c ∉ G.members c) :
    userIn (G.storeUser s .yes σ) c = ⟨true, { (σ.sym c).defUser with val := .sym s }⟩ := by
  unfold userIn storeUser
  simp only [State.modify_sym_of_ne _ _ hc, hv, and_self, if_true]
  unfold setPick
  rw [hcs]
  simp only
  rw [markVisibleSet_sym hmem, State.modify_sym_self, State.modify_sym_of_ne _ _ hc]

/-- The next `sym_calc_value` gives the symbol the value of the solution for what the user has set
by then. -/
theorem Running.exists_recomputed (hG : G.Finalized) (h : G.Stratified) (hσ : G.Running σ) (s : ι) :
    ∃ env, G.Solution (userIn σ) env ∧
      ((Kconfig.symCalcValue G s (Kconfig.symClearAllValid G σ)).sym s).curr = env s := by
  obtain ⟨env, hsol, henv⟩ := h.exists_solution hG (hσ.fresh_cleared hG) hσ.toTracked.cleared
  rw [userIn_cleared] at hsol
  exact ⟨env, hsol, ((henv [s]).2 s (.inl List.mem_cons_self)).2⟩

/-- `s` depends on `t`. -/
def Below (G : SymbolTable ι) (t s : ι) : Prop := Relation.TransGen (fun a b => a ∈ G.reads b) t s

/-- Evaluating `t` again does not change its value, also if it is a choice that still has the
`SYMBOL_DEF_USER` that `sym_calc_choice` takes from it when a visible member lacks it. -/
structure Steady (G : SymbolTable ι) (σ : State ι) (t : ι) : Prop where
  again : G.Current (userIn σ) σ t
  choice : G.isChoice t → G.Current (fun t => ⟨true, (σ.sym t).defUser⟩) σ t

/-- Evaluating again changes nothing that `s` depends on. -/
def Settled (G : SymbolTable ι) (σ : State ι) (s : ι) : Prop :=
  ∀ t ∈ G.symbolHash, G.Below t s → G.Steady σ t

/-! ### The value of the symbol when it is evaluated again -/

variable {user user' : ι → UserValue ι} {stale : ι → Prop} {env : Env ι}

/-- What `s` depends on has the same value in the next evaluation, if the user has set the same for
it. -/
theorem agree_below (hG : G.Finalized) (h : G.Stratified) (hrun : G.Running σ)
    (hu : G.PicksMembers user) (hcur : ∀ t ∈ G.symbolHash, G.Below t s → G.Current user σ t)
    (hsol : G.Solution user' env) (huser : ∀ t, G.Below t s → user t = user' t) :
    ∀ t, G.Below t s → envOf σ t = env t := by
  obtain ⟨rank, hrank⟩ := h.exists_rank hG
  intro t
  induction hn : rank t using Nat.strong_induction_on generalizing t with
  | _ n ih =>
    intro ht
    by_cases hmem : t ∈ G.symbolHash
    · have hreads : ∀ u ∈ G.reads t, envOf σ u = env u := fun u hu =>
        ih (rank u) (hn ▸ hrank u t hu) u rfl (.head hu ht)
      rw [hsol.eq hmem, ← huser t ht, show envOf σ t = _ from hcur t hmem ht]
      refine valueIn_congr (h.wellPosed hG hu t) (fun hm => ?_) hreads
      rw [hrun.modulesVal, ← hreads _ hm]
      rfl
    · rw [hsol.const hmem]
      exact (hrun.curr_const hG hmem).2

/-- A symbol that tells no choice is evaluated in the environment that was there before. -/
theorem recomputed_plain (hG : G.Finalized) (h : G.Stratified) (hrun : G.Running σ)
    (hset : G.Settled σ s) (hs : s ∈ G.symbolHash)
    (hplain : G.isChoiceValue s → val = .yes → G.choiceOf s = none) :
    ((Kconfig.symCalcValue G s (Kconfig.symClearAllValid G (G.storeUser s val σ))).sym s).curr =
      G.valueIn ⟨true, { (σ.sym s).defUser with tri := val }⟩ σ.modulesVal (envOf σ) s := by
  have hstore := hrun.edits hG (edits_storeUser hG val (s := s))
  obtain ⟨env, hsol, hcurr⟩ := hstore.exists_recomputed hG h s
  have huser := userIn_storeUser_plain (σ := σ) hplain
  have hagree : ∀ t, G.Below t s → envOf σ t = env t := by
    refine agree_below hG h hrun hrun.picksMembers (fun t ht hts => (hset t ht hts).again) hsol
      fun t ht => ?_
    rw [huser, Function.update_of_ne]
    rintro rfl
    exact h.acyclic t ht
  have hmodules : G.modulesSym ∈ G.reads s → (env G.modulesSym).tri = σ.modulesVal := fun hm => by
    rw [← hagree _ (.single hm), hrun.modulesVal]
    rfl
  have hpicks := hstore.picksMembers
  rw [huser] at hpicks
  rw [hcurr, hsol.eq hs, huser]
  have hcongr := valueIn_congr (h.wellPosed hG hpicks s) hmodules fun t ht =>
    (hagree t (.single ht)).symm
  rw [hcongr, Function.update_self]

/-- A choice that is told to pick a visible member `s` keeps its value, and picks `s` when it is
`y`. -/
theorem valueIn_repick (hG : G.Finalized) {mv : Tristate} {env : Env ι} {d v : Value ι}
    (hc : G.isChoice c) (hmem : s ∈ G.members c) (hpick : G.PicksMember ⟨true, d⟩ c)
    (hdef : G.DefaultsInside c) (hvis : G.visibleIn mv env s ≠ .no)
    (heq : env c = G.valueIn ⟨true, d⟩ mv env c)
    (hv : v = G.valueIn ⟨true, { d with val := .sym s }⟩ mv env c) :
    (v.val = .sym s ↔ (env c).tri = .yes) ∧ G.exprIn (Function.update env c v) = G.exprIn env := by
  have hpick' : G.PicksMember ⟨true, { d with val := .sym s }⟩ c := by
    intro m hm
    cases hm
    exact hmem
  by_cases ht : G.type c = .boolean ∨ G.type c = .tristate
  · rw [valueIn_tristate ht] at heq hv
    -- the pick has no part in the value before the members are looked at
    have htri : G.tristateIn ⟨true, { d with val := .sym s }⟩ mv env c =
        G.tristateIn ⟨true, d⟩ mv env c := rfl
    rw [boolValueIn, htri] at hv
    rw [boolValueIn] at heq
    by_cases hyes : G.tristateIn ⟨true, d⟩ mv env c = .yes
    · rw [if_pos ⟨hc, hyes⟩, hyes] at hv heq
      cases hp : G.pickIn ⟨true, d⟩ mv (memberEnv env c .yes) c with
      | some m =>
        rw [hp] at heq
        have htriy : (env c).tri = .yes := by rw [heq]
        have huser : G.pickIn ⟨true, { d with val := .sym s }⟩ mv (memberEnv env c .yes) c =
            some s := by
          rw [pickIn, userPickIn, visibleIn_eq (exprIn_memberEnv ht htriy)]
          simp only [if_pos hvis]
        rw [huser] at hv
        rw [hv]
        exact ⟨by simp [htriy], exprIn_update ht htriy⟩
      | none =>
        have hp' := (pickIn_eq_none_iff hpick' hdef).mpr ((pickIn_eq_none_iff hpick hdef).mp hp)
        rw [hp] at heq
        rw [hp'] at hv
        have hve : v = env c := hv.trans heq.symm
        rw [hve, Function.update_eq_self]
        exact ⟨by rw [heq]; simp, rfl⟩
    · have hne : ¬(G.isChoice c ∧ G.tristateIn ⟨true, d⟩ mv env c = .yes) := fun h => hyes h.2
      rw [if_neg hne] at hv heq
      have hve : v = env c := hv.trans heq.symm
      rw [hve, Function.update_eq_self]
      exact ⟨by rw [heq]; simp [hyes], rfl⟩
  · have hname : G.type c = .unknown ∨ G.type c = .other := by
      cases htc : G.type c with
      | unknown => exact .inl rfl
      | other => exact .inr rfl
      | boolean | tristate => simp [htc] at ht
      | int | hex | string => simp [hG.choiceType c (by simp [htc])] at hc
    rw [valueIn_named hname] at heq hv
    have hve : v = env c := hv.trans heq.symm
    rw [hve, Function.update_eq_self]
    exact ⟨by rw [heq]; simp, rfl⟩

/-- A member that is visible as `y` is `y` when its choice is. -/
theorem recomputed_member (hG : G.Finalized) (h : G.Stratified) (hrun : G.Running σ)
    (hset : G.Settled σ s) (hv : G.isChoiceValue s) (hcs : G.choiceOf s = some c)
    (hvis : G.visibleIn σ.modulesVal (envOf σ) s = .yes) :
    ((Kconfig.symCalcValue G s (Kconfig.symClearAllValid G (G.storeUser s .yes σ))).sym s).curr.tri =
      .yes ↔ (envOf σ c).tri = .yes := by
  obtain ⟨hmem, hc⟩ := hG.memberOf s c hv hcs
  obtain ⟨hs, htype, hnot⟩ := hG.memberType c s hc hmem
  have hcmem : c ∉ G.members c := fun hcm => by
    have := (hG.memberType c c hc hcm).2.2
    simp [hc] at this
  have hne : c ≠ s := by
    rintro rfl
    exact hcmem hmem
  have hstore := hrun.edits hG (edits_storeUser hG .yes (s := s))
  obtain ⟨env, hsol, hcurr⟩ := hstore.exists_recomputed hG h s
  -- the members come after the choice, so that nothing changes before it
  have hmember : ∀ m ∈ G.members c, G.Below c m := fun m hm =>
    .single (G.choiceOf_mem_reads m (hG.member c m hc hm).1 (hG.member c m hc hm).2)
  have hcs' : G.Below c s := hmember s hmem
  let user : ι → UserValue ι := Function.update (userIn σ) c ⟨true, (σ.sym c).defUser⟩
  have hpicks : G.PicksMembers user := by
    intro c' hc' m hm
    by_cases hcc : c' = c
    · rw [hcc]
      rw [hcc] at hm
      exact hrun.picks c hc m (by simpa [user, userIn] using hm)
    · exact hrun.picks c' hc' m (by simpa [user, hcc] using hm)
  have hsteady : ∀ t ∈ G.symbolHash, G.Below t s → G.Current user σ t := by
    intro t ht hts
    unfold Current
    by_cases htc : t = c
    · have := (hset t ht hts).choice (htc ▸ hc)
      simpa only [user, htc, Function.update_self, Current] using this
    · have := (hset t ht hts).again
      simpa only [user, Function.update_of_ne htc, Current] using this
  have hagree : ∀ t, G.Below t c → envOf σ t = env t := by
    refine agree_below hG h hrun hpicks (fun t ht htc => hsteady t ht (htc.trans hcs')) hsol
      fun t ht => ?_
    have htc : t ≠ c := by
      rintro rfl
      exact h.acyclic t ht
    have htm : t ∉ G.members c := fun hm => h.acyclic t (ht.trans (hmember t hm))
    have hts : t ≠ s := by
      rintro rfl
      exact htm hmem
    rw [userIn_storeUser_of_ne hts]
    · exact Function.update_of_ne htc _ _
    · intro c' _ hc'
      cases hcs.symm.trans hc'
      exact ⟨htc, htm⟩
  have hmodules : G.modulesSym ∈ G.reads c → σ.modulesVal = (env G.modulesSym).tri := fun hm => by
    rw [← hagree _ (.single hm), hrun.modulesVal]
    rfl
  have heq : envOf σ c = G.valueIn ⟨true, (σ.sym c).defUser⟩ σ.modulesVal (envOf σ) c :=
    (hset c (hG.choice_mem c hc) hcs').choice hc
  have hvalue : env c =
      G.valueIn ⟨true, { (σ.sym c).defUser with val := .sym s }⟩ σ.modulesVal (envOf σ) c := by
    have hwell := h.wellPosed hG hstore.picksMembers c
    rw [hsol.eq (hG.choice_mem c hc),
      ← valueIn_congr hwell hmodules fun t ht => hagree t (.single ht),
      userIn_storeUser_choice hv hcs hne hcmem]
  obtain ⟨hval, hexpr⟩ := valueIn_repick hG hc hmem (hrun.picks c hc) (h.defaults c hc)
    (by rw [hvis]; simp) heq hvalue
  -- the member is as visible as before, and follows the choice
  have hbelow : ∀ t ∈ G.visReads s, t ≠ c → G.Below t c := by
    intro t ht htc
    apply Relation.TransGen.single
    apply G.memberReads_subset_reads c
    simp only [memberReads, hc, if_true, List.mem_append, List.mem_filter, List.mem_flatMap]
    exact .inl ⟨⟨s, hmem, ht⟩, by simp [htc]⟩
  have hvis' : G.visibleIn (env G.modulesSym).tri env s = .yes := by
    rw [← hvis, ← visibleIn_eq hexpr]
    apply visibleIn_congr
    · intro ht
      refine (hmodules (G.memberReads_subset_reads c ?_)).symm
      simp only [memberReads, hc, if_true, List.mem_append, List.mem_flatMap]
      exact .inr ⟨s, hmem, by simp [modulesReads, ht]⟩
    · intro t ht
      by_cases htc : t = c
      · rw [htc, Function.update_self]
      · rw [Function.update_of_ne htc]
        exact (hagree t (hbelow t (G.promptReads_subset_visReads s ht) htc)).symm
  have htri : (env s).tri = if (env c).val = .sym s then .yes else .no := by
    rw [hsol.eq hs, valueIn_tristate htype, boolValueIn_tri, if_neg fun hc' => by simp [hnot] at hc',
      tristateIn, if_pos ⟨hv, hvis'⟩, hcs]
  rw [hcurr, htri, ← hval]
  simp

/-! ### Accepted values -/

/-- When an accepted value of `s` takes effect. -/
inductive TakesEffect (G : SymbolTable ι) (s : ι) (val : Tristate) (σ : State ι) : Prop
  /-- A member that is visible as `y` has a choice that is `y`. -/
  | follows (c : ι) (hv : G.isChoiceValue s) (hvis : (σ.sym s).visible = .yes)
    (hcs : G.choiceOf s = some c) (hyes : (σ.sym c).curr.tri = .yes)
  /-- No active value-select asks for more, and a choice that is set to `y` can pick a member. -/
  | own (hf : ¬(G.isChoiceValue s ∧ (σ.sym s).visible = .yes))
    (hdemand : G.demandIn σ.modulesVal (envOf σ) s ≤ val)
    (hpick : G.isChoice s → val = .yes →
      G.Pickable σ.modulesVal (memberEnv (envOf σ) s .yes) s)
  /-- A choice that the value-selects raise to `y` falls back to `n` without a member to pick. -/
  | unpicked (hf : ¬(G.isChoiceValue s ∧ (σ.sym s).visible = .yes)) (hc : G.isChoice s)
    (hno : val = .no) (hpick : ¬G.Pickable σ.modulesVal (memberEnv (envOf σ) s .yes) s)
    (hdemand : G.roundIn σ.modulesVal (σ.sym s).visible s
      (G.demandIn σ.modulesVal (envOf σ) s) = .yes)

/-- A value that the symbol has already is stored without a new evaluation. -/
theorem acceptedMeansSet_iff_recomputed (hG : G.Finalized) (hv : (σ.sym s).flagValid) :
    AcceptedMeansSet G s val σ ↔
      ((σ.sym s).curr.tri ≠ val → symTristateWithinRange G s val σ →
        ((Kconfig.symCalcValue G s (Kconfig.symClearAllValid G (G.storeUser s val σ))).sym s).curr.tri =
          val) := by
  have hedits := edits_storeUser hG val (σ := σ) (s := s)
  have heq := symSetTristateValue_eq (G := G) (σ := σ) (s := s) val
  constructor
  · intro h hne hr
    rw [if_neg fun hn => hn.2 hr, if_pos hne] at heq
    have haccepted := h.accepted
    rw [heq] at haccepted
    exact haccepted rfl
  · intro h
    by_cases hn : (σ.sym s).curr.tri ≠ val ∧ ¬symTristateWithinRange G s val σ
    · rw [if_pos hn] at heq
      refine ⟨fun ha => ?_, fun _ => ?_⟩
      · rw [heq] at ha
        cases ha
      · rw [heq]
    rw [if_neg hn] at heq
    refine ⟨fun _ => ?_, fun hr => ?_⟩
    case refine_2 =>
      rw [heq] at hr
      cases hr
    rw [heq]
    by_cases hne : (σ.sym s).curr.tri ≠ val
    · rw [if_pos hne]
      exact h hne (not_not.mp fun hr => hn ⟨hne, hr⟩)
    · rw [if_neg hne, symCalcValue_of_valid ((hedits.valid s).trans hv), hedits.curr]
      exact not_not.mp hne

/-- An accepted value of a boolean or tristate symbol that is not stale is the value it gets exactly
when it takes effect, where what the symbol depends on is settled. -/
theorem acceptedMeansSet_iff (hG : G.Finalized) (h : G.Stratified) (hσ : G.Traced user stale σ)
    (hv : (σ.sym s).flagValid) (hst : ¬stale s) (hs : s ∈ G.symbolHash)
    (ht : G.type s = .boolean ∨ G.type s = .tristate)
    (hset : (σ.sym s).curr.tri ≠ val → symTristateWithinRange G s val σ → G.Settled σ s) :
    AcceptedMeansSet G s val σ ↔
      ((σ.sym s).curr.tri ≠ val → symTristateWithinRange G s val σ → G.TakesEffect s val σ) := by
  have htracks := hσ.tracks hG h
  have hrun := htracks.toRunning
  have hfills : ∀ k, Target.HasCache G s k → Target.Fills G s k := by
    intro k hk
    exact ⟨by rcases ht with ht | ht <;> simp [ht], by rcases ht with ht | ht <;> simp [ht], hk⟩
  have hvis : (σ.sym s).visible = G.visibleIn σ.modulesVal (envOf σ) s :=
    (htracks.seen s hs hv hst _ (hfills .visible trivial)).cache
  have hrev : (σ.sym s).revDepTri = G.revDepIn σ.modulesVal (envOf σ) s :=
    (htracks.seen s hs hv hst _ (hfills .revDep trivial)).cache
  rw [acceptedMeansSet_iff_recomputed hG hv]
  refine imp_congr_right fun hne => imp_congr_right fun hr => ?_
  replace hset := hset hne hr
  have hr := withinRange_of_symTristateWithinRange hr
  by_cases hf : G.isChoiceValue s ∧ (σ.sym s).visible = .yes
  · -- a member that follows its choice can only be set to `y`
    cases hr.follows hf.1 hf.2
    have hvis' := hvis.symm.trans hf.2
    cases hcs : G.choiceOf s with
    | none =>
      have hno : G.tristateIn ⟨true, { (σ.sym s).defUser with tri := .yes }⟩ σ.modulesVal
          (envOf σ) s = .no := by
        rw [tristateIn, if_pos ⟨hf.1, hvis'⟩, hcs]
      rw [recomputed_plain hG h hrun hset hs fun _ _ => hcs, valueIn_tristate ht, boolValueIn_tri, hno]
      constructor
      · intro heq
        simp at heq
      · rintro (⟨c, -, -, hcs', -⟩ | ⟨hf', -, -⟩ | ⟨hf', -, -, -, -⟩)
        · cases hcs.symm.trans hcs'
        · exact absurd hf hf'
        · exact absurd hf hf'
    | some c =>
      rw [recomputed_member hG h hrun hset hf.1 hcs hvis']
      constructor
      · intro hyes
        exact .follows c hf.1 hf.2 hcs hyes
      · rintro (⟨c', -, -, hcs', hyes⟩ | ⟨hf', -, -⟩ | ⟨hf', -, -, -, -⟩)
        · cases hcs.symm.trans hcs'
          exact hyes
        · exact absurd hf hf'
        · exact absurd hf hf'
  · obtain ⟨hlow, hhigh⟩ := hr.bounds hf
    have hplain : G.isChoiceValue s → val = .yes → G.choiceOf s = none := by
      intro hc hyes
      rw [hyes, yes_le_iff] at hhigh
      exact absurd ⟨hc, hhigh⟩ hf
    have hpick : G.isChoice s →
        G.PicksMember ⟨true, { (σ.sym s).defUser with tri := val }⟩ s := fun hc m hm =>
      hrun.picks s hc m hm
    have hbool : symGetType G σ s = G.typeIn σ.modulesVal (σ.sym s).visible s := rfl
    have hfollow : ¬G.followsChoice σ.modulesVal (envOf σ) s := fun hfc =>
      hf ⟨hfc.1, hvis.trans hfc.2⟩
    have hle : (σ.sym s).revDepTri ≤ val := revDepTri_le_selectTri.trans hlow
    have hvisible := hr.visible
    have hboolean := hr.boolean
    rw [hrev] at hle
    rw [hbool] at hboolean
    rw [hvis] at hhigh hvisible hboolean
    have hiff : (G.boolValueIn ⟨true, { (σ.sym s).defUser with tri := val }⟩ σ.modulesVal
        (envOf σ) s).tri = val ↔ _ :=
      boolValueIn_user rfl hfollow hvisible hle hhigh hboolean hpick (h.defaults s)
    rw [recomputed_plain hG h hrun hset hs hplain, valueIn_tristate ht, hiff, ← hvis]
    constructor
    · rintro (⟨hdemand, hmember⟩ | ⟨hc, hno, hmember, hdemand⟩)
      · exact .own hf hdemand hmember
      · exact .unpicked hf hc hno hmember hdemand
    · rintro (⟨c, hc, hyes, -, -⟩ | ⟨-, hdemand, hmember⟩ | ⟨-, hc, hno, hmember, hdemand⟩)
      · exact absurd ⟨hc, hyes⟩ hf
      · exact .inl ⟨hdemand, hmember⟩
      · exact .inr ⟨hc, hno, hmember, hdemand⟩

end
end SymbolTable

/-! ### A select with a value that is larger than its condition -/

namespace SelectedModule

/-- The symbols of
```
config MODULES
	bool "modules"
	option modules
config X
	tristate "x"
	select S y
config S
	tristate "s"
```
with the constants. -/
inductive Name
  | y | m | n | modules | x | s
  deriving DecidableEq

open Name

instance : Fintype Name := ⟨{y, m, n, modules, x, s}, by intro t; cases t <;> decide⟩

def table : SymbolTable Name where
  symbolYes := y
  symbolMod := m
  symbolNo := n
  symbolHash := [modules, x, s]
  modulesSym := modules
  symbol
    | y => { name := some ['y'], type := .unknown, flagConst := true }
    | m => { name := some ['m'], type := .unknown, flagConst := true }
    | n => { name := some ['n'], type := .unknown, flagConst := true }
    | modules =>
      { name := some ['M', 'O', 'D', 'U', 'L', 'E', 'S']
        type := .boolean
        prop :=
          [{ type := .symbol, expr := .expr (.symbol modules), menu := some 1 },
            { type := .prompt, text := some ['m', 'o', 'd', 'u', 'l', 'e', 's'], menu := some 1 }] }
    | x =>
      { name := some ['X']
        type := .tristate
        prop :=
          [{ type := .symbol, expr := .expr (.symbol x), menu := some 2 },
            { type := .prompt, text := some ['x'], menu := some 2 },
            { type := .select, expr := .expr (.symbol s), menu := some 2, value := some (.symbol y) }] }
    | s =>
      { name := some ['S']
        type := .tristate
        prop :=
          [{ type := .symbol, expr := .expr (.symbol s), menu := some 3 },
            { type := .prompt, text := some ['s'], menu := some 3 }]
        valDep := [⟨.symbol x, .symbol y⟩] }

/-- `MODULES=y` and `X=m` -/
def file : Text :=
  ['M', 'O', 'D', 'U', 'L', 'E', 'S', '=', 'y', '\n', 'X', '=', 'm', '\n']

theorem finalized : table.Finalized := by decide

def rank : Name → ℕ
  | modules => 1
  | x => 2
  | s => 3
  | _ => 0

theorem not_isChoice (t : Name) : table.isChoice t = false := by cases t <;> rfl

theorem stratified : table.Stratified where
  acyclic := Ranking.acyclic_of_rank rank (by decide)
  defaults t ht := by simp [not_isChoice] at ht
  consults t ht := by cases t <;> simp [SymbolTable.isChoiceValue, table] at ht

def state : State Name :=
  symCalcList table [modules, x, s] (symCalcValue table modules
    (loadFile table file { table.initial with changeCount := 0 }).state)

def user : Name → UserValue Name :=
  SymbolTable.userIn (loadFile table file { table.initial with changeCount := 0 }).state

theorem evaluated : table.Evaluated user state :=
  .loaded 0 file .refl fun t ht => by
    rw [finalized.allSymbols] at ht
    exact ht

theorem settled (t : Name) : table.Settled state t := by
  intro u hu _
  refine ⟨?_, fun hc => by simp [not_isChoice] at hc⟩
  have huser : SymbolTable.userIn state = user := by
    funext t
    cases t <;> rfl
  rw [huser]
  exact (evaluated.computed finalized stratified).current hu

/-- `S` is set to `m`, and stays `y`. -/
theorem not_acceptedMeansSet :
    ¬∀ (G : SymbolTable Name) (user : Name → UserValue Name) (σ : State Name), G.Finalized →
      G.Stratified → G.Evaluated user σ → ∀ t ∈ G.symbolHash,
        G.type t = .boolean ∨ G.type t = .tristate → ∀ val, AcceptedMeansSet G t val σ := by
  intro h
  have hs : s ∈ table.symbolHash := by decide
  have hset := h table user state finalized stratified evaluated s hs (.inr rfl) .mod
  have hvalid := (evaluated.computed finalized stratified).valid s
  have hmod := (SymbolTable.acceptedMeansSet_iff_recomputed finalized hvalid).mp hset
    (by decide) (by decide)
  rw [SymbolTable.recomputed_plain finalized stratified (evaluated.running finalized) (settled s) hs
    fun h => by cases h] at hmod
  exact absurd hmod (by decide)

theorem acceptedMeansSet_iff_sample :
    AcceptedMeansSet table s .mod state ↔
      ((state.sym s).curr.tri ≠ .mod → symTristateWithinRange table s .mod state →
        table.TakesEffect s .mod state) :=
  SymbolTable.acceptedMeansSet_iff finalized stratified (evaluated.traced finalized)
    ((evaluated.computed finalized stratified).valid s) not_false (by decide) (.inr rfl)
    fun _ _ => settled s

end SelectedModule
end OpenADK.Kconfig
