import OpenADK.Kconfig.Finalized

/-!
# Evaluated configurations

When no symbol depends on itself, the equations of all symbols, the `modules` symbol among
them, have one solution for what the user has set. Evaluation from a fresh state reaches
it: first `sym_calc_value (modules_sym)`, under the old `modules_val`, then the other symbols in
any order.
-/

namespace OpenADK.Kconfig
namespace SymbolTable
variable {ι : Type}

def PicksMembers (G : SymbolTable ι) (user : ι → UserValue ι) : Prop :=
  ∀ c, G.isChoice c → G.PicksMember (user c) c

variable [DecidableEq ι]

def constCurr (G : SymbolTable ι) (s : ι) : Value ι :=
  if s = G.symbolYes then ⟨.str ['y'], .yes⟩
  else if s = G.symbolMod then ⟨.str ['m'], .mod⟩
  else noCurr

/-- The equations of all symbols for what the user has set. -/
def equations (G : SymbolTable ι) (user : ι → UserValue ι) (env : Env ι) (s : ι) : Value ι :=
  if s ∈ G.symbolHash then G.valueIn (user s) (env G.modulesSym).tri env s else G.constCurr s

def Solution (G : SymbolTable ι) (user : ι → UserValue ι) (env : Env ι) : Prop :=
  RankedSystem.Solves (G.equations user) env

/-- No symbol depends on itself, apart from the link between a choice and its members. -/
structure Stratified (G : SymbolTable ι) : Prop where
  acyclic : Ranking.Acyclic fun t s => t ∈ G.reads s
  defaults : ∀ c, G.isChoice c → G.DefaultsInside c
  consults : ∀ s, G.Consults s

/-- The states in which evaluation starts: nothing has been evaluated since the last change. -/
structure Fresh (G : SymbolTable ι) (σ : State ι) : Prop extends G.Started σ where
  invalid : ∀ s ∈ G.symbolHash, ¬(σ.sym s).flagValid

section
variable {G : SymbolTable ι} {user user' : ι → UserValue ι} {env env' : Env ι} {σ τ : State ι}
variable {rank : ι → ℕ}

theorem Solution.eq (h : G.Solution user env) {s : ι} (hs : s ∈ G.symbolHash) :
    env s = G.valueIn (user s) (env G.modulesSym).tri env s := (h s).trans (if_pos hs)

theorem Solution.const (h : G.Solution user env) {s : ι} (hs : s ∉ G.symbolHash) :
    env s = G.constCurr s := (h s).trans (if_neg hs)

theorem Stratified.wellPosed (h : G.Stratified) (hG : G.Finalized) (hu : G.PicksMembers user)
    (s : ι) : G.WellPosed (user s) s where
  defaults := h.defaults s
  picks := hu s
  choiceType := hG.choiceType s

theorem Stratified.exists_rank (h : G.Stratified) (hG : G.Finalized) :
    ∃ rank : ι → ℕ, ∀ t s, t ∈ G.reads s → rank t < rank s := by
  have : Finite ι := Finite.of_surjective (fun i : Fin G.symbols.length => G.symbols.get i) fun s =>
    List.mem_iff_get.mp (hG.complete s)
  exact h.acyclic.exists_rank

theorem ranked_equations (h : G.Stratified) (hG : G.Finalized) (hu : G.PicksMembers user)
    (hrank : ∀ t s, t ∈ G.reads s → rank t < rank s) :
    RankedSystem.Ranked rank (G.equations user) := by
  intro s env env' henv
  unfold equations
  split
  · exact valueIn_congr (h.wellPosed hG hu s) (fun hm => by rw [henv _ (hrank _ _ hm)])
      fun t ht => henv t (hrank t s ht)
  · rfl

/-- What the user has set determines the values. -/
theorem Solution.unique (hG : G.Finalized) (h : G.Stratified) (hu : G.PicksMembers user)
    (hs : G.Solution user env) (hs' : G.Solution user env') : env = env' := by
  obtain ⟨rank, hrank⟩ := h.exists_rank hG
  exact RankedSystem.Solves.unique (ranked_equations h hG hu hrank) hs hs'

/-- What the user set for symbols of higher rank has no influence. -/
theorem Solution.agree (hG : G.Finalized) (h : G.Stratified) (hu : G.PicksMembers user)
    (hrank : ∀ t s, t ∈ G.reads s → rank t < rank s) (hs : G.Solution user env)
    (hs' : G.Solution user' env') {n : ℕ} (huser : ∀ t, rank t < n → user t = user' t) :
    ∀ t, rank t < n → env t = env' t := by
  apply RankedSystem.Solves.agree (ranked_equations h hG hu hrank) _ hs hs'
  intro t ht env
  rw [equations, equations, huser t ht]

omit [DecidableEq ι] in
theorem Started.picksMembers (h : G.Started σ) : G.PicksMembers (userIn σ) := h.picks

theorem Started.curr_const (hG : G.Finalized) (h : G.Started σ) {s : ι} (hs : s ∉ G.symbolHash) :
    (σ.sym s).flagValid ∧ (σ.sym s).curr = G.constCurr s := by
  have hmem := hG.complete s
  simp only [symbols, List.mem_cons, hs, or_false] at hmem
  unfold constCurr
  by_cases hyes : s = G.symbolYes
  · rw [if_pos hyes, hyes]
    exact ⟨h.yes_valid, h.yes_curr⟩
  rw [if_neg hyes]
  by_cases hmod : s = G.symbolMod
  · rw [if_pos hmod, hmod]
    exact ⟨h.mod_valid, h.mod_curr⟩
  rw [if_neg hmod]
  rcases hmem with hmem | hmem | hmem
  · exact absurd hmem hyes
  · exact absurd hmem hmod
  · rw [hmem]
    exact ⟨h.no_valid, h.no_curr⟩

theorem Stratified.evaluable (h : G.Stratified) (hG : G.Finalized) (hσ : G.Started σ) :
    G.Evaluable σ where
  complete := hG.complete
  acyclic := h.acyclic.mono fun _ _ hts => hts.1
  wellPosed s _ := h.wellPosed hG hσ.picksMembers s
  consults s _ := h.consults s
  const := ⟨hσ.no_valid, by rw [hσ.no_curr]; rfl⟩
  hides := hσ.hides

/-! ### The `modules` symbol comes first -/

/-- What evaluating the `modules` symbol does in a fresh state: the symbols it has evaluated
rank no higher than the `modules` symbol and have the values of the target. -/
structure ModulesFirst (G : SymbolTable ι) (rank : ι → ℕ) (σ τ : State ι) : Prop where
  curr : ∀ s ∈ G.symbolHash, (τ.sym s).flagValid → (τ.sym s).curr = (G.targetOf σ rank).env s
  rank_le : ∀ s ∈ G.symbolHash, (τ.sym s).flagValid → rank s ≤ rank G.modulesSym
  user : ∀ s, ¬(τ.sym s).flagValid → userIn τ s = userIn σ s

theorem symCalcValue_of_valid {s : ι} (h : (σ.sym s).flagValid) : symCalcValue G s σ = σ :=
  if_pos h

theorem symCalcValue_of_not_valid {s : ι} (h : ¬(σ.sym s).flagValid) :
    symCalcValue G s σ = calcInvalid G (symCalcFuel G (G.symbolHash.length + 2)) s
      (σ.modify s fun st => { st with flagValid := true }) :=
  if_neg h

/-- The evaluation of the `modules` symbol in a fresh state. -/
theorem Fresh.completes_modules (hG : G.Finalized) (h : G.Stratified) (hσ : G.Fresh σ)
    (hrank : ∀ t s, t ∈ G.reads s → rank t < rank s) (hm : ¬(σ.sym G.modulesSym).flagValid) :
    (G.targetOf σ rank).Completes G G.modulesSym (σ.sym G.modulesSym).curr
      (rankIn σ rank G.modulesSym + 1) σ (symCalcValue G G.modulesSym σ) := by
  have hE := h.evaluable hG hσ.toStarted
  have hrankIn : ∀ t s, G.ReadsIn σ t s → rank t < rank s := fun t s hts => hrank t s hts.1
  have hT := sound_targetOf hE hrankIn
  have hready := ready_targetOf hE hrankIn (.inr (le_refl (rankIn σ rank G.modulesSym)))
  rw [symCalcValue_of_not_valid hm]
  exact Target.calcInvalid_spec hT (Target.computes_symCalcFuel hT) hready hm

theorem modulesFirst (hG : G.Finalized) (h : G.Stratified) (hσ : G.Fresh σ)
    (hrank : ∀ t s, t ∈ G.reads s → rank t < rank s) :
    G.ModulesFirst rank σ (symCalcValue G G.modulesSym σ) := by
  by_cases hm : (σ.sym G.modulesSym).flagValid
  · rw [symCalcValue_of_valid hm]
    exact ⟨fun s hs hv => absurd hv (hσ.invalid s hs), fun s hs hv => absurd hv (hσ.invalid s hs),
      fun _ _ => rfl⟩
  have hE := h.evaluable hG hσ.toStarted
  have hrankIn : ∀ t s, G.ReadsIn σ t s → rank t < rank s := fun t s hts => hrank t s hts.1
  have hspec := hσ.completes_modules hG h hrank hm
  generalize symCalcValue G G.modulesSym σ = τ at hspec
  have hview := view_targetOf hE hrankIn
  constructor
  · intro s hs hv
    by_cases hsm : s = G.modulesSym
    · rw [hsm, hspec.curr]
    · rw [← Target.view_of_valid (T := G.targetOf σ rank) hv, hspec.grows.view s hsm, hview]
  · intro s hs hv
    have hbelow := (hspec.grows.below s hv).resolve_left (hσ.invalid s hs)
    have hlt : rankIn σ rank s < rankIn σ rank G.modulesSym + 1 := hbelow
    rw [rankIn, rankIn, if_neg (hσ.invalid s hs), if_neg hm] at hlt
    omega
  · intro s hv
    have hsm : s ≠ G.modulesSym := fun hsm => hv (hsm ▸ hspec.valid)
    unfold userIn
    rw [hspec.grows.defUser s, hspec.grows.flagDefUser s hsm (.inr hv)]

/-- Evaluation of any list of symbols, from a fresh state, after the `modules` symbol. -/
theorem Stratified.exists_solution (hG : G.Finalized) (h : G.Stratified) (hσ : G.Fresh σ)
    (ht : G.Tracked σ) :
    ∃ env, G.Solution (userIn σ) env ∧ ∀ syms,
      (symCalcList G syms (symCalcValue G G.modulesSym σ)).modulesVal = (env G.modulesSym).tri ∧
      ∀ s, s ∈ syms ∨ s ∉ G.symbolHash ∨ s = G.modulesSym →
        ((symCalcList G syms (symCalcValue G G.modulesSym σ)).sym s).flagValid ∧
        ((symCalcList G syms (symCalcValue G G.modulesSym σ)).sym s).curr = env s := by
  obtain ⟨rank, hrank⟩ := h.exists_rank hG
  have hfirst := modulesFirst hG h hσ hrank
  have hm : ((symCalcValue G G.modulesSym σ).sym G.modulesSym).flagValid := valid_symCalcValue
  have hkept : Kept G σ (symCalcValue G G.modulesSym σ) := kept_symCalcValue
  have htracked := ht.symCalcValue hG (s := G.modulesSym)
  have hhides := hides_symCalcValue (s := G.modulesSym) hσ.hides
  generalize symCalcValue G G.modulesSym σ = τ at hfirst hm hkept htracked hhides ⊢
  have hτ := hσ.toStarted.kept hkept hhides
  obtain ⟨env, hsol, henv⟩ := (h.evaluable hG hτ).exists_solution hm
  have hE := h.evaluable hG hσ.toStarted
  have hsol0 := targetOf_solves hE fun t s hts => hrank t s hts.1
  -- an evaluated symbol keeps its value
  have hvalid : ∀ s, (τ.sym s).flagValid → env s = (τ.sym s).curr := fun s hv =>
    (hsol s).trans (if_pos hv)
  have hmv : τ.modulesVal = (env G.modulesSym).tri := by
    rw [hvalid _ hm, htracked.modulesVal]
  have hconst : ∀ s, s ∉ G.symbolHash → (τ.sym s).flagValid ∧ env s = G.constCurr s := by
    intro s hs
    have hs' := hτ.curr_const hG hs
    exact ⟨hs'.1, (hvalid s hs'.1).trans hs'.2⟩
  -- an equation of rank at most that of `modules` does not read it
  have hcongr : ∀ s, rank s ≤ rank G.modulesSym →
      (∀ t ∈ G.reads s, (G.targetOf σ rank).env t = env t) →
      G.valueIn (userIn σ s) σ.modulesVal (G.targetOf σ rank).env s =
        G.valueIn (userIn σ s) τ.modulesVal env s := by
    intro s hle hreads
    refine valueIn_congr (h.wellPosed hG hσ.picksMembers s) (fun hread => ?_) hreads
    have := hrank _ _ hread
    omega
  have heq0 : ∀ s ∈ G.symbolHash, (G.targetOf σ rank).env s =
      G.valueIn (userIn σ s) σ.modulesVal (G.targetOf σ rank).env s := fun s hs =>
    (hsol0 s).trans (if_neg (hσ.invalid s hs))
  have heq : ∀ s, ¬(τ.sym s).flagValid →
      env s = G.valueIn (userIn σ s) τ.modulesVal env s := fun s hv => by
    rw [← hfirst.user s hv]
    exact (hsol s).trans (if_neg hv)
  -- up to the rank of `modules` the two targets agree, by induction on the rank
  have hagree : ∀ n s, rank s < n → rank s ≤ rank G.modulesSym →
      (G.targetOf σ rank).env s = env s := by
    intro n
    induction n with
    | zero => intro s hs; omega
    | succ n ih =>
      intro s hs hle
      by_cases hmem : s ∈ G.symbolHash
      · by_cases hv : (τ.sym s).flagValid
        · rw [hvalid s hv, hfirst.curr s hmem hv]
        · rw [heq s hv, heq0 s hmem]
          refine hcongr s hle fun t ht => ih t ?_ ?_
          · have := hrank t s ht
            omega
          · have := hrank t s ht
            omega
      · obtain ⟨hv, hcurr⟩ := hσ.curr_const hG hmem
        rw [(hconst s hmem).2, targetOf_env_valid hE (fun t s hts => hrank t s hts.1) hv, hcurr]
  refine ⟨env, fun s => ?_, fun syms => ?_⟩
  · by_cases hmem : s ∈ G.symbolHash
    · rw [equations, if_pos hmem, ← hmv]
      by_cases hv : (τ.sym s).flagValid
      · have hle := hfirst.rank_le s hmem hv
        rw [hvalid s hv, hfirst.curr s hmem hv, heq0 s hmem]
        refine hcongr s hle fun t ht => hagree _ t (Nat.lt_succ_self _) ?_
        have := hrank t s ht
        omega
      · exact heq s hv
    · rw [equations, if_neg hmem, (hconst s hmem).2]
  · obtain ⟨hval, hcurr⟩ := henv syms
    refine ⟨hval.trans hmv, fun s hs => hcurr s ?_⟩
    rcases hs with hs | hs | rfl
    · exact .inl hs
    · exact .inr (hconst s hs).1
    · exact .inr hm

end
end SymbolTable
end OpenADK.Kconfig
