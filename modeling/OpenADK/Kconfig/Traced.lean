import OpenADK.Kconfig.Caches

/-!
# What stays computed in a session

A session evaluates from scratch when it has read a file and after `sym_clear_all_valid`. What
follows evaluates further symbols, stores what the user sets, and in the last loop of `conf_read`
takes `SYMBOL_VALID` from numbers that are out of their ranges. The symbols that have read such a
number keep the value they have: they are stale. Every other symbol has the value of its equation,
for what the user had set when it was evaluated.
-/

namespace OpenADK.Kconfig
open Tristate
namespace SymbolTable
variable {ι : Type}

/-- What the user has set changes, and symbols may lose `SYMBOL_VALID`, but no value changes. -/
structure Drops (σ τ : State ι) : Prop where
  curr : ∀ t, (τ.sym t).curr = (σ.sym t).curr
  cache : ∀ t k, (τ.sym t).cache k = (σ.sym t).cache k
  valid : ∀ t, (τ.sym t).flagValid → (σ.sym t).flagValid
  modulesVal : τ.modulesVal = σ.modulesVal

/-- A symbol that is still to be evaluated in `τ`, and that was evaluated before or counted on
another value of the user. -/
def Changed (user : ι → UserValue ι) (σ τ : State ι) (x : ι) : Prop :=
  ¬(τ.sym x).flagValid ∧ ((σ.sym x).flagValid ∨ userIn τ x ≠ user x)

variable [DecidableEq ι]

/-- `s` reads `x`, at once or through symbols that are still to be evaluated. -/
def ReadsThrough (G : SymbolTable ι) (τ : State ι) (x s : ι) : Prop :=
  ∃ t ∈ G.reads s, Relation.ReflTransGen (fun a b => a ∈ G.reads b ∧ ¬(τ.sym b).flagValid) x t

/-- The states of a session, with what the user had set when each symbol was evaluated and with
the stale symbols. -/
inductive Traced (G : SymbolTable ι) : (ι → UserValue ι) → (ι → Prop) → State ι → Prop
  | start {σ : State ι} (hσ : G.Running σ) (hfresh : G.Fresh σ) :
    Traced G (userIn σ) (fun _ => False) (symCalcValue G G.modulesSym σ)
  | calcValue {user : ι → UserValue ι} {stale : ι → Prop} {σ : State ι} (h : Traced G user stale σ)
    (s : ι) : Traced G user stale (symCalcValue G s σ)
  | change {user : ι → UserValue ι} {stale : ι → Prop} {σ τ : State ι} (h : Traced G user stale σ)
    (hd : Drops σ τ) (hτ : G.Running τ) (hm : (τ.sym G.modulesSym).flagValid) :
    Traced G (fun t => if (τ.sym t).flagValid then user t else userIn τ t)
      (fun t => (τ.sym t).flagValid ∧
        (stale t ∨ ∃ x, Changed user σ τ x ∧ G.ReadsThrough τ x t)) τ

/-! ### What holds of the symbols that are not stale -/

/-- Apart from the stale symbols, the values are part of a solution for what the user had set. -/
structure Tracks (G : SymbolTable ι) (user : ι → UserValue ι) (stale : ι → Prop) (σ : State ι) :
    Prop extends G.Running σ where
  modules : (σ.sym G.modulesSym).flagValid
  stale_valid : ∀ s, stale s → (σ.sym s).flagValid
  pending : ∀ s, ¬(σ.sym s).flagValid → user s = userIn σ s
  userPicks : G.PicksMembers user
  solves : ∃ env : Env ι, (∀ s, (σ.sym s).flagValid → env s = (σ.sym s).curr) ∧
    ∀ s ∈ G.symbolHash, ¬stale s → env s = G.valueIn (user s) σ.modulesVal env s
  seen : ∀ s ∈ G.symbolHash, (σ.sym s).flagValid → ¬stale s → ∀ k, Target.Fills G s k →
    G.UpToDate σ s k

section
variable {G : SymbolTable ι} {user : ι → UserValue ι} {stale : ι → Prop} {σ τ : State ι} {s : ι}
variable {env env' : Env ι}

theorem Running.valid_of_not_mem (hG : G.Finalized) (h : G.Running σ) (hs : s ∉ G.symbolHash) :
    (σ.sym s).flagValid := (h.curr_const hG hs).1

theorem tracks_start (hG : G.Finalized) (hS : G.Stratified) (hσ : G.Running σ) (hf : G.Fresh σ) :
    G.Tracks (userIn σ) (fun _ => False) (symCalcValue G G.modulesSym σ) := by
  obtain ⟨rank, hrank⟩ := hS.exists_rank hG
  obtain ⟨env, hsol, henv⟩ := hS.exists_solution hG hf hσ.toTracked
  have hfirst := modulesFirst hG hS hf hrank
  refine { hσ.symCalcValue hG with
    modules := valid_symCalcValue
    stale_valid := fun _ h => h.elim
    pending := fun s hs => (hfirst.user s hs).symm
    userPicks := hf.picksMembers
    solves := ⟨env, fun s hv => ?_, fun s hs _ => ?_⟩
    seen := fun s hs hv _ k hk => hf.upToDate_modules hG hS hs hv hk }
  · -- evaluating `s` once more changes nothing
    by_cases hs : s ∈ G.symbolHash
    · have heq : ((symCalcValue G s (symCalcValue G G.modulesSym σ)).sym s).curr = env s :=
        ((henv [s]).2 s (.inl List.mem_cons_self)).2
      rw [symCalcValue_of_valid hv] at heq
      exact heq.symm
    · exact ((henv []).2 s (.inr (.inl hs))).2.symm
  · rw [hsol.eq hs, ← (henv []).1]
    rfl

theorem Tracks.calcValue (hG : G.Finalized) (hS : G.Stratified) (h : G.Tracks user stale σ) (s : ι) :
    G.Tracks user stale (symCalcValue G s σ) := by
  have hE := hS.evaluable hG h.toStarted
  obtain ⟨rank, hrank, r, heval⟩ := hE.exists_evaluates h.modules
  have heval : (G.targetOf σ rank).Evaluates G r [s] σ (symCalcValue G s σ) := heval [s]
  have hadv := heval.advances
  have hkept : Kept G σ (symCalcValue G s σ) := kept_symCalcValue
  obtain ⟨env, hcurr, heq⟩ := h.solves
  -- the values that the evaluation is to reach are those of the solution
  have henv : (G.targetOf σ rank).env = env := by
    refine (targetOf_solves hE hrank).unique (ranked_equationIn hE _ hrank) fun t => ?_
    unfold equationIn
    split
    · next hv => exact hcurr t hv
    · next hv =>
      have ht : t ∈ G.symbolHash := not_not.mp fun ht => hv (h.toRunning.valid_of_not_mem hG ht)
      rw [heq t ht fun hst => hv (h.stale_valid t hst), h.pending t hv]
  refine { h.toRunning.symCalcValue hG with
    modules := hkept.valid _ h.modules
    stale_valid := fun t ht => hkept.valid t (h.stale_valid t ht)
    pending := fun t ht => ?_
    userPicks := h.userPicks
    solves := ⟨env, fun t ht => ?_, fun t ht hst => ?_⟩
    seen := fun t ht hv hst k hk => ?_ }
  · rw [h.pending t fun hv => ht (hkept.valid t hv)]
    unfold userIn
    rw [hadv.defUser t, hadv.flagDefUser t (.inr ht)]
  · rw [← Target.view_of_valid (T := G.targetOf σ rank) ht, hadv.view, view_targetOf hE hrank, henv]
  · rw [hadv.modulesVal]
    exact heq t ht hst
  · apply upToDate_iff_seen.mpr
    by_cases hσt : (σ.sym t).flagValid
    · exact hadv.seen t k (upToDate_iff_seen.mp (h.seen t ht hσt hst k hk))
    · exact hadv.filled t k hσt hv hk

/-- Symbols that are still to be evaluated and read nothing that has changed keep their value in
the solution. -/
theorem Tracks.agree (hG : G.Finalized) (hS : G.Stratified) (h : G.Tracks user stale σ)
    (hd : Drops σ τ) (hcurr : ∀ s, (σ.sym s).flagValid → env s = (σ.sym s).curr)
    (heq : ∀ s ∈ G.symbolHash, ¬stale s → env s = G.valueIn (user s) σ.modulesVal env s)
    (hcurr' : ∀ s, (τ.sym s).flagValid → env' s = (τ.sym s).curr)
    (heq' : ∀ s, ¬(τ.sym s).flagValid → env' s = G.valueIn (userIn τ s) τ.modulesVal env' s) :
    ∀ s, ((τ.sym s).flagValid ∨ ∀ x, Changed user σ τ x →
      ¬Relation.ReflTransGen (fun a b => a ∈ G.reads b ∧ ¬(τ.sym b).flagValid) x s) →
      env' s = env s := by
  obtain ⟨rank, hrank⟩ := hS.exists_rank hG
  intro s
  induction hn : rank s using Nat.strong_induction_on generalizing s with
  | _ n ih =>
    intro hs
    by_cases hv : (τ.sym s).flagValid
    · rw [hcurr' s hv, hcurr s (hd.valid s hv), hd.curr]
    have hno := hs.resolve_left hv
    have hσ : ¬(σ.sym s).flagValid := fun hσ => hno s ⟨hv, .inl hσ⟩ .refl
    have huser : userIn τ s = user s := by
      by_contra hne
      exact hno s ⟨hv, .inr hne⟩ .refl
    have hmem : s ∈ G.symbolHash := not_not.mp fun hmem => hσ (h.toRunning.valid_of_not_mem hG hmem)
    rw [heq' s hv, heq s hmem fun hst => hσ (h.stale_valid s hst), huser, hd.modulesVal]
    refine valueIn_congr (hS.wellPosed hG h.userPicks s) (fun _ => rfl) fun t ht => ?_
    exact ih (rank t) (hn ▸ hrank t s ht) t rfl (.inr fun x hx hxt => hno x hx (hxt.tail ⟨ht, hv⟩))

theorem Tracks.change (hG : G.Finalized) (hS : G.Stratified) (h : G.Tracks user stale σ)
    (hd : Drops σ τ) (hτ : G.Running τ) (hm : (τ.sym G.modulesSym).flagValid) :
    G.Tracks (fun t => if (τ.sym t).flagValid then user t else userIn τ t)
      (fun t => (τ.sym t).flagValid ∧
        (stale t ∨ ∃ x, Changed user σ τ x ∧ G.ReadsThrough τ x t)) τ := by
  have hE := hS.evaluable hG hτ.toStarted
  obtain ⟨env, hcurr, heq⟩ := h.solves
  obtain ⟨env', hsol', -⟩ := hE.exists_solution hm
  have hcurr' : ∀ s, (τ.sym s).flagValid → env' s = (τ.sym s).curr := fun s hv =>
    (hsol' s).trans (if_pos hv)
  have heq' : ∀ s, ¬(τ.sym s).flagValid → env' s = G.valueIn (userIn τ s) τ.modulesVal env' s :=
    fun s hv => (hsol' s).trans (if_neg hv)
  have hagree := h.agree hG hS hd hcurr heq hcurr' heq'
  refine { hτ with
    modules := hm
    stale_valid := fun s hs => hs.1
    pending := fun s hs => if_neg hs
    userPicks := fun c hc m hval => ?_
    solves := ⟨env', hcurr', fun s hs hst => ?_⟩
    seen := fun s hs hv hst k hk => ?_ }
  · simp only at hval
    split at hval
    · exact h.userPicks c hc m hval
    · exact hτ.picks c hc m hval
  · by_cases hv : (τ.sym s).flagValid
    · rw [if_pos hv, hagree s (.inl hv), heq s hs fun h => hst ⟨hv, .inl h⟩, hd.modulesVal]
      refine valueIn_congr (hS.wellPosed hG h.userPicks s) (fun _ => rfl) fun t ht => ?_
      exact (hagree t (.inr fun x hx hxt => hst ⟨hv, .inr ⟨x, hx, t, ht, hxt⟩⟩)).symm
    · rw [if_neg hv]
      exact heq' s hv
  · have hseen := h.seen s hs (hd.valid s hv) (fun h => hst ⟨hv, .inl h⟩) k hk
    refine ⟨fun t ht => ?_, ?_⟩
    · by_contra hvt
      have hread : t ∈ G.reads s :=
        G.visReads_subset_reads s (G.cacheReads_subset_visReads s k ht)
      exact hst ⟨hv, .inr ⟨t, ⟨hvt, .inl (hseen.reads t ht)⟩, t, hread, .refl⟩⟩
    · have henv : envOf τ = envOf σ := funext hd.curr
      rw [hd.cache, hseen.cache, hd.modulesVal, henv]

theorem Traced.tracks (hG : G.Finalized) (hS : G.Stratified) (h : G.Traced user stale σ) :
    G.Tracks user stale σ := by
  induction h with
  | start hσ hfresh => exact tracks_start hG hS hσ hfresh
  | calcValue _ s ih => exact ih.calcValue hG hS s
  | change _ hd hτ hm ih => exact ih.change hG hS hd hτ hm

/-! ### Computed states -/

/-- `s` has the value of its equation in the values of the state. -/
def Current (G : SymbolTable ι) (user : ι → UserValue ι) (σ : State ι) (s : ι) : Prop :=
  envOf σ s = G.valueIn (user s) σ.modulesVal (envOf σ) s

/-- Once all symbols are computed, those that are not stale have the values of their equations. -/
theorem Tracks.current (h : G.Tracks user stale σ) (hall : ∀ s, (σ.sym s).flagValid)
    (hs : s ∈ G.symbolHash) (hst : ¬stale s) : G.Current user σ s := by
  obtain ⟨env, hcurr, heq⟩ := h.solves
  have henv : envOf σ = env := funext fun t => (hcurr t (hall t)).symm
  unfold Current
  rw [henv]
  exact heq s hs hst

/-! ### Sessions that begin with a file -/

theorem Traced.modules (h : G.Traced user stale σ) : (σ.sym G.modulesSym).flagValid := by
  induction h with
  | start => exact valid_symCalcValue
  | @calcValue _ _ σ _ s ih => exact (kept_symCalcValue (σ := σ) (s := s)).valid _ ih
  | change _ _ _ hm => exact hm

structure Followed (G : SymbolTable ι) (σ : State ι) : Prop extends G.Running σ where
  traced : ∃ user stale, G.Traced user stale σ

theorem followed_start (hG : G.Finalized) (hσ : G.Running σ) (hf : G.Fresh σ) :
    G.Followed (symCalcValue G G.modulesSym σ) :=
  ⟨hσ.symCalcValue hG, _, _, .start hσ hf⟩

theorem Followed.symCalcValue (hG : G.Finalized) (h : G.Followed σ) :
    G.Followed (symCalcValue G s σ) := by
  obtain ⟨user, stale, ht⟩ := h.traced
  exact ⟨h.toRunning.symCalcValue hG, user, stale, ht.calcValue s⟩

theorem Followed.symCalcList (hG : G.Finalized) (h : G.Followed σ) (syms : List ι) :
    G.Followed (symCalcList G syms σ) := by
  induction syms generalizing σ with
  | nil => exact h
  | cons s syms ih => exact ih (h.symCalcValue hG)

theorem Followed.change (h : G.Followed σ) (hd : Drops σ τ) (hτ : G.Running τ)
    (hm : (τ.sym G.modulesSym).flagValid) : G.Followed τ := by
  obtain ⟨user, stale, ht⟩ := h.traced
  exact ⟨hτ, _, _, ht.change hd hτ hm⟩

theorem Followed.modules (h : G.Followed σ) : (σ.sym G.modulesSym).flagValid := by
  obtain ⟨user, stale, ht⟩ := h.traced
  exact ht.modules

theorem Followed.edits (hG : G.Finalized) (h : G.Followed σ) (he : G.Edits σ τ) : G.Followed τ :=
  h.change ⟨he.curr, he.cache, fun t ht => he.valid t ▸ ht, he.modulesVal⟩ (h.toRunning.edits hG he)
    (by rw [he.valid]; exact h.modules)

theorem Followed.changeCount (h : G.Followed σ) (n : ℕ) :
    G.Followed { σ with changeCount := n } :=
  h.change ⟨fun _ => rfl, fun _ _ => rfl, fun _ ht => ht, rfl⟩ (h.toRunning.changeCount n) h.modules

theorem followed_symClearAllValid (hG : G.Finalized) (h : G.Running σ) :
    G.Followed (symClearAllValid G σ) :=
  followed_start hG ⟨h.toStarted.cleared hG, h.toTracked.cleared⟩ (h.fresh_cleared hG)

theorem followed_loadFile (hG : G.Finalized) (h : G.Running σ) (contents : Text) :
    G.Followed (Kconfig.symCalcValue G G.modulesSym (loadFile G contents σ).state) :=
  followed_start hG (h.loadFile hG contents) (h.fresh_loadFile hG contents)

theorem Followed.invalidate (hG : G.Finalized) (h : G.Followed σ) (hs : s ∈ G.symbolHash)
    (hm : s ≠ G.modulesSym) :
    G.Followed (σ.modify s fun st => { st with flagValid := false, flagDefUser := false }) := by
  refine h.change ⟨fun t => ?_, fun t k => ?_, fun t ht => ?_, rfl⟩ (h.toRunning.invalidate hG hs) ?_
  · rw [State.modify_sym]
    split <;> rfl
  · rw [State.modify_sym]
    split
    · cases k <;> rfl
    · rfl
  · rw [State.modify_sym] at ht
    split at ht
    · cases ht
    · exact ht
  · rw [State.modify_sym_of_ne _ _ hm.symm]
    exact h.modules

theorem preserves_followed (hG : G.Finalized) : Preserves G.Followed (Kconfig.symCalcValue G) :=
  fun _ _ h => h.symCalcValue hG

/-- The `modules` symbol is no text and no number, so that `conf_read` does not reset it. -/
def ModulesLasts (G : SymbolTable ι) : Prop :=
  G.type G.modulesSym ≠ .string ∧ G.type G.modulesSym ≠ .int ∧ G.type G.modulesSym ≠ .hex

theorem Followed.resetValue (hG : G.Finalized) (hmod : G.ModulesLasts) (h : G.Followed σ)
    (hs : s ∈ G.symbolHash) (unsaved : ℕ) : G.Followed (resetValue G s unsaved σ).2 := by
  unfold Kconfig.resetValue
  have h1 : G.Followed (if (σ.sym s).visible = .no ∧ unsaved = 0 then
      σ.modify s fun st => { st with flagDefUser := false } else σ) := by
    split
    · exact h.edits hG (.flagDefUser false)
    · exact h
  simp only
  generalize (if (σ.sym s).visible = .no ∧ unsaved = 0 then
      σ.modify s fun st => { st with flagDefUser := false } else σ) = σ1 at h1 ⊢
  have hwithin := symStringWithinRange_preserves (preserves_followed hG) h1
    (σ1.sym s).defUser.val.text (s := s)
  have hreset := fun hne => hwithin.invalidate hG hs hne
  split
  · next ht =>
    split
    · exact hwithin
    · exact hreset fun hs => hmod.1 (hs ▸ ht)
  · next ht =>
    split
    · exact hwithin
    · exact hreset fun hs => hmod.2.1 (hs ▸ ht)
  · next ht =>
    split
    · exact hwithin
    · exact hreset fun hs => hmod.2.2 (hs ▸ ht)
  · exact h1

theorem Followed.resetValues (hG : G.Finalized) (hmod : G.ModulesLasts) (h : G.Followed σ)
    (syms : List ι) (hsyms : ∀ s ∈ syms, s ∈ G.symbolHash) (unsaved : ℕ) :
    G.Followed (resetValues G syms unsaved σ).2 := by
  induction syms generalizing σ unsaved with
  | nil => exact h
  | cons s syms ih =>
    refine ih ?_ (fun t ht => hsyms t (List.mem_cons_of_mem _ ht)) _
    split
    · exact h.resetValue hG hmod (hsyms s List.mem_cons_self) unsaved
    · exact h

theorem Followed.calcUnsaved (hG : G.Finalized) (h : G.Followed σ) (syms : List ι) (unsaved : ℕ) :
    G.Followed (calcUnsaved G syms unsaved σ).2 := by
  induction syms generalizing σ unsaved with
  | nil => exact h
  | cons s syms ih => exact ih (h.symCalcValue hG) _

/-- Once `conf_read_simple` has left a state that is followed, so does the rest of `conf_read`. -/
theorem followed_confRead (hG : G.Finalized) (hmod : G.ModulesLasts) (file : ConfFile ι)
    (h : G.Followed (confReadSimple G file { σ with changeCount := 0 }).2) :
    G.Followed (confRead G file σ).2 := by
  unfold confRead
  simp only
  split
  · exact h
  · exact ((h.calcUnsaved hG G.allSymbols 0).resetValues hG hmod _
      (fun s hs => hG.allSymbols ▸ hs) _).changeCount _

theorem Followed.symSetTristateValue (hG : G.Finalized) (h : G.Followed σ) (val : Tristate) :
    G.Followed (symSetTristateValue G s val σ).2 := by
  rw [symSetTristateValue_eq]
  split
  · exact h
  · simp only
    split
    · exact followed_symClearAllValid hG (h.toRunning.edits hG (edits_storeUser hG val))
    · exact h.edits hG (edits_storeUser hG val)

theorem Followed.setString (hG : G.Finalized) (h : G.Followed σ) (newval : Text) :
    G.Followed (setString G s newval σ).2 := by
  have h1 := symStringWithinRange_preserves (preserves_followed hG) h newval (s := s)
  unfold Kconfig.setString
  simp only
  generalize symStringWithinRange G s newval σ = within at h1 ⊢
  have h2 : G.Followed (within.2.modify s fun st => { st with flagDefUser := true }) :=
    h1.edits hG (.flagDefUser true)
  have hstore : ∀ val : Text, G.Followed (Kconfig.symClearAllValid G
      ((within.2.modify s fun st => { st with flagDefUser := true }).modify s fun st =>
        { st with defUser := { st.defUser with val := .str val } })) := fun val =>
    followed_symClearAllValid hG (h2.toRunning.edits hG (edits_storeText val))
  split
  · split
    · exact hstore _
    · split
      · exact hstore _
      · exact h2
  · exact h1

theorem Followed.symSetStringValue (hG : G.Finalized) (h : G.Followed σ) (newval : Text) :
    G.Followed (symSetStringValue G s newval σ).2 := by
  unfold Kconfig.symSetStringValue
  split
  · split
    · exact h.symSetTristateValue hG _
    · exact h
  · split
    · exact h.symSetTristateValue hG _
    · exact h
  · exact h.setString hG newval

theorem Followed.step (hG : G.Finalized) (hmod : G.ModulesLasts) (hstep : G.Step σ τ)
    (h : G.Followed σ) : G.Followed τ := by
  cases hstep with
  | read file =>
    apply followed_confRead hG hmod
    have h0 := h.changeCount 0
    cases file with
    | opened contents => exact followed_loadFile hG h0.toRunning contents
    | fallback evaluated contents =>
      exact followed_loadFile hG ((h0.toRunning.changeCount _).symCalcList hG evaluated) contents
    | missing => exact h0
    | absent => exact (h0.changeCount _).symCalcValue hG
  | setTristate val _ => exact h.symSetTristateValue hG val
  | setString newval _ => exact h.symSetStringValue hG newval
  | calcValue s => exact h.symCalcValue hG

theorem fresh_initial (hG : G.Finalized) : G.Fresh G.initial where
  toStarted := (running_initial hG).toStarted
  invalid s hs := by
    have hne : ¬(s = G.symbolYes ∨ s = G.symbolMod ∨ s = G.symbolNo) := by
      rintro (rfl | rfl | rfl)
      · exact hG.yes_not_mem hs
      · exact hG.mod_not_mem hs
      · exact hG.no_not_mem hs
    simp only [initial, if_neg hne]
    simp

/-- Nothing is stale in a state that has been evaluated as a whole. -/
theorem Evaluated.traced (hG : G.Finalized) (h : G.Evaluated user σ) :
    G.Traced user (fun _ => False) σ := by
  have hlist : ∀ (syms : List ι) (τ : State ι), G.Traced user (fun _ => False) τ →
      G.Traced user (fun _ => False) (Kconfig.symCalcList G syms τ) := by
    intro syms
    induction syms with
    | nil => exact fun _ h => h
    | cons s syms ih => exact fun _ h => ih _ (h.calcValue s)
  cases h with
  | cleared hσ _ =>
    have hrun := hσ.running hG
    apply hlist
    rw [symClearAllValid_eq, ← userIn_cleared]
    exact .start ⟨hrun.toStarted.cleared hG, hrun.toTracked.cleared⟩ (hrun.fresh_cleared hG)
  | loaded n contents hσ _ =>
    have hrun := (hσ.running hG).changeCount n
    exact hlist _ _ (.start (hrun.loadFile hG contents) (hrun.fresh_loadFile hG contents))

/-- Every state of a session that begins with a file, or with the lack of one, is followed. -/
theorem traced_of_session (hG : G.Finalized) (hmod : G.ModulesLasts) {file : ConfFile ι}
    (hfile : file ≠ .missing)
    (h : Relation.ReflTransGen G.Step (confRead G file G.initial).2 σ) :
    ∃ user stale, G.Traced user stale σ := by
  have hrun := (running_initial hG).changeCount 0
  have h0 : G.Followed (confRead G file G.initial).2 := by
    apply followed_confRead hG hmod
    cases file with
    | opened contents => exact followed_loadFile hG hrun contents
    | fallback evaluated contents =>
      exact followed_loadFile hG ((hrun.changeCount _).symCalcList hG evaluated) contents
    | missing => exact absurd rfl hfile
    | absent =>
      refine followed_start hG (hrun.changeCount _) ⟨(hrun.changeCount _).toStarted, ?_⟩
      exact (fresh_initial hG).invalid
  have hσ : G.Followed σ := by
    induction h with
    | refl => exact h0
    | tail _ hstep ih => exact ih.step hG hmod hstep
  exact hσ.traced

end
end SymbolTable
end OpenADK.Kconfig
