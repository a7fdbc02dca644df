import OpenADK.Kconfig.Session

/-!
# What an evaluation leaves in the symbols

After an evaluation `visible`, `rev_dep.tri` and the `tri` of each `val_dep` entry of every symbol
are those of the values of the state, whatever the order in which the symbols were evaluated.
-/

namespace OpenADK.Kconfig
open Tristate
namespace SymbolTable
variable {ι : Type} {G : SymbolTable ι} {user : ι → UserValue ι} {σ τ : State ι} {s : ι}

/-- The cache `k` of `s` is that of the values of the state. -/
structure UpToDate (G : SymbolTable ι) (σ : State ι) (s : ι) (k : Cache) : Prop where
  reads : ∀ u ∈ G.cacheReads s k, (σ.sym u).flagValid
  cache : (σ.sym s).cache k = G.cacheIn σ.modulesVal (envOf σ) s k

theorem upToDate_iff_seen {T : Target ι} {k : Cache} : G.UpToDate σ s k ↔ T.Seen G σ s k := by
  have hview : (∀ u ∈ G.cacheReads s k, (σ.sym u).flagValid) →
      G.cacheIn σ.modulesVal (T.view σ) s k = G.cacheIn σ.modulesVal (envOf σ) s k := fun h =>
    cacheIn_congr k (fun _ => rfl) fun u hu => Target.view_of_valid (h u hu)
  constructor
  · intro h
    exact ⟨h.reads, h.cache.trans (hview h.reads).symm⟩
  · intro h
    exact ⟨h.reads, h.cache.trans (hview h.reads)⟩

variable [DecidableEq ι]

/-- What is evaluated along with the `modules` symbol does not read it. -/
theorem Fresh.upToDate_modules (hG : G.Finalized) (h : G.Stratified) (hσ : G.Fresh σ)
    (hs : s ∈ G.symbolHash) (hv : ((Kconfig.symCalcValue G G.modulesSym σ).sym s).flagValid)
    {k : Cache} (hk : Target.Fills G s k) :
    G.UpToDate (Kconfig.symCalcValue G G.modulesSym σ) s k := by
  by_cases hm : (σ.sym G.modulesSym).flagValid
  · rw [symCalcValue_of_valid hm] at hv
    exact absurd hv (hσ.invalid s hs)
  obtain ⟨rank, hrank⟩ := h.exists_rank hG
  have hle := (modulesFirst hG h hσ hrank).rank_le s hs hv
  apply upToDate_iff_seen.mpr
  refine (hσ.completes_modules hG h hrank hm).filled s k (fun hmem => ?_) (hσ.invalid s hs) hv hk
  have := hrank _ _ hmem
  omega

theorem Fresh.upToDate (hG : G.Finalized) (h : G.Stratified) (hσ : G.Fresh σ) {syms : List ι}
    (hsyms : G.allSymbols ⊆ syms) (hs : s ∈ G.symbolHash) {k : Cache} (hk : Target.Fills G s k) :
    G.UpToDate (Kconfig.symCalcList G syms (Kconfig.symCalcValue G G.modulesSym σ)) s k := by
  have hfirst := hσ.upToDate_modules hG h hs (k := k)
  have hm : ((Kconfig.symCalcValue G G.modulesSym σ).sym G.modulesSym).flagValid :=
    valid_symCalcValue
  have hτ := hσ.toStarted.kept (kept_symCalcValue (G := G) (s := G.modulesSym))
    (hides_symCalcValue hσ.hides)
  generalize Kconfig.symCalcValue G G.modulesSym σ = τ at hfirst hm hτ ⊢
  obtain ⟨rank, -, r, heval⟩ := (h.evaluable hG hτ).exists_evaluates hm
  have heval := heval syms
  apply upToDate_iff_seen.mpr
  by_cases hv : (τ.sym s).flagValid
  · exact heval.advances.seen s k (upToDate_iff_seen.mp (hfirst hv hk))
  · refine heval.advances.filled s k hv (heval.valid s (hsyms ?_)) hk
    rwa [hG.allSymbols]

theorem Evaluated.upToDate (hG : G.Finalized) (h : G.Stratified) (hτ : G.Evaluated user τ)
    (hs : s ∈ G.symbolHash) {k : Cache} (hk : Target.Fills G s k) : G.UpToDate τ s k := by
  cases hτ with
  | cleared hσ hsyms =>
    rw [symClearAllValid_eq]
    exact ((hσ.running hG).fresh_cleared hG).upToDate hG h hsyms hs hk
  | loaded n contents hσ hsyms =>
    have hrun := (hσ.running hG).changeCount n
    exact (hrun.fresh_loadFile hG contents).upToDate hG h hsyms hs hk

end SymbolTable
end OpenADK.Kconfig
