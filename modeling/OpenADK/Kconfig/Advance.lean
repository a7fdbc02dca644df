import OpenADK.Kconfig.Reads

/-!
# What evaluation does to a state

A `Target` fixes the user's values and the values `env` that evaluation is meant to reach. In
a state, a symbol with `SYMBOL_VALID` set has the value it carries and any other symbol has
the value it will get: this is the `view` of the state. Evaluation never changes the view:
`Advances r σ τ` says that `τ` comes from `σ` by giving some symbols of rank below `r` the
value that the view already promised, with everything that was computed before left as it
is.
-/

namespace OpenADK.Kconfig

/-- What evaluation starts from and where it is to arrive. -/
structure Target (ι : Type) where
  /-- The symbols that have `SYMBOL_VALID` set from the start. -/
  done : ι → Prop
  user : ι → UserValue ι
  modulesVal : Tristate
  env : Env ι
  rank : ι → ℕ

namespace Target
variable {ι : Type} (T : Target ι) (G : SymbolTable ι)

def view (σ : State ι) : Env ι := fun t =>
  if (σ.sym t).flagValid then (σ.sym t).curr else T.env t

/-- The cache `k` of `t` is up to date, and what it was computed from is final. -/
structure Seen (σ : State ι) (t : ι) (k : Cache) : Prop where
  reads : ∀ u ∈ G.cacheReads t k, (σ.sym u).flagValid
  cache : (σ.sym t).cache k = G.cacheIn σ.modulesVal (T.view σ) t k

/-- The caches of a symbol, one for each entry of `val_dep`. -/
def HasCache (G : SymbolTable ι) (s : ι) : Cache → Prop
  | .valDep i => i < (G.symbol s).valDep.length
  | _ => True

/-- The caches that an evaluation of `s` fills. -/
def Fills (G : SymbolTable ι) (s : ι) (k : Cache) : Prop :=
  G.type s ≠ .unknown ∧ G.type s ≠ .other ∧ HasCache G s k

structure Advances (r : ℕ) (σ τ : State ι) : Prop where
  valid : ∀ t, (σ.sym t).flagValid → (τ.sym t).flagValid
  view : T.view τ = T.view σ
  below : ∀ t, (τ.sym t).flagValid → (σ.sym t).flagValid ∨ T.rank t < r
  defUser : ∀ t, (τ.sym t).defUser = (σ.sym t).defUser
  flagDefUser : ∀ t, ((σ.sym t).flagValid ∨ ¬(τ.sym t).flagValid) →
    (τ.sym t).flagDefUser = (σ.sym t).flagDefUser
  modulesVal : τ.modulesVal = σ.modulesVal
  seen : ∀ t k, T.Seen G σ t k → T.Seen G τ t k
  hides : G.Hides σ → G.Hides τ
  /-- What has been evaluated on the way has its caches up to date. -/
  filled : ∀ t k, ¬(σ.sym t).flagValid → (τ.sym t).flagValid → Fills G t k → T.Seen G τ t k

section
variable {T G} {r : ℕ} {σ τ υ : State ι}

theorem view_of_valid {t : ι} (h : (σ.sym t).flagValid) : T.view σ t = (σ.sym t).curr :=
  if_pos h

theorem view_of_not_valid {t : ι} (h : ¬(σ.sym t).flagValid) : T.view σ t = T.env t := if_neg h

namespace Advances

theorem refl : T.Advances G r σ σ where
  valid _ h := h
  view := rfl
  below _ h := .inl h
  defUser _ := rfl
  flagDefUser _ _ := rfl
  modulesVal := rfl
  seen _ _ h := h
  hides h := h
  filled _ _ hσ hσ' := absurd hσ' hσ

theorem trans (h : T.Advances G r σ τ) (h' : T.Advances G r τ υ) : T.Advances G r σ υ where
  valid t ht := h'.valid t (h.valid t ht)
  view := h'.view.trans h.view
  below t ht := by
    rcases h'.below t ht with ht | ht
    · exact h.below t ht
    · exact .inr ht
  defUser t := (h'.defUser t).trans (h.defUser t)
  flagDefUser t ht := by
    rcases ht with ht | ht
    · rw [h'.flagDefUser t (.inl (h.valid t ht)), h.flagDefUser t (.inl ht)]
    · rw [h'.flagDefUser t (.inr ht), h.flagDefUser t (.inr fun hτ => ht (h'.valid t hτ))]
  modulesVal := h'.modulesVal.trans h.modulesVal
  seen t k ht := h'.seen t k (h.seen t k ht)
  hides hσ := h'.hides (h.hides hσ)
  filled t k hσ hυ hk := by
    by_cases hτ : (τ.sym t).flagValid
    · exact h'.seen t k (h.filled t k hσ hτ hk)
    · exact h'.filled t k hτ hυ hk

theorem mono {r' : ℕ} (h : T.Advances G r σ τ) (hr : r ≤ r') : T.Advances G r' σ τ :=
  { h with below := fun t ht => (h.below t ht).imp_right fun hlt => hlt.trans_le hr }

theorem curr (h : T.Advances G r σ τ) {t : ι} (ht : (σ.sym t).flagValid) :
    (τ.sym t).curr = (σ.sym t).curr := by
  rw [← view_of_valid (T := T) (h.valid t ht), h.view, view_of_valid ht]

end Advances

theorem advances_ite {c : Prop} [Decidable c] (h : T.Advances G r σ τ) :
    T.Advances G r σ (if c then τ else σ) := by
  split
  · exact h
  · exact .refl

variable [DecidableEq ι]

theorem view_modify {s : ι} {f : SymState ι → SymState ι} (hf : CacheUpdate f) :
    T.view (σ.modify s f) = T.view σ := by
  funext t
  unfold view
  rw [State.modify_sym]
  split
  · rw [hf.flagValid, hf.curr]
  · rfl

theorem flagValid_modify {s t : ι} {f : SymState ι → SymState ι} (hf : CacheUpdate f) :
    ((σ.modify s f).sym t).flagValid = (σ.sym t).flagValid := by
  rw [State.modify_sym]
  split
  · exact hf.flagValid _
  · rfl

/-- An update of caches advances when it leaves no cache worse than it found it. -/
theorem advances_modify {s : ι} {f : SymState ι → SymState ι} (hf : CacheUpdate f)
    (hk : ∀ k, (σ.sym s).cache k = G.cacheIn σ.modulesVal (T.view σ) s k →
      (f (σ.sym s)).cache k = G.cacheIn σ.modulesVal (T.view σ) s k) :
    T.Advances G r σ (σ.modify s f) where
  valid t h := by rwa [flagValid_modify hf]
  view := view_modify hf
  below t h := .inl (by rwa [flagValid_modify hf] at h)
  defUser t := by
    rw [State.modify_sym]
    split
    · exact hf.defUser _
    · rfl
  flagDefUser t _ := by
    rw [State.modify_sym]
    split
    · exact hf.flagDefUser _
    · rfl
  modulesVal := rfl
  seen t k h := by
    refine ⟨fun u hu => by rw [flagValid_modify hf]; exact h.reads u hu, ?_⟩
    rw [view_modify hf, State.modify_modulesVal, State.modify_sym]
    split
    · next hts =>
      subst hts
      exact hk k h.cache
    · exact h.cache
  hides h t ht := by
    rw [State.modify_sym]
    split
    · next hts =>
      subst hts
      have hno : G.cacheIn σ.modulesVal (T.view σ) t .visible = .no :=
        SymbolTable.visibleIn_of_no_prompts ht
      exact (hk .visible ((h t ht).trans hno.symm)).trans hno
    · exact h t ht
  filled t k hσ hτ := absurd (by rwa [flagValid_modify hf] at hτ) hσ

/-- An update that touches no cache. -/
theorem advances_modify_same {s : ι} {f : SymState ι → SymState ι} (hf : CacheUpdate f)
    (hk : ∀ st k, (f st).cache k = st.cache k) : T.Advances G r σ (σ.modify s f) :=
  advances_modify hf fun k h => (hk _ k).trans h

theorem advances_flagWrite {s : ι} (write : Bool) :
    T.Advances G r σ (σ.modify s fun st => { st with flagWrite := write }) := by
  apply advances_modify_same
  · exact ⟨fun _ => rfl, fun _ => rfl, fun _ => rfl, fun _ => rfl⟩
  · intro st k
    cases k <;> rfl

theorem advances_setWrite {s : ι} : T.Advances G r σ (σ.setWrite s) := advances_flagWrite true

end

/-! ### Evaluated lists of symbols -/

/-- `τ` comes from `σ` by evaluation, and the symbols of the list have been evaluated. -/
structure Evaluates (r : ℕ) (l : List ι) (σ τ : State ι) : Prop where
  advances : T.Advances G r σ τ
  valid : ∀ t ∈ l, (τ.sym t).flagValid

section
variable {T G} {r : ℕ} {l l' : List ι} {σ τ υ : State ι}

theorem Evaluates.nil (h : T.Advances G r σ τ) : T.Evaluates G r [] σ τ :=
  ⟨h, fun _ ht => by cases ht⟩

theorem Evaluates.mono (h : T.Evaluates G r l σ τ) (hl : l' ⊆ l) : T.Evaluates G r l' σ τ :=
  ⟨h.advances, fun t ht => h.valid t (hl ht)⟩

theorem Evaluates.append (h : T.Evaluates G r l σ τ) (h' : T.Evaluates G r l' τ υ) :
    T.Evaluates G r (l ++ l') σ υ := by
  refine ⟨h.advances.trans h'.advances, fun t ht => ?_⟩
  rcases List.mem_append.mp ht with ht | ht
  · exact h'.advances.valid t (h.valid t ht)
  · exact h'.valid t ht

theorem Evaluates.trans (h : T.Evaluates G r l σ τ) (h' : T.Advances G r τ υ) :
    T.Evaluates G r l σ υ :=
  ⟨h.advances.trans h', fun t ht => h'.valid t (h.valid t ht)⟩

end

/-! ### When a symbol may be evaluated -/

/-- The number of symbols that are still to be evaluated. -/
def pending (G : SymbolTable ι) (σ : State ι) : ℕ :=
  (G.symbols.filter fun s => !(σ.sym s).flagValid).length

/-- What holds when symbols of rank below `r` are evaluated: their values are those of the
target, the user's values are those of the target, and `n` levels of recursion are enough. -/
structure Ready (r n : ℕ) (σ : State ι) : Prop where
  known : ∀ t, T.rank t < r → T.view σ t = T.env t
  defUser : ∀ t, (σ.sym t).defUser = (T.user t).value
  flagDefUser : ∀ t, ¬(σ.sym t).flagValid → (σ.sym t).flagDefUser = (T.user t).has
  fuel : pending G σ ≤ n
  modulesVal : σ.modulesVal = T.modulesVal
  hides : G.Hides σ
  done : ∀ t, T.done t → (σ.sym t).flagValid
  modules : (σ.sym G.modulesSym).flagValid ∨ r ≤ T.rank G.modulesSym

/-- A symbol that an evaluation of rank `r` may call for. The `modules` symbol must have been
evaluated before: `sym_clear_all_valid` sees to that. -/
def Callable (r : ℕ) (σ : State ι) (s : ι) : Prop :=
  (σ.sym s).flagValid ∨ (T.rank s < r ∧ s ≠ G.modulesSym)

/-- What a level of the recursion does for each symbol it may be called for. -/
def Computes (n : ℕ) (calcSym : Calc ι) : Prop :=
  ∀ r s σ, T.Ready G r n σ → T.Callable G r σ s → T.Evaluates G r [s] σ (calcSym s σ)

section
variable {T G} {r n : ℕ} {σ τ : State ι}

theorem pending_le (h : ∀ t, (σ.sym t).flagValid → (τ.sym t).flagValid) :
    pending G τ ≤ pending G σ := by
  unfold pending
  apply List.Sublist.length_le
  apply List.monotone_filter_right
  intro t ht
  simp only [Bool.not_eq_eq_eq_not, Bool.not_true] at ht ⊢
  exact Bool.eq_false_iff.mpr fun hσ => by rw [h t hσ] at ht; cases ht

theorem Ready.advance {r' : ℕ} (h : T.Ready G r n σ) (h' : T.Advances G r' σ τ) :
    T.Ready G r n τ where
  known t ht := by rw [h'.view, h.known t ht]
  defUser t := (h'.defUser t).trans (h.defUser t)
  flagDefUser t ht := by
    rw [h'.flagDefUser t (.inr ht)]
    exact h.flagDefUser t fun hσ => ht (h'.valid t hσ)
  fuel := (pending_le h'.valid).trans h.fuel
  modulesVal := h'.modulesVal.trans h.modulesVal
  hides := h'.hides h.hides
  done t ht := h'.valid t (h.done t ht)
  modules := h.modules.imp_left (h'.valid _)

theorem Ready.mono {r' : ℕ} (h : T.Ready G r n σ) (hr : r' ≤ r) : T.Ready G r' n σ :=
  { h with
    known := fun t ht => h.known t (ht.trans_le hr)
    modules := h.modules.imp_right hr.trans }

theorem Callable.advance {r' : ℕ} {s : ι} (h : T.Callable G r σ s) (h' : T.Advances G r' σ τ) :
    T.Callable G r τ s :=
  h.imp_left (h'.valid s)

theorem Callable.valid_modules (h : T.Callable G r σ G.modulesSym) :
    (σ.sym G.modulesSym).flagValid :=
  h.resolve_right fun h => h.2 rfl

end

/-! ### While a symbol is being evaluated -/

/-- Outside `s`, the symbol that is being evaluated, the view and the user's flags stay. -/
structure GrowsOff (s : ι) (r : ℕ) (σ τ : State ι) : Prop where
  valid : ∀ t, (σ.sym t).flagValid → (τ.sym t).flagValid
  view : ∀ t, t ≠ s → T.view τ t = T.view σ t
  below : ∀ t, (τ.sym t).flagValid → (σ.sym t).flagValid ∨ T.rank t < r
  defUser : ∀ t, (τ.sym t).defUser = (σ.sym t).defUser
  flagDefUser : ∀ t, t ≠ s → ((σ.sym t).flagValid ∨ ¬(τ.sym t).flagValid) →
    (τ.sym t).flagDefUser = (σ.sym t).flagDefUser

/-- Outside `s`, the state advances. -/
structure AdvancesOff (s : ι) (r : ℕ) (σ τ : State ι) : Prop extends T.GrowsOff s r σ τ where
  modulesVal : τ.modulesVal = σ.modulesVal
  seen : ∀ t k, s ∉ G.cacheReads t k → T.Seen G σ t k → T.Seen G τ t k
  hides : G.Hides σ → G.Hides τ
  filled : ∀ t k, t ≠ s → s ∉ G.cacheReads t k → ¬(σ.sym t).flagValid → (τ.sym t).flagValid →
    Fills G t k → T.Seen G τ t k

section
variable {T G} {s : ι} {r : ℕ} {σ τ υ : State ι}

theorem Advances.off (h : T.Advances G r σ τ) : T.AdvancesOff G s r σ τ where
  valid := h.valid
  view _ _ := by rw [h.view]
  below := h.below
  defUser := h.defUser
  flagDefUser t _ := h.flagDefUser t
  modulesVal := h.modulesVal
  seen t k _ := h.seen t k
  hides := h.hides
  filled t k _ _ := h.filled t k

theorem GrowsOff.trans (h : T.GrowsOff s r σ τ) (h' : T.GrowsOff s r τ υ) :
    T.GrowsOff s r σ υ where
  valid t ht := h'.valid t (h.valid t ht)
  view t ht := (h'.view t ht).trans (h.view t ht)
  below t ht := by
    rcases h'.below t ht with ht | ht
    · exact h.below t ht
    · exact .inr ht
  defUser t := (h'.defUser t).trans (h.defUser t)
  flagDefUser t hts ht := by
    rcases ht with ht | ht
    · rw [h'.flagDefUser t hts (.inl (h.valid t ht)), h.flagDefUser t hts (.inl ht)]
    · rw [h'.flagDefUser t hts (.inr ht), h.flagDefUser t hts (.inr fun hτ => ht (h'.valid t hτ))]

theorem AdvancesOff.trans (h : T.AdvancesOff G s r σ τ) (h' : T.AdvancesOff G s r τ υ) :
    T.AdvancesOff G s r σ υ where
  toGrowsOff := h.toGrowsOff.trans h'.toGrowsOff
  modulesVal := h'.modulesVal.trans h.modulesVal
  seen t k hs ht := h'.seen t k hs (h.seen t k hs ht)
  hides hσ := h'.hides (h.hides hσ)
  filled t k hts hs hσ hυ hk := by
    by_cases hτ : (τ.sym t).flagValid
    · exact h'.seen t k hs (h.filled t k hts hs hσ hτ hk)
    · exact h'.filled t k hts hs hτ hυ hk

theorem AdvancesOff.mono {r' : ℕ} (h : T.AdvancesOff G s r σ τ) (hr : r ≤ r') :
    T.AdvancesOff G s r' σ τ :=
  { h with below := fun t ht => (h.below t ht).imp_right fun hlt => hlt.trans_le hr }

/-- An update of the symbol that is being evaluated. -/
theorem advancesOff_modify [DecidableEq ι] {f : SymState ι → SymState ι}
    (hvalid : (σ.sym s).flagValid → (f (σ.sym s)).flagValid)
    (hr : (σ.sym s).flagValid ∨ T.rank s < r)
    (hdef : (f (σ.sym s)).defUser = (σ.sym s).defUser)
    (hk : ∀ k, (f (σ.sym s)).cache k = (σ.sym s).cache k) :
    T.AdvancesOff G s r σ (σ.modify s f) := by
  have hv : ∀ t, (σ.sym t).flagValid → ((σ.modify s f).sym t).flagValid := fun t ht => by
    rw [State.modify_sym]
    split
    · next hts =>
      subst hts
      exact hvalid ht
    · exact ht
  have hview : ∀ t, t ≠ s → T.view (σ.modify s f) t = T.view σ t := fun t ht => by
    simp only [view, State.modify_sym_of_ne σ f ht]
  have hcache : ∀ t k, ((σ.modify s f).sym t).cache k = (σ.sym t).cache k := fun t k => by
    by_cases hts : t = s
    · subst hts
      rw [State.modify_sym_self, hk]
    · rw [State.modify_sym_of_ne σ f hts]
  refine ⟨⟨hv, hview, fun t ht => ?_, fun t => ?_, fun t hts _ => ?_⟩, rfl, fun t k hs ht => ?_,
    fun h t ht => (hcache t .visible).trans (h t ht), fun t k hts _ hσ hτ => ?_⟩
  · by_cases hts : t = s
    · exact hts ▸ hr
    · rw [State.modify_sym_of_ne σ f hts] at ht
      exact .inl ht
  · by_cases hts : t = s
    · subst hts
      rw [State.modify_sym_self, hdef]
    · rw [State.modify_sym_of_ne σ f hts]
  · rw [State.modify_sym_of_ne σ f hts]
  · refine ⟨fun u hu => hv u (ht.reads u hu), ?_⟩
    rw [hcache, ht.cache]
    refine SymbolTable.cacheIn_congr k (fun _ => rfl) fun u hu => (hview u ?_).symm
    rintro rfl
    exact hs hu
  · rw [State.modify_sym_of_ne σ f hts] at hτ
    exact absurd hτ hσ

theorem Ready.off {n : ℕ} (h : T.Ready G r n σ) (h' : T.AdvancesOff G s r σ τ)
    (hs : (σ.sym s).flagValid) (hr : r ≤ T.rank s) : T.Ready G r n τ where
  known t ht := by
    rw [h'.view t (fun hts => absurd ht (by rw [hts]; omega)), h.known t ht]
  defUser t := (h'.defUser t).trans (h.defUser t)
  flagDefUser t ht := by
    rw [h'.flagDefUser t (fun hts => ht (hts ▸ h'.valid s hs)) (.inr ht)]
    exact h.flagDefUser t fun hσ => ht (h'.valid t hσ)
  fuel := (pending_le h'.valid).trans h.fuel
  modulesVal := h'.modulesVal.trans h.modulesVal
  hides := h'.hides h.hides
  done t ht := h'.valid t (h.done t ht)
  modules := h.modules.imp_left (h'.valid _)

/-- Evaluation of `s` as a whole advances when it ends with the value of the target and with
the caches filled of all that it has evaluated. -/
theorem AdvancesOff.close (h : T.AdvancesOff G s r σ τ) (hs : ¬(σ.sym s).flagValid)
    (hτ : (τ.sym s).flagValid) (hcurr : (τ.sym s).curr = T.env s)
    (hfilled : ∀ t k, ¬(σ.sym t).flagValid → (τ.sym t).flagValid → Fills G t k → T.Seen G τ t k) :
    T.Advances G r σ τ where
  valid := h.valid
  view := by
    funext t
    by_cases hts : t = s
    · subst hts
      rw [view_of_valid hτ, view_of_not_valid hs, hcurr]
    · exact h.view t hts
  below := h.below
  defUser := h.defUser
  flagDefUser t ht := by
    by_cases hts : t = s
    · subst hts
      exact absurd ht (by simp [hs, hτ])
    · exact h.flagDefUser t hts ht
  modulesVal := h.modulesVal
  seen t k ht := h.seen t k (fun hmem => hs (ht.reads s hmem)) ht
  hides := h.hides
  filled := hfilled

end

/-! ### What makes a target reachable -/

/-- The values of a target solve the equations, along a ranking of the symbols. -/
structure Sound [DecidableEq ι] : Prop where
  complete : ∀ s, s ∈ G.symbols
  reads_lt : ∀ s, ¬T.done s → ∀ t ∈ G.reads s, T.rank t < T.rank s
  solves : ∀ s, ¬T.done s → T.env s = G.valueIn (T.user s) T.modulesVal T.env s
  wellPosed : ∀ s, ¬T.done s → G.WellPosed (T.user s) s
  /-- A member that follows its choice has evaluated the choice for its visibility. -/
  consults : ∀ s, ¬T.done s → G.followsChoice T.modulesVal T.env s →
    ∀ c, G.choiceOf s = some c → c ∈ G.visReads s

end Target
end OpenADK.Kconfig
