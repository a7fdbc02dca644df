import OpenADK.Kconfig.Evaluation
import OpenADK.Kconfig.Frame

/-!
# Finalized symbol tables and running programs

What parsing and `menu_finalize` guarantee of the symbol table, what holds of the state while
a program runs, and `sym_clear_all_valid`, after which evaluation starts afresh.
-/

namespace OpenADK.Kconfig
namespace SymbolTable
variable {ι : Type}

/-- The shape of a symbol table after `conf_parse`, when no choice has the type of a number or a
string, and no choice is a member of another one. -/
structure Finalized (G : SymbolTable ι) : Prop where
  complete : ∀ s, s ∈ G.symbols
  yes_not_mem : G.symbolYes ∉ G.symbolHash
  mod_not_mem : G.symbolMod ∉ G.symbolHash
  no_not_mem : G.symbolNo ∉ G.symbolHash
  constants : G.symbolYes ≠ G.symbolMod ∧ G.symbolYes ≠ G.symbolNo ∧ G.symbolMod ≠ G.symbolNo
  /-- `modules_sym` has `option modules`, or it is the constant `n`. -/
  modules : G.modulesSym = G.symbolNo ∨ G.modulesSym ∈ G.symbolHash
  /-- `S_OTHER` is the type of symbols that only a file of automatic values names. -/
  type_ne_other : ∀ s, G.type s ≠ .other
  /-- A choice is boolean or tristate; it has no type when no member has one. -/
  choiceType : ∀ s, G.type s = .int ∨ G.type s = .hex ∨ G.type s = .string → G.isChoice s = false
  choice_mem : ∀ c, G.isChoice c → c ∈ G.symbolHash
  /-- `menu_finalize` adds a choice value to the list of its choice. -/
  memberOf : ∀ s c, G.isChoiceValue s → G.choiceOf s = some c → s ∈ G.members c ∧ G.isChoice c
  member : ∀ c s, G.isChoice c → s ∈ G.members c → G.isChoiceValue s ∧ G.choiceOf s = some c
  /-- The members of a choice are boolean or tristate symbols, and no choices. -/
  memberType : ∀ c s, G.isChoice c → s ∈ G.members c →
    s ∈ G.symbolHash ∧ (G.type s = .boolean ∨ G.type s = .tristate) ∧ G.isChoice s = false

set_option synthInstance.maxSize 256 in
instance [Fintype ι] [DecidableEq ι] (G : SymbolTable ι) : Decidable G.Finalized :=
  decidable_of_iff
    ((∀ s, s ∈ G.symbols) ∧
      (G.symbolYes ∉ G.symbolHash ∧ G.symbolMod ∉ G.symbolHash ∧ G.symbolNo ∉ G.symbolHash) ∧
      (G.symbolYes ≠ G.symbolMod ∧ G.symbolYes ≠ G.symbolNo ∧ G.symbolMod ≠ G.symbolNo) ∧
      (G.modulesSym = G.symbolNo ∨ G.modulesSym ∈ G.symbolHash) ∧
      (∀ s, G.type s ≠ .other) ∧
      (∀ s, G.type s = .int ∨ G.type s = .hex ∨ G.type s = .string → G.isChoice s = false) ∧
      (∀ c, G.isChoice c → c ∈ G.symbolHash) ∧
      (∀ s c, G.isChoiceValue s → G.choiceOf s = some c → s ∈ G.members c ∧ G.isChoice c) ∧
      (∀ c s, G.isChoice c → s ∈ G.members c → G.isChoiceValue s ∧ G.choiceOf s = some c) ∧
      ∀ c s, G.isChoice c → s ∈ G.members c →
        s ∈ G.symbolHash ∧ (G.type s = .boolean ∨ G.type s = .tristate) ∧ G.isChoice s = false)
    ⟨fun ⟨h1, ⟨h2, h3, h4⟩, h5, h6, h7, h8, h9, h10, h11, h12⟩ =>
        ⟨h1, h2, h3, h4, h5, h6, h7, h8, h9, h10, h11, h12⟩,
      fun ⟨h1, h2, h3, h4, h5, h6, h7, h8, h9, h10, h11, h12⟩ =>
        ⟨h1, ⟨h2, h3, h4⟩, h5, h6, h7, h8, h9, h10, h11, h12⟩⟩

/-- What holds of the state of a running program: the constants have their values, and what
the user picked in a choice is a member of it. -/
structure Started (G : SymbolTable ι) (σ : State ι) : Prop where
  yes_valid : (σ.sym G.symbolYes).flagValid
  yes_curr : (σ.sym G.symbolYes).curr = ⟨.str ['y'], .yes⟩
  mod_valid : (σ.sym G.symbolMod).flagValid
  mod_curr : (σ.sym G.symbolMod).curr = ⟨.str ['m'], .mod⟩
  no_valid : (σ.sym G.symbolNo).flagValid
  no_curr : (σ.sym G.symbolNo).curr = noCurr
  picks : ∀ c, G.isChoice c → G.PicksMember (userIn σ c) c
  hides : G.Hides σ

section
variable {G : SymbolTable ι} {σ τ : State ι}

theorem Finalized.allSymbols (hG : G.Finalized) : G.allSymbols = G.symbolHash := by
  unfold SymbolTable.allSymbols
  apply List.filter_eq_self.mpr
  intro s _
  simp only [ne_eq, decide_not, Bool.not_eq_eq_eq_not, Bool.not_true, decide_eq_false_iff_not]
  exact hG.type_ne_other s

/-- Changes that leave the constants and the user's picks alone keep the program running. -/
theorem Started.mono (h : G.Started σ)
    (hconst : ∀ t, t ∉ G.symbolHash → (τ.sym t).flagValid = (σ.sym t).flagValid ∧
      (τ.sym t).curr = (σ.sym t).curr)
    (hG : G.Finalized)
    (hdef : ∀ c, G.isChoice c → G.PicksMember (userIn τ c) c)
    (hvis : ∀ t, (τ.sym t).visible = (σ.sym t).visible) : G.Started τ where
  yes_valid := by rw [(hconst _ hG.yes_not_mem).1]; exact h.yes_valid
  yes_curr := by rw [(hconst _ hG.yes_not_mem).2]; exact h.yes_curr
  mod_valid := by rw [(hconst _ hG.mod_not_mem).1]; exact h.mod_valid
  mod_curr := by rw [(hconst _ hG.mod_not_mem).2]; exact h.mod_curr
  no_valid := by rw [(hconst _ hG.no_not_mem).1]; exact h.no_valid
  no_curr := by rw [(hconst _ hG.no_not_mem).2]; exact h.no_curr
  picks := hdef
  hides t ht := (hvis t).trans (h.hides t ht)

theorem Started.kept [DecidableEq ι] (h : G.Started σ) (h' : Kept G σ τ) (hh : G.Hides τ) :
    G.Started τ where
  yes_valid := h'.valid _ h.yes_valid
  yes_curr := (h'.curr _ h.yes_valid).trans h.yes_curr
  mod_valid := h'.valid _ h.mod_valid
  mod_curr := (h'.curr _ h.mod_valid).trans h.mod_curr
  no_valid := h'.valid _ h.no_valid
  no_curr := (h'.curr _ h.no_valid).trans h.no_curr
  picks c hc m hm := h.picks c hc m ((congrArg Value.val (h'.defUser c)).symm.trans hm)
  hides := hh

end

variable [DecidableEq ι] {G : SymbolTable ι} {σ τ : State ι}

/-! ### Clearing -/

theorem clearValid_sym (syms : List ι) (t : ι) :
    (clearValid syms σ).sym t =
      { σ.sym t with flagValid := (σ.sym t).flagValid && !decide (t ∈ syms) } := by
  unfold clearValid
  induction syms generalizing σ with
  | nil => simp
  | cons s syms ih =>
    rw [List.foldl_cons, ih, State.modify_sym]
    by_cases hts : t = s
    · simp [hts]
    · simp [hts]

theorem clearValid_modulesVal (syms : List ι) : (clearValid syms σ).modulesVal = σ.modulesVal := by
  unfold clearValid
  induction syms generalizing σ with
  | nil => rfl
  | cons s syms ih => exact ih

/-- The state in which `sym_clear_all_valid` calculates the `modules` symbol. -/
def cleared (G : SymbolTable ι) (σ : State ι) : State ι :=
  { clearValid G.allSymbols σ with changeCount := (clearValid G.allSymbols σ).changeCount + 1 }

theorem symClearAllValid_eq : symClearAllValid G σ = symCalcValue G G.modulesSym (G.cleared σ) := rfl

theorem cleared_sym (t : ι) :
    (G.cleared σ).sym t =
      { σ.sym t with flagValid := (σ.sym t).flagValid && !decide (t ∈ G.allSymbols) } :=
  clearValid_sym G.allSymbols t

theorem Started.cleared (hG : G.Finalized) (h : G.Started σ) : G.Started (G.cleared σ) := by
  refine h.mono (fun t ht => ?_) hG (fun c hc m hm => h.picks c hc m ?_) fun t => ?_
  · rw [cleared_sym, hG.allSymbols]
    simp [ht]
  · simpa only [userIn, cleared_sym] using hm
  · rw [cleared_sym]

theorem Started.symClearAllValid (hG : G.Finalized) (h : G.Started σ) :
    G.Started (symClearAllValid G σ) :=
  (h.cleared hG).kept kept_symCalcValue (hides_symCalcValue (h.cleared hG).hides)

theorem valid_modules_symClearAllValid : ((symClearAllValid G σ).sym G.modulesSym).flagValid :=
  valid_symCalcValue

/-! ### `modules_val` -/

/-- `modules_val` is the value of the `modules` symbol. -/
structure Tracked (G : SymbolTable ι) (σ : State ι) : Prop where
  modulesVal : σ.modulesVal = (σ.sym G.modulesSym).curr.tri
  unknown : G.type G.modulesSym = .unknown → σ.modulesVal = .no

theorem tracked_modify {s : ι} {f : SymState ι → SymState ι} (h : G.Tracked σ)
    (hf : s = G.modulesSym → ∀ st, (f st).curr = st.curr) : G.Tracked (σ.modify s f) where
  modulesVal := by
    rw [State.modify_modulesVal, h.modulesVal, State.modify_sym]
    split
    · next hs => rw [hf hs.symm]
    · rfl
  unknown := h.unknown

/-- While the `modules` symbol is not evaluated, its value and `modules_val` stay. -/
theorem tracked_invariant (G : SymbolTable ι) : Invariant G (· ≠ G.modulesSym) G.Tracked :=
  .of_cacheUpdate
    (fun hf h => tracked_modify h fun _ => hf.curr)
    (fun h _ => tracked_modify h fun _ _ => rfl)
    (fun _ h hs => tracked_modify h fun hm => absurd hm hs)
    (fun _ h _ _ => tracked_modify h fun _ _ => rfl)

/-- While the `modules` symbol is evaluated, `modules_val` stays until the end. -/
theorem modulesVal_invariant (G : SymbolTable ι) (Own : ι → Prop) (tri : Tristate) :
    Invariant G Own fun τ => (τ.sym G.modulesSym).flagValid ∧ τ.modulesVal = tri :=
  .of_cacheUpdate
    (fun hf h => ⟨valid_modify (fun st hst => by rwa [hf.flagValid]) h.1, h.2⟩)
    (fun h _ => ⟨valid_modify (fun _ _ => rfl) h.1, h.2⟩)
    (fun _ h _ => ⟨valid_modify (fun _ => id) h.1, h.2⟩)
    (fun _ h _ _ => ⟨valid_modify (fun _ => id) h.1, h.2⟩)

theorem modulesVal_runInvariant (G : SymbolTable ι) (tri : Tristate) :
    RunInvariant G (· ≠ G.modulesSym) fun τ =>
      (τ.sym G.modulesSym).flagValid ∧ τ.modulesVal = tri where
  toInvariant := modulesVal_invariant G _ tri
  own h hs := fun hm => hs (hm ▸ h.1)
  modulesVal _ _ hs := absurd rfl hs

/-- The end of the evaluation of the `modules` symbol. -/
theorem tracked_finishCalc {oldval : Value ι}
    (hold : (σ.sym G.modulesSym).flagValid ∧ σ.modulesVal = oldval.tri)
    (hunknown : G.type G.modulesSym ≠ .unknown) :
    G.Tracked (finishCalc G G.modulesSym oldval σ) := by
  apply finishCalc_preserves (fun b h => tracked_modify h fun _ _ => rfl) fun _ _ _ _ h _ =>
    tracked_modify h fun _ _ => rfl
  split
  · exact ⟨rfl, fun hu => absurd hu hunknown⟩
  · next h =>
    have heq : oldval = (σ.sym G.modulesSym).curr := by simpa using h
    exact ⟨hold.2.trans (congrArg Value.tri heq), fun hu => absurd hu hunknown⟩

/-- Evaluation of the `modules` symbol, from the level below. -/
theorem tracked_calcInvalid_modules (hG : G.Finalized) {n : ℕ} (hσ : G.Tracked σ) :
    G.Tracked (calcInvalid G (symCalcFuel G n) G.modulesSym
      (σ.modify G.modulesSym fun st => { st with flagValid := true })) := by
  have hB := modulesVal_invariant G (fun _ => True) σ.modulesVal
  have hcalc := (modulesVal_runInvariant G σ.modulesVal).preserves n
  have henter : ((σ.modify G.modulesSym fun st => { st with flagValid := true }).sym
      G.modulesSym).flagValid ∧
      (σ.modify G.modulesSym fun st => { st with flagValid := true }).modulesVal =
        σ.modulesVal := by
    rw [State.modify_sym_self]
    exact ⟨rfl, rfl⟩
  have hval : σ.modulesVal = ((σ.modify G.modulesSym fun st =>
      { st with flagValid := true }).sym G.modulesSym).curr.tri := by
    rw [State.modify_sym_self, hσ.modulesVal]
  generalize (σ.modify G.modulesSym fun st => { st with flagValid := true }) = σ1 at henter hval ⊢
  by_cases hname : G.type G.modulesSym = .unknown ∨ G.type G.modulesSym = .other
  · have hunknown := hname.resolve_right (hG.type_ne_other _)
    have hno : σ1.modulesVal = .no := henter.2.trans (hσ.unknown hunknown)
    rw [calcInvalid_named hname]
    refine ⟨?_, fun _ => hno⟩
    rw [State.modify_modulesVal, State.modify_sym_self, hno]
  have hunknown : G.type G.modulesSym ≠ .unknown := fun h => hname (.inl h)
  by_cases htri : G.type G.modulesSym = .boolean ∨ G.type G.modulesSym = .tristate
  · rw [calcInvalid_tristate htri]
    refine tracked_finishCalc ?_ hunknown
    rw [← hval]
    exact hB.storeValue hcalc trivial (hB.calcTristate hcalc trivial (hB.prepare hcalc trivial henter))
  · rw [calcInvalid_string (by
      cases ht : G.type G.modulesSym <;> simp [ht] at hname htri ⊢)]
    refine tracked_finishCalc ?_ hunknown
    rw [← hval]
    exact hB.storeValue hcalc trivial (hB.calcString hcalc trivial (hB.prepare hcalc trivial henter))

theorem tracked_symCalcFuel (hG : G.Finalized) (n : ℕ) : Preserves G.Tracked (symCalcFuel G n) := by
  induction n with
  | zero => exact fun _ _ h => h
  | succ n ih =>
    intro s σ hσ
    rw [symCalcFuel, symCalcStep]
    split
    · exact hσ
    by_cases hs : s = G.modulesSym
    · rw [hs]
      exact tracked_calcInvalid_modules hG hσ
    · have hI := tracked_invariant G
      exact hI.calcInvalid ih hs (fun hm => absurd hm.symm hs) (hI.enter hσ hs)

theorem Tracked.symCalcValue (hG : G.Finalized) (h : G.Tracked σ) {s : ι} :
    G.Tracked (symCalcValue G s σ) := tracked_symCalcFuel hG _ s σ h

theorem Tracked.symCalcList (hG : G.Finalized) (h : G.Tracked σ) (syms : List ι) :
    G.Tracked (symCalcList G syms σ) := by
  induction syms generalizing σ with
  | nil => exact h
  | cons s syms ih => exact ih (h.symCalcValue hG)

theorem Tracked.cleared (h : G.Tracked σ) : G.Tracked (G.cleared σ) where
  modulesVal := by
    rw [cleared_sym]
    exact (clearValid_modulesVal G.allSymbols).trans h.modulesVal
  unknown hu := (clearValid_modulesVal G.allSymbols).trans (h.unknown hu)

end SymbolTable
end OpenADK.Kconfig
