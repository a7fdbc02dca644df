import OpenADK.Kconfig.Reads

/-!
# What evaluation leaves alone

Whatever the dependencies are, also recursive ones, evaluation only fills caches and, of the
symbols it enters, sets `SYMBOL_VALID`, stores the value, sets and clears `SYMBOL_WRITE`, clears
`SYMBOL_DEF_USER` of choices, marks the visible members of choices and stores `modules_val`. A
property of states that all of these but the last preserve is an `Invariant` of the steps on one
symbol. With `modules_val`, and when it knows which symbols are still to be entered, evaluation as
a whole preserves it.
-/

namespace OpenADK.Kconfig
variable {ι : Type}

/-- Evaluating a symbol preserves `I`. -/
def Preserves (I : State ι → Prop) (calcSym : Calc ι) : Prop := ∀ s σ, I σ → I (calcSym s σ)

section
variable {G : SymbolTable ι} {I : State ι → Prop} {calcSym : Calc ι} {σ : State ι} {s : ι}

theorem symGetStringValue_preserves (hcalc : Preserves I calcSym) (hσ : I σ) :
    I (symGetStringValue G calcSym s σ).2 := by
  unfold symGetStringValue
  split
  · split
    · exact hσ
    · exact hσ
    · exact hcalc _ _ hσ
  · split
    · exact hσ
    · exact hσ
    · exact hcalc _ _ hσ
  · exact hσ

theorem exprCalc_preserves (hcalc : Preserves I calcSym) {e : Expr ι} (hσ : I σ) :
    I (exprCalc G calcSym e σ).2 := by
  have hstrings : ∀ {s t σ}, I σ → I (comparedStrings G calcSym s t σ).2 := fun hσ =>
    symGetStringValue_preserves hcalc (symGetStringValue_preserves hcalc
      (hcalc _ _ (hcalc _ _ hσ)))
  induction e generalizing σ with
  | symbol s => exact hcalc s σ hσ
  | not e ih => exact ih hσ
  | equal s t => exact hstrings hσ
  | unequal s t => exact hstrings hσ
  | and l r ihl ihr => exact ihr (ihl hσ)
  | or l r ihl ihr => exact ihr (ihl hσ)

theorem exprCalcValue_preserves (hcalc : Preserves I calcSym) {e : Option (Expr ι)} (hσ : I σ) :
    I (exprCalcValue G calcSym e σ).2 := by
  cases e with
  | none => exact hσ
  | some e => exact exprCalc_preserves hcalc hσ

theorem revDepValue_preserves (hcalc : Preserves I calcSym) {e : Option (Expr ι)} (hσ : I σ) :
    I (revDepValue G calcSym e σ).2 := by
  cases e with
  | none => exact hσ
  | some e => exact exprCalc_preserves hcalc hσ

theorem firstVisibleProp_preserves (hcalc : Preserves I calcSym) {props : List (Property ι)}
    (hσ : I σ) : I (firstVisibleProp G calcSym props σ).2 := by
  induction props generalizing σ with
  | nil => exact hσ
  | cons p props ih =>
    have hp : I (exprCalcValue G calcSym p.visible σ).2 := exprCalcValue_preserves hcalc hσ
    rw [firstVisibleProp]
    split
    · exact hp
    · exact ih hp

theorem visibleDefault_preserves (hcalc : Preserves I calcSym) {props : List (Property ι)}
    (hσ : I σ) : I (visibleDefault G calcSym props σ).2 := by
  induction props generalizing σ with
  | nil => exact hσ
  | cons p props ih =>
    have hp : I (exprCalcValue G calcSym p.visible σ).2 := exprCalcValue_preserves hcalc hσ
    rw [visibleDefault]
    split
    · split
      · exact hp
      · exact ih hp
    · exact ih hp

theorem symChoiceDefault_preserves (hcalc : Preserves I calcSym) (hσ : I σ) :
    I (symChoiceDefault G calcSym s σ).2 := by
  have hd : I (visibleDefault G calcSym (G.symbol s).defaults σ).2 :=
    visibleDefault_preserves hcalc hσ
  unfold symChoiceDefault
  split
  · exact hσ
  · simp only
    split <;> exact hd

theorem orSelectValues_preserves (hcalc : Preserves I calcSym) {i : ℕ}
    {esvs : List (SelectValue ι)} {tri : Tristate} (hσ : I σ) :
    I (orSelectValues G calcSym s i esvs tri σ).2 := by
  induction esvs generalizing σ i tri with
  | nil => exact hσ
  | cons esv esvs ih =>
    rw [orSelectValues]
    split
    · exact ih (exprCalc_preserves hcalc hσ)
    · exact ih hσ

theorem warnUnmet_preserves (hcalc : Preserves I calcSym) (hσ : I σ) :
    I (warnUnmet G calcSym s σ) := by
  unfold warnUnmet
  split
  · exact orSelectValues_preserves hcalc hσ
  · exact hσ

theorem propValue_preserves (hcalc : Preserves I calcSym) {p : Property ι} (hσ : I σ) :
    I (propValue G calcSym p σ).2 := by
  unfold propValue
  split
  · exact exprCalc_preserves hcalc hσ
  · exact hσ

end

/-! ### What is kept -/

structure Kept (G : SymbolTable ι) (σ τ : State ι) : Prop where
  valid : ∀ t, (σ.sym t).flagValid → (τ.sym t).flagValid
  curr : ∀ t, (σ.sym t).flagValid → (τ.sym t).curr = (σ.sym t).curr
  defUser : ∀ t, (τ.sym t).defUser = (σ.sym t).defUser
  flagDefUser : ∀ t, (σ.sym t).flagValid ∨ G.isChoice t = false →
    (τ.sym t).flagDefUser = (σ.sym t).flagDefUser
  modulesVal : (σ.sym G.modulesSym).flagValid → τ.modulesVal = σ.modulesVal
  changeCount : τ.changeCount = σ.changeCount

section
variable {G : SymbolTable ι} {σ τ : State ι} {s : ι}

theorem Kept.refl : Kept G σ σ :=
  ⟨fun _ h => h, fun _ _ => rfl, fun _ => rfl, fun _ _ => rfl, fun _ => rfl, rfl⟩

theorem Kept.trans {υ : State ι} (h : Kept G σ τ) (h' : Kept G τ υ) : Kept G σ υ where
  valid t ht := h'.valid t (h.valid t ht)
  curr t ht := (h'.curr t (h.valid t ht)).trans (h.curr t ht)
  defUser t := (h'.defUser t).trans (h.defUser t)
  flagDefUser t ht := (h'.flagDefUser t (ht.imp_left (h.valid t))).trans (h.flagDefUser t ht)
  modulesVal hm := (h'.modulesVal (h.valid _ hm)).trans (h.modulesVal hm)
  changeCount := h'.changeCount.trans h.changeCount

end

section
variable [DecidableEq ι]

/-- A change to one symbol that stores in its caches, but for its visibility. -/
structure Caching {ι : Type} (f : SymState ι → SymState ι) : Prop extends CacheUpdate f where
  flagWrite : ∀ st, (f st).flagWrite = st.flagWrite
  visible : ∀ st, (f st).visible = st.visible

theorem setCache_caching {ι : Type} {k : Cache} (hk : k ≠ .visible) (v : Tristate) :
    Caching fun st : SymState ι => st.setCache k v where
  toCacheUpdate := setCache_cacheUpdate k v
  flagWrite st := by cases k <;> rfl
  visible st := by
    cases k with
    | visible => exact absurd rfl hk
    | dirDep | revDep | valDep => rfl

/-- `Own s` holds of the symbols that evaluation may enter. -/
structure Invariant (G : SymbolTable ι) (Own : ι → Prop) (I : State ι → Prop) : Prop where
  visibility : ∀ {calcSym s σ}, Preserves I calcSym → I σ → I (symCalcVisibility G calcSym s σ)
  write : ∀ {s σ} (b : Bool), I σ → Own s → I (σ.modify s fun st => { st with flagWrite := b })
  mark : ∀ {c m σ}, I σ → Own c → G.isChoice c → m ∈ G.members c → (σ.sym m).visible ≠ .no →
    I (σ.setWrite m)
  enter : ∀ {s σ}, I σ → Own s → I (σ.modify s fun st => { st with flagValid := true })
  curr : ∀ {s σ} (f : Value ι → Value ι), I σ → Own s →
    I (σ.modify s fun st => { st with curr := f st.curr })
  flagDefUser : ∀ {s σ} (b : Bool), I σ → Own s → G.isChoice s →
    I (σ.modify s fun st => { st with flagDefUser := st.flagDefUser && b })

/-- An invariant of evaluation as a whole. -/
structure RunInvariant (G : SymbolTable ι) (Own : ι → Prop) (I : State ι → Prop) : Prop
    extends Invariant G Own I where
  own : ∀ {s σ}, I σ → ¬(σ.sym s).flagValid → Own s
  modulesVal : ∀ {σ} (tri : Tristate), I σ → Own G.modulesSym → I { σ with modulesVal := tri }

section
variable {G : SymbolTable ι} {I : State ι → Prop} {calcSym : Calc ι} {σ : State ι} {s : ι}
variable (hI : ∀ {f σ}, Caching f → I σ → I (σ.modify s f)) (hcalc : Preserves I calcSym)
include hI hcalc

theorem calcValDep_preserves {i : ℕ} {esvs : List (SelectValue ι)} (hσ : I σ) :
    I (calcValDep G calcSym s i esvs σ) := by
  induction esvs generalizing σ i with
  | nil => exact hσ
  | cons esv esvs ih =>
    exact ih (hI (setCache_caching (k := .valDep i) (by simp) _) (exprCalc_preserves hcalc hσ))

theorem promptsVisible_preserves {i : ℕ} {props : List (Property ι)} {tri : Tristate} (hσ : I σ) :
    I (promptsVisible G calcSym s i props tri σ).2 := by
  induction props generalizing σ i tri with
  | nil => exact hσ
  | cons p props ih =>
    refine ih (hI ?_ (exprCalcValue_preserves hcalc hσ))
    exact ⟨⟨fun _ => rfl, fun _ => rfl, fun _ => rfl, fun _ => rfl⟩, fun _ => rfl, fun _ => rfl⟩

/-- Visibility preserves what storing in caches preserves. -/
theorem symCalcVisibility_preserves
    (hvis : let tri := promptsVisible G calcSym s 0 (G.symbol s).prompts .no σ
      I tri.2 → I (tri.2.modify s fun st => { st with
        visible := if tri.1 = .mod ∧ (G.type s ≠ .tristate ∨ tri.2.modulesVal = .no) then .yes
          else tri.1 })) (hσ : I σ) : I (symCalcVisibility G calcSym s σ) :=
  calcValDep_preserves hI hcalc
    (hI (setCache_caching (k := .revDep) (by simp) _) (revDepValue_preserves hcalc
      (hI (setCache_caching (k := .dirDep) (by simp) _) (exprCalcValue_preserves hcalc
        (hvis (promptsVisible_preserves hI hcalc hσ))))))

end

/-- The end of `sym_calc_value`, once `modules_val` is stored. -/
theorem finishCalc_preserves {G : SymbolTable ι} {I : State ι → Prop} {σ : State ι} {s : ι}
    {oldval : Value ι}
    (hwrite : ∀ {σ} (b : Bool), I σ → I (σ.modify s fun st => { st with flagWrite := b }))
    (hmark : G.isChoice s → ∀ m ∈ G.members s, ∀ σ, I σ → (σ.sym m).visible ≠ .no →
      I (σ.setWrite m))
    (h : I (if oldval ≠ (σ.sym s).curr ∧ G.modulesSym = s then
      { σ with modulesVal := (σ.sym s).curr.tri } else σ)) : I (finishCalc G s oldval σ) := by
  have hmembers : G.isChoice s → ∀ (l : List ι), (∀ m ∈ l, m ∈ G.members s) → ∀ σ, I σ →
      I (markMembers l σ) := by
    intro hc l
    induction l with
    | nil => exact fun _ _ h => h
    | cons m l ih =>
      intro hl σ hσ
      refine ih (fun t ht => hl t (List.mem_cons_of_mem _ ht)) _ ?_
      split
      · next hv => exact hmark hc m (hl m List.mem_cons_self) σ hσ hv
      · exact hσ
  unfold finishCalc
  generalize (if oldval ≠ (σ.sym s).curr ∧ G.modulesSym = s then
    { σ with modulesVal := (σ.sym s).curr.tri } else σ) = σ1 at h ⊢
  have h2 : I (if G.isChoice s ∧ (σ1.sym s).flagWrite then
      markMembers (G.members s) σ1 else σ1) := by
    split
    · next hc => exact hmembers hc.1 _ (fun _ hm => hm) _ h
    · exact h
  simp only
  split
  · exact hwrite false h2
  · exact h2

namespace Invariant
variable {G : SymbolTable ι} {Own : ι → Prop} {I : State ι → Prop} {calcSym : Calc ι}
variable {σ : State ι} {s : ι} (hI : Invariant G Own I)
include hI

omit hI in
/-- Properties that do not see the caches and `SYMBOL_WRITE`. -/
theorem of_cacheUpdate (hcache : ∀ {s f σ}, CacheUpdate f → I σ → I (σ.modify s f))
    (enter : ∀ {s σ}, I σ → Own s → I (σ.modify s fun st => { st with flagValid := true }))
    (curr : ∀ {s σ} (f : Value ι → Value ι), I σ → Own s →
      I (σ.modify s fun st => { st with curr := f st.curr }))
    (flagDefUser : ∀ {s σ} (b : Bool), I σ → Own s → G.isChoice s →
      I (σ.modify s fun st => { st with flagDefUser := st.flagDefUser && b })) :
    Invariant G Own I where
  visibility hcalc := symCalcVisibility_preserves (fun hf => hcache hf.toCacheUpdate) hcalc fun h =>
    hcache (setCache_cacheUpdate .visible _) h
  write _ h _ := hcache ⟨fun _ => rfl, fun _ => rfl, fun _ => rfl, fun _ => rfl⟩ h
  mark h _ _ _ _ := hcache ⟨fun _ => rfl, fun _ => rfl, fun _ => rfl, fun _ => rfl⟩ h
  enter := enter
  curr := curr
  flagDefUser := flagDefUser

theorem setWrite (hs : Own s) (hσ : I σ) : I (σ.setWrite s) := hI.write true hσ hs

theorem setWrite_ite {c : Prop} [Decidable c] (hs : Own s) (hσ : I σ) :
    I (if c then σ.setWrite s else σ) := by
  split
  · exact hI.setWrite hs hσ
  · exact hσ

theorem calcMembersVisibility (hcalc : Preserves I calcSym) {members : List ι} {b : Bool}
    (hσ : I σ) : I (calcMembersVisibility G calcSym members b σ).2 := by
  induction members generalizing σ b with
  | nil => exact hσ
  | cons m members ih => exact ih (hI.visibility hcalc hσ)

theorem symCalcChoice (hcalc : Preserves I calcSym) (hs : Own s) (hc : G.isChoice s) (hσ : I σ) :
    I (symCalcChoice G calcSym s σ) := by
  have h1 : I ((Kconfig.calcMembersVisibility G calcSym (G.members s) (σ.sym s).flagDefUser σ).2.modify s
      fun st => { st with flagDefUser := st.flagDefUser &&
        (Kconfig.calcMembersVisibility G calcSym (G.members s) (σ.sym s).flagDefUser σ).1 }) :=
    hI.flagDefUser _ (hI.calcMembersVisibility hcalc hσ) hs hc
  unfold Kconfig.symCalcChoice
  simp only
  split
  · exact hI.curr (fun v => { v with val := .sym _ }) h1 hs
  · have h2 := symChoiceDefault_preserves (G := G) (s := s) hcalc h1
    split
    · exact hI.curr (fun v => { v with val := .sym _ }) h2 hs
    · exact hI.curr (fun _ => ⟨.null, .no⟩) h2 hs

theorem symValidateRange (hcalc : Preserves I calcSym) (hs : Own s) (hσ : I σ) :
    I (symValidateRange G calcSym s σ) := by
  have hclamp : ∀ {σ} (t : Text), I σ →
      I (σ.modify s fun st => { st with curr := { st.curr with val := .str t } }) :=
    fun t hσ => hI.curr (fun v => { v with val := .str t }) hσ hs
  have hbound : ∀ {t base σ}, I σ → I (symGetRangeVal G calcSym t base σ).2 :=
    fun hσ => hcalc _ _ hσ
  unfold Kconfig.symValidateRange
  split
  · exact hσ
  · have h1 : I (symGetRangeProp G calcSym s σ).2 := firstVisibleProp_preserves hcalc hσ
    simp only
    split
    · exact h1
    · split
      · split
        · exact hbound (hbound h1)
        · exact hclamp _ (hbound (hbound h1))
      · exact hclamp _ (hbound h1)

theorem defaultTristate (hcalc : Preserves I calcSym) (hs : Own s) (hσ : I σ) :
    I (defaultTristate G calcSym s σ).2 := by
  have h1 : I (symGetDefaultProp G calcSym s σ).2 := firstVisibleProp_preserves hcalc hσ
  unfold Kconfig.defaultTristate
  simp only
  split
  · exact h1
  · exact propValue_preserves hcalc (hI.setWrite hs h1)

theorem baseTristate (hcalc : Preserves I calcSym) (hs : Own s) (hσ : I σ) :
    I (baseTristate G calcSym s σ).2 := by
  have h1 : I (if (σ.sym s).visible ≠ .no then σ.setWrite s else σ) := hI.setWrite_ite hs hσ
  unfold Kconfig.baseTristate
  simp only
  generalize (if (σ.sym s).visible ≠ .no then σ.setWrite s else σ) = σ1 at h1 ⊢
  split
  · exact h1
  · split
    · exact hI.setWrite_ite hs h1
    · exact hI.defaultTristate hcalc hs (hI.setWrite_ite hs h1)

theorem calcTristate (hcalc : Preserves I calcSym) (hs : Own s) (hσ : I σ) :
    I (calcTristate G calcSym s σ).2 := by
  unfold Kconfig.calcTristate
  by_cases hf : G.isChoiceValue s ∧ (σ.sym s).visible = .yes
  · simp only [if_pos hf]
    cases G.choiceOf s <;> simp only <;> split <;> exact hσ
  · simp only [if_neg hf]
    have h1 : ∀ tri, I (orSelectValues G calcSym s 0 (G.symbol s).valDep tri
        (warnUnmet G calcSym s (Kconfig.baseTristate G calcSym s σ).2)).2 := fun tri =>
      orSelectValues_preserves hcalc (warnUnmet_preserves hcalc (hI.baseTristate hcalc hs hσ))
    split <;> exact h1 _

theorem calcString (hcalc : Preserves I calcSym) (hs : Own s) (hσ : I σ) :
    I (calcString G calcSym s σ).2 := by
  have h1 : I (if (σ.sym s).visible ≠ .no then σ.setWrite s else σ) := hI.setWrite_ite hs hσ
  unfold Kconfig.calcString
  simp only
  generalize (if (σ.sym s).visible ≠ .no then σ.setWrite s else σ) = σ1 at h1 ⊢
  split
  · exact h1
  · split
    · exact hcalc _ _ (hI.setWrite hs h1)
    · have h2 : I (symGetDefaultProp G calcSym s σ1).2 := firstVisibleProp_preserves hcalc h1
      split
      · exact hcalc _ _ (hI.setWrite hs h2)
      · exact h2

theorem storeValue (hcalc : Preserves I calcSym) (hs : Own s) {newval : Value ι} (hσ : I σ) :
    I (storeValue G calcSym s newval σ) := by
  apply hI.symValidateRange hcalc hs
  have h1 := hI.curr (fun _ => newval) hσ hs
  split
  · next hc => exact hI.symCalcChoice hcalc hs hc.1 h1
  · exact h1

theorem finishCalc (hs : Own s)
    (hmod : G.modulesSym = s → ∀ (tri : Tristate) τ, I τ → I { τ with modulesVal := tri })
    {oldval : Value ι} (hσ : I σ) : I (finishCalc G s oldval σ) := by
  apply finishCalc_preserves (fun b h => hI.write b h hs) fun hc m hm σ h hv => hI.mark h hs hc hm hv
  split
  · next hm => exact hmod hm.2 _ _ hσ
  · exact hσ

theorem prepare (hcalc : Preserves I calcSym) (hs : Own s) {newval : Value ι} (hσ : I σ) :
    I (prepare G calcSym s newval σ) := by
  have h1 : I (if G.isChoiceValue s then σ
      else σ.modify s fun st => { st with flagWrite := false }) := by
    split
    · exact hσ
    · exact hI.write false hσ hs
  exact hI.curr (fun _ => newval) (hI.visibility hcalc h1) hs

theorem calcInvalid (hcalc : Preserves I calcSym) (hs : Own s)
    (hmod : G.modulesSym = s → ∀ (tri : Tristate) τ, I τ → I { τ with modulesVal := tri })
    (hσ : I σ) : I (calcInvalid G calcSym s σ) := by
  by_cases hname : G.type s = .unknown ∨ G.type s = .other
  · rw [calcInvalid_named hname]
    exact hI.curr (fun _ => _) hσ hs
  by_cases htri : G.type s = .boolean ∨ G.type s = .tristate
  · rw [calcInvalid_tristate htri]
    exact hI.finishCalc hs hmod (hI.storeValue hcalc hs
      (hI.calcTristate hcalc hs (hI.prepare hcalc hs hσ)))
  · rw [calcInvalid_string (by cases ht : G.type s <;> simp [ht] at hname htri ⊢)]
    exact hI.finishCalc hs hmod (hI.storeValue hcalc hs
      (hI.calcString hcalc hs (hI.prepare hcalc hs hσ)))

end Invariant

namespace RunInvariant
variable {G : SymbolTable ι} {Own : ι → Prop} {I : State ι → Prop} {σ : State ι} {s : ι}
variable (hI : RunInvariant G Own I)
include hI

/-- Evaluation of a symbol preserves every invariant, with any fuel. -/
theorem preserves (n : ℕ) : Preserves I (symCalcFuel G n) := by
  induction n with
  | zero => exact fun _ _ h => h
  | succ n ih =>
    intro s σ hσ
    rw [symCalcFuel, symCalcStep]
    split
    · exact hσ
    · next hs =>
      have hown := hI.own hσ hs
      exact hI.calcInvalid ih hown (fun hm tri τ hτ => hI.modulesVal tri hτ (hm ▸ hown))
        (hI.enter hσ hown)

theorem symCalcValue (hσ : I σ) : I (symCalcValue G s σ) := hI.preserves _ s σ hσ

theorem symCalcList {syms : List ι} (hσ : I σ) : I (symCalcList G syms σ) := by
  induction syms generalizing σ with
  | nil => exact hσ
  | cons s syms ih => exact ih (hI.symCalcValue hσ)

end RunInvariant

section
variable {G : SymbolTable ι} {σ τ : State ι} {s : ι}

/-- An update of one symbol keeps what it has to. -/
theorem Kept.modify (h : Kept G σ τ) {f : SymState ι → SymState ι}
    (hvalid : ∀ st, st.flagValid → (f st).flagValid)
    (hcurr : (σ.sym s).flagValid → ∀ st, (f st).curr = st.curr)
    (hdef : ∀ st, (f st).defUser = st.defUser)
    (hflag : (σ.sym s).flagValid ∨ G.isChoice s = false →
      ∀ st, (f st).flagDefUser = st.flagDefUser) : Kept G σ (τ.modify s f) := by
  constructor
  · intro t ht
    rw [State.modify_sym]
    split
    · exact hvalid _ (h.valid t ht)
    · exact h.valid t ht
  · intro t ht
    rw [← h.curr t ht, State.modify_sym]
    split
    · next hts => exact hcurr (hts ▸ ht) _
    · rfl
  · intro t
    rw [← h.defUser t, State.modify_sym]
    split
    · exact hdef _
    · rfl
  · intro t ht
    rw [← h.flagDefUser t ht, State.modify_sym]
    split
    · next hts => exact hflag (hts ▸ ht) _
    · rfl
  · exact h.modulesVal
  · exact h.changeCount

theorem kept_invariant (G : SymbolTable ι) (σ : State ι) :
    RunInvariant G (fun s => ¬(σ.sym s).flagValid) (Kept G σ) where
  toInvariant := .of_cacheUpdate
    (fun hf h => h.modify (fun st hst => by rw [hf.flagValid, hst]) (fun _ => hf.curr) hf.defUser
      fun _ => hf.flagDefUser)
    (fun h _ => h.modify (fun _ _ => rfl) (fun _ _ => rfl) (fun _ => rfl) fun _ _ => rfl)
    (fun _ h hs => h.modify (fun _ => id) (fun hv => absurd hv hs) (fun _ => rfl) fun _ _ => rfl)
    (fun _ h hs hc => h.modify (fun _ => id) (fun _ _ => rfl) (fun _ => rfl) fun hv =>
      absurd hv (by simp [hs, hc]))
  own h hs hσ := hs (h.valid _ hσ)
  modulesVal _ h hs := ⟨h.valid, h.curr, h.defUser, h.flagDefUser, fun hv => absurd hv hs,
    h.changeCount⟩

theorem kept_symCalcFuel (n : ℕ) : Kept G σ (symCalcFuel G n s σ) :=
  (kept_invariant G σ).preserves n s σ .refl

theorem kept_symCalcValue : Kept G σ (symCalcValue G s σ) := kept_symCalcFuel _

theorem kept_symCalcList (syms : List ι) : Kept G σ (symCalcList G syms σ) :=
  (kept_invariant G σ).symCalcList .refl

/-- An update that keeps `SYMBOL_VALID` set. -/
theorem valid_modify {t : ι} {f : SymState ι → SymState ι}
    (hf : ∀ st, st.flagValid → (f st).flagValid) (h : (σ.sym s).flagValid) :
    ((σ.modify t f).sym s).flagValid := by
  rw [State.modify_sym]
  split
  · exact hf _ h
  · exact h

theorem valid_invariant (G : SymbolTable ι) (s : ι) :
    RunInvariant G (fun _ => True) fun τ => (τ.sym s).flagValid where
  toInvariant := .of_cacheUpdate
    (fun hf h => valid_modify (fun st hst => by rwa [hf.flagValid]) h)
    (fun h _ => valid_modify (fun _ _ => rfl) h)
    (fun _ h _ => valid_modify (fun _ => id) h)
    (fun _ h _ _ => valid_modify (fun _ => id) h)
  own _ _ := trivial
  modulesVal _ h _ := h

/-- An update that shows no symbol without a prompt. -/
theorem SymbolTable.Hides.modify (h : G.Hides σ) {f : SymState ι → SymState ι}
    (hf : (G.symbol s).prompts = [] → ∀ st, st.visible = .no → (f st).visible = .no) :
    G.Hides (σ.modify s f) := by
  intro t ht
  rw [State.modify_sym]
  split
  · next hts =>
    subst hts
    exact hf ht _ (h t ht)
  · exact h t ht

theorem hides_invariant (G : SymbolTable ι) : RunInvariant G (fun _ => True) G.Hides where
  visibility {calcSym s σ} hcalc h := by
    refine symCalcVisibility_preserves (fun hf h => h.modify fun _ st => (hf.visible st).trans)
      hcalc (fun h => h.modify fun hs _ _ => ?_) h
    -- the loop over the prompts has nothing to go through
    rw [hs]
    rfl
  write _ h _ := h.modify fun _ _ => id
  mark h _ _ _ _ := h.modify fun _ _ => id
  enter h _ := h.modify fun _ _ => id
  curr _ h _ := h.modify fun _ _ => id
  flagDefUser _ h _ _ := h.modify fun _ _ => id
  own _ _ := trivial
  modulesVal _ h _ := h

theorem hides_symCalcValue (h : G.Hides σ) : G.Hides (symCalcValue G s σ) :=
  (hides_invariant G).symCalcValue h

theorem hides_symCalcList (h : G.Hides σ) (syms : List ι) : G.Hides (symCalcList G syms σ) :=
  (hides_invariant G).symCalcList h

theorem valid_symCalcFuel (n : ℕ) : ((symCalcFuel G (n + 1) s σ).sym s).flagValid := by
  have hI := valid_invariant G s
  rw [symCalcFuel, symCalcStep]
  split
  · next hs => exact hs
  · exact hI.calcInvalid (hI.preserves n) trivial (fun _ tri _ hτ => hI.modulesVal tri hτ trivial)
      (by rw [State.modify_sym_self])

theorem valid_symCalcValue : ((symCalcValue G s σ).sym s).flagValid := valid_symCalcFuel _

end
end
end OpenADK.Kconfig
