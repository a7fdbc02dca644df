import OpenADK.Kconfig.ConfigFile

/-!
# Sessions that write

A front end that reads, sets, evaluates and writes, in any order. What such sessions preserve of a
state, and what a file that is written in them holds.
-/

namespace OpenADK.Kconfig
open Tristate
variable {ι : Type} [DecidableEq ι]

/-- An update that evaluation and the marks do not see. -/
structure OutsideUpdate (f : SymState ι → SymState ι) : Prop where
  flagValid : ∀ st, (f st).flagValid = st.flagValid
  curr : ∀ st, (f st).curr = st.curr
  visible : ∀ st, (f st).visible = st.visible

namespace SymbolTable

/-- What everything that happens in a session preserves. -/
structure SessionInvariant (G : SymbolTable ι) (I : State ι → Prop) : Prop where
  evaluates : Preserves I (symCalcValue G)
  visibility : ∀ s σ, I σ → I (symCalcVisibility G (symCalcValue G) s σ)
  update : ∀ s f σ, OutsideUpdate f → I σ → I (σ.modify s f)
  invalidate : ∀ s σ, s ∈ G.symbolHash → G.isChoice s = false → I σ →
    I (σ.modify s fun st => { st with flagValid := false, flagDefUser := false })
  clear : ∀ σ, I σ → I (clearValid G.allSymbols σ)
  drop : ∀ σ, I σ → I (dropUserValues G σ)
  changeCount : ∀ n σ, I σ → I { σ with changeCount := n }

inductive WritingStep (G : SymbolTable ι) (root : RootMenu ι) (σ : State ι) : State ι → Prop
  | step {τ : State ι} (h : G.Step σ τ) : WritingStep G root σ τ
  | write (outcome : Outcome) : WritingStep G root σ (confWrite G root outcome σ).2.2
  | writeDefconfig (opens : Bool) : WritingStep G root σ (confWriteDefconfig G root opens σ).2.2

def WritingReachable (G : SymbolTable ι) (root : RootMenu ι) (σ : State ι) : Prop :=
  Relation.ReflTransGen (G.WritingStep root) G.initial σ

section
variable {G : SymbolTable ι} {I : State ι → Prop} {σ τ : State ι} {s : ι} {ρ : Reading ι}

omit [DecidableEq ι] in
theorem outside_defUser (val : SymState ι → Value ι) (flag : SymState ι → Bool) :
    OutsideUpdate fun st : SymState ι => { st with defUser := val st, flagDefUser := flag st } :=
  ⟨fun _ => rfl, fun _ => rfl, fun _ => rfl⟩

omit [DecidableEq ι] in
theorem outside_flagWrite : OutsideUpdate fun st : SymState ι => { st with flagWrite := false } :=
  ⟨fun _ => rfl, fun _ => rfl, fun _ => rfl⟩

namespace SessionInvariant
variable (hI : G.SessionInvariant I)
include hI

theorem setDefUser (s : ι) (val : SymState ι → Value ι) (flag : SymState ι → Bool) (hσ : I σ) :
    I (σ.modify s fun st => { st with defUser := val st, flagDefUser := flag st }) :=
  hI.update s _ σ (outside_defUser val flag) hσ

theorem symClearAllValid (hσ : I σ) : I (symClearAllValid G σ) :=
  hI.evaluates _ _ (hI.changeCount _ _ (hI.clear σ hσ))

theorem symCalcList {syms : List ι} (hσ : I σ) : I (symCalcList G syms σ) := by
  induction syms generalizing σ with
  | nil => exact hσ
  | cons s syms ih => exact ih (hI.evaluates s σ hσ)

/-! ### Reading -/

theorem tellChoice (hρ : I ρ.state) : I (tellChoice G s ρ).state := by
  cases hval : G.isChoiceValue s with
  | true =>
    cases hcs : G.choiceOf s with
    | some cs =>
      rw [tellChoice_state hval hcs]
      refine hI.update cs _ _ ⟨fun st => ?_, fun st => ?_, fun st => ?_⟩ hρ
      all_goals
        unfold tell
        cases (ρ.state.sym s).defUser.tri with
        | no | yes => rfl
        | mod => simp only; split <;> rfl
    | none =>
      unfold Kconfig.tellChoice
      rw [hval, hcs]
      exact hρ
  | false =>
    unfold Kconfig.tellChoice
    rw [hval]
    exact hρ

theorem confSetSymVal (p : Text) (hρ : I ρ.state) : I (confSetSymVal G s p ρ).2.state := by
  have htri (tri : Tristate) : I (ρ.setTri s tri).state :=
    hI.setDefUser s (fun st => { st.defUser with tri := tri }) (fun _ => true) hρ
  have hval (val : Text) : I (ρ.setVal s val).state :=
    hI.setDefUser s (fun st => { st.defUser with val := .str val }) (fun _ => true) hρ
  unfold Kconfig.confSetSymVal
  split
  · split
    · exact htri _
    · exact htri _
    · exact htri _
    · exact hρ
  · split
    · exact htri _
    · exact htri _
    · exact hρ
  · split
    · split
      · exact hval _
      · exact hρ
    · exact hρ
  · split
    · exact hval _
    · exact hρ
  · split
    · exact hval _
    · exact hρ
  · exact hρ

theorem readLine (line : Text) (hρ : I ρ.state) : I (readLine G ρ line).state := by
  have hoverride (t : ι) : I (ρ.warnOverride t).state := by rwa [warnOverride_state]
  unfold Kconfig.readLine
  split
  · exact hρ
  · split
    · exact hI.changeCount _ _ hρ
    · next t _ =>
      refine hI.tellChoice ?_
      split
      · exact hI.setDefUser t (fun st => { st.defUser with tri := .no }) (fun _ => true)
          (hoverride t)
      · exact hoverride t
  · split
    · exact hI.changeCount _ _ hρ
    · next t _ =>
      have hset := hI.confSetSymVal (s := t) ‹Text› (hoverride t)
      simp only
      split
      · exact hI.tellChoice hset
      · exact hset

theorem loadFile (file : Text) (hσ : I σ) : I (loadFile G file σ).state := by
  have hlines (lines : List Text) (ρ : Reading ι) (hρ : I ρ.state) :
      I (lines.foldl (Kconfig.readLine G) ρ).state := by
    induction lines generalizing ρ with
    | nil => exact hρ
    | cons line lines ih => exact ih _ (hI.readLine line hρ)
  exact hlines _ _ (hI.drop σ hσ)

theorem confReadSimple (file : ConfFile ι) (hσ : I σ) : I (confReadSimple G file σ).2 := by
  cases file with
  | opened contents => exact hI.evaluates _ _ (hI.loadFile contents hσ)
  | fallback evaluated contents =>
    exact hI.evaluates _ _ (hI.loadFile contents (hI.symCalcList (hI.changeCount _ _ hσ)))
  | missing => exact hσ
  | absent => exact hI.evaluates _ _ (hI.changeCount _ _ hσ)

theorem calcUnsaved (syms : List ι) (unsaved : ℕ) (hσ : I σ) :
    I (calcUnsaved G syms unsaved σ).2 := by
  induction syms generalizing σ unsaved with
  | nil => exact hσ
  | cons s syms ih => exact ih _ (hI.evaluates s _ hσ)

theorem resetValue (hG : G.Finalized) (hs : s ∈ G.symbolHash) (unsaved : ℕ) (hσ : I σ) :
    I (resetValue G s unsaved σ).2 := by
  have h1 : I (if (σ.sym s).visible = .no ∧ unsaved = 0 then
      σ.modify s fun st => { st with flagDefUser := false } else σ) := by
    split
    · exact hI.setDefUser s (fun st => st.defUser) (fun _ => false) hσ
    · exact hσ
  have hreset (htype : G.type s = .int ∨ G.type s = .hex ∨ G.type s = .string) {σ : State ι}
      (hσ : I σ) := hI.invalidate s σ hs (hG.choiceType s htype) hσ
  unfold Kconfig.resetValue
  simp only
  generalize (if (σ.sym s).visible = .no ∧ unsaved = 0 then
    σ.modify s fun st => { st with flagDefUser := false } else σ) = σ1 at h1 ⊢
  have hwithin := symStringWithinRange_preserves (s := s) hI.evaluates h1
    (σ1.sym s).defUser.val.text
  split
  · next ht =>
    split
    · exact hwithin
    · exact hreset (.inr (.inr ht)) hwithin
  · next ht =>
    split
    · exact hwithin
    · exact hreset (.inl ht) hwithin
  · next ht =>
    split
    · exact hwithin
    · exact hreset (.inr (.inl ht)) hwithin
  · exact h1

theorem resetValues (hG : G.Finalized) (syms : List ι) (hsyms : ∀ s ∈ syms, s ∈ G.symbolHash)
    (unsaved : ℕ) (hσ : I σ) : I (resetValues G syms unsaved σ).2 := by
  induction syms generalizing σ unsaved with
  | nil => exact hσ
  | cons s syms ih =>
    refine ih (fun t ht => hsyms t (List.mem_cons_of_mem _ ht)) _ ?_
    split
    · exact hI.resetValue hG (hsyms s List.mem_cons_self) unsaved hσ
    · exact hσ

theorem confRead (hG : G.Finalized) (file : ConfFile ι) (hσ : I σ) : I (confRead G file σ).2 := by
  have h1 := hI.confReadSimple file (hI.changeCount 0 σ hσ)
  unfold Kconfig.confRead
  simp only
  split
  · exact h1
  · exact hI.changeCount _ _ (hI.resetValues hG _ (fun s hs => hG.allSymbols ▸ hs) _
      (hI.calcUnsaved G.allSymbols 0 h1))

/-! ### Setting -/

theorem setPick (hσ : I σ) : I (setPick G s σ) := by
  have hmark (members : List ι) (σ : State ι) (hσ : I σ) : I (markVisibleSet members σ) := by
    unfold markVisibleSet
    induction members generalizing σ with
    | nil => exact hσ
    | cons m members ih =>
      refine ih _ ?_
      simp only
      split
      · exact hI.setDefUser m (fun st => st.defUser) (fun _ => true) hσ
      · exact hσ
  unfold Kconfig.setPick
  split
  · exact hσ
  · exact hmark _ _
      (hI.setDefUser _ (fun st => { st.defUser with val := .sym s }) (fun _ => true) hσ)

theorem symSetTristateValue (val : Tristate) (hσ : I σ) : I (symSetTristateValue G s val σ).2 := by
  have h1 := hI.setDefUser s (fun st => st.defUser) (fun _ => true) hσ
  have h2 : I (if G.isChoiceValue s ∧ val = .yes then
      Kconfig.setPick G s (σ.modify s fun st => { st with flagDefUser := true })
    else σ.modify s fun st => { st with flagDefUser := true }) := by
    split
    · exact hI.setPick h1
    · exact h1
  have h3 := hI.setDefUser s (fun st => { st.defUser with tri := val })
    (fun st => st.flagDefUser) h2
  unfold Kconfig.symSetTristateValue
  simp only
  split
  · exact hσ
  · split
    · exact hI.symClearAllValid h3
    · exact h3

theorem setString (newval : Text) (hσ : I σ) : I (setString G s newval σ).2 := by
  have h1 := symStringWithinRange_preserves hI.evaluates hσ newval (s := s)
  unfold Kconfig.setString
  simp only
  generalize symStringWithinRange G s newval σ = within at h1 ⊢
  have h2 := hI.setDefUser s (fun st => st.defUser) (fun _ => true) h1
  have hstore (val : Text) := hI.symClearAllValid (hI.setDefUser s
    (fun st => { st.defUser with val := .str val }) (fun st => st.flagDefUser) h2)
  split
  · split
    · exact hstore _
    · split
      · exact hstore _
      · exact h2
  · exact h1

theorem symSetStringValue (newval : Text) (hσ : I σ) : I (symSetStringValue G s newval σ).2 := by
  unfold Kconfig.symSetStringValue
  split
  · split
    · exact hI.symSetTristateValue _ hσ
    · exact hσ
  · split
    · exact hI.symSetTristateValue _ hσ
    · exact hσ
  · exact hI.setString newval hσ

theorem step (hG : G.Finalized) (h : G.Step σ τ) (hσ : I σ) : I τ := by
  cases h with
  | read file => exact hI.confRead hG file hσ
  | setTristate val _ => exact hI.symSetTristateValue val hσ
  | setString newval _ => exact hI.symSetStringValue newval hσ
  | calcValue s => exact hI.evaluates s σ hσ

/-! ### Writing -/

theorem writer : G.WriterInvariant I :=
  ⟨hI.evaluates, fun s _ hσ => hI.setDefUser s (fun st => st.defUser) (fun _ => true) hσ⟩

theorem clearWrite (s : ι) (σ : State ι) (hσ : I σ) : I (clearWrite s σ) :=
  hI.update s _ σ outside_flagWrite hσ

/-- The state in which the walk of `conf_write` starts. -/
theorem beforeWalk (hσ : I σ) :
    I (if σ.changeCount = 0 then Kconfig.symClearAllValid G σ else σ) := by
  split
  · exact hI.symClearAllValid hσ
  · exact hσ

theorem confWrite (root : RootMenu ι) (outcome : Outcome) (hσ : I σ) :
    I (confWrite G root outcome σ).2.2 := by
  have hwalk : I (walk (writeEntry G) root.list
      (if σ.changeCount = 0 then Kconfig.symClearAllValid G σ else σ)).2 :=
    walk_preserves (fun _ _ _ h => writeEntry_preserves hI.clearWrite hI.writer h)
      (hI.beforeWalk hσ)
  cases outcome with
  | cannotOpen => exact hσ
  | renameFails => exact hwalk
  | written => exact hI.changeCount 0 _ hwalk

theorem symGetStringDefault (hσ : I σ) : I (symGetStringDefault G s σ).2 := by
  have h1 := hI.evaluates G.modulesSym _ (hI.visibility s σ hσ)
  have h2 : I (symGetDefaultProp G (symCalcValue G) s (symCalcValue G G.modulesSym
      (symCalcVisibility G (symCalcValue G) s σ))).2 := firstVisibleProp_preserves hI.evaluates h1
  unfold Kconfig.symGetStringDefault
  simp only
  generalize symGetDefaultProp G (symCalcValue G) s (symCalcValue G G.modulesSym
    (symCalcVisibility G (symCalcValue G) s σ)) = prop at h2 ⊢
  obtain ⟨_ | ⟨p, tri⟩, τ⟩ := prop
  · dsimp only
    split
    all_goals exact h2
  · have hval : I (propValue G (symCalcValue G) p τ).2 := propValue_preserves hI.evaluates h2
    dsimp only
    split
    · exact hval
    · exact hval
    all_goals
      first
      | exact h2
      | split
        · exact hI.evaluates _ _ h2
        · exact h2

theorem isChoiceDefault (hσ : I σ) : I (isChoiceDefault G s σ).2 := by
  unfold Kconfig.isChoiceDefault
  split
  · exact symChoiceDefault_preserves hI.evaluates hσ
  · exact hσ

theorem writeDefSymbol (hσ : I σ) : I (writeDefSymbol G s σ).2 := by
  have hcalc := hI.clearWrite s _ (hI.evaluates s σ hσ)
  unfold Kconfig.writeDefSymbol
  simp only
  generalize Kconfig.clearWrite s (symCalcValue G s σ) = σ1 at hcalc ⊢
  have hdflt : I (Kconfig.symGetStringDefault G s
      (symGetStringValue G (symCalcValue G) s σ1).2).2 :=
    hI.symGetStringDefault (symGetStringValue_preserves hI.evaluates hcalc)
  have hskip := hI.isChoiceDefault (s := s) hdflt
  split
  · split
    · split
      · exact hdflt
      · split
        · exact hskip
        · rcases confWriteSymbol_cases (G := G) s (Kconfig.isChoiceDefault G s
            (Kconfig.symGetStringDefault G s
              (symGetStringValue G (symCalcValue G) s σ1).2).2).2 with
            h | ⟨-, h⟩
          · rw [h]
            exact hskip
          · rw [h]
            exact symGetStringValue_preserves hI.evaluates hskip
    · exact hcalc
  · exact hI.evaluates s σ hσ

theorem confWriteDefconfig (root : RootMenu ι) (opens : Bool) (hσ : I σ) :
    I (confWriteDefconfig G root opens σ).2.2 := by
  have hentry (e : MenuEntry ι) (list : Menu ι) (σ : State ι) (hσ : I σ) :
      I (writeDefEntry G e list σ).2 := by
    unfold writeDefEntry
    split
    · exact menuIsVisible_preserves hI.writer (fun _ h => anyVisible_preserves hI.writer h) hσ
    · split
      · exact hσ
      · exact hI.writeDefSymbol hσ
  cases opens with
  | false => exact hσ
  | true => exact walk_preserves hentry (hI.symClearAllValid hσ)

/-- It holds in every state of a session when it holds in the first one. -/
theorem writingReachable (hG : G.Finalized) (hinit : I G.initial) {root : RootMenu ι}
    (h : G.WritingReachable root σ) : I σ := by
  induction h with
  | refl => exact hinit
  | tail _ hstep ih =>
    cases hstep with
    | step hstep => exact hI.step hG hstep ih
    | write outcome => exact hI.confWrite root outcome ih
    | writeDefconfig opens => exact hI.confWriteDefconfig root opens ih

end SessionInvariant

/-! ### Marks of a session -/

theorem closedBut_modify {f : SymState ι → SymState ι} (h : ClosedBut G [] σ)
    (hvalid : ∀ st, (f st).flagValid = st.flagValid) : ClosedBut G [] (σ.modify s f) :=
  h.mono (fun t ht => by rwa [flagValid_modify_eq hvalid])
    fun t _ ht => by rwa [flagValid_modify_eq hvalid] at ht

omit [DecidableEq ι] in
/-- A choice may lose its value only together with its members. -/
theorem closedBut_invalidated (h : ClosedBut G [] σ)
    (hsub : ∀ t, (τ.sym t).flagValid → (σ.sym t).flagValid)
    (hchoice : ∀ c, G.isChoice c → (σ.sym c).flagValid → (τ.sym c).flagValid ∨
      ∀ m ∈ G.members c, ¬(τ.sym m).flagValid) : ClosedBut G [] τ := by
  intro c hc m hm hP hvalid
  rcases h c hc m hm hP (hsub m hvalid) with hcv | hhidden
  · exact .inl ((hchoice c hc hcv).resolve_right fun h => h m hm hvalid)
  · exact .inr hhidden

omit [DecidableEq ι] in
/-- When all symbols of the hash table lose their values, the rest stays as it is. -/
theorem quiet_closed_invalidated (hG : G.Finalized) (h : G.Quiet σ ∧ ClosedBut G [] σ)
    (hsym : ∀ t, τ.sym t = σ.sym t ∨ t ∈ G.symbolHash ∧ ¬(τ.sym t).flagValid ∧
      (τ.sym t).visible = (σ.sym t).visible)
    (hall : ∀ t ∈ G.symbolHash, ¬(τ.sym t).flagValid) : G.Quiet τ ∧ ClosedBut G [] τ := by
  refine ⟨⟨?_, fun t ht => ?_⟩,
    closedBut_invalidated h.2 (fun t ht => ?_) fun c hc _ => .inr fun m hm => ?_⟩
  · unfold NoIsConstant
    rw [(hsym G.symbolNo).resolve_right fun h => hG.no_not_mem h.1]
    exact h.1.const
  · rcases hsym t with heq | ⟨-, -, hvis⟩
    · rw [heq]
      exact h.1.visible t ht
    · rw [hvis]
      exact h.1.visible t ht
  · rcases hsym t with heq | ⟨-, hnot, -⟩
    · rwa [heq] at ht
    · exact absurd ht hnot
  · exact hall m (hG.memberType c m hc hm).1

/-- What the marks rest on holds in every session. -/
theorem quiet_closed_session (hG : G.Finalized) (hmodules : G.isChoice G.modulesSym = false)
    (hconsults : ∀ s, G.Consults s) :
    G.SessionInvariant fun σ => G.Quiet σ ∧ ClosedBut G [] σ where
  evaluates s σ h := ⟨(quiet_invariant G).symCalcValue h.1,
    h.2.symCalcValue hG hmodules hconsults⟩
  visibility s σ h := by
    have hcalc : Preserves (ClosedBut G []) (symCalcValue G) := fun _ _ h =>
      h.symCalcValue hG hmodules hconsults
    refine ⟨(quiet_invariant G).visibility (fun _ _ h => (quiet_invariant G).symCalcValue h) h.1,
      symCalcVisibility_preserves (fun hf h => closedBut_modify h hf.flagValid) hcalc
        (fun h => ?_) h.2⟩
    exact closedBut_modify h fun _ => rfl
  update s f σ hf h := ⟨h.1.modify (fun _ st => ⟨hf.flagValid st, hf.curr st⟩)
      fun _ st => (hf.visible st).trans, closedBut_modify h.2 hf.flagValid⟩
  invalidate s σ hs hchoice h := by
    refine ⟨h.1.modify (fun hno => absurd (hno ▸ hs) hG.no_not_mem) fun _ _ => id,
      closedBut_invalidated h.2 (fun t ht => ?_) fun c hc hvalid => .inl ?_⟩
    · rw [State.modify_sym] at ht
      split at ht
      · cases ht
      · exact ht
    · have hcs : c ≠ s := by
        rintro rfl
        rw [hc] at hchoice
        cases hchoice
      rwa [State.modify_sym_of_ne _ _ hcs]
  clear σ h := by
    refine quiet_closed_invalidated hG h (fun t => ?_) fun t ht => ?_
    · rw [clearValid_sym, hG.allSymbols]
      by_cases ht : t ∈ G.symbolHash
      · exact .inr ⟨ht, by simp [ht], rfl⟩
      · exact .inl (by simp [ht])
    · rw [clearValid_sym, hG.allSymbols]
      simp [ht]
  drop σ h := by
    refine quiet_closed_invalidated hG h (fun t => ?_) fun t ht => ?_
    · rw [dropUserValues_sym, hG.allSymbols]
      split
      · next ht => exact .inr ⟨ht, Bool.false_ne_true, rfl⟩
      · exact .inl rfl
    · rw [dropUserValues_sym, hG.allSymbols, if_pos ht]
      exact Bool.false_ne_true
  changeCount n σ h := ⟨⟨h.1.const, h.1.visible⟩, h.2⟩

theorem quiet_closed_initial (hG : G.Finalized) : G.Quiet G.initial ∧ ClosedBut G [] G.initial := by
  have hrun := running_initial hG
  refine ⟨⟨⟨hrun.no_valid, by rw [hrun.no_curr]; rfl⟩, fun t _ => ?_⟩, fun c hc m hm _ hvalid => ?_⟩
  · simp only [initial]
    split <;> rfl
  · have hmem := (hG.memberType c m hc hm).1
    have hne : ¬(m = G.symbolYes ∨ m = G.symbolMod ∨ m = G.symbolNo) := by
      rintro (rfl | rfl | rfl)
      · exact hG.yes_not_mem hmem
      · exact hG.mod_not_mem hmem
      · exact hG.no_not_mem hmem
    simp only [initial, if_neg hne] at hvalid
    cases hvalid

theorem WritingReachable.pass (hG : G.Finalized) (hmodules : G.isChoice G.modulesSym = false)
    (hconsults : ∀ s, G.Consults s) {root : RootMenu ι} (h : G.WritingReachable root σ) :
    G.Pass [] (if σ.changeCount = 0 then Kconfig.symClearAllValid G σ else σ) := by
  have hI := quiet_closed_session hG hmodules hconsults
  obtain ⟨hquiet, hclosed⟩ := hI.beforeWalk
    (hI.writingReachable hG (quiet_closed_initial hG) h)
  exact ⟨hquiet, hclosed, fun s hs => absurd hs List.not_mem_nil⟩

/-! ### Files of a session -/

/-- What is in the file, and what it leaves behind. -/
structure WrittenOnce (G : SymbolTable ι) (root : RootMenu ι) (items : List (Item ι))
    (σ : State ι) : Prop where
  nodup : (itemSyms items).Nodup
  among : ∀ s ∈ itemSyms items, s ∈ G.writables root.list
  shows : ∀ s value, .symbol s value ∈ items → G.Shows s value σ
  cleared : ∀ s ∈ G.writables root.list, (σ.sym s).flagValid ∧ (σ.sym s).flagWrite = false

/-- A symbol that is written has its value in the end. -/
theorem shows_confWrite (hG : G.Finalized) (hmodules : G.isChoice G.modulesSym = false)
    (hconsults : ∀ s, G.Consults s) {root : RootMenu ι} (hσ : G.WritingReachable root σ)
    {s : ι} {value : Text} (hs : .symbol s value ∈ (confWrite G root .written σ).2.1) :
    G.Shows s value (confWrite G root .written σ).2.2 := by
  have hwalk := walked hG hmodules hconsults root.list (hσ.pass hG hmodules hconsults)
  have hshows := hwalk.shows s value hs
  exact ⟨hshows.type, hshows.valid, hshows.modules, hshows.value⟩

/-- In every session `conf_write` writes each symbol at most once, with the value that it has
in the end, and it leaves no mark. -/
theorem confWrite_writtenOnce (hG : G.Finalized) (hmodules : G.isChoice G.modulesSym = false)
    (hconsults : ∀ s, G.Consults s) {root : RootMenu ι} (hσ : G.WritingReachable root σ)
    {outcome : Outcome} (houtcome : outcome ≠ .cannotOpen) :
    G.WrittenOnce root (confWrite G root outcome σ).2.1 (confWrite G root outcome σ).2.2 := by
  have hwalk := walked hG hmodules hconsults root.list (hσ.pass hG hmodules hconsults)
  cases outcome with
  | cannotOpen => exact absurd rfl houtcome
  | renameFails => exact ⟨hwalk.nodup, hwalk.among, hwalk.shows, hwalk.pass.cleared⟩
  | written =>
    exact ⟨hwalk.nodup, hwalk.among, fun s value hs => shows_confWrite hG hmodules hconsults hσ hs,
      hwalk.pass.cleared⟩

/-- When the file could not be renamed and nothing is evaluated anew, the next file has no
symbol. -/
theorem confWrite_after_renameFails (hG : G.Finalized) (hmodules : G.isChoice G.modulesSym = false)
    (hconsults : ∀ s, G.Consults s) {root : RootMenu ι} (hσ : G.WritingReachable root σ)
    (hchanged : σ.changeCount ≠ 0) (outcome : Outcome) :
    itemSyms (confWrite G root outcome (confWrite G root .renameFails σ).2.2).2.1 = [] := by
  have hpass := hσ.pass hG hmodules hconsults
  have hwalk := walked hG hmodules hconsults root.list hpass
  rw [if_neg hchanged] at hpass hwalk
  have hrename : (confWrite G root .renameFails σ).2.2 = (walk (writeEntry G) root.list σ).2 := by
    simp only [confWrite, if_neg hchanged, if_true]
  have hwriter : G.WriterInvariant fun τ => τ.changeCount = σ.changeCount :=
    ⟨fun _ _ h => kept_symCalcValue.changeCount.trans h, fun _ _ h => h⟩
  have hcount : (walk (writeEntry G) root.list σ).2.changeCount = σ.changeCount :=
    walk_preserves (I := fun τ => τ.changeCount = σ.changeCount)
      (fun _ _ _ h => writeEntry_preserves (fun _ _ h => h) hwriter h) rfl
  have hagain := walked hG hmodules hconsults root.list hwalk.pass
  rw [hrename]
  cases outcome with
  | cannotOpen => rfl
  | renameFails | written =>
    simp only [confWrite, hcount, if_neg hchanged]
    refine List.eq_nil_iff_forall_not_mem.mpr fun s hs => ?_
    have hs' : s ∈ itemSyms (walk (writeEntry G) root.list
        (walk (writeEntry G) root.list σ).2).1 := by
      simpa using hs
    exact hagain.fresh s hs' (by simpa using hagain.among s hs')

/-! ### Reading what was written -/

def titles : Menu ι → List Text
  | .null => []
  | .menu e list next =>
    (if e.sym.isNone then [(e.prompt.bind (·.text)).getD []] else []) ++ titles list ++ titles next

theorem title_mem_walk {menu : Menu ι} {text : Text}
    (h : .title text ∈ (walk (writeEntry G) menu σ).1) : text ∈ titles menu := by
  induction menu generalizing σ with
  | null => cases h
  | menu e list next ihlist ihnext =>
    rw [titles, List.mem_append, List.mem_append]
    rw [walk] at h
    simp only [List.mem_append] at h
    rcases h with (h | h) | h
    · refine .inl (.inl ?_)
      unfold writeEntry at h
      split at h
      · next hsym =>
        simp only at h
        split at h
        · cases List.mem_singleton.mp h
          rw [hsym]
          exact List.mem_singleton_self _
        · cases h
      · split at h
        · cases h
        · unfold writeSymbol at h
          simp only at h
          split at h
          · rcases confWriteSymbol_cases (G := G) ‹ι› (Kconfig.clearWrite ‹ι›
              (symCalcValue G ‹ι› σ)) with hw | ⟨-, hw⟩
            · rw [hw] at h
              cases h
            · rw [hw] at h
              cases List.mem_singleton.mp h
          · cases h
    · exact .inl (.inr (ihlist h))
    · exact .inr (ihnext h)

/-- A shown value is what `sym_get_string_value` returns. -/
theorem Shows.symGetStringValue {value : Text} (h : G.Shows s value σ) :
    (symGetStringValue G (symCalcValue G) s σ).1 = value := by
  have hmod := fun htype htri => symCalcValue_of_valid (G := G) (h.modules htype htri)
  rw [h.value]
  unfold Kconfig.symGetStringValue stringIn
  cases ht : G.type s with
  | boolean =>
    cases htri : (σ.sym s).curr.tri with
    | no | yes => simp only [envOf, htri]
    | mod =>
      simp only [envOf, htri, hmod (.inl ht) htri]
      rfl
  | tristate =>
    cases htri : (σ.sym s).curr.tri with
    | no | yes => simp only [envOf, htri]
    | mod =>
      simp only [envOf, htri, hmod (.inr ht) htri]
      rfl
  | unknown | int | hex | string | other => rfl

theorem confWriteSymbol_eq (h : G.type s ≠ .other ∧ G.type s ≠ .unknown) :
    (confWriteSymbol G s σ).1 =
      [.symbol s (Kconfig.symGetStringValue G (symCalcValue G) s σ).1] := by
  unfold confWriteSymbol
  split
  · next ht => exact absurd ht h.1
  · next ht => exact absurd ht h.2
  · rfl

theorem Shows.readable {value name : Text} (h : G.Shows s value σ)
    (hname : (G.symbol s).name = some name) (hword : IsWord name) (hfind : symFind G name = some s)
    (hchoice : G.isChoice s = false) (hvalid : G.ValidValue s σ) :
    G.Readable σ (.symbol s value) := by
  refine ⟨name, hname, hword, hfind, hchoice, ?_⟩
  have hwrite : (confWriteSymbol G s σ).1 = [.symbol s value] := by
    rw [confWriteSymbol_eq h.type, h.symGetStringValue]
  have hprints := prints_printedLine hname hvalid
  rwa [printedLine, hwrite, List.flatMap_singleton] at hprints

/-- The symbols of the menus can be told by their names, and the texts that stand in comments are
remarks. -/
structure Tellable (G : SymbolTable ι) (root : RootMenu ι) : Prop where
  prompt : IsRemark root.prompt
  titles : ∀ text ∈ titles root.list, IsRemark text
  names : ∀ s ∈ G.writables root.list, ∃ name, (G.symbol s).name = some name ∧ IsWord name ∧
    symFind G name = some s

/-- Every item of the file can be read back. -/
theorem readable_confWrite (hG : G.Finalized) (hmodules : G.isChoice G.modulesSym = false)
    (hconsults : ∀ s, G.Consults s) {root : RootMenu ι} (hroot : G.Tellable root)
    (hσ : G.WritingReachable root σ)
    (hvalid : ∀ s ∈ itemSyms (confWrite G root .written σ).2.1,
      G.ValidValue s (confWrite G root .written σ).2.2) :
    ∀ item ∈ (confWrite G root .written σ).2.1,
      G.Readable (confWrite G root .written σ).2.2 item := by
  have hwalk := walked hG hmodules hconsults root.list (hσ.pass hG hmodules hconsults)
  intro item hitem
  cases item with
  | title text =>
    exact hroot.titles text (title_mem_walk hitem)
  | symbol s value =>
    have hs : s ∈ itemSyms (confWrite G root .written σ).2.1 :=
      List.mem_filterMap.mpr ⟨_, hitem, rfl⟩
    have hwritable := hwalk.among s hs
    obtain ⟨name, hname, hword, hfind⟩ := hroot.names s hwritable
    have hchoice : G.isChoice s = false := by
      simpa using (List.mem_filter.mp hwritable).2
    have hshows := shows_confWrite hG hmodules hconsults hσ hitem
    exact hshows.readable hname hword hfind hchoice (hvalid s hs)

/-- What `conf_write` wrote in a session is read back by any program with the same symbols: the
user's values are the values of the symbols that were written, and there are no others. -/
theorem confWrite_restored (hG : G.Finalized) (hmodules : G.isChoice G.modulesSym = false)
    (hconsults : ∀ s, G.Consults s) {root : RootMenu ι} (hroot : G.Tellable root)
    (hσ : G.WritingReachable root σ)
    (hvalid : ∀ s ∈ itemSyms (confWrite G root .written σ).2.1,
      G.ValidValue s (confWrite G root .written σ).2.2) (τ : State ι) :
    G.Restored (confWrite G root .written σ).2.2 τ (itemSyms (confWrite G root .written σ).2.1)
      (loadFile G (confText G root (confWrite G root .written σ).2.1) τ) :=
  loadFile_confText hG hroot.prompt (readable_confWrite hG hmodules hconsults hroot hσ hvalid)
    (walked hG hmodules hconsults root.list (hσ.pass hG hmodules hconsults)).nodup τ

end
end SymbolTable

namespace SelectedMember
open Name SymbolTable

def root : RootMenu Name where
  prompt := ['t']
  list :=
    .menu { sym := none, prompt := some { type := .comment, text := some ['u'] } } .null
      (.menu { sym := some x } .null
        (.menu { sym := some c }
          (.menu { sym := some a } .null (.menu { sym := some b } .null .null))
          (.menu { sym := some x } .null .null)))

def edited : State Name :=
  (symSetTristateValue (table true) x .no
    (confRead (table true) (.opened pickA) (table true).initial).2).2

theorem writingReachable_edited : (table true).WritingReachable root edited :=
  (Relation.ReflTransGen.single (.step (.read (.opened pickA)))).tail
    (.step (.setTristate .no (by decide)))

theorem consults (s : Name) : (table true).Consults s := fun hs t ht =>
  .inl (consults_choice true s t hs ht)

theorem confWrite_writtenOnce_edited :
    (table true).WrittenOnce root (confWrite (table true) root .written edited).2.1
      (confWrite (table true) root .written edited).2.2 :=
  SymbolTable.confWrite_writtenOnce (finalized true) rfl consults writingReachable_edited
    (by decide)

theorem confWrite_after_renameFails_edited :
    itemSyms (confWrite (table true) root .renameFails edited).2.1 = [x, a, b] ∧
      itemSyms (confWrite (table true) root .written
        (confWrite (table true) root .renameFails edited).2.2).2.1 = [] :=
  ⟨by decide +kernel, SymbolTable.confWrite_after_renameFails (finalized true) rfl consults
    writingReachable_edited (by decide +kernel) _⟩

theorem tellable : (table true).Tellable root where
  prompt := ⟨by decide, by decide⟩
  titles text h := by
    have htext : text = ['u'] := by simpa [SymbolTable.titles, root] using h
    rw [htext]
    exact ⟨by decide, by decide⟩
  names s hs := by
    cases s with
    | x => exact ⟨['X'], rfl, isWord_of_all (by decide) rfl, rfl⟩
    | a => exact ⟨['A'], rfl, isWord_of_all (by decide) rfl, rfl⟩
    | b => exact ⟨['B'], rfl, isWord_of_all (by decide) rfl, rfl⟩
    | y | m | n | c => exact absurd hs (by decide)

theorem confWrite_restored_edited :
    (table true).Restored (confWrite (table true) root .written edited).2.2
      (table true).initial [x, a, b]
      (loadFile (table true) (confText (table true) root
        (confWrite (table true) root .written edited).2.1) (table true).initial) := by
  have hsyms : itemSyms (confWrite (table true) root .written edited).2.1 = [x, a, b] := by
    decide +kernel
  have hvalid : ∀ s ∈ itemSyms (confWrite (table true) root .written edited).2.1,
      (table true).ValidValue s (confWrite (table true) root .written edited).2.2 := by
    have hmod : ∀ s ∈ itemSyms (confWrite (table true) root .written edited).2.1,
        ((confWrite (table true) root .written edited).2.2.sym s).curr.tri ≠ .mod := by
      decide +kernel
    intro s hs
    have htri := hmod s hs
    rw [hsyms] at hs
    cases s with
    | x | a | b => exact htri
    | y | m | n | c => exact absurd hs (by decide)
  rw [← hsyms]
  exact SymbolTable.confWrite_restored (finalized true) rfl consults tellable
    writingReachable_edited hvalid _

end SelectedMember
end OpenADK.Kconfig
