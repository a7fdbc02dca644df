import OpenADK.Kconfig.Solution
import OpenADK.Kconfig.Edit

/-!
# Sessions

A front end reads configurations, sets symbols and evaluates symbols, in any order. In every
state it can reach the constants have their values, the user's picks are members of their choices and
`modules_val` is the value of the `modules` symbol.
-/

namespace OpenADK.Kconfig
open Tristate
namespace SymbolTable
variable {ι : Type}

structure Running (G : SymbolTable ι) (σ : State ι) : Prop extends G.Started σ, G.Tracked σ

/-- A change of what the user has set: no value changes, and a new pick of a choice is one of
its members. -/
structure Edits (G : SymbolTable ι) (σ τ : State ι) : Prop where
  curr : ∀ t, (τ.sym t).curr = (σ.sym t).curr
  valid : ∀ t, (τ.sym t).flagValid = (σ.sym t).flagValid
  cache : ∀ t k, (τ.sym t).cache k = (σ.sym t).cache k
  modulesVal : τ.modulesVal = σ.modulesVal
  picks : ∀ c, G.isChoice c → ∀ m, (τ.sym c).defUser.val = .sym m →
    (σ.sym c).defUser.val = .sym m ∨ m ∈ G.members c

section
variable {G : SymbolTable ι} {σ τ υ : State ι} {s : ι}

theorem Edits.refl : G.Edits σ σ := ⟨fun _ => rfl, fun _ => rfl, fun _ _ => rfl, rfl, fun _ _ _ h => .inl h⟩

theorem Edits.trans (h : G.Edits σ τ) (h' : G.Edits τ υ) : G.Edits σ υ where
  curr t := (h'.curr t).trans (h.curr t)
  valid t := (h'.valid t).trans (h.valid t)
  cache t k := (h'.cache t k).trans (h.cache t k)
  modulesVal := h'.modulesVal.trans h.modulesVal
  picks c hc m hm := by
    rcases h'.picks c hc m hm with hm | hm
    · exact h.picks c hc m hm
    · exact .inr hm

theorem Running.edits (hG : G.Finalized) (h : G.Running σ) (he : G.Edits σ τ) : G.Running τ where
  toStarted := h.toStarted.mono (fun t _ => ⟨he.valid t, he.curr t⟩) hG
    (fun c hc m hm => (he.picks c hc m hm).elim (h.picks c hc m) id) (he.cache · .visible)
  modulesVal := by rw [he.modulesVal, he.curr, h.modulesVal]
  unknown hu := he.modulesVal.trans (h.unknown hu)

theorem Edits.foldl {α : Type} {f : State ι → α → State ι} (hf : ∀ σ a, G.Edits σ (f σ a))
    (l : List α) : G.Edits σ (l.foldl f σ) := by
  induction l generalizing σ with
  | nil => exact .refl
  | cons a l ih => exact (hf σ a).trans ih

variable [DecidableEq ι]

theorem Running.symCalcValue (hG : G.Finalized) (h : G.Running σ) :
    G.Running (symCalcValue G s σ) where
  toStarted := h.toStarted.kept kept_symCalcValue (hides_symCalcValue h.hides)
  toTracked := h.toTracked.symCalcValue hG

theorem Running.symCalcList (hG : G.Finalized) (h : G.Running σ) (syms : List ι) :
    G.Running (symCalcList G syms σ) where
  toStarted := h.toStarted.kept (kept_symCalcList syms) (hides_symCalcList h.hides syms)
  toTracked := h.toTracked.symCalcList hG syms

theorem Running.symClearAllValid (hG : G.Finalized) (h : G.Running σ) :
    G.Running (symClearAllValid G σ) where
  toStarted := h.toStarted.symClearAllValid hG
  toTracked := h.toTracked.cleared.symCalcValue hG

/-- An update of the user's value of one symbol. -/
theorem Edits.modify {f : SymState ι → SymState ι} (hcurr : ∀ st, (f st).curr = st.curr)
    (hvalid : ∀ st, (f st).flagValid = st.flagValid) (hcache : ∀ st k, (f st).cache k = st.cache k)
    (hpick : G.isChoice s → ∀ st m, (f st).defUser.val = .sym m →
      st.defUser.val = .sym m ∨ m ∈ G.members s) : G.Edits σ (σ.modify s f) where
  curr t := by
    rw [State.modify_sym]
    split
    · exact hcurr _
    · rfl
  valid t := by
    rw [State.modify_sym]
    split
    · exact hvalid _
    · rfl
  cache t k := by
    rw [State.modify_sym]
    split
    · exact hcache _ k
    · rfl
  modulesVal := rfl
  picks c hc m hm := by
    rw [State.modify_sym] at hm
    split at hm
    · next hcs =>
      subst hcs
      exact hpick hc _ m hm
    · exact .inl hm

/-- An update that leaves the user's pick alone. -/
theorem Edits.modify_same {f : SymState ι → SymState ι} (hcurr : ∀ st, (f st).curr = st.curr)
    (hvalid : ∀ st, (f st).flagValid = st.flagValid) (hcache : ∀ st k, (f st).cache k = st.cache k)
    (hval : ∀ st, (f st).defUser.val = st.defUser.val) : G.Edits σ (σ.modify s f) :=
  .modify hcurr hvalid hcache fun _ st _ hm => .inl ((hval st).symm.trans hm)

theorem Edits.flagDefUser (b : Bool) :
    G.Edits σ (σ.modify s fun st => { st with flagDefUser := b }) :=
  .modify_same (fun _ => rfl) (fun _ => rfl) (fun _ k => by cases k <;> rfl) fun _ => rfl

/-! ### Setting a symbol -/

theorem edits_setPick (hG : G.Finalized) (hs : G.isChoiceValue s) : G.Edits σ (setPick G s σ) := by
  unfold setPick
  split
  · exact .refl
  · next cs hcs =>
    have hpick : G.Edits σ (σ.modify cs fun st =>
        { st with defUser := { st.defUser with val := .sym s }, flagDefUser := true }) := by
      refine .modify (fun _ => rfl) (fun _ => rfl) (fun _ k => by cases k <;> rfl) fun _ _ m hm =>
        .inr ?_
      cases hm
      exact (hG.memberOf s cs hs hcs).1
    refine hpick.trans (Edits.foldl (fun σ m => ?_) _)
    split
    · exact .flagDefUser true
    · exact .refl

/-- What `sym_set_tristate_value` stores when it accepts a value. -/
def storeUser (G : SymbolTable ι) (s : ι) (val : Tristate) (σ : State ι) : State ι :=
  let σ := σ.modify s fun st => { st with flagDefUser := true }
  let σ := if G.isChoiceValue s ∧ val = .yes then setPick G s σ else σ
  σ.modify s fun st => { st with defUser := { st.defUser with tri := val } }

theorem symSetTristateValue_eq (val : Tristate) : Kconfig.symSetTristateValue G s val σ =
    if (σ.sym s).curr.tri ≠ val ∧ ¬symTristateWithinRange G s val σ then (false, σ)
    else (true, if (σ.sym s).curr.tri ≠ val then Kconfig.symClearAllValid G (G.storeUser s val σ)
      else G.storeUser s val σ) := rfl

theorem edits_storeUser (hG : G.Finalized) (val : Tristate) :
    G.Edits σ (G.storeUser s val σ) := by
  have h1 : G.Edits σ (σ.modify s fun st => { st with flagDefUser := true }) := .flagDefUser true
  have h2 := h1.trans (show G.Edits _ (if G.isChoiceValue s ∧ val = .yes then
      setPick G s (σ.modify s fun st => { st with flagDefUser := true })
    else σ.modify s fun st => { st with flagDefUser := true }) by
      split
      · next hc => exact edits_setPick hG hc.1
      · exact .refl)
  refine h2.trans (.modify_same (s := s)
    (f := fun st => { st with defUser := { st.defUser with tri := val } }) ?_ ?_ ?_ ?_)
  all_goals first | exact fun _ => rfl | exact fun _ k => by cases k <;> rfl

theorem Running.symSetTristateValue (hG : G.Finalized) (h : G.Running σ) (val : Tristate) :
    G.Running (symSetTristateValue G s val σ).2 := by
  have hstore : G.Running (G.storeUser s val σ) := h.edits hG (edits_storeUser hG val)
  rw [symSetTristateValue_eq]
  split
  · exact h
  · simp only
    split
    · exact hstore.symClearAllValid hG
    · exact hstore

theorem preserves_running (hG : G.Finalized) : Preserves G.Running (symCalcValue G) :=
  fun _ _ h => h.symCalcValue hG

theorem symStringWithinRange_preserves {I : State ι → Prop} (hI : Preserves I (symCalcValue G))
    (h : I σ) (str : Text) : I (symStringWithinRange G s str σ).2 := by
  unfold symStringWithinRange
  split
  · exact h
  split
  · have h1 : I (symGetRangeProp G (Kconfig.symCalcValue G) s σ).2 := firstVisibleProp_preserves hI h
    simp only
    split
    · exact h1
    · split
      · exact hI _ _ (hI _ _ h1)
      · exact hI _ _ h1
  · exact h

theorem edits_storeText (val : Text) :
    G.Edits σ (σ.modify s fun st => { st with defUser := { st.defUser with val := .str val } }) := by
  apply Edits.modify
  · exact fun _ => rfl
  · exact fun _ => rfl
  · exact fun _ k => by cases k <;> rfl
  · intro _ _ m hm
    cases hm

theorem Running.setString (hG : G.Finalized) (h : G.Running σ) (newval : Text) :
    G.Running (setString G s newval σ).2 := by
  have h1 := symStringWithinRange_preserves (preserves_running hG) h newval (s := s)
  unfold Kconfig.setString
  simp only
  generalize symStringWithinRange G s newval σ = within at h1 ⊢
  have h2 : G.Running (within.2.modify s fun st => { st with flagDefUser := true }) :=
    h1.edits hG (.flagDefUser true)
  have hstore : ∀ val : Text, G.Running (Kconfig.symClearAllValid G
      ((within.2.modify s fun st => { st with flagDefUser := true }).modify s fun st =>
        { st with defUser := { st.defUser with val := .str val } })) := fun val =>
    (h2.edits hG (edits_storeText val)).symClearAllValid hG
  split
  · split
    · exact hstore _
    · split
      · exact hstore _
      · exact h2
  · exact h1

theorem Running.symSetStringValue (hG : G.Finalized) (h : G.Running σ) (newval : Text) :
    G.Running (symSetStringValue G s newval σ).2 := by
  unfold Kconfig.symSetStringValue
  split
  · split
    · exact h.symSetTristateValue hG _
    · exact h
  · split
    · exact h.symSetTristateValue hG _
    · exact h
  · exact h.setString hG newval

/-! ### Reading a file -/

section
variable {ρ : Reading ι}

theorem edits_setTri (tri : Tristate) : G.Edits ρ.state (ρ.setTri s tri).state := by
  rw [Reading.setTri, Reading.modify_state]
  apply Edits.modify_same
  all_goals first | exact fun _ => rfl | exact fun _ k => by cases k <;> rfl

theorem edits_setVal (val : Text) : G.Edits ρ.state (ρ.setVal s val).state := by
  rw [Reading.setVal, Reading.modify_state]
  apply Edits.modify
  · exact fun _ => rfl
  · exact fun _ => rfl
  · exact fun _ k => by cases k <;> rfl
  · intro _ _ m hm
    cases hm

omit [DecidableEq ι] in
theorem edits_warnOverride : G.Edits ρ.state (ρ.warnOverride s).state := by
  unfold Reading.warnOverride
  split <;> exact .refl

theorem edits_confSetSymVal (p : Text) : G.Edits ρ.state (confSetSymVal G s p ρ).2.state := by
  unfold confSetSymVal
  split
  · split
    · exact edits_setTri _
    · exact edits_setTri _
    · exact edits_setTri _
    · exact .refl
  · split
    · exact edits_setTri _
    · exact edits_setTri _
    · exact .refl
  · split
    · split
      · exact edits_setVal _
      · exact .refl
    · exact .refl
  · split
    · exact edits_setVal _
    · exact .refl
  · split
    · exact edits_setVal _
    · exact .refl
  · exact .refl

theorem edits_tellChoice (hG : G.Finalized) : G.Edits ρ.state (tellChoice G s ρ).state := by
  unfold tellChoice
  split
  · next cs hs hcs =>
    have htri : ∀ (ρ : Reading ι) (tri : Tristate), G.Edits ρ.state (ρ.modify cs fun st =>
        { st with defUser := { st.defUser with tri := exprOr st.defUser.tri tri } }).state := by
      intro ρ tri
      rw [Reading.modify_state]
      apply Edits.modify_same
      all_goals first | exact fun _ => rfl | exact fun _ k => by cases k <;> rfl
    have hpick : ∀ ρ : Reading ι, G.Edits ρ.state (ρ.modify cs fun st =>
        { st with defUser := { st.defUser with val := .sym s } }).state := by
      intro ρ
      rw [Reading.modify_state]
      apply Edits.modify
      · exact fun _ => rfl
      · exact fun _ => rfl
      · exact fun _ k => by cases k <;> rfl
      · intro _ _ m hm
        cases hm
        exact .inr ((hG.memberOf s cs hs hcs).1)
    refine .trans ?_ (htri _ _)
    split
    · exact .refl
    · split
      · exact .flagDefUser false
      · exact .refl
    · refine .trans ?_ (hpick _)
      split <;> exact .refl
  · exact .refl

theorem edits_readLine (hG : G.Finalized) (line : Text) :
    G.Edits ρ.state (readLine G ρ line).state := by
  unfold readLine
  split
  · exact .refl
  · split
    · exact ⟨fun _ => rfl, fun _ => rfl, fun _ _ => rfl, rfl, fun _ _ _ h => .inl h⟩
    · next s hs =>
      have h1 := edits_warnOverride (G := G) (ρ := ρ) (s := s)
      refine (h1.trans ?_).trans (edits_tellChoice hG)
      split
      · exact edits_setTri _
      · exact .refl
  · split
    · exact ⟨fun _ => rfl, fun _ => rfl, fun _ _ => rfl, rfl, fun _ _ _ h => .inl h⟩
    · have h2 := fun s value => (edits_warnOverride (G := G) (ρ := ρ) (s := s)).trans
        (edits_confSetSymVal value (s := s))
      simp only
      split
      · exact (h2 _ _).trans (edits_tellChoice hG)
      · exact h2 _ _

theorem edits_lines (hG : G.Finalized) (lines : List Text) (ρ : Reading ι) :
    G.Edits ρ.state (lines.foldl (readLine G) ρ).state := by
  induction lines generalizing ρ with
  | nil => exact .refl
  | cons line lines ih => exact (edits_readLine hG line).trans (ih _)

theorem edits_loadFile (hG : G.Finalized) (file : Text) :
    G.Edits (dropUserValues G σ) (loadFile G file σ).state :=
  edits_lines hG (confLines file) ⟨dropUserValues G σ, 0⟩

end

theorem dropUserValues_sym (t : ι) :
    (dropUserValues G σ).sym t = if t ∈ G.allSymbols then
      { σ.sym t with flagValid := false, flagDefUser := G.isChoice t, defUser := ⟨.null, .no⟩ }
    else σ.sym t := by
  unfold dropUserValues
  induction G.allSymbols generalizing σ with
  | nil => rfl
  | cons s syms ih =>
    rw [List.foldl_cons, ih, State.modify_sym]
    by_cases hts : t = s
    · simp [hts]
    · simp [hts]

theorem dropUserValues_modulesVal : (dropUserValues G σ).modulesVal = σ.modulesVal := by
  unfold dropUserValues
  induction G.allSymbols generalizing σ with
  | nil => rfl
  | cons s syms ih => exact ih

theorem Running.dropUserValues (hG : G.Finalized) (h : G.Running σ) :
    G.Running (dropUserValues G σ) where
  toStarted := by
    refine h.toStarted.mono (fun t ht => ?_) hG (fun c hc m hm => h.picks c hc m ?_)
      fun t => ?_
    · rw [dropUserValues_sym, hG.allSymbols, if_neg ht]
      exact ⟨rfl, rfl⟩
    · simp only [userIn, dropUserValues_sym] at hm
      split at hm
      · cases hm
      · exact hm
    · rw [dropUserValues_sym]
      split <;> rfl
  modulesVal := by
    rw [dropUserValues_modulesVal, h.modulesVal, dropUserValues_sym]
    split <;> rfl
  unknown hu := dropUserValues_modulesVal.trans (h.unknown hu)

theorem Running.loadFile (hG : G.Finalized) (h : G.Running σ) (file : Text) :
    G.Running (loadFile G file σ).state :=
  (h.dropUserValues hG).edits hG (edits_loadFile hG file)

/-- A symbol of the hash table may lose its value at any time. -/
theorem Running.invalidate (hG : G.Finalized) (h : G.Running σ) (hs : s ∈ G.symbolHash) :
    G.Running (σ.modify s fun st => { st with flagValid := false, flagDefUser := false }) where
  toStarted := by
    refine h.toStarted.mono (fun t ht => ?_) hG (fun c hc m hm => h.picks c hc m ?_)
      fun t => ?_
    · have hts : t ≠ s := fun hts => ht (hts ▸ hs)
      rw [State.modify_sym_of_ne _ _ hts]
      exact ⟨rfl, rfl⟩
    · simp only [userIn, State.modify_sym] at hm
      split at hm <;> exact hm
    · rw [State.modify_sym]
      split <;> rfl
  modulesVal := by
    rw [State.modify_modulesVal, h.modulesVal, State.modify_sym]
    split <;> rfl
  unknown := h.unknown

omit [DecidableEq ι] in
theorem Running.changeCount (h : G.Running σ) (n : ℕ) : G.Running { σ with changeCount := n } where
  toStarted := ⟨h.yes_valid, h.yes_curr, h.mod_valid, h.mod_curr, h.no_valid, h.no_curr, h.picks,
    h.hides⟩
  toTracked := ⟨h.modulesVal, h.unknown⟩

theorem Running.confReadSimple (hG : G.Finalized) (h : G.Running σ) (file : ConfFile ι) :
    G.Running (confReadSimple G file σ).2 := by
  cases file with
  | opened contents => exact (h.loadFile hG contents).symCalcValue hG
  | fallback evaluated contents =>
    exact (((h.changeCount _).symCalcList hG evaluated).loadFile hG contents).symCalcValue hG
  | missing => exact h
  | absent => exact (h.changeCount _).symCalcValue hG

theorem Running.calcUnsaved (hG : G.Finalized) (h : G.Running σ) (syms : List ι) (unsaved : ℕ) :
    G.Running (calcUnsaved G syms unsaved σ).2 := by
  induction syms generalizing σ unsaved with
  | nil => exact h
  | cons s syms ih => exact ih (h.symCalcValue hG) _

theorem Running.resetValue (hG : G.Finalized) (h : G.Running σ) (hs : s ∈ G.symbolHash)
    (unsaved : ℕ) : G.Running (resetValue G s unsaved σ).2 := by
  unfold Kconfig.resetValue
  have h1 : G.Running (if (σ.sym s).visible = .no ∧ unsaved = 0 then
      σ.modify s fun st => { st with flagDefUser := false } else σ) := by
    split
    · exact h.edits hG (.flagDefUser false)
    · exact h
  simp only
  generalize (if (σ.sym s).visible = .no ∧ unsaved = 0 then
      σ.modify s fun st => { st with flagDefUser := false } else σ) = σ1 at h1 ⊢
  have hwithin := symStringWithinRange_preserves (preserves_running hG) h1
    (σ1.sym s).defUser.val.text (s := s)
  have hreset := hwithin.invalidate hG hs
  split
  all_goals first | exact h1 | skip
  all_goals
    split
    · exact hwithin
    · exact hreset

theorem Running.resetValues (hG : G.Finalized) (h : G.Running σ) (syms : List ι)
    (hsyms : ∀ s ∈ syms, s ∈ G.symbolHash) (unsaved : ℕ) :
    G.Running (resetValues G syms unsaved σ).2 := by
  induction syms generalizing σ unsaved with
  | nil => exact h
  | cons s syms ih =>
    refine ih ?_ (fun t ht => hsyms t (List.mem_cons_of_mem _ ht)) _
    split
    · exact h.resetValue hG (hsyms s List.mem_cons_self) unsaved
    · exact h

theorem Running.confRead (hG : G.Finalized) (h : G.Running σ) (file : ConfFile ι) :
    G.Running (confRead G file σ).2 := by
  have h1 := (h.changeCount 0).confReadSimple hG file
  unfold Kconfig.confRead
  simp only
  split
  · exact h1
  · exact ((h1.calcUnsaved hG G.allSymbols 0).resetValues hG _
      (fun s hs => hG.allSymbols ▸ hs) _).changeCount _

/-! ### Reachable states -/

/-- The state after `conf_parse`. -/
def initial (G : SymbolTable ι) : State ι where
  sym s :=
    if s = G.symbolYes ∨ s = G.symbolMod ∨ s = G.symbolNo then
      { curr := G.constCurr s, flagValid := true }
    else {}
  modulesVal := .no
  changeCount := 1

inductive Step (G : SymbolTable ι) (σ : State ι) : State ι → Prop
  | read (file : ConfFile ι) : Step G σ (Kconfig.confRead G file σ).2
  | setTristate {s : ι} (val : Tristate) (hs : s ∈ G.symbolHash) :
    Step G σ (Kconfig.symSetTristateValue G s val σ).2
  | setString {s : ι} (newval : Text) (hs : s ∈ G.symbolHash) :
    Step G σ (Kconfig.symSetStringValue G s newval σ).2
  | calcValue (s : ι) : Step G σ (Kconfig.symCalcValue G s σ)

def Reachable (G : SymbolTable ι) (σ : State ι) : Prop := Relation.ReflTransGen G.Step G.initial σ

theorem running_initial (hG : G.Finalized) : G.Running G.initial := by
  have hconst : ∀ s, s = G.symbolYes ∨ s = G.symbolMod ∨ s = G.symbolNo →
      (G.initial.sym s).flagValid ∧ (G.initial.sym s).curr = G.constCurr s := by
    intro s hs
    simp only [initial, if_pos hs, and_self]
  obtain ⟨hym, hyn, hmn⟩ := hG.constants
  have hyes := hconst G.symbolYes (.inl rfl)
  have hmod := hconst G.symbolMod (.inr (.inl rfl))
  have hno := hconst G.symbolNo (.inr (.inr rfl))
  refine { yes_valid := hyes.1, yes_curr := ?_, mod_valid := hmod.1, mod_curr := ?_,
           no_valid := hno.1, no_curr := ?_, picks := ?_, hides := fun s _ => ?_, modulesVal := ?_
           unknown := fun _ => rfl }
  · rw [hyes.2, constCurr, if_pos rfl]
  · rw [hmod.2, constCurr, if_neg hym.symm, if_pos rfl]
  · rw [hno.2, constCurr, if_neg hyn.symm, if_neg hmn.symm]
  · intro c _ m hm
    simp only [userIn, initial] at hm
    split at hm <;> cases hm
  · simp only [initial]
    split <;> rfl
  · rcases hG.modules with hm | hm
    · rw [hm, hno.2, constCurr, if_neg hyn.symm, if_neg hmn.symm]
      rfl
    · have hne : ¬(G.modulesSym = G.symbolYes ∨ G.modulesSym = G.symbolMod ∨
          G.modulesSym = G.symbolNo) := by
        rintro (h | h | h)
        · exact hG.yes_not_mem (h ▸ hm)
        · exact hG.mod_not_mem (h ▸ hm)
        · exact hG.no_not_mem (h ▸ hm)
      simp only [initial, if_neg hne]

theorem Step.running (hG : G.Finalized) (h : G.Step σ τ) (hσ : G.Running σ) : G.Running τ := by
  cases h with
  | read file => exact hσ.confRead hG file
  | setTristate val _ => exact hσ.symSetTristateValue hG val
  | setString newval _ => exact hσ.symSetStringValue hG newval
  | calcValue s => exact hσ.symCalcValue hG

theorem Reachable.running (hG : G.Finalized) (h : G.Reachable σ) : G.Running σ := by
  induction h with
  | refl => exact running_initial hG
  | tail _ hstep ih => exact hstep.running hG ih

/-! ### Evaluated states -/

/-- The states in which all symbols are computed, with what the user had set: after
`sym_clear_all_valid` in a reachable state, or after a file has been loaded. -/
inductive Evaluated (G : SymbolTable ι) : (ι → UserValue ι) → State ι → Prop
  | cleared {σ : State ι} {syms : List ι} (hσ : G.Reachable σ) (hsyms : G.allSymbols ⊆ syms) :
    Evaluated G (userIn σ) (Kconfig.symCalcList G syms (Kconfig.symClearAllValid G σ))
  | loaded {σ : State ι} {syms : List ι} (n : ℕ) (contents : Text) (hσ : G.Reachable σ)
    (hsyms : G.allSymbols ⊆ syms) :
    Evaluated G (userIn (loadFile G contents { σ with changeCount := n }).state)
      (Kconfig.symCalcList G syms (Kconfig.symCalcValue G G.modulesSym
        (loadFile G contents { σ with changeCount := n }).state))

def envOf (σ : State ι) : Env ι := fun s => (σ.sym s).curr

/-- What evaluation achieves. -/
structure Computed (G : SymbolTable ι) (user : ι → UserValue ι) (σ : State ι) : Prop where
  solution : G.Solution user (envOf σ)
  modulesVal : σ.modulesVal = (envOf σ G.modulesSym).tri
  picks : G.PicksMembers user
  valid : ∀ s, (σ.sym s).flagValid

theorem Fresh.computed (hG : G.Finalized) (h : G.Stratified) (hσ : G.Fresh σ) (ht : G.Tracked σ)
    {syms : List ι} (hsyms : G.allSymbols ⊆ syms) :
    G.Computed (userIn σ) (Kconfig.symCalcList G syms (Kconfig.symCalcValue G G.modulesSym σ)) := by
  obtain ⟨env, hsol, henv⟩ := h.exists_solution hG hσ ht
  obtain ⟨hmv, hvalues⟩ := henv syms
  have hall : ∀ s, s ∈ syms ∨ s ∉ G.symbolHash ∨ s = G.modulesSym := by
    intro s
    by_cases hs : s ∈ G.symbolHash
    · exact .inl (hsyms (hG.allSymbols ▸ hs))
    · exact .inr (.inl hs)
  have heq : envOf (Kconfig.symCalcList G syms (Kconfig.symCalcValue G G.modulesSym σ)) = env :=
    funext fun s => (hvalues s (hall s)).2
  exact
    { solution := by rw [heq]; exact hsol
      modulesVal := by rw [heq]; exact hmv
      picks := hσ.picksMembers
      valid := fun s => (hvalues s (hall s)).1 }

theorem Running.fresh_cleared (hG : G.Finalized) (h : G.Running σ) : G.Fresh (G.cleared σ) where
  toStarted := h.toStarted.cleared hG
  invalid s hs := by
    rw [cleared_sym, hG.allSymbols]
    simp [hs]

theorem userIn_cleared : userIn (G.cleared σ) = userIn σ := by
  funext s
  unfold userIn
  rw [cleared_sym]

theorem Running.fresh_loadFile (hG : G.Finalized) (h : G.Running σ) (file : Text) :
    G.Fresh (Kconfig.loadFile G file σ).state where
  toStarted := (h.loadFile hG file).toStarted
  invalid s hs := by
    rw [(edits_loadFile hG file).valid, dropUserValues_sym, hG.allSymbols, if_pos hs]
    simp

theorem Evaluated.running (hG : G.Finalized) {user : ι → UserValue ι} (hσ : G.Evaluated user σ) :
    G.Running σ := by
  cases hσ with
  | cleared hσ _ => exact ((hσ.running hG).symClearAllValid hG).symCalcList hG _
  | loaded n contents hσ _ =>
    exact ((((hσ.running hG).changeCount n).loadFile hG contents).symCalcValue hG).symCalcList hG _

/-- In an evaluated state the values solve the equations. -/
theorem Evaluated.computed (hG : G.Finalized) (h : G.Stratified) {user : ι → UserValue ι}
    (hτ : G.Evaluated user τ) : G.Computed user τ := by
  cases hτ with
  | cleared hσ hsyms =>
    have hrun := hσ.running hG
    rw [symClearAllValid_eq, ← userIn_cleared]
    exact (hrun.fresh_cleared hG).computed hG h hrun.toTracked.cleared hsyms
  | loaded n contents hσ hsyms =>
    have hrun := (hσ.running hG).changeCount n
    exact (hrun.fresh_loadFile hG contents).computed hG h (hrun.loadFile hG contents).toTracked hsyms

end
end SymbolTable
end OpenADK.Kconfig
