import OpenADK.Kconfig.SymbolSpec

/-!
# The pick of a choice

`sym_calc_choice` first goes through the visibility of all members, so that their caches are
up to date for the value the choice has at that moment; then it takes the user's pick, a
selected member, a visible default or the first visible member.
-/

namespace OpenADK.Kconfig.Target
open Tristate
variable {ι : Type} {T : Target ι} {G : SymbolTable ι} {calcSym : Calc ι}
variable {r n : ℕ} {σ τ : State ι} {c m : ι}

/-- All caches of the members of `c` are up to date. -/
def MembersSeen (T : Target ι) (G : SymbolTable ι) (c : ι) (σ : State ι) : Prop :=
  ∀ m ∈ G.members c, T.Seen G σ m .visible ∧ T.Seen G σ m .revDep

theorem MembersSeen.advance (h : T.MembersSeen G c σ) (h' : T.Advances G r σ τ) :
    T.MembersSeen G c τ :=
  fun m hm => ⟨h'.seen m _ (h m hm).1, h'.seen m _ (h m hm).2⟩

theorem MembersSeen.visible (h : T.MembersSeen G c σ) (hm : m ∈ G.members c) :
    (σ.sym m).visible = G.visibleIn σ.modulesVal (T.view σ) m := (h m hm).1.cache

/-- The visibility of what a default may name is up to date. -/
theorem MembersSeen.visible_inside {d : ι} (h : T.MembersSeen G c σ) (hσ : T.Ready G r n σ)
    (hd : G.Inside c d) : (σ.sym d).visible = G.visibleIn σ.modulesVal (T.view σ) d := by
  rcases hd with hm | hnone
  · exact h.visible hm
  · rw [hσ.hides d hnone, SymbolTable.visibleIn_of_no_prompts hnone]

theorem MembersSeen.revDepTri (h : T.MembersSeen G c σ) (hm : m ∈ G.members c) :
    (σ.sym m).revDepTri = G.revDepIn σ.modulesVal (T.view σ) m := (h m hm).2.cache

theorem MembersSeen.find?_visible (h : T.MembersSeen G c σ) :
    ((G.members c).find? fun m => (σ.sym m).visible ≠ .no) =
      (G.members c).find? fun m => G.visibleIn σ.modulesVal (T.view σ) m ≠ .no :=
  SymbolTable.find?_congr_mem fun m hm => by rw [h.visible hm]

theorem MembersSeen.selectedMember (h : T.MembersSeen G c σ) :
    selectedMember σ (G.members c) =
      (G.members c).find? fun m => G.revDepIn σ.modulesVal (T.view σ) m ≠ .no :=
  SymbolTable.find?_congr_mem fun m hm => by rw [h.revDepTri hm]

theorem visibleDefault_spec (hcalc : T.Computes G n calcSym) {props : List (Property ι)}
    (hσ : T.Ready G r n σ) (hseen : T.MembersSeen G c σ)
    (hprops : ∀ p ∈ props, ∀ d, propGetSymbol p = some d → G.Inside c d)
    (hl : ∀ u ∈ props.flatMap fun p => G.condReads p.visible, T.Callable G r σ u) :
    T.Advances G r σ (visibleDefault G calcSym props σ).2 ∧
      (visibleDefault G calcSym props σ).1 =
        G.visibleDefaultIn σ.modulesVal (T.view σ) props := by
  induction props generalizing σ with
  | nil => exact ⟨.refl, rfl⟩
  | cons p props ih =>
    rw [List.flatMap_cons] at hl
    obtain ⟨hl, hl'⟩ := List.forall_mem_append.mp hl
    obtain ⟨h1, hv1⟩ := exprCalcValue_spec hcalc hσ hl
    have h1 := h1.advances
    obtain ⟨h2, hv2⟩ := ih (hσ.advance h1) (hseen.advance h1)
      (fun q hq => hprops q (List.mem_cons_of_mem _ hq)) fun u hu => (hl' u hu).advance h1
    rw [h1.view, h1.modulesVal] at hv2
    rw [visibleDefault, SymbolTable.visibleDefaultIn]
    cases hd : propGetSymbol p with
    | none => exact ⟨h1.trans h2, hv2⟩
    | some d =>
      have hvis := (hseen.advance h1).visible_inside (hσ.advance h1) (hprops p List.mem_cons_self d hd)
      simp only [hv1, hvis, h1.view, h1.modulesVal]
      split
      · exact ⟨h1, rfl⟩
      · exact ⟨h1.trans h2, hv2⟩

theorem symChoiceDefault_spec (hcalc : T.Computes G n calcSym) (hσ : T.Ready G r n σ)
    (hseen : T.MembersSeen G c σ) (hdef : G.DefaultsInside c)
    (hl : ∀ u ∈ G.defaultReads c, T.Callable G r σ u) :
    T.Advances G r σ (symChoiceDefault G calcSym c σ).2 ∧
      (symChoiceDefault G calcSym c σ).1 = G.choiceDefaultIn σ.modulesVal (T.view σ) c := by
  obtain ⟨h1, hv1⟩ := visibleDefault_spec hcalc hσ hseen hdef (defaultCond_callable hl)
  have hfind := (hseen.advance h1).find?_visible
  rw [h1.view, h1.modulesVal] at hfind
  unfold symChoiceDefault SymbolTable.choiceDefaultIn
  rw [hseen.selectedMember]
  cases (G.members c).find? fun m => G.revDepIn σ.modulesVal (T.view σ) m ≠ .no with
  | some m => exact ⟨.refl, rfl⟩
  | none =>
    simp only [hv1]
    cases G.visibleDefaultIn σ.modulesVal (T.view σ) (G.symbol c).defaults with
    | some m => exact ⟨h1, rfl⟩
    | none => exact ⟨h1, hfind⟩

theorem userPick_spec (hσ : T.Ready G r n σ) (hseen : T.MembersSeen G c σ)
    (hpick : G.PicksMember (T.user c) c) :
    userPick c σ = G.userPickIn (T.user c) σ.modulesVal (T.view σ) := by
  unfold userPick SymbolTable.userPickIn
  rw [hσ.defUser c]
  cases hval : (T.user c).value.val with
  | sym m => simp only [hseen.visible (hpick m hval)]
  | null | str => rfl

variable [DecidableEq ι]

theorem calcMembersVisibility_spec (hcalc : T.Computes G n calcSym) {members : List ι} {b : Bool}
    (hσ : T.Ready G r n σ)
    (hl : ∀ m ∈ members, ∀ u ∈ G.visReads m, T.Callable G r σ u) :
    T.Advances G r σ (calcMembersVisibility G calcSym members b σ).2 ∧
      ∀ m ∈ members, T.Seen G (calcMembersVisibility G calcSym members b σ).2 m .visible ∧
        T.Seen G (calcMembersVisibility G calcSym members b σ).2 m .revDep := by
  induction members generalizing σ b with
  | nil => exact ⟨.refl, fun _ hm => by cases hm⟩
  | cons m members ih =>
    obtain ⟨h1, hseen⟩ := symCalcVisibility_spec hcalc hσ (hl m List.mem_cons_self)
    have h1 := h1.advances
    obtain ⟨h2, hrest⟩ := ih (b := if ((symCalcVisibility G calcSym m σ).sym m).visible ≠ .no
        then b && ((symCalcVisibility G calcSym m σ).sym m).flagDefUser else b) (hσ.advance h1)
      fun m' hm' u hu => (hl m' (List.mem_cons_of_mem _ hm') u hu).advance h1
    refine ⟨h1.trans h2, fun m' hm' => ?_⟩
    rcases List.mem_cons.mp hm' with rfl | hm'
    · exact ⟨h2.seen _ _ (hseen .visible trivial), h2.seen _ _ (hseen .revDep trivial)⟩
    · exact hrest m' hm'

/-- The update of `SYMBOL_DEF_USER` in `sym_calc_choice` changes nothing that is looked at. -/
theorem membersSeen_modify {f : SymState ι → SymState ι} (h : T.MembersSeen G c σ)
    (hcurr : ∀ st, (f st).curr = st.curr) (hvalid : ∀ st, (f st).flagValid = st.flagValid)
    (hk : ∀ st k, (f st).cache k = st.cache k) :
    T.view (σ.modify c f) = T.view σ ∧ T.MembersSeen G c (σ.modify c f) := by
  have hv : ∀ t, ((σ.modify c f).sym t).flagValid = (σ.sym t).flagValid := fun t => by
    rw [State.modify_sym]
    split
    · exact hvalid _
    · rfl
  have hview : T.view (σ.modify c f) = T.view σ := by
    funext t
    have ht : ((σ.modify c f).sym t).curr = (σ.sym t).curr := by
      rw [State.modify_sym]
      split
      · exact hcurr _
      · rfl
    simp only [view, hv, ht]
  have hseen : ∀ m k, T.Seen G σ m k → T.Seen G (σ.modify c f) m k := fun m k hm => by
    refine ⟨fun u hu => by rw [hv]; exact hm.reads u hu, ?_⟩
    rw [hview, State.modify_modulesVal, ← hm.cache, State.modify_sym]
    split
    · exact hk _ _
    · rfl
  exact ⟨hview, fun m hm => ⟨hseen m _ (h m hm).1, hseen m _ (h m hm).2⟩⟩

/-- `sym_calc_choice` on a choice whose value so far is `y`. -/
theorem symCalcChoice_spec (hcalc : T.Computes G n calcSym) (hr : r ≤ T.rank c)
    (hσ : T.Ready G r n σ) (hc : (σ.sym c).flagValid) (hyes : (σ.sym c).curr.tri = .yes)
    (hpick : G.PicksMember (T.user c) c) (hdef : G.DefaultsInside c)
    (hl : ∀ m ∈ G.members c, ∀ u ∈ G.visReads m, T.Callable G r σ u)
    (hld : ∀ u ∈ G.defaultReads c, T.Callable G r σ u) :
    T.AdvancesOff G c r σ (symCalcChoice G calcSym c σ) ∧
      ((symCalcChoice G calcSym c σ).sym c).curr =
        match G.pickIn (T.user c) σ.modulesVal (T.view σ) c with
        | some m => ⟨.sym m, .yes⟩
        | none => ⟨.null, .no⟩ := by
  obtain ⟨h1, hs1⟩ := calcMembersVisibility_spec (b := (σ.sym c).flagDefUser) hcalc hσ hl
  unfold symCalcChoice
  simp only
  generalize calcMembersVisibility G calcSym (G.members c) (σ.sym c).flagDefUser σ = flags at h1 hs1 ⊢
  obtain ⟨hview, hseen⟩ := membersSeen_modify (T := T) (G := G)
    (f := fun st => { st with flagDefUser := st.flagDefUser && flags.1 }) hs1 (fun _ => rfl)
    (fun _ => rfl) fun _ k => by cases k <;> rfl
  have h2 : T.AdvancesOff G c r σ
      (flags.2.modify c fun st => { st with flagDefUser := st.flagDefUser && flags.1 }) :=
    h1.off.trans (advancesOff_modify id (.inl (h1.valid c hc)) rfl fun k => by cases k <;> rfl)
  have hcurr2 : ((flags.2.modify c fun st =>
      { st with flagDefUser := st.flagDefUser && flags.1 }).sym c).curr = (σ.sym c).curr := by
    rw [State.modify_sym_self, ← h1.curr hc]
  generalize (flags.2.modify c fun st =>
    { st with flagDefUser := st.flagDefUser && flags.1 }) = σ2 at h2 hview hseen hcurr2 ⊢
  have hσ2 := hσ.off h2 hc hr
  have hc2 := h2.valid c hc
  -- the result is stored in the same way in every branch
  have hstore : ∀ {τ : State ι} (f : Value ι → Value ι), T.Advances G r σ2 τ →
      T.AdvancesOff G c r σ (τ.modify c fun st => { st with curr := f st.curr }) ∧
        ((τ.modify c fun st => { st with curr := f st.curr }).sym c).curr = f (σ.sym c).curr :=
    fun f h => by
      constructor
      · exact (h2.trans h.off).trans (advancesOff_modify id (.inl (h.valid c hc2)) rfl fun k => by
          cases k <;> rfl)
      · rw [State.modify_sym_self, h.curr hc2, hcurr2]
  rw [userPick_spec hσ2 hseen hpick, hview, h1.view, h2.modulesVal]
  unfold SymbolTable.pickIn
  cases G.userPickIn (T.user c) σ.modulesVal (T.view σ) with
  | some m =>
    obtain ⟨hoff, hval⟩ := hstore (fun v => { v with val := .sym m }) .refl
    exact ⟨hoff, by rw [← hyes]; exact hval⟩
  | none =>
    obtain ⟨h3, hv3⟩ := symChoiceDefault_spec hcalc hσ2 hseen hdef fun u hu =>
      (hld u hu).imp_left (h2.valid u)
    rw [hview, h1.view, h2.modulesVal] at hv3
    simp only [hv3]
    cases G.choiceDefaultIn σ.modulesVal (T.view σ) c with
    | some m =>
      obtain ⟨hoff, hval⟩ := hstore (fun v => { v with val := .sym m }) h3
      exact ⟨hoff, by rw [← hyes]; exact hval⟩
    | none => exact hstore (fun _ => ⟨.null, .no⟩) h3

end OpenADK.Kconfig.Target
