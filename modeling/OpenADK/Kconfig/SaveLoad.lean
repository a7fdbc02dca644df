import OpenADK.Kconfig.Reload
import OpenADK.Kconfig.SetTristate
import OpenADK.Kconfig.WriteSession

/-!
# Saving and loading

The values of an evaluated state stay a solution of its equations when the user's values are
replaced by the values themselves. So a file that holds the value of every visible symbol
gives all symbols their values back.
-/

namespace OpenADK.Kconfig
open Tristate
namespace SymbolTable
variable {ι : Type} {G : SymbolTable ι} {mv : Tristate} {env : Env ι} {s : ι}
variable {user user' : UserValue ι}

/-! ### A value set by the user -/

theorem roundIn_roundIn (visible tri : Tristate) :
    G.roundIn mv visible s (G.roundIn mv visible s tri) = G.roundIn mv visible s tri := by
  unfold roundIn
  split
  · rw [if_neg fun h => Tristate.noConfusion h.1]
  · rfl

/-- A visible symbol that is set to its value keeps it. -/
theorem ownTristateIn_saved (hvis : G.visibleIn mv env s = .yes) (hhas : user'.has)
    (htri : user'.value.tri = G.ownTristateIn user mv env s) :
    G.ownTristateIn user' mv env s = G.ownTristateIn user mv env s := by
  have hbase : G.baseIn user' mv env s = G.ownTristateIn user mv env s := by
    rw [baseIn, hvis, if_pos ⟨by decide, hhas⟩, htri, min_yes]
  have hrev : G.revDepIn mv env s ≤ G.ownTristateIn user mv env s := revDepIn_le_ownTristateIn user
  have hvalues : G.orValuesIn env (G.activeIn mv env s) .no ≤ G.ownTristateIn user mv env s := by
    have hle : G.orValuesIn env (G.activeIn mv env s) .no ≤ G.orValuesIn env (G.activeIn mv env s)
        (max (G.baseIn user mv env s) (G.revDepIn mv env s)) := by
      conv_rhs => rw [orValuesIn_eq_max]
      exact le_max_right _ _
    exact hle.trans (le_roundIn _ _)
  rw [ownTristateIn, hbase, orValuesIn_eq_max, max_eq_left hrev, max_eq_left hvalues]
  exact roundIn_roundIn _ _

/-- What the user has set for an invisible symbol does not matter. -/
theorem ownTristateIn_invisible (hvis : G.visibleIn mv env s = .no) :
    G.ownTristateIn user' mv env s = G.ownTristateIn user mv env s := by
  have hbase (user : UserValue ι) : G.baseIn user mv env s =
      if G.isChoice s then .no else G.defaultTristateIn env s := if_neg fun h => h.1 hvis
  rw [ownTristateIn, ownTristateIn, hbase, hbase]

theorem visibleIn_eq_yes (h : G.visibleIn .no env s ≠ .no) : G.visibleIn .no env s = .yes := by
  unfold visibleIn at h ⊢
  simp only at h ⊢
  split
  · rfl
  · next hmod =>
    rw [if_neg hmod] at h
    cases htri : G.promptsIn env (G.symbol s).prompts .no with
    | no => exact absurd htri h
    | mod => exact absurd ⟨htri, .inr trivial⟩ hmod
    | yes => rfl

section
variable [DecidableEq ι]

/-- A user's value of a boolean or tristate symbol that keeps its value. -/
theorem tristateIn_saved (h : G.visibleIn .no env s ≠ .no →
      user'.has ∧ user'.value.tri = G.tristateIn user .no env s) :
    G.tristateIn user' .no env s = G.tristateIn user .no env s := by
  unfold tristateIn at h ⊢
  split
  · rfl
  · next hfollows =>
    rw [if_neg hfollows] at h
    by_cases hvis : G.visibleIn .no env s = .no
    · exact ownTristateIn_invisible hvis
    · obtain ⟨hhas, htri⟩ := h hvis
      exact ownTristateIn_saved (visibleIn_eq_yes hvis) hhas htri

/-- Without modules no boolean or tristate symbol is `m`. -/
theorem tristateIn_ne_mod (ht : G.type s = .boolean ∨ G.type s = .tristate) :
    G.tristateIn user .no env s ≠ .mod := by
  unfold tristateIn
  split
  · split
    · split <;> decide
    · decide
  · unfold ownTristateIn roundIn
    have htype : G.typeIn .no (G.visibleIn .no env s) s = .boolean := by
      unfold typeIn
      rcases ht with ht | ht
      · rw [if_neg (by rw [ht]; decide), ht]
      · rw [if_pos ht, if_pos rfl, ite_self]
    split
    · decide
    · next hmod => exact fun h => hmod ⟨h, htype⟩

/-- A string or number that is set to its value keeps it. -/
theorem stringValueIn_saved (ht : G.type s = .int ∨ G.type s = .hex ∨ G.type s = .string)
    (h : G.visibleIn mv env s ≠ .no → user'.has ∧
      user'.value.val = G.clampIn env s (G.stringValueIn user mv env s) ∧
      G.clampIn env s user'.value.val = user'.value.val) :
    G.valueIn user' mv env s = G.valueIn user mv env s := by
  rw [valueIn_string ht, valueIn_string ht]
  by_cases hvis : G.visibleIn mv env s = .no
  · have hsame : G.stringValueIn user' mv env s = G.stringValueIn user mv env s := by
      unfold stringValueIn
      rw [if_neg fun h => h.1 hvis, if_neg fun h => h.1 hvis]
    rw [hsame]
  · obtain ⟨hhas, hval, hclamp⟩ := h hvis
    have hsaved : G.stringValueIn user' mv env s = user'.value.val := if_pos ⟨hvis, hhas⟩
    rw [hsaved, hclamp, hval]

variable {users : ι → UserValue ι} {σ : State ι} {c : ι} {syms : List ι}

theorem Computed.tri_ne_mod (h : G.Computed users σ) (hmv : σ.modulesVal = .no)
    (hs : s ∈ G.symbolHash) (ht : G.type s = .boolean ∨ G.type s = .tristate) :
    (envOf σ s).tri ≠ .mod := by
  rw [(h.current hs).tri_eq ht, hmv]
  split
  · decide
  · exact tristateIn_ne_mod ht

/-- A choice that is set to its value and to its pick keeps both. -/
theorem Computed.choice_saved (hG : G.Finalized) (h : G.Computed users σ)
    (hmv : σ.modulesVal = .no) (hc : G.isChoice c)
    (ht : G.type c = .boolean ∨ G.type c = .tristate) (hchosen : envOf σ c ≠ ⟨.null, .no⟩)
    (hhas : user'.has) (htri : user'.value.tri = (envOf σ c).tri)
    (hpick : ∀ p, (envOf σ c).val = .sym p →
      user'.value.val = .sym p ∧ G.visibleIn .no (envOf σ) p ≠ .no) :
    G.boolValueIn user' .no (envOf σ) c = envOf σ c := by
  have heq := h.eq (hG.choice_mem c hc)
  rw [valueIn_tristate ht, hmv] at heq
  have hown : G.tristateIn (users c) .no (envOf σ) c = (envOf σ c).tri := by
    conv_rhs => rw [heq, boolValueIn_tri]
    rw [if_neg]
    rintro ⟨-, hyes, hnone⟩
    rw [boolValueIn, if_pos ⟨hc, hyes⟩, hyes, hnone] at heq
    exact hchosen heq
  have hsame : G.tristateIn user' .no (envOf σ) c = (envOf σ c).tri :=
    (tristateIn_saved fun _ => ⟨hhas, htri.trans hown.symm⟩).trans hown
  by_cases hyes : (envOf σ c).tri = .yes
  · obtain ⟨p, hp, -⟩ := (h.current (hG.choice_mem c hc)).choice_yes hG hc hyes
    obtain ⟨hval, hvis⟩ := hpick p (by rw [hp])
    have htaken : G.pickIn user' .no (memberEnv (envOf σ) c .yes) c = some p := by
      rw [pickIn_eq (exprIn_memberEnv ht hyes), pickIn, userPickIn, hval]
      dsimp only
      rw [if_pos hvis]
    rw [boolValueIn, hsame, hyes, if_pos ⟨hc, rfl⟩, htaken, hp]
  · rw [boolValueIn, hown, if_neg fun h => hyes h.2] at heq
    rw [boolValueIn, hsame, if_neg fun h => hyes h.2, ← heq]

/-! ### What a file tells -/

/-- The symbols of the menus that carry `SYMBOL_WRITE`. -/
def marked (G : SymbolTable ι) (root : RootMenu ι) (σ : State ι) : List ι :=
  (G.writables root.list).filter fun s => (σ.sym s).flagWrite ∧ G.type s ≠ .unknown

/-- The symbols tell all values: every visible symbol is among them, numbers lie in their
ranges, and a choice takes a visible member and no other member of it among them is `y`. -/
structure Tells (G : SymbolTable ι) (σ : State ι) (syms : List ι) : Prop where
  visible : ∀ s ∈ G.symbolHash, G.isChoice s = false → G.type s ≠ .unknown →
    G.visibleIn σ.modulesVal (envOf σ) s ≠ .no → s ∈ syms
  texts : ∀ s ∈ syms, G.type s = .int ∨ G.type s = .hex ∨ G.type s = .string →
    (envOf σ s).val = .str (envOf σ s).val.text ∧
      G.clampIn (envOf σ) s (envOf σ s).val = (envOf σ s).val
  chosen : ∀ c, G.isChoice c → envOf σ c ≠ ⟨.null, .no⟩
  picks : ∀ c, G.isChoice c → ∀ m, (envOf σ c).val = .sym m →
    G.visibleIn σ.modulesVal (envOf σ) m ≠ .no
  members : ∀ c, G.isChoice c → ∀ m ∈ G.told c syms, (envOf σ m).tri = .yes →
    (envOf σ c).val = .sym m

variable {τ τ' : State ι} {ρ : Reading ι}

theorem Tells.congr {syms' : List ι} (h : G.Tells σ syms) (hmem : ∀ s, s ∈ syms' ↔ s ∈ syms) :
    G.Tells σ syms' where
  visible s hs hc ht hvis := (hmem s).mpr (h.visible s hs hc ht hvis)
  texts s hs := h.texts s ((hmem s).mp hs)
  chosen := h.chosen
  picks := h.picks
  members c hc m hm := h.members c hc m (by
    rw [told, List.mem_filter] at hm ⊢
    exact ⟨(hmem m).mp hm.1, hm.2⟩)

theorem mem_told {m : ι} : m ∈ G.told c syms ↔
    m ∈ syms ∧ G.isChoiceValue m ∧ G.choiceOf m = some c := by
  simp [told]

/-- The pick of a choice is in the file, and it is `y`. -/
theorem Tells.pick_told (hG : G.Finalized) (hdef : ∀ c, G.isChoice c → G.DefaultsInside c)
    (h : G.Computed users σ) (hmv : σ.modulesVal = .no) (htells : G.Tells σ syms)
    (hc : G.isChoice c) {m : ι} (hm : (envOf σ c).val = .sym m) :
    m ∈ G.told c syms ∧ (envOf σ m).tri = .yes := by
  obtain ⟨-, hpick⟩ := ((h.current (hG.choice_mem c hc)).pick_iff hG hc).mp hm
  have hmem := pickIn_mem (h.picks c hc) (hdef c hc) hpick
  obtain ⟨hhash, htype, hchoice⟩ := hG.memberType c m hc hmem
  obtain ⟨hval, hof⟩ := hG.member c m hc hmem
  have hvis := htells.picks c hc m hm
  have hknown : G.type m ≠ .unknown := by rcases htype with ht | ht <;> rw [ht] <;> decide
  refine ⟨mem_told.mpr ⟨htells.visible m hhash hchoice hknown hvis, hval, hof⟩, ?_⟩
  rw [hmv] at hvis
  have hfollows : G.followsChoice .no (envOf σ) m := ⟨hval, visibleIn_eq_yes hvis⟩
  rw [(h.current hhash).tri_eq htype, if_neg fun h => by simp [hchoice] at h, hmv, tristateIn,
    if_pos hfollows, hof]
  exact if_pos hm

/-- What the user has set for a choice after the file has been read. -/
theorem Restored.choice (hG : G.Finalized) (hdef : ∀ c, G.isChoice c → G.DefaultsInside c)
    (h : G.Computed users σ) (hmv : σ.modulesVal = .no) (htells : G.Tells σ syms)
    (hcurr : ∀ s, (τ'.sym s).curr = (σ.sym s).curr) (hρ : G.Restored τ' τ syms ρ)
    (hc : G.isChoice c) : (ρ.state.sym c).flagDefUser = true ∧
      (ρ.state.sym c).defUser.tri = (envOf σ c).tri ∧
      ∀ p, (envOf σ c).val = .sym p → (ρ.state.sym c).defUser.val = .sym p := by
  have hsame (s : ι) : (τ'.sym s).curr = envOf σ s := hcurr s
  have hmod : ∀ m ∈ G.told c syms, (envOf σ m).tri ≠ .mod := by
    intro m hm
    obtain ⟨-, hval, hof⟩ := mem_told.mp hm
    obtain ⟨hhash, htype, -⟩ := hG.memberType c m hc (hG.memberOf m c hval hof).1
    exact h.tri_ne_mod hmv hhash htype
  refine ⟨hρ.set c hc fun m hm => by rw [hsame]; exact hmod m hm, le_antisymm ?_ ?_, ?_⟩
  · rw [hρ.greatest c hc]
    intro m hm
    rw [hsame]
    cases htri : (envOf σ m).tri with
    | no => exact no_le _
    | mod => exact absurd htri (hmod m hm)
    | yes =>
      have hpick := htells.members c hc m hm htri
      rw [(((h.current (hG.choice_mem c hc)).pick_iff hG hc).mp hpick).1]
  · have hall := (hρ.greatest c hc _).mp le_rfl
    cases htri : (envOf σ c).tri with
    | no => exact no_le _
    | mod =>
      cases ht : G.type c with
      | boolean | tristate =>
        exact absurd htri (h.tri_ne_mod hmv (hG.choice_mem c hc) (by simp [ht]))
      | other => exact absurd ht (hG.type_ne_other c)
      | int | hex | string => simp [hG.choiceType c (by simp [ht])] at hc
      | unknown =>
        rw [h.eq (hG.choice_mem c hc), valueIn_named (.inl ht)] at htri
        cases htri
    | yes =>
      obtain ⟨p, hp, -⟩ := (h.current (hG.choice_mem c hc)).choice_yes hG hc htri
      obtain ⟨htold, hyes⟩ := htells.pick_told hG hdef h hmv hc (by rw [hp])
      have hle := hall p htold
      rwa [hsame, hyes] at hle
  · intro p hp
    obtain ⟨htold, hyes⟩ := htells.pick_told hG hdef h hmv hc hp
    rw [hρ.pick c hc]
    cases hfind : (G.told c syms).reverse.find? fun m => (τ'.sym m).curr.tri = .yes with
    | none =>
      have hnone := List.find?_eq_none.mp hfind p (List.mem_reverse.mpr htold)
      rw [hsame, hyes] at hnone
      exact absurd rfl hnone
    | some m =>
      have hm := List.mem_reverse.mp (List.mem_of_find?_eq_some hfind)
      have hmyes : (envOf σ m).tri = .yes := by
        have hfound := List.find?_some hfind
        rw [hsame] at hfound
        exact of_decide_eq_true hfound
      exact (htells.members c hc m hm hmyes).symm.trans hp

theorem boolValueIn_of_not_choice (hc : G.isChoice s = false) :
    G.boolValueIn user mv env s = ⟨.str ['n'], G.tristateIn user mv env s⟩ := by
  rw [boolValueIn, if_neg fun h => by simp [hc] at h]

/-- The values of the state solve the equations for what the file has set. -/
theorem Restored.solution (hG : G.Finalized) (hS : G.Stratified) (h : G.Computed users σ)
    (hmv : σ.modulesVal = .no) (htells : G.Tells σ syms)
    (hcurr : ∀ s, (τ'.sym s).curr = (σ.sym s).curr) (hρ : G.Restored τ' τ syms ρ) :
    G.Solution (userIn ρ.state) (envOf σ) := by
  intro s
  have hsame (s : ι) : (τ'.sym s).curr = envOf σ s := hcurr s
  unfold equations
  split
  case isFalse hs => exact h.solution.const hs
  case isTrue hs =>
  rw [← h.modulesVal, hmv]
  have heq := h.eq hs
  rw [hmv] at heq
  have hstored (ht : G.type s ≠ .unknown) (hc : G.isChoice s = false)
      (hvis : G.visibleIn .no (envOf σ) s ≠ .no) :
      s ∈ syms ∧ G.Stored s τ' (ρ.state.sym s) := by
    have hmem := htells.visible s hs hc ht (by rwa [hmv])
    exact ⟨hmem, hρ.stored s hmem⟩
  cases ht : G.type s with
  | unknown =>
    rw [heq, valueIn_named (.inl ht), valueIn_named (.inl ht)]
  | other => exact absurd ht (hG.type_ne_other s)
  | boolean | tristate =>
    have htype : G.type s = .boolean ∨ G.type s = .tristate := by simp [ht]
    rw [valueIn_tristate htype] at heq ⊢
    cases hc : G.isChoice s with
    | true =>
      obtain ⟨hhas, htri, hpick⟩ := hρ.choice hG hS.defaults h hmv htells hcurr hc
      refine (h.choice_saved hG hmv hc htype (htells.chosen s hc) hhas htri fun p hp => ?_).symm
      have hvis := htells.picks s hc p hp
      rw [hmv] at hvis
      exact ⟨hpick p hp, hvis⟩
    | false =>
      rw [boolValueIn_of_not_choice hc] at heq ⊢
      rw [tristateIn_saved, heq]
      intro hvis
      obtain ⟨-, hhas, hval⟩ := hstored (by rw [ht]; decide) hc hvis
      rw [ht] at hval
      dsimp only at hval
      exact ⟨hhas, hval.trans (by rw [hsame, heq])⟩
  | int | hex | string =>
    have htype : G.type s = .int ∨ G.type s = .hex ∨ G.type s = .string := by simp [ht]
    rw [stringValueIn_saved htype, ← heq]
    intro hvis
    obtain ⟨hmem, hhas, hval⟩ := hstored (by rw [ht]; decide) (hG.choiceType s htype) hvis
    obtain ⟨htext, hclamp⟩ := htells.texts s hmem htype
    rw [ht] at hval
    dsimp only at hval
    rw [hsame, ← htext] at hval
    refine ⟨hhas, ?_, ?_⟩
    · rw [valueIn_string htype] at heq
      exact hval.trans (by rw [heq])
    · have hdef : (userIn ρ.state s).value.val = (envOf σ s).val := hval
      rw [hdef, hclamp]

/-! ### The whole way -/

/-- All symbols are evaluated, with the values that they have in `σ`. -/
def SameValues (σ τ : State ι) : Prop :=
  ∀ s, (τ.sym s).flagValid ∧ (τ.sym s).curr = (σ.sym s).curr

theorem SameValues.modify (h : SameValues σ τ) (t : ι) {f : SymState ι → SymState ι}
    (hf : ∀ st, (f st).flagValid = st.flagValid ∧ (f st).curr = st.curr) :
    SameValues σ (τ.modify t f) := by
  intro s
  rw [State.modify_sym]
  split
  · rw [(hf _).1, (hf _).2]
    exact h s
  · exact h s

theorem sameValues_writer (σ : State ι) : G.WriterInvariant (SameValues σ) where
  evaluates s τ h := by
    rw [symCalcValue_of_valid (h s).1]
    exact h
  defUser s _ h := h.modify s fun _ => ⟨rfl, rfl⟩

/-- Writing changes no value of a state in which all symbols are evaluated. -/
theorem sameValues_confWrite {root : RootMenu ι} (hvalid : ∀ s, (σ.sym s).flagValid)
    (hchanged : σ.changeCount ≠ 0) : SameValues σ (confWrite G root .written σ).2.2 := by
  have hclear (s : ι) (τ : State ι) (h : SameValues σ τ) : SameValues σ (clearWrite s τ) :=
    h.modify s fun _ => ⟨rfl, rfl⟩
  have hwalk : SameValues σ (walk (writeEntry G) root.list σ).2 :=
    walk_preserves (fun _ _ _ h => writeEntry_preserves hclear (sameValues_writer σ) h)
      fun s => ⟨hvalid s, rfl⟩
  unfold confWrite
  simp only [if_neg hchanged, reduceCtorEq, if_false]
  exact hwalk

theorem SameValues.validValue (h : SameValues σ τ) (hvalid : ∀ s, (σ.sym s).flagValid)
    (hs : G.ValidValue s σ) : G.ValidValue s τ := by
  unfold ValidValue at hs ⊢
  rw [symCalcValue_of_valid (hvalid G.modulesSym)] at hs
  rwa [symCalcValue_of_valid (h G.modulesSym).1, (h s).2, (h G.modulesSym).2]

/-! ### What is in the file -/

/-- All symbols are evaluated, and the mark of `s` is `b`. -/
def EvaluatedMark (s : ι) (b : Bool) (τ : State ι) : Prop :=
  (∀ t, (τ.sym t).flagValid) ∧ (τ.sym s).flagWrite = b

theorem EvaluatedMark.modify {b : Bool} (h : EvaluatedMark s b τ) {t : ι}
    {f : SymState ι → SymState ι} (hvalid : ∀ st, (f st).flagValid = st.flagValid)
    (hflag : t = s → ∀ st, st.flagWrite = b → (f st).flagWrite = b) :
    EvaluatedMark s b (τ.modify t f) := by
  refine ⟨fun u => by rw [flagValid_modify_eq hvalid]; exact h.1 u, ?_⟩
  rw [State.modify_sym]
  split
  · next hst => exact hflag hst.symm _ h.2
  · exact h.2

theorem evaluatedMark_writer (s : ι) (b : Bool) : G.WriterInvariant (EvaluatedMark s b) where
  evaluates t τ h := by
    rw [symCalcValue_of_valid (h.1 t)]
    exact h
  defUser _ _ h := h.modify (fun _ => rfl) fun _ _ => id

/-- What a part of the walk that comes by the symbols `syms` does with a symbol whose mark is
`b`. -/
structure WritesMarked (s : ι) (b : Bool) (syms : List ι) (out : List (Item ι) × State ι) :
    Prop where
  mark : EvaluatedMark s (b && decide (s ∉ syms)) out.2
  mem : s ∈ itemSyms out.1 ↔ b = true ∧ s ∈ syms

theorem WritesMarked.append {b : Bool} {syms syms' : List ι} {out out' : List (Item ι) × State ι}
    (h : WritesMarked s b syms out)
    (h' : WritesMarked s (b && decide (s ∉ syms)) syms' out') :
    WritesMarked s b (syms ++ syms') (out.1 ++ out'.1, out'.2) where
  mark := by
    have hmark : (b && decide (s ∉ syms ++ syms')) =
        (b && decide (s ∉ syms) && decide (s ∉ syms')) := by
      simp [Bool.and_assoc]
    rw [hmark]
    exact h'.mark
  mem := by
    rw [itemSyms_append, List.mem_append, List.mem_append, h.mem, h'.mem, Bool.and_eq_true,
      decide_eq_true_eq]
    tauto

theorem EvaluatedMark.confWriteSymbol {b : Bool} (h : EvaluatedMark s b τ) (t : ι) :
    EvaluatedMark s b (confWriteSymbol G t τ).2 := by
  rcases confWriteSymbol_cases (G := G) t τ with hwrite | ⟨-, hwrite⟩
  · rw [hwrite]
    exact h
  · rw [hwrite]
    exact symGetStringValue_preserves (evaluatedMark_writer s b).evaluates h

theorem itemSyms_confWriteSymbol (ht : G.type s ≠ .other ∧ G.type s ≠ .unknown) (τ : State ι) :
    itemSyms (confWriteSymbol G s τ).1 = [s] := by
  unfold Kconfig.confWriteSymbol
  split
  · next hother => exact absurd hother ht.1
  · next hunknown => exact absurd hunknown ht.2
  · rfl

theorem itemSyms_confWriteSymbol_subset (t : ι) (τ : State ι) :
    itemSyms (confWriteSymbol G t τ).1 ⊆ [t] := by
  rcases confWriteSymbol_cases (G := G) t τ with hwrite | ⟨ht, -⟩
  · rw [hwrite]
    exact List.nil_subset _
  · rw [itemSyms_confWriteSymbol ht]
    exact List.Subset.refl _

theorem writesMarked_writeSymbol {b : Bool} (ht : G.type s ≠ .other ∧ G.type s ≠ .unknown)
    (h : EvaluatedMark s b τ) (t : ι) : WritesMarked s b [t] (writeSymbol G t τ) := by
  unfold writeSymbol
  rw [symCalcValue_of_valid (h.1 t)]
  by_cases hst : s = t
  · subst hst
    have hmark : (b && decide (s ∉ [s])) = false := by simp
    cases b with
    | false =>
      simp only [h.2, Bool.false_eq_true, if_false]
      exact ⟨hmark ▸ h, by simp [itemSyms]⟩
    | true =>
      have hclear : EvaluatedMark s false (clearWrite s τ) := by
        refine ⟨fun u => valid_modify (fun _ => id) (h.1 u), ?_⟩
        rw [clearWrite, State.modify_sym_self]
      simp only [h.2, if_true]
      refine ⟨hmark ▸ hclear.confWriteSymbol s, ?_⟩
      rw [itemSyms_confWriteSymbol ht]
      simp
  · have hmark : (b && decide (s ∉ [t])) = b := by simp [hst]
    have hnot : s ∉ [t] := by simp [hst]
    have hclear : EvaluatedMark s b (clearWrite t τ) :=
      h.modify (fun _ => rfl) fun hts => absurd hts.symm hst
    simp only
    split
    · have hnone : s ∉ itemSyms (confWriteSymbol G t (clearWrite t τ)).1 := fun hs =>
        hnot (itemSyms_confWriteSymbol_subset t _ hs)
      exact ⟨hmark.symm ▸ hclear.confWriteSymbol t, iff_of_false hnone fun hs => hnot hs.2⟩
    · exact ⟨hmark.symm ▸ h, iff_of_false List.not_mem_nil fun hs => hnot hs.2⟩

/-- A part of the walk that comes by no symbol. -/
theorem WritesMarked.quiet {b : Bool} {out : List (Item ι) × State ι} (h : EvaluatedMark s b out.2)
    (hout : itemSyms out.1 = []) : WritesMarked s b [] out where
  mark := by
    rw [decide_eq_true List.not_mem_nil, Bool.and_true]
    exact h
  mem := by simp [hout]

theorem writesMarked_writeEntry {b : Bool} (ht : G.type s ≠ .other ∧ G.type s ≠ .unknown)
    (e : MenuEntry ι) (list : Menu ι) (h : EvaluatedMark s b τ) :
    WritesMarked s b (e.sym.toList.filter fun s => !G.isChoice s) (writeEntry G e list τ) := by
  have hwriter := evaluatedMark_writer (G := G) s b
  unfold writeEntry
  cases hsym : e.sym with
  | none =>
    refine .quiet (menuIsVisible_preserves hwriter (fun _ h => anyVisible_preserves hwriter h) h) ?_
    simp only
    split <;> rfl
  | some t =>
    cases hchoice : G.isChoice t with
    | true =>
      simp only [Option.toList_some, List.filter_cons, hchoice, Bool.not_true, Bool.false_eq_true,
        if_false, List.filter_nil, if_true]
      exact .quiet h rfl
    | false =>
      simp only [Option.toList_some, List.filter_cons, hchoice, Bool.not_false, if_true,
        List.filter_nil, Bool.false_eq_true, if_false]
      exact writesMarked_writeSymbol ht h t

/-- A symbol is in the file exactly when the walk comes by it and it is marked. -/
theorem writesMarked_walk {b : Bool} (ht : G.type s ≠ .other ∧ G.type s ≠ .unknown)
    (menu : Menu ι) (h : EvaluatedMark s b τ) :
    WritesMarked s b (G.writables menu) (walk (writeEntry G) menu τ) := by
  induction menu generalizing b τ with
  | null => exact .quiet h rfl
  | menu e list next ihlist ihnext =>
    have hsyms : G.writables (.menu e list next) =
        (e.sym.toList.filter fun s => !G.isChoice s) ++ G.writables list ++ G.writables next := by
      simp only [writables, Menu.syms, List.filter_append]
    have hhere := writesMarked_writeEntry ht e list h
    have hinner := hhere.append (ihlist hhere.mark)
    rw [hsyms]
    exact hinner.append (ihnext hinner.mark)

/-- The file of a state in which all symbols are evaluated holds the marked symbols. -/
theorem mem_itemSyms_confWrite (hG : G.Finalized) (hmodules : G.isChoice G.modulesSym = false)
    (hconsults : ∀ s, G.Consults s) {root : RootMenu ι} (hσ : G.WritingReachable root σ)
    (hvalid : ∀ s, (σ.sym s).flagValid) (hchanged : σ.changeCount ≠ 0) (s : ι) :
    s ∈ itemSyms (confWrite G root .written σ).2.1 ↔ s ∈ G.marked root σ := by
  have hitems : (confWrite G root .written σ).2.1 = (walk (writeEntry G) root.list σ).1 := by
    simp only [confWrite, if_neg hchanged, reduceCtorEq, if_false]
  by_cases ht : G.type s = .unknown
  · refine iff_of_false (fun hs => ?_) fun hs => by simp [marked, ht] at hs
    obtain ⟨item, hitem, hsym⟩ := List.mem_filterMap.mp hs
    cases item with
    | title text => cases hsym
    | symbol t value =>
      obtain rfl : t = s := Option.some.inj hsym
      exact (shows_confWrite hG hmodules hconsults hσ hitem).type.2 ht
  · have hwalk := writesMarked_walk ⟨hG.type_ne_other s, ht⟩ root.list
      (show EvaluatedMark s (σ.sym s).flagWrite σ from ⟨hvalid, rfl⟩)
    rw [hitems, hwalk.mem]
    simp [marked, ht, and_comm]

theorem WritingReachable.calcList {root : RootMenu ι} (syms : List ι)
    (h : G.WritingReachable root σ) : G.WritingReachable root (symCalcList G syms σ) := by
  induction syms generalizing σ with
  | nil => exact h
  | cons s syms ih => exact ih (h.tail (.step (.calcValue s)))

end

end SymbolTable

namespace SelectedMember
open Name SymbolTable

def displayed : State Name :=
  symCalcList (table true) [c, x, a, b] (symCalcValue (table true) n edited)

theorem writingReachable_displayed : (table true).WritingReachable root displayed :=
  WritingReachable.calcList _ (writingReachable_edited.tail (.step (.calcValue n)))

theorem computed_displayed : (table true).Computed (userIn edited) displayed := by
  have hreach : (table true).Reachable edited :=
    (Relation.ReflTransGen.single (.read (.opened pickA))).tail (.setTristate .no (by decide))
  have hrun := hreach.running (finalized true)
  have hfresh : (table true).Fresh edited := ⟨hrun.toStarted, by decide +kernel⟩
  exact hfresh.computed (finalized true) (stratified true) hrun.toTracked (by decide)

theorem marked_displayed : (table true).marked root displayed = [x, a, b, x] := by
  decide +kernel

theorem validValue_displayed {s : Name} (hs : s ∈ (table true).marked root displayed) :
    (table true).ValidValue s displayed := by
  have hmod : ∀ s ∈ [x, a, b, x], (displayed.sym s).curr.tri ≠ .mod := by decide +kernel
  rw [marked_displayed] at hs
  have htri := hmod s hs
  cases s with
  | x | a | b => exact htri
  | y | m | n | c => exact absurd hs (by decide)

theorem tells_displayed : (table true).Tells displayed ((table true).marked root displayed) := by
  rw [marked_displayed]
  exact {
    visible := by decide +kernel
    texts := by decide +kernel
    chosen := by decide +kernel
    picks := by decide +kernel
    members := by decide +kernel }

theorem modulesVal_displayed : displayed.modulesVal = .no := by decide +kernel

theorem changeCount_displayed : displayed.changeCount ≠ 0 := by decide +kernel

end SelectedMember
end OpenADK.Kconfig
