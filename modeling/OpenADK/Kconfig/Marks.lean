import OpenADK.Kconfig.Session

/-!
# Which symbols evaluation marks

`SYMBOL_WRITE` of a symbol is set and cleared by the evaluation of the symbol and, for a visible
member, set by the evaluation of its choice. Once both have been evaluated the mark stays as
it is. A member evaluates its choice for its own visibility, unless its prompts are never visible;
that holds of recursive dependencies too.
-/

namespace OpenADK.Kconfig
open Tristate
variable {ι : Type}

namespace SymbolTable

/-- A symbol whose prompts all depend on `n`. -/
def Hidden (G : SymbolTable ι) (s : ι) : Prop :=
  ∀ p ∈ (G.symbol s).prompts, p.visible = some (.symbol G.symbolNo)

structure Quiet (G : SymbolTable ι) (σ : State ι) : Prop where
  const : G.NoIsConstant σ
  visible : ∀ s, G.Hidden s → (σ.sym s).visible = .no

end SymbolTable

open SymbolTable

section
variable [DecidableEq ι] {G : SymbolTable ι} {I : State ι → Prop} {calcSym : Calc ι}
variable {σ : State ι} {s : ι}

/-! ### Hidden symbols -/

section
variable (hcalc : Preserves I calcSym) (hconst : ∀ σ, I σ → G.NoIsConstant σ)
variable (hcache : ∀ {f σ}, Caching f → I σ → I (σ.modify s f))
include hcalc hconst hcache

theorem promptsVisible_hidden {i : ℕ} {props : List (Property ι)} {tri : Tristate} (hσ : I σ)
    (hprops : ∀ p ∈ props, p.visible = some (.symbol G.symbolNo)) :
    (promptsVisible G calcSym s i props tri σ).1 = tri := by
  induction props generalizing σ i tri with
  | nil => rfl
  | cons p props ih =>
    have hno : (exprCalcValue G calcSym p.visible σ).1 = .no := by
      rw [hprops p List.mem_cons_self]
      exact (hconst _ (hcalc G.symbolNo σ hσ)).2
    have h1 := hcache (f := fun st => { st with
        promptTri := Function.update st.promptTri i (exprCalcValue G calcSym p.visible σ).1 })
      ⟨⟨fun _ => rfl, fun _ => rfl, fun _ => rfl, fun _ => rfl⟩, fun _ => rfl, fun _ => rfl⟩
      (exprCalcValue_preserves (G := G) (e := p.visible) hcalc hσ)
    rw [promptsVisible, ih h1 fun q hq => hprops q (List.mem_cons_of_mem _ hq), hno, exprOr_eq_max,
      max_no]

/-- Visibility does not show a hidden symbol. -/
theorem symCalcVisibility_hidden
    (hvis : ∀ (v : Tristate) (σ : State ι), (G.Hidden s → v = .no) → I σ →
      I (σ.modify s fun st => st.setCache .visible v)) (hσ : I σ) :
    I (symCalcVisibility G calcSym s σ) := by
  refine symCalcVisibility_preserves hcache hcalc (fun h => hvis _ _ (fun hs => ?_) h) hσ
  rw [promptsVisible_hidden hcalc hconst hcache hσ hs]
  rfl

end
theorem SymbolTable.Quiet.modify (h : G.Quiet σ) {f : SymState ι → SymState ι}
    (hconst : s = G.symbolNo → ∀ st, (f st).flagValid = st.flagValid ∧ (f st).curr = st.curr)
    (hvis : G.Hidden s → ∀ st, st.visible = .no → (f st).visible = .no) :
    G.Quiet (σ.modify s f) where
  const := by
    unfold NoIsConstant
    rw [State.modify_sym]
    split
    · next hs => rw [(hconst hs.symm _).1, (hconst hs.symm _).2]; exact h.const
    · exact h.const
  visible t ht := by
    rw [State.modify_sym]
    split
    · next hts =>
      subst hts
      exact hvis ht _ (h.visible t ht)
    · exact h.visible t ht

theorem quiet_invariant (G : SymbolTable ι) : RunInvariant G (· ≠ G.symbolNo) G.Quiet where
  visibility hcalc h := by
    refine symCalcVisibility_hidden hcalc (fun _ h => h.const) (fun hf h => ?_)
      (fun v σ hv h => ?_) h
    · exact h.modify (fun _ st => ⟨hf.flagValid st, hf.curr st⟩) fun _ st => (hf.visible st).trans
    · exact h.modify (fun _ _ => ⟨rfl, rfl⟩) fun hs _ _ => hv hs
  write _ h _ := h.modify (fun _ _ => ⟨rfl, rfl⟩) fun _ _ => id
  mark h _ _ _ _ := h.modify (fun _ _ => ⟨rfl, rfl⟩) fun _ _ => id
  enter h hs := h.modify (fun hno => absurd hno hs) fun _ _ => id
  curr _ h hs := h.modify (fun hno => absurd hno hs) fun _ _ => id
  flagDefUser _ h _ _ := h.modify (fun _ _ => ⟨rfl, rfl⟩) fun _ _ => id
  own h hs hno := hs (hno ▸ h.const.1)
  modulesVal _ h _ := ⟨h.const, h.visible⟩

/-! ### Marks that stay -/

/-- Neither `s` nor a choice that could mark it is still to be evaluated. -/
structure Settled (G : SymbolTable ι) (s : ι) (σ : State ι) : Prop where
  valid : (σ.sym s).flagValid
  choice : ∀ c, G.isChoice c → s ∈ G.members c → (σ.sym c).flagValid ∨ G.Hidden s

/-- A settled symbol whose mark is `b`. -/
structure MarkIs (G : SymbolTable ι) (s : ι) (b : Bool) (σ : State ι) : Prop
    extends G.Quiet σ, Settled G s σ where
  flagWrite : (σ.sym s).flagWrite = b

theorem MarkIs.modify {b : Bool} {t : ι} (h : MarkIs G s b σ) {f : SymState ι → SymState ι}
    (hconst : t = G.symbolNo → ∀ st, (f st).flagValid = st.flagValid ∧ (f st).curr = st.curr)
    (hvis : G.Hidden t → ∀ st, st.visible = .no → (f st).visible = .no)
    (hvalid : ∀ st, st.flagValid → (f st).flagValid)
    (hflag : s = t → ∀ st, (f st).flagWrite = st.flagWrite) : MarkIs G s b (σ.modify t f) where
  toQuiet := h.toQuiet.modify hconst hvis
  valid := valid_modify hvalid h.valid
  choice c hc hs := (h.choice c hc hs).imp_left (valid_modify hvalid)
  flagWrite := by
    rw [State.modify_sym, ← h.flagWrite]
    split
    · next hts => rw [hflag hts]
    · rfl

theorem markIs_invariant (G : SymbolTable ι) (s : ι) (b : Bool) :
    RunInvariant G (fun t => t ≠ G.symbolNo ∧ t ≠ s ∧ (G.isChoice t → s ∈ G.members t → G.Hidden s))
      (MarkIs G s b) where
  visibility hcalc h := by
    refine symCalcVisibility_hidden hcalc (fun _ h => h.const) (fun hf h => ?_)
      (fun v σ hv h => ?_) h
    · exact h.modify (fun _ st => ⟨hf.flagValid st, hf.curr st⟩) (fun _ st => (hf.visible st).trans)
        (fun st hst => by rwa [hf.flagValid]) fun _ => hf.flagWrite
    · exact h.modify (fun _ _ => ⟨rfl, rfl⟩) (fun hs _ _ => hv hs) (fun _ => id) fun _ _ => rfl
  write _ h hs := h.modify (fun _ _ => ⟨rfl, rfl⟩) (fun _ _ => id) (fun _ => id) fun hst =>
    absurd hst.symm hs.2.1
  mark {c m σ} h hc hchoice hm hv := by
    refine h.modify (fun _ _ => ⟨rfl, rfl⟩) (fun _ _ => id) (fun _ => id) fun hsm => ?_
    subst hsm
    exact absurd (h.visible s (hc.2.2 hchoice hm)) hv
  enter h hs := h.modify (fun hno => absurd hno hs.1) (fun _ _ => id) (fun _ _ => rfl) fun _ _ => rfl
  curr _ h hs := h.modify (fun hno => absurd hno hs.1) (fun _ _ => id) (fun _ => id) fun _ _ => rfl
  flagDefUser _ h _ _ := h.modify (fun _ _ => ⟨rfl, rfl⟩) (fun _ _ => id) (fun _ => id) fun _ _ => rfl
  own h hs := by
    refine ⟨fun hno => hs (hno ▸ h.const.1), fun hts => hs (hts ▸ h.valid), fun hc hm => ?_⟩
    exact (h.choice _ hc hm).resolve_left hs
  modulesVal _ h _ := ⟨⟨h.const, h.toQuiet.visible⟩, ⟨h.valid, h.choice⟩, h.flagWrite⟩

/-! ### What visibility evaluates -/

section
variable (hcalc : Preserves I calcSym) (hvalid : ∀ t σ, I σ → ((calcSym t σ).sym t).flagValid)
variable (hmono : ∀ t, Preserves (fun σ => (σ.sym t).flagValid) calcSym)
variable (hcache : ∀ {s f σ}, CacheUpdate f → I σ → I (σ.modify s f))
variable {t : ι}
include hcalc hvalid hmono

omit [DecidableEq ι] in
theorem exprCalc_consults {e : Expr ι} (ht : t ∈ G.exprReads e) (hm : t ≠ G.modulesSym)
    (hσ : I σ) : ((exprCalc G calcSym e σ).2.sym t).flagValid := by
  have hstrings : ∀ {s u : ι} {σ : State ι}, t = s ∨ t = u → I σ →
      ((comparedStrings G calcSym s u σ).2.sym t).flagValid := by
    intro s u σ ht hσ
    refine symGetStringValue_preserves (hmono t) (symGetStringValue_preserves (hmono t) ?_)
    rcases ht with rfl | rfl
    · exact hmono t _ _ (hvalid t σ hσ)
    · exact hvalid t _ (hcalc _ _ hσ)
  have hcompare : ∀ {s u : ι}, t ∈ (s :: u :: if G.comparesTristate s u then [G.modulesSym]
      else [] : List ι) → t = s ∨ t = u := by
    intro s u ht
    split at ht <;> simpa [hm] using ht
  induction e generalizing σ with
  | symbol s =>
    obtain rfl := List.mem_singleton.mp ht
    exact hvalid t σ hσ
  | not e ih => exact ih ht hσ
  | equal s u => exact hstrings (hcompare ht) hσ
  | unequal s u => exact hstrings (hcompare ht) hσ
  | and l r ihl ihr =>
    rcases List.mem_append.mp ht with ht | ht
    · exact exprCalc_preserves (e := r) (hmono t) (ihl ht hσ)
    · exact ihr ht (exprCalc_preserves hcalc hσ)
  | or l r ihl ihr =>
    rcases List.mem_append.mp ht with ht | ht
    · exact exprCalc_preserves (e := r) (hmono t) (ihl ht hσ)
    · exact ihr ht (exprCalc_preserves hcalc hσ)

omit [DecidableEq ι] in
theorem exprCalcValue_consults {e : Option (Expr ι)} (ht : t ∈ G.condReads e)
    (hm : t ≠ G.modulesSym) (hσ : I σ) : ((exprCalcValue G calcSym e σ).2.sym t).flagValid := by
  cases e with
  | none => cases ht
  | some e => exact exprCalc_consults hcalc hvalid hmono ht hm hσ

omit [DecidableEq ι] in
theorem revDepValue_consults {e : Option (Expr ι)} (ht : t ∈ G.condReads e)
    (hm : t ≠ G.modulesSym) (hσ : I σ) : ((revDepValue G calcSym e σ).2.sym t).flagValid := by
  cases e with
  | none => cases ht
  | some e => exact exprCalc_consults hcalc hvalid hmono ht hm hσ

include hcache

theorem promptsVisible_consults {i : ℕ} {props : List (Property ι)} {tri : Tristate}
    (ht : t ∈ props.flatMap fun p => G.condReads p.visible) (hm : t ≠ G.modulesSym) (hσ : I σ) :
    ((promptsVisible G calcSym s i props tri σ).2.sym t).flagValid := by
  induction props generalizing σ i tri with
  | nil => cases ht
  | cons p props ih =>
    have hupdate : CacheUpdate fun st : SymState ι => { st with
        promptTri := Function.update st.promptTri i (exprCalcValue G calcSym p.visible σ).1 } :=
      ⟨fun _ => rfl, fun _ => rfl, fun _ => rfl, fun _ => rfl⟩
    rw [List.flatMap_cons] at ht
    rw [promptsVisible]
    rcases List.mem_append.mp ht with ht | ht
    · refine promptsVisible_preserves
        (fun hf => valid_modify fun st hst => by rwa [hf.flagValid]) (hmono t)
        (valid_modify (fun _ => id) ?_)
      exact exprCalcValue_consults hcalc hvalid hmono ht hm hσ
    · exact ih ht (hcache hupdate (exprCalcValue_preserves hcalc hσ))

theorem calcValDep_consults {i : ℕ} {esvs : List (SelectValue ι)}
    (ht : t ∈ esvs.flatMap fun esv => G.exprReads esv.expr) (hm : t ≠ G.modulesSym) (hσ : I σ) :
    ((calcValDep G calcSym s i esvs σ).sym t).flagValid := by
  induction esvs generalizing σ i with
  | nil => cases ht
  | cons esv esvs ih =>
    rw [List.flatMap_cons] at ht
    rw [calcValDep]
    rcases List.mem_append.mp ht with ht | ht
    · exact calcValDep_preserves (fun hf => valid_modify fun st hst => by rwa [hf.flagValid])
        (hmono t) (valid_modify (fun _ => id) (exprCalc_consults hcalc hvalid hmono ht hm hσ))
    · exact ih ht (hcache (setCache_cacheUpdate (.valDep i) _) (exprCalc_preserves hcalc hσ))

/-- Once the visibility of a symbol has been calculated, what it reads has been evaluated. -/
theorem symCalcVisibility_consults (ht : t ∈ G.visReads s) (hm : t ≠ G.modulesSym) (hσ : I σ) :
    ((symCalcVisibility G calcSym s σ).sym t).flagValid := by
  have hkeep : ∀ {f : SymState ι → SymState ι} {σ : State ι}, CacheUpdate f →
      (σ.sym t).flagValid → ((σ.modify s f).sym t).flagValid := fun hf =>
    valid_modify fun st hst => by rwa [hf.flagValid]
  rw [visReads, List.mem_append, List.mem_append, List.mem_append] at ht
  unfold symCalcVisibility
  simp only
  have h1 : I (promptsVisible G calcSym s 0 (G.symbol s).prompts .no σ).2 :=
    promptsVisible_preserves (fun hf => hcache hf.toCacheUpdate) hcalc hσ
  have v1 : t ∈ G.promptReads s → ((promptsVisible G calcSym s 0 (G.symbol s).prompts .no
      σ).2.sym t).flagValid := fun ht => promptsVisible_consults hcalc hvalid hmono hcache ht hm hσ
  generalize promptsVisible G calcSym s 0 (G.symbol s).prompts .no σ = tri1 at h1 v1 ⊢
  generalize hσ1 : tri1.2.modify s _ = σ1
  have hv1 : I σ1 ∧ (t ∈ G.promptReads s → (σ1.sym t).flagValid) := by
    subst hσ1
    exact ⟨hcache (setCache_cacheUpdate .visible _) h1,
      fun ht => hkeep (setCache_cacheUpdate .visible _) (v1 ht)⟩
  have h2 := exprCalcValue_preserves (G := G) (e := (G.symbol s).dirDep) hcalc hv1.1
  have v2 : t ∈ G.promptReads s ∨ t ∈ G.condReads (G.symbol s).dirDep →
      ((exprCalcValue G calcSym (G.symbol s).dirDep σ1).2.sym t).flagValid := by
    rintro (ht | ht)
    · exact exprCalcValue_preserves (hmono t) (hv1.2 ht)
    · exact exprCalcValue_consults hcalc hvalid hmono ht hm hv1.1
  generalize exprCalcValue G calcSym (G.symbol s).dirDep σ1 = tri2 at h2 v2 ⊢
  generalize hσ2 : tri2.2.modify s _ = σ2
  have hv2 : I σ2 ∧ (t ∈ G.promptReads s ∨ t ∈ G.condReads (G.symbol s).dirDep →
      (σ2.sym t).flagValid) := by
    subst hσ2
    exact ⟨hcache (setCache_cacheUpdate .dirDep _) h2,
      fun ht => hkeep (setCache_cacheUpdate .dirDep _) (v2 ht)⟩
  have h3 := revDepValue_preserves (G := G) (e := (G.symbol s).revDep) hcalc hv2.1
  have v3 : (t ∈ G.promptReads s ∨ t ∈ G.condReads (G.symbol s).dirDep) ∨
      t ∈ G.condReads (G.symbol s).revDep →
      ((revDepValue G calcSym (G.symbol s).revDep σ2).2.sym t).flagValid := by
    rintro (ht | ht)
    · exact revDepValue_preserves (hmono t) (hv2.2 ht)
    · exact revDepValue_consults hcalc hvalid hmono ht hm hv2.1
  generalize revDepValue G calcSym (G.symbol s).revDep σ2 = tri3 at h3 v3 ⊢
  rcases ht with ht | ht
  · exact calcValDep_preserves (fun hf => hkeep hf.toCacheUpdate) (hmono t)
      (hkeep (setCache_cacheUpdate .revDep _) (v3 ht))
  · exact calcValDep_consults hcalc hvalid hmono hcache ht hm
      (hcache (setCache_cacheUpdate .revDep _) h3)

end

/-! ### Choices of evaluated members -/

/-- But for the symbols in `P`, a member has been evaluated only together with its choice. -/
def ClosedBut (G : SymbolTable ι) (P : List ι) (σ : State ι) : Prop :=
  ∀ c, G.isChoice c → ∀ s ∈ G.members c, s ∉ P → (σ.sym s).flagValid →
    (σ.sym c).flagValid ∨ G.Hidden s

section
variable {P : List ι} {n : ℕ}

omit [DecidableEq ι] in
theorem ClosedBut.mono {τ : State ι} (h : ClosedBut G P σ)
    (hvalid : ∀ t, (σ.sym t).flagValid → (τ.sym t).flagValid)
    (hnew : ∀ t ∉ P, (τ.sym t).flagValid → (σ.sym t).flagValid) : ClosedBut G P τ :=
  fun c hc s hs hP hs' => (h c hc s hs hP (hnew s hP hs')).imp_left (hvalid c)

theorem flagValid_modify_eq {f : SymState ι → SymState ι} (hf : ∀ st, (f st).flagValid = st.flagValid)
    (t : ι) : ((σ.modify s f).sym t).flagValid = (σ.sym t).flagValid := by
  rw [State.modify_sym]
  split
  · exact hf _
  · rfl

/-- While the symbols in `P` are being evaluated, with fuel for those that are still to be. -/
def Evaluating (G : SymbolTable ι) (n : ℕ) (P : List ι) (σ : State ι) : Prop :=
  Target.pending G σ ≤ n ∧ ClosedBut G P σ

theorem Evaluating.modify (h : Evaluating G n P σ) {f : SymState ι → SymState ι}
    (hf : ∀ st, (f st).flagValid = st.flagValid) : Evaluating G n P (σ.modify s f) := by
  have heq := flagValid_modify_eq (σ := σ) (s := s) hf
  exact ⟨(Target.pending_le fun t ht => by rwa [heq]).trans h.1,
    h.2.mono (fun t ht => by rwa [heq]) fun t _ ht => by rwa [heq] at ht⟩

theorem evaluating_invariant (G : SymbolTable ι) (n : ℕ) (s : ι) (P : List ι) :
    Invariant G (· = s) (Evaluating G n (s :: P)) :=
  .of_cacheUpdate (fun hf h => h.modify hf.flagValid)
    (fun {t σ} h ht => by
      have hvalid : ∀ u, (σ.sym u).flagValid →
          ((σ.modify t fun st => { st with flagValid := true }).sym u).flagValid := fun u hu =>
        valid_modify (fun _ _ => rfl) hu
      refine ⟨(Target.pending_le hvalid).trans h.1, h.2.mono hvalid fun u hu hu' => ?_⟩
      have hut : u ≠ t := fun hut => hu (hut ▸ ht ▸ List.mem_cons_self)
      rwa [State.modify_sym_of_ne _ _ hut] at hu')
    (fun _ h _ => h.modify fun _ => rfl) fun _ h _ _ => h.modify fun _ => rfl

theorem valid_of_pending (hG : G.Finalized) (h : Target.pending G σ ≤ n) :
    ((symCalcFuel G n s σ).sym s).flagValid := by
  cases n with
  | zero =>
    by_contra hs
    have hs' : ¬(σ.sym s).flagValid := hs
    have hpos := Target.pending_pos (hG.complete s) hs'
    omega
  | succ n => exact valid_symCalcFuel n

theorem flagValid_preserves (t : ι) (n : ℕ) :
    Preserves (fun σ => (σ.sym t).flagValid) (symCalcFuel G n) :=
  (valid_invariant G t).preserves n

/-- A member that is evaluated has its choice evaluated. -/
theorem valid_choice_calcInvalid (hG : G.Finalized) (hmodules : G.isChoice G.modulesSym = false)
    (hcalc : ∀ P, Preserves (Evaluating G n P) (symCalcFuel G n)) {c : ι} (hc : G.isChoice c)
    (hs : s ∈ G.members c) (hread : c ∈ G.visReads s) (hσ : Evaluating G n P σ) :
    ((calcInvalid G (symCalcFuel G n) s σ).sym c).flagValid := by
  have hne : c ≠ G.modulesSym := by
    rintro rfl
    rw [hc] at hmodules
    cases hmodules
  have hV := (valid_invariant G c).toInvariant
  have hkeep := flagValid_preserves (G := G) c n
  have hprepare : ((prepare G (symCalcFuel G n) s noCurr σ).sym c).flagValid := by
    refine valid_modify (f := fun st => { st with curr := noCurr }) (fun _ => id) ?_
    refine symCalcVisibility_consults (hcalc P) (fun t σ h => valid_of_pending hG h.1)
      (fun t => flagValid_preserves t n) (fun hf h => h.modify hf.flagValid) hread hne ?_
    split
    · exact hσ
    · exact hσ.modify fun _ => rfl
  rw [calcInvalid_tristate (hG.memberType c s hc hs).2.1]
  exact hV.finishCalc trivial (fun _ _ _ h => h)
    (hV.storeValue hkeep trivial (hV.calcTristate hkeep trivial hprepare))

theorem evaluating_preserves (hG : G.Finalized) (hmodules : G.isChoice G.modulesSym = false)
    (hconsults : ∀ s, G.Consults s) (n : ℕ) (P : List ι) :
    Preserves (Evaluating G n P) (symCalcFuel G n) := by
  induction n generalizing P with
  | zero => exact fun _ _ h => h
  | succ n ih =>
    intro s σ hσ
    rw [symCalcFuel, symCalcStep]
    split
    · exact hσ
    next hs =>
    -- the symbol is entered, and in `P` until its choice has been evaluated
    generalize henter : (σ.modify s fun st => { st with flagValid := true }) = σ1
    have hvalid : ∀ u, (σ.sym u).flagValid → (σ1.sym u).flagValid := by
      subst henter
      exact fun u hu => valid_modify (fun _ _ => rfl) hu
    have hs1 : (σ1.sym s).flagValid := by
      rw [← henter, State.modify_sym_self]
    have hpending := Target.pending_lt hvalid (hG.complete s) hs hs1
    have h1 : Evaluating G n (s :: P) σ1 := by
      refine ⟨by have := hσ.1; omega, fun c hc t ht hP ht1 => ?_⟩
      obtain ⟨hts, hP⟩ := not_or.mp (List.mem_cons.not.mp hP)
      rw [← henter, State.modify_sym_of_ne _ _ hts] at ht1
      exact (hσ.2 c hc t ht hP ht1).imp_left (hvalid c)
    have h2 := (evaluating_invariant G n s P).calcInvalid (ih _) rfl (fun _ _ _ h => h) h1
    refine ⟨h2.1.trans (Nat.le_succ n), fun c hc t ht hP ht' => ?_⟩
    by_cases hts : t = s
    · subst hts
      obtain ⟨hvalue, hof⟩ := hG.member c t hc ht
      rcases hconsults t hvalue c hof with hread | hhidden
      · exact .inl (valid_choice_calcInvalid hG hmodules ih hc ht hread h1)
      · exact .inr hhidden
    · exact h2.2 c hc t ht (by simp [hts, hP]) ht'

theorem ClosedBut.symCalcValue (hG : G.Finalized) (hmodules : G.isChoice G.modulesSym = false)
    (hconsults : ∀ s, G.Consults s) (h : ClosedBut G P σ) : ClosedBut G P (symCalcValue G s σ) :=
  (evaluating_preserves hG hmodules hconsults _ P s σ ⟨List.length_filter_le _ _, h⟩).2

end

end
end OpenADK.Kconfig
