import OpenADK.Kconfig.Traced

/-!
# Choices and their members

In a computed state a visible member follows the pick of its choice and every other member
has a value of its own, from defaults and selects.
-/

namespace OpenADK.Kconfig
open Tristate
namespace SymbolTable
variable {ι : Type}

/-! ### What the value of a choice shows to its members -/

section
variable {G : SymbolTable ι} {mv : Tristate} {env env' : Env ι}

/-- Expressions see the tristate values and the strings of the symbols. -/
theorem exprIn_eq (htri : ∀ t, (env t).tri = (env' t).tri)
    (hstring : ∀ t, G.stringIn env t = G.stringIn env' t) : G.exprIn env = G.exprIn env' := by
  funext e
  induction e with
  | symbol s => exact htri s
  | not e ih => rw [exprIn, exprIn, ih]
  | equal s t => rw [exprIn, exprIn, hstring, hstring]
  | unequal s t => rw [exprIn, exprIn, hstring, hstring]
  | and l r ihl ihr => rw [exprIn, exprIn, ihl, ihr]
  | or l r ihl ihr => rw [exprIn, exprIn, ihl, ihr]

theorem condIn_eq (h : G.exprIn env = G.exprIn env') : G.condIn env = G.condIn env' := by
  funext e
  cases e with
  | none => rfl
  | some e => exact congrFun h e

theorem visibleIn_eq (h : G.exprIn env = G.exprIn env') :
    G.visibleIn mv env = G.visibleIn mv env' := by
  have hprompts : ∀ (props : List (Property ι)) tri,
      G.promptsIn env props tri = G.promptsIn env' props tri := by
    intro props
    induction props with
    | nil => exact fun _ => rfl
    | cons p props ih =>
      intro tri
      rw [promptsIn, promptsIn, condIn_eq h, ih]
  funext s
  rw [visibleIn, visibleIn, hprompts]

theorem revDepIn_eq (h : G.exprIn env = G.exprIn env') :
    G.revDepIn mv env = G.revDepIn mv env' := by
  funext s
  rw [revDepIn, revDepIn, visibleIn_eq h]
  cases (G.symbol s).revDep with
  | none => rfl
  | some e => rw [revDepValueIn, revDepValueIn, h]

theorem choiceDefaultIn_eq (h : G.exprIn env = G.exprIn env') :
    G.choiceDefaultIn mv env = G.choiceDefaultIn mv env' := by
  have hdefaults : ∀ props : List (Property ι),
      G.visibleDefaultIn mv env props = G.visibleDefaultIn mv env' props := by
    intro props
    induction props with
    | nil => rfl
    | cons p props ih => rw [visibleDefaultIn, visibleDefaultIn, condIn_eq h, visibleIn_eq h, ih]
  funext c
  rw [choiceDefaultIn, choiceDefaultIn, hdefaults, revDepIn_eq h, visibleIn_eq h]

theorem pickIn_eq (h : G.exprIn env = G.exprIn env') (user : UserValue ι) (mv : Tristate) :
    G.pickIn user mv env = G.pickIn user mv env' := by
  funext c
  rw [pickIn, pickIn, userPickIn, userPickIn, choiceDefaultIn_eq h, visibleIn_eq h]

variable [DecidableEq ι]

/-- Of the value of a choice, expressions see the tristate value and not the pick. -/
theorem exprIn_update {c : ι} {v : Value ι} (ht : G.type c = .boolean ∨ G.type c = .tristate)
    (htri : (env c).tri = v.tri) : G.exprIn (Function.update env c v) = G.exprIn env := by
  have hsame : ∀ t, (Function.update env c v t).tri = (env t).tri := by
    intro t
    by_cases htc : t = c
    · rw [htc, Function.update_self, htri]
    · rw [Function.update_of_ne htc]
  refine exprIn_eq hsame fun t => ?_
  by_cases htc : t = c
  · rw [htc]
    unfold stringIn
    rcases ht with ht | ht <;> simp only [ht, hsame]
  · unfold stringIn
    rw [Function.update_of_ne htc, hsame]

theorem exprIn_memberEnv {c : ι} {tri : Tristate} (ht : G.type c = .boolean ∨ G.type c = .tristate)
    (htri : (env c).tri = tri) : G.exprIn (memberEnv env c tri) = G.exprIn env :=
  exprIn_update ht htri

end

/-! ### The pick -/

section
variable {G : SymbolTable ι} {mv : Tristate} {env : Env ι} {user : UserValue ι} {c m : ι}

theorem visibleDefaultIn_mem {props : List (Property ι)}
    (hprops : ∀ p ∈ props, ∀ d, propGetSymbol p = some d → G.Inside c d)
    (h : G.visibleDefaultIn mv env props = some m) : m ∈ G.members c := by
  induction props with
  | nil => cases h
  | cons p props ih =>
    have ih := ih fun q hq => hprops q (List.mem_cons_of_mem _ hq)
    rw [visibleDefaultIn] at h
    split at h
    · next d hd =>
      split at h
      · next hvis =>
        cases h
        exact (hprops p List.mem_cons_self _ hd).member hvis.2
      · exact ih h
    · exact ih h

theorem choiceDefaultIn_mem (hdef : G.DefaultsInside c)
    (h : G.choiceDefaultIn mv env c = some m) : m ∈ G.members c := by
  unfold choiceDefaultIn at h
  split at h
  · next s hs =>
    cases h
    exact List.mem_of_find?_eq_some hs
  · split at h
    · next s hs =>
      cases h
      exact visibleDefaultIn_mem hdef hs
    · exact List.mem_of_find?_eq_some h

theorem userPickIn_mem (hpick : G.PicksMember user c) (h : G.userPickIn user mv env = some m) :
    m ∈ G.members c := by
  unfold userPickIn at h
  split at h
  · next s hs =>
    split at h
    · cases h
      exact hpick _ hs
    · cases h
  · cases h

theorem pickIn_mem (hpick : G.PicksMember user c) (hdef : G.DefaultsInside c)
    (h : G.pickIn user mv env c = some m) : m ∈ G.members c := by
  unfold pickIn at h
  split at h
  · next s hs =>
    cases h
    exact userPickIn_mem hpick hs
  · exact choiceDefaultIn_mem hdef h

/-- A choice has a member that it can take: one that is visible, or that a select keeps from `n`. -/
def Pickable (G : SymbolTable ι) (mv : Tristate) (env : Env ι) (c : ι) : Prop :=
  ∃ m ∈ G.members c, G.visibleIn mv env m ≠ .no ∨ G.revDepIn mv env m ≠ .no

theorem not_visible_of_visibleDefaultIn {props : List (Property ι)}
    (hvis : ∀ m ∈ G.members c, G.visibleIn mv env m = .no)
    (hprops : ∀ p ∈ props, ∀ d, propGetSymbol p = some d → G.Inside c d) :
    G.visibleDefaultIn mv env props = none := by
  induction props with
  | nil => rfl
  | cons p props ih =>
    have ih := ih fun q hq => hprops q (List.mem_cons_of_mem _ hq)
    rw [visibleDefaultIn]
    split
    · next d hd =>
      rw [if_neg fun h => h.2 (hvis d ((hprops p List.mem_cons_self d hd).member h.2))]
      exact ih
    · exact ih

theorem pickIn_eq_none_iff (hpick : G.PicksMember user c) (hdef : G.DefaultsInside c) :
    G.pickIn user mv env c = none ↔ ¬G.Pickable mv env c := by
  constructor
  · rintro hnone ⟨m, hm, hvis⟩
    rw [pickIn] at hnone
    split at hnone
    · cases hnone
    unfold choiceDefaultIn at hnone
    split at hnone
    · cases hnone
    next hrev =>
      split at hnone
      · cases hnone
      rcases hvis with hvis | hvis
      · exact absurd hvis (by simpa using List.find?_eq_none.mp hnone m hm)
      · exact absurd hvis (by simpa using List.find?_eq_none.mp hrev m hm)
  · intro hnone
    have hvis : ∀ m ∈ G.members c, G.visibleIn mv env m = .no := by
      intro m hm
      by_contra h
      exact hnone ⟨m, hm, .inl h⟩
    have hrev : ∀ m ∈ G.members c, G.revDepIn mv env m = .no := by
      intro m hm
      by_contra h
      exact hnone ⟨m, hm, .inr h⟩
    have huser : G.userPickIn user mv env = none := by
      unfold userPickIn
      split
      · next m hm => rw [if_neg (not_not.mpr (hvis m (hpick m hm)))]
      · rfl
    have hfind : ∀ p : ι → Bool, (∀ m ∈ G.members c, ¬p m) → (G.members c).find? p = none :=
      fun p hp => List.find?_eq_none.mpr hp
    rw [pickIn, huser]
    simp only
    rw [choiceDefaultIn, hfind _ fun m hm => by simp [hrev m hm]]
    simp only
    rw [not_visible_of_visibleDefaultIn hvis hdef]
    exact hfind _ fun m hm => by simp [hvis m hm]

/-- A choice whose members cannot be picked is `n` instead of `y`. -/
theorem boolValueIn_tri [DecidableEq ι] {s : ι} : (G.boolValueIn user mv env s).tri =
    if G.isChoice s ∧ G.tristateIn user mv env s = .yes ∧
      G.pickIn user mv (memberEnv env s .yes) s = none then .no
    else G.tristateIn user mv env s := by
  unfold boolValueIn
  simp only
  split
  · next hc =>
    rw [hc.2]
    cases hp : G.pickIn user mv (memberEnv env s .yes) s with
    | none => simp [hc.1]
    | some p => simp
  · next hc => rw [if_neg fun hc' => hc ⟨hc'.1, hc'.2.1⟩]

end

section
variable [DecidableEq ι] {G : SymbolTable ι} {user : ι → UserValue ι} {σ : State ι} {c s : ι}

theorem Computed.eq (h : G.Computed user σ) (hs : s ∈ G.symbolHash) :
    envOf σ s = G.valueIn (user s) σ.modulesVal (envOf σ) s := by
  rw [h.modulesVal]
  exact h.solution.eq hs

theorem Computed.current (h : G.Computed user σ) (hs : s ∈ G.symbolHash) : G.Current user σ s :=
  h.eq hs

/-- A choice that is `y` has a pick, which its members see. -/
theorem Current.choice_yes (hG : G.Finalized) (heq : G.Current user σ c) (hc : G.isChoice c)
    (hyes : (envOf σ c).tri = .yes) :
    ∃ p, envOf σ c = ⟨.sym p, .yes⟩ ∧ G.pickIn (user c) σ.modulesVal (envOf σ) c = some p := by
  unfold Current at heq
  cases ht : G.type c with
  | unknown =>
    rw [valueIn_named (.inl ht)] at heq
    rw [heq] at hyes
    cases hyes
  | other => exact absurd ht (hG.type_ne_other c)
  | int | hex | string => simp [hG.choiceType c (by simp [ht])] at hc
  | boolean | tristate =>
    have htri : G.type c = .boolean ∨ G.type c = .tristate := by simp [ht]
    rw [valueIn_tristate htri, boolValueIn] at heq
    split at heq
    · next hcy =>
      have hpick := congrFun (pickIn_eq (exprIn_memberEnv htri hyes) (user c)
        σ.modulesVal) c
      rw [hcy.2, hpick] at heq
      cases hp : G.pickIn (user c) σ.modulesVal (envOf σ) c with
      | some p =>
        rw [hp] at heq
        exact ⟨p, heq, rfl⟩
      | none =>
        rw [hp] at heq
        rw [heq] at hyes
        cases hyes
    · next hcy =>
      rw [heq] at hyes
      exact absurd ⟨hc, hyes⟩ hcy

/-- Only a choice that is `y` points to a member. -/
theorem Current.pick_iff (hG : G.Finalized) (h : G.Current user σ c) (hc : G.isChoice c) :
    (envOf σ c).val = .sym s ↔
      (envOf σ c).tri = .yes ∧ G.pickIn (user c) σ.modulesVal (envOf σ) c = some s := by
  constructor
  · intro hval
    have hyes : (envOf σ c).tri = .yes := by
      by_contra hne
      have heq : envOf σ c = G.valueIn (user c) σ.modulesVal (envOf σ) c := h
      cases ht : G.type c with
      | unknown =>
        rw [valueIn_named (.inl ht)] at heq
        rw [heq] at hval
        cases hval
      | other => exact hG.type_ne_other c ht
      | int | hex | string => simp [hG.choiceType c (by simp [ht])] at hc
      | boolean | tristate =>
        rw [valueIn_tristate (by simp [ht]), boolValueIn] at heq
        split at heq
        · split at heq
          · rw [heq] at hne
            exact hne rfl
          · rw [heq] at hval
            cases hval
        · rw [heq] at hval
          cases hval
    obtain ⟨p, hp, hpick⟩ := h.choice_yes hG hc hyes
    rw [hp] at hval
    cases hval
    exact ⟨hyes, hpick⟩
  · rintro ⟨hyes, hpick⟩
    obtain ⟨p, hp, hpick'⟩ := h.choice_yes hG hc hyes
    rw [hpick'] at hpick
    cases hpick
    rw [hp]

end

/-! ### Select is a lower limit -/

section
variable [DecidableEq ι] {G : SymbolTable ι} {mv : Tristate} {env : Env ι}
variable {user : ι → UserValue ι} {stale : ι → Prop} {σ : State ι} {s : ι}

/-- A choice that is `y` takes `s`: the user picked it and it is visible, or no pick of the user
is visible and `s` is the first member that a select keeps from `n`. -/
def Takes (G : SymbolTable ι) (user : UserValue ι) (mv : Tristate) (env : Env ι) (c s : ι) : Prop :=
  (env c).tri = .yes ∧
    (G.userPickIn user mv env = some s ∨ G.userPickIn user mv env = none ∧
      (G.members c).find? (fun m => G.revDepIn mv env m ≠ .no) = some s)

/-- When a select of `s` is a lower limit: no choice that `s` follows prefers another member,
and `s` is not itself a choice without a member to pick. -/
structure LowerLimit (G : SymbolTable ι) (user : ι → UserValue ι) (mv : Tristate) (env : Env ι)
    (s : ι) : Prop where
  takes : G.followsChoice mv env s → ∃ c, G.choiceOf s = some c ∧ G.Takes (user c) mv env c s
  picks : G.isChoice s → G.tristateIn (user s) mv env s = .yes →
    G.pickIn (user s) mv (memberEnv env s .yes) s ≠ none

omit [DecidableEq ι] in
theorem le_orValuesIn (esvs : List (SelectValue ι)) (tri : Tristate) :
    tri ≤ G.orValuesIn env esvs tri := by
  unfold orValuesIn
  induction esvs generalizing tri with
  | nil => exact le_rfl
  | cons esv esvs ih => exact (le_max_left _ _).trans (ih _)

omit [DecidableEq ι] in
theorem le_roundIn (visible tri : Tristate) : tri ≤ G.roundIn mv visible s tri := by
  unfold roundIn
  split
  · exact le_yes tri
  · exact le_rfl

omit [DecidableEq ι] in
theorem revDepIn_le_ownTristateIn (u : UserValue ι) :
    G.revDepIn mv env s ≤ G.ownTristateIn u mv env s :=
  ((le_max_right _ _).trans (le_orValuesIn _ _)).trans (le_roundIn _ _)

theorem Current.tri_eq (h : G.Current user σ s)
    (ht : G.type s = .boolean ∨ G.type s = .tristate) :
    (envOf σ s).tri =
      if G.isChoice s ∧ G.tristateIn (user s) σ.modulesVal (envOf σ) s = .yes ∧
        G.pickIn (user s) σ.modulesVal (memberEnv (envOf σ) s .yes) s = none then .no
      else G.tristateIn (user s) σ.modulesVal (envOf σ) s := by
  rw [← boolValueIn_tri, ← valueIn_tristate ht, ← show envOf σ s = _ from h]

/-- A choice points to a selected member just when it takes it. -/
theorem Current.takes_iff (hG : G.Finalized) {c : ι} (h : G.Current user σ c) (hc : G.isChoice c)
    (hmem : s ∈ G.members c) (hsel : G.revDepIn σ.modulesVal (envOf σ) s ≠ .no) :
    (envOf σ c).val = .sym s ↔ G.Takes (user c) σ.modulesVal (envOf σ) c s := by
  rw [h.pick_iff hG hc, Takes]
  refine and_congr_right fun _ => ?_
  unfold pickIn
  cases G.userPickIn (user c) σ.modulesVal (envOf σ) with
  | some p => simp
  | none =>
    simp only [reduceCtorEq, true_and, false_or]
    unfold choiceDefaultIn
    cases hfind : (G.members c).find? fun m => G.revDepIn σ.modulesVal (envOf σ) m ≠ .no with
    | some p => rfl
    | none =>
      have hnone := List.find?_eq_none.mp hfind s hmem
      simp [hsel] at hnone

/-- In a computed state a selected symbol that is not stale, like its choice, has at least the
value of its reverse dependencies just when no choice that it follows prefers another member. -/
theorem revDepIn_le_iff (hG : G.Finalized) (hsafe : G.Stratified) (hσ : G.Traced user stale σ)
    (hall : ∀ t, (σ.sym t).flagValid) (hs : s ∈ G.symbolHash) (hst : ¬stale s)
    (hstc : ∀ c, G.isChoiceValue s → G.choiceOf s = some c → ¬stale c)
    (ht : G.type s = .boolean ∨ G.type s = .tristate) :
    G.revDepIn σ.modulesVal (envOf σ) s ≤ (envOf σ s).tri ↔
      (G.revDepIn σ.modulesVal (envOf σ) s ≠ .no →
        G.LowerLimit user σ.modulesVal (envOf σ) s) := by
  have htracks := hσ.tracks hG hsafe
  have h := htracks.current hall hs hst
  by_cases hsel : G.revDepIn σ.modulesVal (envOf σ) s = .no
  · simp [hsel]
  have htakes : G.followsChoice σ.modulesVal (envOf σ) s →
      (G.tristateIn (user s) σ.modulesVal (envOf σ) s ≠ .no ↔
        ∃ c, G.choiceOf s = some c ∧ G.Takes (user c) σ.modulesVal (envOf σ) c s) := by
    intro hf
    rw [tristateIn, if_pos hf]
    cases hc : G.choiceOf s with
    | none => simp
    | some c =>
      obtain ⟨hmem, hchoice⟩ := hG.memberOf s c hf.1 hc
      have hcur := htracks.current hall (hG.choice_mem c hchoice) (hstc c hf.1 hc)
      simp [← hcur.takes_iff hG hchoice hmem hsel]
  have hyes : G.followsChoice σ.modulesVal (envOf σ) s →
      G.tristateIn (user s) σ.modulesVal (envOf σ) s ≠ .no →
      G.tristateIn (user s) σ.modulesVal (envOf σ) s = .yes := by
    intro hf hne
    rw [tristateIn, if_pos hf] at hne ⊢
    cases hc : G.choiceOf s with
    | none => simp [hc] at hne
    | some c =>
      rw [hc] at hne
      simp only at hne ⊢
      split at hne
      · next hval => rw [if_pos hval]
      · exact absurd rfl hne
  rw [h.tri_eq ht]
  constructor
  · intro hle _
    have hne : ∀ tri, G.revDepIn σ.modulesVal (envOf σ) s ≤ tri → tri ≠ .no := by
      rintro tri hle rfl
      exact hsel (le_no_iff.mp hle)
    split at hle
    · exact absurd rfl (hne _ hle)
    · next hc =>
      exact ⟨fun hf => (htakes hf).mp (hne _ hle), fun hchoice htri hp => hc ⟨hchoice, htri, hp⟩⟩
  · intro hlimit
    have hlimit := hlimit hsel
    rw [if_neg fun hc => hlimit.picks hc.1 hc.2.1 hc.2.2]
    by_cases hf : G.followsChoice σ.modulesVal (envOf σ) s
    · rw [hyes hf ((htakes hf).mpr (hlimit.takes hf))]
      exact le_yes _
    · rw [tristateIn, if_neg hf]
      exact revDepIn_le_ownTristateIn _

/-! ### Exclusivity -/

/-- What asks for a value of `m`: its reverse dependencies, an active value-select, the user as far
as `m` is visible, or else the first visible default. -/
inductive Asks (G : SymbolTable ι) (user : UserValue ι) (mv : Tristate) (env : Env ι) (m : ι) :
    Tristate → Prop
  | revDep : Asks G user mv env m (G.revDepIn mv env m)
  | select {esv : SelectValue ι} (hesv : esv ∈ G.activeIn mv env m) :
    Asks G user mv env m (G.exprIn env esv.value)
  | user (hvis : G.visibleIn mv env m ≠ .no) (hhas : user.has) :
    Asks G user mv env m (min user.value.tri (G.visibleIn mv env m))
  | default {p : Property ι} {cond : Tristate} (huser : G.visibleIn mv env m ≠ .no → ¬user.has)
    (hp : G.defaultIn env m = some (p, cond)) :
    Asks G user mv env m (min (G.propValueIn env p) cond)

/-- A member that is not visible as `y` and that something asks to be `y`, or `m` where that counts
as `y`. -/
def Forced (G : SymbolTable ι) (user : ι → UserValue ι) (mv : Tristate) (env : Env ι) (m : ι) : Prop :=
  G.visibleIn mv env m ≠ .yes ∧
    ∃ tri, G.Asks (user m) mv env m tri ∧ G.roundIn mv (G.visibleIn mv env m) m tri = .yes

/-- The member that a choice goes for: the user's pick if it is visible, else the first selected
member, else the first visible default, else the first visible member. -/
inductive Prefers (G : SymbolTable ι) (user : UserValue ι) (mv : Tristate) (env : Env ι) (c : ι) :
    ι → Prop
  | user {p : ι} (hval : user.value.val = .sym p) (hvis : G.visibleIn mv env p ≠ .no) :
    Prefers G user mv env c p
  | selected {p : ι} (huser : ∀ m, user.value.val = .sym m → G.visibleIn mv env m = .no)
    (hp : (G.members c).find? (fun m => G.revDepIn mv env m ≠ .no) = some p) :
    Prefers G user mv env c p
  | default {p : ι} (huser : ∀ m, user.value.val = .sym m → G.visibleIn mv env m = .no)
    (hsel : ∀ m ∈ G.members c, G.revDepIn mv env m = .no)
    (hp : G.visibleDefaultIn mv env (G.symbol c).defaults = some p) : Prefers G user mv env c p
  | visible {p : ι} (huser : ∀ m, user.value.val = .sym m → G.visibleIn mv env m = .no)
    (hsel : ∀ m ∈ G.members c, G.revDepIn mv env m = .no)
    (hdef : G.visibleDefaultIn mv env (G.symbol c).defaults = none)
    (hp : (G.members c).find? (fun m => G.visibleIn mv env m ≠ .no) = some p) :
    Prefers G user mv env c p

/-- The choice goes for a member that is visible as `y`. -/
def PrefersVisible (G : SymbolTable ι) (user : ι → UserValue ι) (mv : Tristate) (env : Env ι)
    (c : ι) : Prop :=
  ∃ p ∈ G.members c, G.Prefers (user c) mv env c p ∧ G.visibleIn mv env p = .yes

/-- When a choice is exclusive: at most one member is forced, none is beside a visible member that
the choice goes for, and a choice with a visible member has the one or the other. -/
structure Exclusive (G : SymbolTable ι) (user : ι → UserValue ι) (mv : Tristate) (env : Env ι)
    (c : ι) : Prop where
  forced : ∀ m ∈ G.members c, ∀ m' ∈ G.members c, G.Forced user mv env m → G.Forced user mv env m' →
    m = m'
  picked : G.PrefersVisible user mv env c → ∀ m ∈ G.members c, ¬G.Forced user mv env m
  visible : (∃ m ∈ G.members c, G.visibleIn mv env m ≠ .no) →
    G.PrefersVisible user mv env c ∨ ∃ m ∈ G.members c, G.Forced user mv env m

section
variable {m c p : ι} {u : UserValue ι} {visible : Tristate}

omit [DecidableEq ι] in
theorem roundIn_max_eq_yes_iff {a b : Tristate} : G.roundIn mv visible m (max a b) = .yes ↔
    G.roundIn mv visible m a = .yes ∨ G.roundIn mv visible m b = .yes := by
  unfold roundIn
  by_cases ht : G.typeIn mv visible m = .boolean
  · cases a <;> cases b <;> simp [ht]
  · cases a <;> cases b <;> simp [ht]

omit [DecidableEq ι] in
theorem roundIn_orValuesIn_eq_yes_iff {esvs : List (SelectValue ι)} {tri : Tristate} :
    G.roundIn mv visible m (G.orValuesIn env esvs tri) = .yes ↔
      G.roundIn mv visible m tri = .yes ∨
        ∃ esv ∈ esvs, G.roundIn mv visible m (G.exprIn env esv.value) = .yes := by
  unfold orValuesIn
  induction esvs generalizing tri with
  | nil => simp
  | cons esv esvs ih =>
    rw [List.foldl_cons, ih, roundIn_max_eq_yes_iff]
    simp [or_assoc]

omit [DecidableEq ι] in
theorem roundIn_baseIn_eq_yes_iff (hc : G.isChoice m = false) :
    G.roundIn mv visible m (G.baseIn u mv env m) = .yes ↔
      ∃ tri, ((G.visibleIn mv env m ≠ .no ∧ u.has ∧ tri = min u.value.tri (G.visibleIn mv env m)) ∨
        ((G.visibleIn mv env m ≠ .no → ¬u.has) ∧ ∃ p cond, G.defaultIn env m = some (p, cond) ∧
          tri = min (G.propValueIn env p) cond)) ∧ G.roundIn mv visible m tri = .yes := by
  unfold baseIn
  by_cases hu : G.visibleIn mv env m ≠ .no ∧ u.has
  · rw [if_pos hu]
    constructor
    · intro h
      exact ⟨_, .inl ⟨hu.1, hu.2, rfl⟩, h⟩
    · rintro ⟨tri, ⟨-, -, rfl⟩ | ⟨hnot, -⟩, h⟩
      · exact h
      · exact absurd hu.2 (hnot hu.1)
  · rw [if_neg hu, hc, if_neg Bool.false_ne_true, defaultTristateIn]
    constructor
    · intro h
      cases hp : G.defaultIn env m with
      | none =>
        rw [hp] at h
        simp [roundIn] at h
      | some p =>
        rw [hp] at h
        exact ⟨_, .inr ⟨fun hvis hhas => hu ⟨hvis, hhas⟩, p.1, p.2, rfl, rfl⟩, h⟩
    · rintro ⟨tri, ⟨hvis, hhas, -⟩ | ⟨-, p, cond, hp, rfl⟩, h⟩
      · exact absurd ⟨hvis, hhas⟩ hu
      · rw [hp]
        exact h

omit [DecidableEq ι] in
/-- A member that does not follow its choice is `y` when something asks for it. -/
theorem ownTristateIn_eq_yes_iff (hc : G.isChoice m = false) :
    G.ownTristateIn u mv env m = .yes ↔
      ∃ tri, G.Asks u mv env m tri ∧ G.roundIn mv (G.visibleIn mv env m) m tri = .yes := by
  rw [ownTristateIn, roundIn_orValuesIn_eq_yes_iff, roundIn_max_eq_yes_iff,
    roundIn_baseIn_eq_yes_iff hc]
  constructor
  · rintro ((⟨tri, ⟨hvis, hhas, rfl⟩ | ⟨hnot, p, cond, hp, rfl⟩, h⟩ | h) | ⟨esv, hesv, h⟩)
    · exact ⟨_, .user hvis hhas, h⟩
    · exact ⟨_, .default hnot hp, h⟩
    · exact ⟨_, .revDep, h⟩
    · exact ⟨_, .select hesv, h⟩
  · rintro ⟨tri, hasks, h⟩
    cases hasks with
    | revDep => exact .inl (.inr h)
    | select hesv => exact .inr ⟨_, hesv, h⟩
    | user hvis hhas => exact .inl (.inl ⟨_, .inl ⟨hvis, hhas, rfl⟩, h⟩)
    | default hnot hp => exact .inl (.inl ⟨_, .inr ⟨hnot, _, _, hp, rfl⟩, h⟩)

omit [DecidableEq ι] in
theorem userPickIn_eq_none_iff : G.userPickIn u mv env = none ↔
    ∀ m, u.value.val = .sym m → G.visibleIn mv env m = .no := by
  unfold userPickIn
  cases hval : u.value.val with
  | sym m => simp
  | null | str => simp

omit [DecidableEq ι] in
/-- `sym_calc_choice` takes the member that the choice goes for. -/
theorem pickIn_eq_some_iff : G.pickIn u mv env c = some p ↔ G.Prefers u mv env c p := by
  constructor
  · intro h
    unfold pickIn at h
    cases huser : G.userPickIn u mv env with
    | some m =>
      rw [huser] at h
      cases h
      unfold userPickIn at huser
      split at huser
      · next hval =>
        split at huser
        · next hvis =>
          cases huser
          exact .user hval hvis
        · cases huser
      · cases huser
    | none =>
      rw [huser] at h
      have huser := userPickIn_eq_none_iff.mp huser
      simp only [choiceDefaultIn] at h
      cases hsel : (G.members c).find? fun m => G.revDepIn mv env m ≠ .no with
      | some m =>
        rw [hsel] at h
        cases h
        exact .selected huser hsel
      | none =>
        rw [hsel] at h
        have hsel : ∀ m ∈ G.members c, G.revDepIn mv env m = .no := by simpa using hsel
        cases hdef : G.visibleDefaultIn mv env (G.symbol c).defaults with
        | some m =>
          rw [hdef] at h
          cases h
          exact .default huser hsel hdef
        | none =>
          rw [hdef] at h
          exact .visible huser hsel hdef h
  · intro h
    unfold pickIn
    cases h with
    | user hval hvis => simp [userPickIn, hval, hvis]
    | selected huser hp => simp only [userPickIn_eq_none_iff.mpr huser, choiceDefaultIn, hp]
    | default huser hsel hp =>
      have hsel : (G.members c).find? (fun m => G.revDepIn mv env m ≠ .no) = none := by simpa using hsel
      simp only [userPickIn_eq_none_iff.mpr huser, choiceDefaultIn, hsel, hp]
    | visible huser hsel hdef hp =>
      have hsel : (G.members c).find? (fun m => G.revDepIn mv env m ≠ .no) = none := by simpa using hsel
      simp only [userPickIn_eq_none_iff.mpr huser, choiceDefaultIn, hsel, hdef, hp]

end

/-- At most one member of the choice is `y`, and one is when some member is visible. -/
structure ChoosesOne (G : SymbolTable ι) (σ : State ι) (c : ι) : Prop where
  unique : ∀ m ∈ G.members c, ∀ m' ∈ G.members c,
    (envOf σ m).tri = .yes → (envOf σ m').tri = .yes → m = m'
  exists_yes : (∃ m ∈ G.members c, G.visibleIn σ.modulesVal (envOf σ) m ≠ .no) →
    ∃ m ∈ G.members c, (envOf σ m).tri = .yes

/-- A member of a choice that is `y` is `y` when it is visible and the choice goes for it, or when it
is forced. -/
theorem Current.member_yes_iff (hG : G.Finalized) {c m : ι} (hcc : G.Current user σ c)
    (h : G.Current user σ m) (hc : G.isChoice c) (hyes : (envOf σ c).tri = .yes)
    (hm : m ∈ G.members c) :
    (envOf σ m).tri = .yes ↔
      G.Prefers (user c) σ.modulesVal (envOf σ) c m ∧ G.visibleIn σ.modulesVal (envOf σ) m = .yes ∨
      G.Forced user σ.modulesVal (envOf σ) m := by
  obtain ⟨-, htype, hchoice⟩ := hG.memberType c m hc hm
  obtain ⟨hvalue, hcs⟩ := hG.member c m hc hm
  rw [h.tri_eq htype, if_neg fun hc' => by simp [hchoice] at hc', tristateIn, Forced,
    ← ownTristateIn_eq_yes_iff hchoice]
  by_cases hvis : G.visibleIn σ.modulesVal (envOf σ) m = .yes
  · have hval := hcc.pick_iff (s := m) hG hc
    simp only [hyes, true_and, pickIn_eq_some_iff] at hval
    rw [if_pos ⟨hvalue, hvis⟩, hcs]
    simp [hvis, hval]
  · rw [if_neg fun hf => hvis hf.2]
    simp [hvis]

/-- In a computed state a choice that is `y`, and not stale like its members, chooses one member
just when it is exclusive. -/
theorem choosesOne_iff (hG : G.Finalized) (hsafe : G.Stratified) (hσ : G.Traced user stale σ)
    (hall : ∀ t, (σ.sym t).flagValid) {c : ι} (hc : G.isChoice c) (hst : ¬stale c)
    (hstm : ∀ m ∈ G.members c, ¬stale m) (hyes : (envOf σ c).tri = .yes) :
    G.ChoosesOne σ c ↔ G.Exclusive user σ.modulesVal (envOf σ) c := by
  have htracks := hσ.tracks hG hsafe
  have hcc := htracks.current hall (hG.choice_mem c hc) hst
  have hiff : ∀ m ∈ G.members c, _ := fun m hm => hcc.member_yes_iff hG
    (htracks.current hall (hG.memberType c m hc hm).1 (hstm m hm)) hc hyes hm
  have hunique : ∀ p p', G.Prefers (user c) σ.modulesVal (envOf σ) c p →
      G.Prefers (user c) σ.modulesVal (envOf σ) c p' → p = p' := fun p p' hp hp' =>
    Option.some.inj ((pickIn_eq_some_iff.mpr hp).symm.trans (pickIn_eq_some_iff.mpr hp'))
  constructor
  · rintro ⟨hone, hsome⟩
    constructor
    · intro m hm m' hm' hforced hforced'
      exact hone m hm m' hm' ((hiff m hm).mpr (.inr hforced)) ((hiff m' hm').mpr (.inr hforced'))
    · rintro ⟨p, hmem, hp, hvis⟩ m hm hforced
      have heq := hone p hmem m hm ((hiff p hmem).mpr (.inl ⟨hp, hvis⟩))
        ((hiff m hm).mpr (.inr hforced))
      exact hforced.1 (heq ▸ hvis)
    · intro hvisible
      obtain ⟨m, hm, hmy⟩ := hsome hvisible
      rcases (hiff m hm).mp hmy with ⟨hp, hvis⟩ | hforced
      · exact .inl ⟨m, hm, hp, hvis⟩
      · exact .inr ⟨m, hm, hforced⟩
  · intro hex
    refine ⟨fun m hm m' hm' hy hy' => ?_, fun hvisible => ?_⟩
    · rcases (hiff m hm).mp hy with ⟨hp, hvis⟩ | hforced
      · rcases (hiff m' hm').mp hy' with ⟨hp', -⟩ | hforced'
        · exact hunique m m' hp hp'
        · exact absurd hforced' (hex.picked ⟨m, hm, hp, hvis⟩ m' hm')
      · rcases (hiff m' hm').mp hy' with ⟨hp', hvis'⟩ | hforced'
        · exact absurd hforced (hex.picked ⟨m', hm', hp', hvis'⟩ m hm)
        · exact hex.forced m hm m' hm' hforced hforced'
    · rcases hex.visible hvisible with ⟨p, hmem, hp, hvis⟩ | ⟨m, hm, hforced⟩
      · exact ⟨p, hmem, (hiff p hmem).mpr (.inl ⟨hp, hvis⟩)⟩
      · exact ⟨m, hm, (hiff m hm).mpr (.inr hforced)⟩

end
end SymbolTable

/-! ### A selected member -/

namespace SelectedMember

/-- The symbols of the tree
```
config X
	bool "x"
	select B
choice
	prompt "c"
config A
	bool "a"
config B
	bool "b"
	depends on !X
endchoice
```
with the choice and the constants. -/
inductive Name
  | y | m | n | x | c | a | b
  deriving DecidableEq

open Name

instance : Fintype Name := ⟨{y, m, n, x, c, a, b}, by intro s; cases s <;> decide⟩

/-- The tree, and the tree without the dependency of `B`. -/
def table (hidden : Bool) : SymbolTable Name where
  symbolYes := y
  symbolMod := m
  symbolNo := n
  symbolHash := [c, x, a, b]
  modulesSym := n
  symbol
    | y => { name := some ['y'], type := .unknown, flagConst := true }
    | m => { name := some ['m'], type := .unknown, flagConst := true }
    | n => { name := some ['n'], type := .unknown, flagConst := true }
    | x =>
      { name := some ['X']
        type := .boolean
        prop :=
          [{ type := .symbol, expr := .expr (.symbol x), menu := some 1 },
            { type := .prompt, text := some ['x'], menu := some 1 },
            { type := .select, expr := .expr (.symbol b), menu := some 1 }]
        flagOptional := true }
    | c =>
      { name := none
        type := .boolean
        prop :=
          [{ type := .choice, expr := .list [a, b], menu := some 2 },
            { type := .prompt, text := some ['c'], menu := some 2 }]
        revDep := some (.symbol m)
        flagChoice := true }
    | a =>
      { name := some ['A']
        type := .boolean
        prop :=
          [{ type := .symbol, expr := .expr (.symbol a), visible := some (.symbol c), menu := some 3 },
            { type := .prompt, text := some ['a'], visible := some (.symbol c), menu := some 3 },
            { type := .choice, expr := .expr (.symbol c), menu := some 3 }]
        dirDep := some (.symbol c)
        flagChoiceval := true
        flagOptional := true }
    | b =>
      let visible :=
        some (if hidden then .and (.symbol c) (.not (.symbol x)) else .symbol c)
      { name := some ['B']
        type := .boolean
        prop :=
          [{ type := .symbol, expr := .expr (.symbol b), visible := visible, menu := some 4 },
            { type := .prompt, text := some ['b'], visible := visible, menu := some 4 },
            { type := .choice, expr := .expr (.symbol c), menu := some 4 }]
        dirDep := visible
        revDep := some (.symbol x)
        flagChoiceval := true
        flagOptional := true }

/-- `X=y` and `A=y` -/
def pickA : Text := ['X', '=', 'y', '\n', 'A', '=', 'y', '\n']

/-- `X=y` and `B=y` -/
def pickB : Text := ['X', '=', 'y', '\n', 'B', '=', 'y', '\n']

theorem finalized (hidden : Bool) : (table hidden).Finalized := by cases hidden <;> decide

/-- The choice comes before its members, and `X` before the choice. -/
def rank : Name → ℕ
  | x => 1
  | c => 2
  | a | b => 3
  | _ => 0

theorem rank_lt_of_mem_reads :
    ∀ hidden t s, t ∈ (table hidden).reads s → rank t < rank s := by decide

theorem consults_choice : ∀ hidden s t, (table hidden).isChoiceValue s →
    (table hidden).choiceOf s = some t → t ∈ (table hidden).visReads s := by decide

theorem stratified (hidden : Bool) : (table hidden).Stratified where
  acyclic := Ranking.acyclic_of_rank rank (rank_lt_of_mem_reads hidden)
  defaults s hs := by
    cases s <;> simp [SymbolTable.isChoice, table] at hs
    intro p hp
    cases hp
  consults s hs t ht := .inl (consults_choice hidden s t hs ht)

def state (hidden : Bool) (file : Text) : State Name :=
  symCalcList (table hidden) [c, x, a, b] (symCalcValue (table hidden) n
    (loadFile (table hidden) file { (table hidden).initial with changeCount := 0 }).state)

def user (hidden : Bool) (file : Text) : Name → UserValue Name :=
  SymbolTable.userIn (loadFile (table hidden) file { (table hidden).initial with changeCount := 0 }).state

theorem evaluated (hidden : Bool) (file : Text) :
    (table hidden).Evaluated (user hidden file) (state hidden file) :=
  .loaded 0 file .refl fun s hs => by
    rw [(finalized hidden).allSymbols] at hs
    exact hs

theorem traced (hidden : Bool) (file : Text) :
    (table hidden).Traced (user hidden file) (fun _ => False) (state hidden file) :=
  (evaluated hidden file).traced (finalized hidden)

theorem valid (hidden : Bool) (file : Text) : ∀ s, ((state hidden file).sym s).flagValid :=
  ((evaluated hidden file).computed (finalized hidden) (stratified hidden)).valid

theorem not_revDepIn_le :
    ¬∀ (G : SymbolTable Name) (user : Name → UserValue Name) (σ : State Name), G.Finalized →
      G.Stratified → G.Evaluated user σ → ∀ s ∈ G.symbolHash,
        G.type s = .boolean ∨ G.type s = .tristate →
        G.revDepIn σ.modulesVal (SymbolTable.envOf σ) s ≤ (SymbolTable.envOf σ s).tri := by
  intro h
  have hle := h (table false) _ _ (finalized _) (stratified _) (evaluated _ pickA) b
    (by decide) (.inl rfl)
  exact absurd hle (by decide)

/-- The user picks `B`, which `X` selects. -/
theorem revDepIn_le_iff_pickB :
    (table false).revDepIn (state false pickB).modulesVal (SymbolTable.envOf (state false pickB)) b ≤
        (SymbolTable.envOf (state false pickB) b).tri ↔
      ((table false).revDepIn (state false pickB).modulesVal
          (SymbolTable.envOf (state false pickB)) b ≠ .no →
        (table false).LowerLimit (user false pickB) (state false pickB).modulesVal
          (SymbolTable.envOf (state false pickB)) b) :=
  SymbolTable.revDepIn_le_iff (finalized _) (stratified _) (traced _ _) (valid _ _) (by decide) not_false
    (fun _ _ _ => not_false) (.inl rfl)

theorem not_choosesOne :
    ¬∀ (G : SymbolTable Name) (user : Name → UserValue Name) (σ : State Name), G.Finalized →
      G.Stratified → G.Evaluated user σ → ∀ s, G.isChoice s → G.type s = .boolean →
        (SymbolTable.envOf σ s).tri = .yes → G.ChoosesOne σ s := by
  intro h
  have hone := h (table true) _ _ (finalized _) (stratified _) (evaluated _ pickA) c (by decide) rfl
    (by decide)
  exact absurd (hone.unique a (by decide) b (by decide) (by decide) (by decide)) (by decide)

/-- The user picks `A`, and `X` selects `B`. -/
theorem choosesOne_iff_pickA :
    (table true).ChoosesOne (state true pickA) c ↔
      (table true).Exclusive (user true pickA) (state true pickA).modulesVal
        (SymbolTable.envOf (state true pickA)) c :=
  SymbolTable.choosesOne_iff (finalized _) (stratified _) (traced _ _) (valid _ _) (by decide) not_false
    (fun _ _ => not_false) (by decide)

end SelectedMember
end OpenADK.Kconfig
