import OpenADK.Kconfig.Semantics

/-!
# Which symbols an equation reads

`exprReads`, `visReads` and `reads` list the symbols whose values the value of an
expression, the visibility of a symbol and the equation of a symbol depend on. A
comparison of boolean or tristate symbols also reads the `modules` symbol, and so does
whatever depends on `modules_val`.

`visible`, `dir_dep.tri`, `rev_dep.tri` and the `tri` of each `val_dep` entry are caches:
`cacheIn` says what each of them holds once `sym_calc_visibility` has been through the
symbol, and `cacheReads` what it was computed from.
-/

namespace OpenADK.Kconfig
variable {ι : Type}

/-- The fields of a symbol that `sym_calc_visibility` fills. -/
inductive Cache
  | visible
  | dirDep
  | revDep
  | valDep (i : ℕ)
  deriving DecidableEq

def SymState.cache (st : SymState ι) : Cache → Tristate
  | .visible => st.visible
  | .dirDep => st.dirDepTri
  | .revDep => st.revDepTri
  | .valDep i => st.valDepTri i

def SymState.setCache (st : SymState ι) (k : Cache) (v : Tristate) : SymState ι :=
  match k with
  | .visible => { st with visible := v }
  | .dirDep => { st with dirDepTri := v }
  | .revDep => { st with revDepTri := v }
  | .valDep i => { st with valDepTri := Function.update st.valDepTri i v }

theorem SymState.cache_setCache (st : SymState ι) (k k' : Cache) (v : Tristate) :
    (st.setCache k v).cache k' = if k' = k then v else st.cache k' := by
  cases k with
  | valDep i =>
    cases k' with
    | valDep j => simp [setCache, cache, Function.update_apply]
    | visible | dirDep | revDep => simp [setCache, cache]
  | visible | dirDep | revDep => cases k' <;> simp [setCache, cache]

/-- A change to one symbol that keeps its value and what the user set. -/
structure CacheUpdate {ι : Type} (f : SymState ι → SymState ι) : Prop where
  curr : ∀ st, (f st).curr = st.curr
  defUser : ∀ st, (f st).defUser = st.defUser
  flagValid : ∀ st, (f st).flagValid = st.flagValid
  flagDefUser : ∀ st, (f st).flagDefUser = st.flagDefUser

theorem setCache_cacheUpdate {ι : Type} (k : Cache) (v : Tristate) :
    CacheUpdate fun st : SymState ι => st.setCache k v := by
  constructor <;> intro st <;> cases k <;> rfl

namespace SymbolTable
variable (G : SymbolTable ι)

/-- Whether a comparison reads a value that `sym_get_string_value` prints by `modules`. -/
def comparesTristate (s t : ι) : Bool :=
  G.type s = .boolean || G.type s = .tristate || G.type t = .boolean || G.type t = .tristate

def exprReads : Expr ι → List ι
  | .symbol s => [s]
  | .not e => exprReads e
  | .equal s t | .unequal s t =>
    s :: t :: if G.comparesTristate s t then [G.modulesSym] else []
  | .and l r | .or l r => exprReads l ++ exprReads r

def condReads : Option (Expr ι) → List ι
  | none => []
  | some e => G.exprReads e

def modulesReads (s : ι) : List ι := if G.type s = .tristate then [G.modulesSym] else []

def promptReads (s : ι) : List ι := (G.symbol s).prompts.flatMap fun p => G.condReads p.visible

def visReads (s : ι) : List ι :=
  G.promptReads s ++ G.condReads (G.symbol s).dirDep ++ G.condReads (G.symbol s).revDep ++
    (G.symbol s).valDep.flatMap (fun esv => G.exprReads esv.expr)

def propReads (p : Property ι) : List ι :=
  match p.expr with
  | .expr e => G.exprReads e
  | .range left right => [left, right]
  | _ => []

/-- The default of a choice names a member, which the choice does not evaluate. -/
def defaultReads (s : ι) : List ι :=
  (G.symbol s).defaults.flatMap fun p =>
    G.condReads p.visible ++ if G.isChoice s then [] else G.propReads p

def rangeReads (s : ι) : List ι :=
  (G.symbol s).ranges.flatMap fun p => G.condReads p.visible ++ G.propReads p

def selectReads (s : ι) : List ι :=
  (G.symbol s).valDep.flatMap fun esv => G.exprReads esv.value

/-- A choice reads what the visibility of its members reads, apart from its own value. -/
def memberReads [DecidableEq ι] (s : ι) : List ι :=
  if G.isChoice s then
    ((G.members s).flatMap G.visReads).filter (· ≠ s) ++ (G.members s).flatMap G.modulesReads
  else []

def reads [DecidableEq ι] (s : ι) : List ι :=
  G.visReads s ++ G.modulesReads s ++ G.selectReads s ++ G.defaultReads s ++ G.rangeReads s ++
    G.memberReads s ++ if G.isChoiceValue s then (G.choiceOf s).toList else []

def cacheReads (s : ι) : Cache → List ι
  | .visible => G.promptReads s
  | .dirDep => G.condReads (G.symbol s).dirDep
  | .revDep => G.promptReads s ++ G.condReads (G.symbol s).revDep
  | .valDep i =>
    match (G.symbol s).valDep[i]? with
    | none => []
    | some esv => G.promptReads s ++ G.exprReads esv.expr

def cacheIn (mv : Tristate) (env : Env ι) (s : ι) : Cache → Tristate
  | .visible => G.visibleIn mv env s
  | .dirDep => G.dirDepIn env s
  | .revDep => G.revDepIn mv env s
  | .valDep i =>
    match (G.symbol s).valDep[i]? with
    | none => .no
    | some esv => G.selectIn mv env s esv

theorem promptReads_subset_visReads (s : ι) : G.promptReads s ⊆ G.visReads s := by
  intro t ht
  simp [visReads, ht]

theorem cacheReads_subset_visReads (s : ι) (k : Cache) : G.cacheReads s k ⊆ G.visReads s := by
  intro t ht
  cases k with
  | visible => exact G.promptReads_subset_visReads s ht
  | dirDep => simp [visReads, show t ∈ G.condReads (G.symbol s).dirDep from ht]
  | revDep =>
    rcases List.mem_append.mp ht with ht | ht
    · exact G.promptReads_subset_visReads s ht
    · simp [visReads, ht]
  | valDep i =>
    cases hesv : (G.symbol s).valDep[i]? with
    | none => simp [cacheReads, hesv] at ht
    | some esv =>
      rw [cacheReads, hesv] at ht
      rcases List.mem_append.mp ht with ht | ht
      · exact G.promptReads_subset_visReads s ht
      · have hmem : esv ∈ (G.symbol s).valDep := List.mem_of_getElem? hesv
        simp only [visReads, List.mem_append, List.mem_flatMap]
        exact .inr ⟨esv, hmem, ht⟩

section
variable [DecidableEq ι] (s : ι)

theorem visReads_subset_reads : G.visReads s ⊆ G.reads s := by
  intro t ht
  simp [reads, ht]

theorem modulesReads_subset_reads : G.modulesReads s ⊆ G.reads s := by
  intro t ht
  simp [reads, ht]

theorem selectReads_subset_reads : G.selectReads s ⊆ G.reads s := by
  intro t ht
  simp [reads, ht]

theorem defaultReads_subset_reads : G.defaultReads s ⊆ G.reads s := by
  intro t ht
  simp [reads, ht]

theorem rangeReads_subset_reads : G.rangeReads s ⊆ G.reads s := by
  intro t ht
  simp [reads, ht]

theorem memberReads_subset_reads : G.memberReads s ⊆ G.reads s := by
  intro t ht
  simp [reads, ht]

theorem choiceOf_mem_reads {c : ι} (hv : G.isChoiceValue s = true) (hc : G.choiceOf s = some c) :
    c ∈ G.reads s := by
  simp [reads, hv, hc]

end

/-! ### Equations depend on their reads only -/

section
variable {G} {mv mv' : Tristate} {env env' : Env ι}

theorem stringIn_congr {s : ι} (hs : env s = env' s)
    (hm : G.type s = .boolean ∨ G.type s = .tristate → env G.modulesSym = env' G.modulesSym) :
    G.stringIn env s = G.stringIn env' s := by
  unfold stringIn
  split
  · next ht => rw [hs, hm (.inl ht)]
  · next ht => rw [hs, hm (.inr ht)]
  · rw [hs]

theorem comparedStrings_congr {s t : ι}
    (h : ∀ u ∈ s :: t :: if G.comparesTristate s t then [G.modulesSym] else [], env u = env' u) :
    G.stringIn env s = G.stringIn env' s ∧ G.stringIn env t = G.stringIn env' t := by
  have hm : G.comparesTristate s t = true → env G.modulesSym = env' G.modulesSym :=
    fun hc => h _ (by simp [hc])
  constructor
  · exact stringIn_congr (h s (by simp)) fun ht => hm (by
      rcases ht with ht | ht <;> simp [comparesTristate, ht])
  · exact stringIn_congr (h t (by simp)) fun ht => hm (by
      rcases ht with ht | ht <;> simp [comparesTristate, ht])

theorem exprIn_congr {e : Expr ι} (h : ∀ t ∈ G.exprReads e, env t = env' t) :
    G.exprIn env e = G.exprIn env' e := by
  induction e with
  | symbol s => rw [exprIn, exprIn, h s (by simp [exprReads])]
  | not e ih => rw [exprIn, exprIn, ih h]
  | equal s t =>
    obtain ⟨h1, h2⟩ := comparedStrings_congr h
    rw [exprIn, exprIn, h1, h2]
  | unequal s t =>
    obtain ⟨h1, h2⟩ := comparedStrings_congr h
    rw [exprIn, exprIn, h1, h2]
  | and l r ihl ihr =>
    rw [exprIn, exprIn, ihl fun t ht => h t (by simp [exprReads, ht]),
      ihr fun t ht => h t (by simp [exprReads, ht])]
  | or l r ihl ihr =>
    rw [exprIn, exprIn, ihl fun t ht => h t (by simp [exprReads, ht]),
      ihr fun t ht => h t (by simp [exprReads, ht])]

theorem condIn_congr {e : Option (Expr ι)} (h : ∀ t ∈ G.condReads e, env t = env' t) :
    G.condIn env e = G.condIn env' e := by
  cases e with
  | none => rfl
  | some e => exact exprIn_congr h

theorem revDepValueIn_congr {e : Option (Expr ι)} (h : ∀ t ∈ G.condReads e, env t = env' t) :
    G.revDepValueIn env e = G.revDepValueIn env' e := by
  cases e with
  | none => rfl
  | some e => exact exprIn_congr h

theorem promptsIn_congr {props : List (Property ι)} {tri : Tristate}
    (h : ∀ t ∈ props.flatMap fun p => G.condReads p.visible, env t = env' t) :
    G.promptsIn env props tri = G.promptsIn env' props tri := by
  induction props generalizing tri with
  | nil => rfl
  | cons p props ih =>
    rw [promptsIn, promptsIn, condIn_congr fun t ht => h t (by simp [ht]),
      ih fun t ht => h t (List.mem_flatMap.mpr ?_)]
    obtain ⟨q, hq, ht⟩ := List.mem_flatMap.mp ht
    exact ⟨q, List.mem_cons_of_mem _ hq, ht⟩

theorem firstIn_congr {props : List (Property ι)}
    (h : ∀ t ∈ props.flatMap fun p => G.condReads p.visible, env t = env' t) :
    G.firstIn env props = G.firstIn env' props := by
  induction props with
  | nil => rfl
  | cons p props ih =>
    rw [firstIn, firstIn, condIn_congr fun t ht => h t (by simp [ht]),
      ih fun t ht => h t (List.mem_flatMap.mpr ?_)]
    obtain ⟨q, hq, ht⟩ := List.mem_flatMap.mp ht
    exact ⟨q, List.mem_cons_of_mem _ hq, ht⟩

theorem firstIn_mem {props : List (Property ι)} {p : Property ι × Tristate}
    (h : G.firstIn env props = some p) : p.1 ∈ props := by
  induction props with
  | nil => cases h
  | cons q props ih =>
    rw [firstIn] at h
    split at h
    · cases h
      exact List.mem_cons_self
    · exact List.mem_cons_of_mem _ (ih h)

theorem typeIn_congr {s : ι} (visible : Tristate) (hm : G.type s = .tristate → mv = mv') :
    G.typeIn mv visible s = G.typeIn mv' visible s := by
  by_cases ht : G.type s = .tristate
  · rw [hm ht]
  · simp only [typeIn, if_neg ht]

theorem roundIn_congr {s : ι} (visible tri : Tristate) (hm : G.type s = .tristate → mv = mv') :
    G.roundIn mv visible s tri = G.roundIn mv' visible s tri := by
  rw [roundIn, roundIn, typeIn_congr visible hm]

theorem visibleIn_congr {s : ι} (hm : G.type s = .tristate → mv = mv')
    (h : ∀ t ∈ G.promptReads s, env t = env' t) :
    G.visibleIn mv env s = G.visibleIn mv' env' s := by
  rw [visibleIn, visibleIn, promptsIn_congr h]
  by_cases ht : G.type s = .tristate
  · rw [hm ht]
  · simp only [ne_eq, ht, not_false_eq_true, true_or, and_true]

theorem cacheIn_congr {s : ι} (k : Cache) (hm : G.type s = .tristate → mv = mv')
    (h : ∀ t ∈ G.cacheReads s k, env t = env' t) :
    G.cacheIn mv env s k = G.cacheIn mv' env' s k := by
  cases k with
  | visible => exact visibleIn_congr hm h
  | dirDep =>
    simp only [cacheIn, dirDepIn]
    rw [condIn_congr h]
  | revDep =>
    simp only [cacheIn, revDepIn, roundIn_congr _ _ hm,
      visibleIn_congr hm fun t ht => h t (List.mem_append_left _ ht),
      revDepValueIn_congr fun t ht => h t (List.mem_append_right _ ht)]
  | valDep i =>
    simp only [cacheIn]
    cases hesv : (G.symbol s).valDep[i]? with
    | none => rfl
    | some esv =>
      have hr : G.cacheReads s (.valDep i) = G.promptReads s ++ G.exprReads esv.expr := by
        simp only [cacheReads, hesv]
      rw [hr] at h
      simp only [selectIn, roundIn_congr _ _ hm,
        visibleIn_congr hm fun t ht => h t (List.mem_append_left _ ht)]
      rw [exprIn_congr fun t ht => h t (List.mem_append_right _ ht)]

theorem visReads_congr {s : ι} (hm : G.type s = .tristate → mv = mv')
    (h : ∀ t ∈ G.visReads s, env t = env' t) (k : Cache) :
    G.cacheIn mv env s k = G.cacheIn mv' env' s k :=
  cacheIn_congr k hm fun t ht => h t (G.cacheReads_subset_visReads s k ht)

theorem revDepIn_congr {s : ι} (hm : G.type s = .tristate → mv = mv')
    (h : ∀ t ∈ G.visReads s, env t = env' t) : G.revDepIn mv env s = G.revDepIn mv' env' s :=
  visReads_congr hm h .revDep

theorem activeIn_congr {s : ι} (hm : G.type s = .tristate → mv = mv')
    (h : ∀ t ∈ G.visReads s, env t = env' t) : G.activeIn mv env s = G.activeIn mv' env' s := by
  unfold activeIn
  apply List.filter_congr
  intro esv hesv
  obtain ⟨i, hi⟩ := List.mem_iff_getElem?.mp hesv
  have hk := visReads_congr hm h (.valDep i)
  simp only [cacheIn, hi] at hk
  rw [hk]

theorem orValuesIn_congr {esvs : List (SelectValue ι)} {tri : Tristate}
    (h : ∀ esv ∈ esvs, ∀ t ∈ G.exprReads esv.value, env t = env' t) :
    G.orValuesIn env esvs tri = G.orValuesIn env' esvs tri := by
  unfold orValuesIn
  induction esvs generalizing tri with
  | nil => rfl
  | cons esv esvs ih =>
    rw [List.foldl_cons, List.foldl_cons, exprIn_congr (h esv List.mem_cons_self)]
    exact ih fun e he => h e (List.mem_cons_of_mem _ he)

theorem defaultIn_congr {s : ι} (h : ∀ t ∈ G.defaultReads s, env t = env' t) :
    G.defaultIn env s = G.defaultIn env' s := by
  apply firstIn_congr
  intro t ht
  obtain ⟨p, hp, ht⟩ := List.mem_flatMap.mp ht
  exact h t (List.mem_flatMap.mpr ⟨p, hp, List.mem_append_left _ ht⟩)

theorem defaultTristateIn_congr {s : ι} (hc : G.isChoice s = false)
    (h : ∀ t ∈ G.defaultReads s, env t = env' t) :
    G.defaultTristateIn env s = G.defaultTristateIn env' s := by
  rw [defaultTristateIn, defaultTristateIn, defaultIn_congr h]
  cases hd : G.defaultIn env' s with
  | none => rfl
  | some p =>
    have hp : p.1 ∈ (G.symbol s).defaults := firstIn_mem hd
    have he : ∀ t ∈ G.propReads p.1, env t = env' t := fun t ht =>
      h t (List.mem_flatMap.mpr ⟨p.1, hp, by simp [hc, ht]⟩)
    have hv : G.propValueIn env p.1 = G.propValueIn env' p.1 := by
      unfold propValueIn
      unfold propReads at he
      split
      · next e hpe =>
        rw [hpe] at he
        exact exprIn_congr he
      · rfl
    simp only [hv]

/-! #### Choices -/

/-- Of the members of a choice and of symbols without a prompt, which are never visible,
`sym_choice_default` knows the visibility; of any other it takes what it finds. -/
def Inside (G : SymbolTable ι) (c d : ι) : Prop := d ∈ G.members c ∨ (G.symbol d).prompts = []

/-- No default of a choice names a symbol with a prompt outside it. -/
def DefaultsInside (G : SymbolTable ι) (c : ι) : Prop :=
  ∀ p ∈ (G.symbol c).defaults, ∀ d, propGetSymbol p = some d → G.Inside c d

theorem visibleIn_of_no_prompts {d : ι} (h : (G.symbol d).prompts = []) :
    G.visibleIn mv env d = .no := by
  unfold visibleIn
  rw [h]
  rfl

/-- What is visible in a choice is a member of it. -/
theorem Inside.member {c d : ι} (h : G.Inside c d) (hvis : G.visibleIn mv env d ≠ .no) :
    d ∈ G.members c := h.resolve_right fun hd => hvis (visibleIn_of_no_prompts hd)

def Hides (G : SymbolTable ι) (σ : State ι) : Prop :=
  ∀ s, (G.symbol s).prompts = [] → (σ.sym s).visible = .no

def PicksMember (G : SymbolTable ι) (user : UserValue ι) (c : ι) : Prop :=
  ∀ m, user.value.val = .sym m → m ∈ G.members c

theorem visibleDefaultIn_congr {c : ι} {props : List (Property ι)}
    (hprops : ∀ p ∈ props, ∀ d, propGetSymbol p = some d → G.Inside c d)
    (hvis : ∀ m ∈ G.members c, G.visibleIn mv env m = G.visibleIn mv' env' m)
    (h : ∀ p ∈ props, G.condIn env p.visible = G.condIn env' p.visible) :
    G.visibleDefaultIn mv env props = G.visibleDefaultIn mv' env' props := by
  induction props with
  | nil => rfl
  | cons p props ih =>
    have ih := ih (fun q hq => hprops q (List.mem_cons_of_mem _ hq))
      (fun q hq => h q (List.mem_cons_of_mem _ hq))
    rw [visibleDefaultIn, visibleDefaultIn, ih]
    cases hd : propGetSymbol p with
    | none => rfl
    | some d =>
      have hd : G.visibleIn mv env d = G.visibleIn mv' env' d := by
        rcases hprops p List.mem_cons_self d hd with hm | hnone
        · exact hvis d hm
        · rw [visibleIn_of_no_prompts hnone, visibleIn_of_no_prompts hnone]
      simp only [h p List.mem_cons_self, hd]

theorem find?_congr_mem {α : Type} {l : List α} {p q : α → Bool} (h : ∀ a ∈ l, p a = q a) :
    l.find? p = l.find? q := by
  induction l with
  | nil => rfl
  | cons a l ih =>
    rw [List.find?_cons, List.find?_cons, h a List.mem_cons_self,
      ih fun b hb => h b (List.mem_cons_of_mem _ hb)]

theorem pickIn_congr {c : ι} {user : UserValue ι} (hpick : G.PicksMember user c)
    (hdef : G.DefaultsInside c)
    (hm : ∀ m ∈ G.members c, G.type m = .tristate → mv = mv')
    (hvis : ∀ m ∈ G.members c, ∀ t ∈ G.visReads m, env t = env' t)
    (hcond : ∀ p ∈ (G.symbol c).defaults, G.condIn env p.visible = G.condIn env' p.visible) :
    G.pickIn user mv env c = G.pickIn user mv' env' c := by
  have hv : ∀ m ∈ G.members c, G.visibleIn mv env m = G.visibleIn mv' env' m :=
    fun m hmem => visReads_congr (hm m hmem) (hvis m hmem) .visible
  have hr : ∀ m ∈ G.members c, G.revDepIn mv env m = G.revDepIn mv' env' m :=
    fun m hmem => revDepIn_congr (hm m hmem) (hvis m hmem)
  have huser : G.userPickIn user mv env = G.userPickIn user mv' env' := by
    unfold userPickIn
    split
    · next m hval => rw [hv m (hpick m hval)]
    · rfl
  unfold pickIn choiceDefaultIn
  rw [huser, visibleDefaultIn_congr hdef hv hcond,
    find?_congr_mem fun m hmem => by rw [hr m hmem],
    find?_congr_mem (p := fun m => decide (G.visibleIn mv env m ≠ .no)) fun m hmem => by
      rw [hv m hmem]]

section
variable [DecidableEq ι]

theorem ownTristateIn_congr {s : ι} {user : UserValue ι} (hm : G.type s = .tristate → mv = mv')
    (h : ∀ t ∈ G.reads s, env t = env' t) :
    G.ownTristateIn user mv env s = G.ownTristateIn user mv' env' s := by
  have hvis : ∀ t ∈ G.visReads s, env t = env' t := fun t ht => h t (G.visReads_subset_reads s ht)
  have hbase : G.baseIn user mv env s = G.baseIn user mv' env' s := by
    rw [baseIn, baseIn, visibleIn_congr hm fun t ht => hvis t (G.promptReads_subset_visReads s ht)]
    cases hc : G.isChoice s with
    | true => rfl
    | false => rw [defaultTristateIn_congr hc fun t ht => h t (G.defaultReads_subset_reads s ht)]
  rw [ownTristateIn, ownTristateIn, hbase, revDepIn_congr hm hvis, activeIn_congr hm hvis,
    visibleIn_congr hm fun t ht => hvis t (G.promptReads_subset_visReads s ht),
    roundIn_congr _ _ hm, orValuesIn_congr]
  intro esv hesv t ht
  have hmem : esv ∈ (G.symbol s).valDep := List.mem_of_mem_filter hesv
  exact h t (G.selectReads_subset_reads s (List.mem_flatMap.mpr ⟨esv, hmem, ht⟩))

theorem tristateIn_congr {s : ι} {user : UserValue ι} (hm : G.type s = .tristate → mv = mv')
    (h : ∀ t ∈ G.reads s, env t = env' t) :
    G.tristateIn user mv env s = G.tristateIn user mv' env' s := by
  have hv : G.visibleIn mv env s = G.visibleIn mv' env' s :=
    visibleIn_congr hm fun t ht =>
      h t (G.visReads_subset_reads s (G.promptReads_subset_visReads s ht))
  unfold tristateIn
  by_cases hf : G.followsChoice mv env s
  · have hf' : G.followsChoice mv' env' s := ⟨hf.1, hv ▸ hf.2⟩
    rw [if_pos hf, if_pos hf']
    cases hc : G.choiceOf s with
    | none => rfl
    | some c => simp only [h c (G.choiceOf_mem_reads s hf.1 hc)]
  · have hf' : ¬G.followsChoice mv' env' s := fun hf' => hf ⟨hf'.1, hv.trans hf'.2⟩
    rw [if_neg hf, if_neg hf']
    exact ownTristateIn_congr hm h

theorem memberEnv_congr {c t : ι} (tri : Tristate) (h : env t = env' t) :
    memberEnv env c tri t = memberEnv env' c tri t := by
  unfold memberEnv
  by_cases htc : t = c
  · rw [htc, Function.update_self, Function.update_self]
  · rw [Function.update_of_ne htc, Function.update_of_ne htc, h]

theorem memberEnv_agree {c m : ι} (tri : Tristate) (hc : G.isChoice c = true)
    (hmem : m ∈ G.members c) (h : ∀ t ∈ G.memberReads c, env t = env' t) :
    ∀ t ∈ G.visReads m, memberEnv env c tri t = memberEnv env' c tri t := by
  intro t ht
  unfold memberEnv
  by_cases htc : t = c
  · rw [htc, Function.update_self, Function.update_self]
  · rw [Function.update_of_ne htc, Function.update_of_ne htc]
    apply h
    simp only [memberReads, hc, if_true, List.mem_append, List.mem_filter, List.mem_flatMap]
    exact .inl ⟨⟨m, hmem, ht⟩, by simp [htc]⟩

end

theorem not_followsChoice_of_no {mv : Tristate} {env : Env ι} {s : ι}
    (hno : (env G.symbolNo).tri = .no)
    (hs : ∀ p ∈ (G.symbol s).prompts, p.visible = some (.symbol G.symbolNo)) :
    ¬G.followsChoice mv env s := by
  have hprompts : ∀ props : List (Property ι),
      (∀ p ∈ props, p.visible = some (.symbol G.symbolNo)) → G.promptsIn env props .no = .no := by
    intro props
    induction props with
    | nil => exact fun _ => rfl
    | cons p props ih =>
      intro hp
      rw [promptsIn, hp p List.mem_cons_self, condIn, exprIn, hno, Tristate.max_no]
      exact ih fun q hq => hp q (List.mem_cons_of_mem _ hq)
  intro hf
  have hv := hf.2
  rw [visibleIn, hprompts _ hs] at hv
  simp at hv

/-! #### Strings and numbers -/

theorem valueSym_mem_exprReads {e : Expr ι} {s : ι} (h : valueSym e = some s) :
    s ∈ G.exprReads e := by
  cases e with
  | symbol t => cases h; simp [exprReads]
  | equal t u => cases h; simp [exprReads]
  | unequal t u => cases h; simp [exprReads]
  | not e => cases h
  | and l r => cases h
  | or l r => cases h

theorem propGetSymbol_mem_propReads {p : Property ι} {s : ι} (h : propGetSymbol p = some s) :
    s ∈ G.propReads p := by
  unfold propGetSymbol at h
  split at h
  · next t hp =>
    cases h
    simp [propReads, hp, exprReads]
  · cases h

theorem propReads_of_propRange {p : Property ι} {bounds : ι × ι} (h : propRange p = some bounds) :
    G.propReads p = [bounds.1, bounds.2] := by
  unfold propRange at h
  split at h
  · next hp =>
    cases h
    simp only [propReads, hp]
  · cases h

theorem stringValueIn_congr [DecidableEq ι] {s : ι} {user : UserValue ι} (hc : G.isChoice s = false)
    (hm : G.type s = .tristate → mv = mv') (h : ∀ t ∈ G.reads s, env t = env' t) :
    G.stringValueIn user mv env s = G.stringValueIn user mv' env' s := by
  have hvis : ∀ t ∈ G.visReads s, env t = env' t := fun t ht => h t (G.visReads_subset_reads s ht)
  have hd : ∀ t ∈ G.defaultReads s, env t = env' t :=
    fun t ht => h t (G.defaultReads_subset_reads s ht)
  rw [stringValueIn, stringValueIn, activeIn_congr hm hvis, defaultIn_congr hd,
    visibleIn_congr hm fun t ht => hvis t (G.promptReads_subset_visReads s ht)]
  congr 1
  split
  · next ss hss =>
    obtain ⟨esv, hhead, hval⟩ := Option.bind_eq_some_iff.mp hss
    have hmem : esv ∈ (G.symbol s).valDep := List.mem_of_mem_filter (List.mem_of_mem_head? hhead)
    rw [h ss (G.selectReads_subset_reads s
      (List.mem_flatMap.mpr ⟨esv, hmem, valueSym_mem_exprReads hval⟩))]
  · split
    · next ds hds =>
      obtain ⟨p, hp, hds⟩ := Option.bind_eq_some_iff.mp hds
      have hmem : p.1 ∈ (G.symbol s).defaults := firstIn_mem hp
      rw [hd ds]
      refine List.mem_flatMap.mpr ⟨p.1, hmem, List.mem_append_right _ ?_⟩
      simpa [hc] using propGetSymbol_mem_propReads hds
    · rfl

theorem clampIn_congr {s : ι} {val : Val ι} (h : ∀ t ∈ G.rangeReads s, env t = env' t) :
    G.clampIn env s val = G.clampIn env' s val := by
  have hfirst : G.firstIn env (G.symbol s).ranges = G.firstIn env' (G.symbol s).ranges := by
    apply firstIn_congr
    intro t ht
    obtain ⟨p, hp, ht⟩ := List.mem_flatMap.mp ht
    exact h t (List.mem_flatMap.mpr ⟨p, hp, List.mem_append_left _ ht⟩)
  have hrange : ∀ base, G.rangeIn env base s = G.rangeIn env' base s := by
    intro base
    unfold rangeIn
    rw [hfirst]
    cases hb : (G.firstIn env' (G.symbol s).ranges).bind fun p => propRange p.1 with
    | none => rfl
    | some bounds =>
      obtain ⟨p, hp, hb⟩ := Option.bind_eq_some_iff.mp hb
      have hmem : p.1 ∈ (G.symbol s).ranges := firstIn_mem hp
      have hbound : ∀ t ∈ G.propReads p.1, env t = env' t := fun t ht =>
        h t (List.mem_flatMap.mpr ⟨p.1, hmem, List.mem_append_right _ ht⟩)
      rw [propReads_of_propRange hb] at hbound
      simp only [Option.map_some, boundIn, hbound bounds.1 (by simp), hbound bounds.2 (by simp)]
  unfold clampIn
  simp only [hrange]

/-! #### Whole equations -/

theorem pickIn_memberEnv_congr [DecidableEq ι] {c : ι} {user : UserValue ι} (tri : Tristate)
    (hc : G.isChoice c = true) (hpick : G.PicksMember user c) (hdef : G.DefaultsInside c)
    (hm : G.modulesSym ∈ G.reads c → mv = mv') (h : ∀ t ∈ G.reads c, env t = env' t) :
    G.pickIn user mv (memberEnv env c tri) c = G.pickIn user mv' (memberEnv env' c tri) c := by
  apply pickIn_congr hpick hdef
  · intro m hmem ht
    apply hm (G.memberReads_subset_reads c _)
    simp only [memberReads, hc, if_true, List.mem_append, List.mem_flatMap]
    exact .inr ⟨m, hmem, by simp [modulesReads, ht]⟩
  · intro m hmem
    exact memberEnv_agree tri hc hmem fun t ht => h t (G.memberReads_subset_reads c ht)
  · intro p hp
    apply condIn_congr
    intro t ht
    apply memberEnv_congr
    exact h t (G.defaultReads_subset_reads c
      (List.mem_flatMap.mpr ⟨p, hp, List.mem_append_left _ ht⟩))

/-- A symbol is well posed when its equation depends on its reads only: a choice has
defaults and a user's pick among its members, and no string or number is a choice. -/
structure WellPosed (G : SymbolTable ι) (user : UserValue ι) (s : ι) : Prop where
  defaults : G.isChoice s = true → G.DefaultsInside s
  picks : G.isChoice s = true → G.PicksMember user s
  choiceType : G.type s = .int ∨ G.type s = .hex ∨ G.type s = .string → G.isChoice s = false

theorem valueIn_congr [DecidableEq ι] {s : ι} {user : UserValue ι} (hs : G.WellPosed user s)
    (hm : G.modulesSym ∈ G.reads s → mv = mv') (h : ∀ t ∈ G.reads s, env t = env' t) :
    G.valueIn user mv env s = G.valueIn user mv' env' s := by
  have hmt : G.type s = .tristate → mv = mv' := fun ht =>
    hm (G.modulesReads_subset_reads s (by simp [modulesReads, ht]))
  have hbool : G.boolValueIn user mv env s = G.boolValueIn user mv' env' s := by
    rw [boolValueIn, boolValueIn, tristateIn_congr hmt h]
    cases hc : G.isChoice s with
    | false => simp
    | true => rw [pickIn_memberEnv_congr _ hc (hs.picks hc) (hs.defaults hc) hm h]
  have hstring : (G.isChoice s = false) →
      G.clampIn env s (G.stringValueIn user mv env s) =
        G.clampIn env' s (G.stringValueIn user mv' env' s) := fun hc => by
    rw [stringValueIn_congr hc hmt h,
      clampIn_congr fun t ht => h t (G.rangeReads_subset_reads s ht)]
  unfold valueIn
  cases ht : G.type s with
  | unknown => rfl
  | other => rfl
  | boolean => exact hbool
  | tristate => exact hbool
  | int => simp only [hstring (hs.choiceType (by simp [ht]))]
  | hex => simp only [hstring (hs.choiceType (by simp [ht]))]
  | string => simp only [hstring (hs.choiceType (by simp [ht]))]

end
end SymbolTable
end OpenADK.Kconfig
