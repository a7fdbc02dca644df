import OpenADK.Kconfig.Reparent

/-!
# The entries that `menu_finalize` moves

`menu_finalize` calls itself on every entry, and it compares the conditions of two entries as they
are when it comes to the first of them. What it does afterwards leaves the prompts of both as they
were, except for a choice value that is not tristate in a choice that is.
-/

namespace OpenADK.Kconfig
namespace MenuFinalize
variable {ι : Type}

/-- The conditions of the prompts that a symbol has for an entry. -/
def shownConditions (sym : Symbol ι) (id : MenuId) : List (Option (Expr ι)) :=
  (sym.prop.filter fun prop => prop.menu = some id ∧ prop.text.isSome).map Property.visible

/-- A choice is tristate. -/
def TristateChoice (G : SymbolTable ι) : Prop := ∃ c, G.isChoice c ∧ G.type c = .tristate

/-- Nothing has been done to the prompts of a symbol for an entry, unless the symbol has become a
value of a tristate choice. -/
structure KeepsPrompt (s : ι) (id : MenuId) (p p' : Pass ι) : Prop where
  fixed : p'.table = { p.table with symbol := p'.table.symbol }
  flags : ∀ t, (p'.table.symbol t).flagConst = (p.table.symbol t).flagConst ∧
    p'.table.isChoice t = p.table.isChoice t
  type : ∀ t, p.table.type t ≠ .unknown → p'.table.type t = p.table.type t
  value : p.table.isChoiceValue s → p'.table.isChoiceValue s
  shown : p'.table.isChoiceValue s = false ∨ p.table.type s = .tristate ∨
      ¬TristateChoice p'.table →
    shownConditions (p'.table.symbol s) id = shownConditions (p.table.symbol s) id

section
variable {p p' p'' : Pass ι} {s t : ι} {id : MenuId} {m : Entry ι}

/-! ### What keeps the prompts -/

theorem KeepsPrompt.refl (s : ι) (id : MenuId) (p : Pass ι) : KeepsPrompt s id p p :=
  ⟨rfl, fun _ => ⟨rfl, rfl⟩, fun _ _ => rfl, fun h => h, fun _ => rfl⟩

theorem KeepsPrompt.tristateChoice (h : KeepsPrompt s id p p') (hp : TristateChoice p.table) :
    TristateChoice p'.table := by
  obtain ⟨c, hc, ht⟩ := hp
  refine ⟨c, by rw [(h.flags c).2, hc], ?_⟩
  rw [h.type c (by rw [ht]; exact nofun), ht]

theorem KeepsPrompt.trans (h : KeepsPrompt s id p p') (h' : KeepsPrompt s id p' p'') :
    KeepsPrompt s id p p'' where
  fixed := by rw [h'.fixed, h.fixed]
  flags t := ⟨(h'.flags t).1.trans (h.flags t).1, (h'.flags t).2.trans (h.flags t).2⟩
  type t ht := by
    have heq := h.type t ht
    rw [h'.type t (by rwa [heq]), heq]
  value hv := h'.value (h.value hv)
  shown hs := by
    have hfirst : p'.table.isChoiceValue s = false ∨ p.table.type s = .tristate ∨
        ¬TristateChoice p'.table := by
      refine hs.imp (fun hv => ?_) (Or.imp_right fun hnone hsome => hnone (h'.tristateChoice hsome))
      cases hv' : p'.table.isChoiceValue s with
      | false => rfl
      | true => rw [h'.value hv'] at hv; cases hv
    have hsecond : p''.table.isChoiceValue s = false ∨ p'.table.type s = .tristate ∨
        ¬TristateChoice p''.table := by
      refine hs.imp_right (Or.imp_left fun ht => ?_)
      rw [h.type s (by rw [ht]; exact nofun), ht]
    rw [h'.shown hsecond, h.shown hfirst]

theorem keepsPrompt_of_table (h : p'.table = p.table) : KeepsPrompt s id p p' := by
  constructor
  · rw [h]
  · rw [h]; exact fun _ => ⟨rfl, rfl⟩
  · rw [h]; exact fun _ _ => rfl
  · rw [h]; exact fun hv => hv
  · rw [h]; exact fun _ => rfl

theorem keepsPrompt_foldl {α : Type} {f : Pass ι → α → Pass ι}
    (hf : ∀ p a, KeepsPrompt s id p (f p a)) (l : List α) : KeepsPrompt s id p (l.foldl f p) := by
  induction l generalizing p with
  | nil => exact .refl s id p
  | cons a l ih => exact (hf p a).trans ih

/-- Rewriting properties that keeps the prompts for an entry. -/
theorem shownConditions_map {sym sym' : Symbol ι} {f : Property ι → Property ι}
    (hprop : sym'.prop = sym.prop.map f)
    (hf : ∀ prop, (f prop).menu = prop.menu ∧ (f prop).text = prop.text ∧
      (prop.menu = some id → (f prop).visible = prop.visible)) :
    shownConditions sym' id = shownConditions sym id := by
  unfold shownConditions
  rw [hprop]
  induction sym.prop with
  | nil => rfl
  | cons prop l ih =>
    obtain ⟨hmenu, htext, hvisible⟩ := hf prop
    rw [List.map_cons, List.filter_cons, List.filter_cons, hmenu, htext]
    split
    · next h =>
      have hid : prop.menu = some id := (of_decide_eq_true h).1
      rw [List.map_cons, List.map_cons, ih, hvisible hid]
    · exact ih

theorem promptOf_visible (G : SymbolTable ι) (hm : m.sym = some s) :
    (promptOf G m).map Property.visible = (shownConditions (G.symbol s) m.id).getLast? := by
  unfold promptOf shownConditions
  rw [hm]
  simp only
  rw [List.getLast?_map, ← List.head?_reverse, ← List.filter_reverse, List.head?_filter]

variable [DecidableEq ι]

theorem keepsPrompt_modify {f : Symbol ι → Symbol ι}
    (hflags : (f (p.table.symbol t)).flagConst = (p.table.symbol t).flagConst ∧
      (f (p.table.symbol t)).flagChoice = (p.table.symbol t).flagChoice)
    (htype : (p.table.symbol t).type ≠ .unknown →
      (f (p.table.symbol t)).type = (p.table.symbol t).type)
    (hvalue : (p.table.symbol t).flagChoiceval → (f (p.table.symbol t)).flagChoiceval)
    (hshown : (f (p.table.symbol t)).flagChoiceval = false ∨
        (p.table.symbol t).type = .tristate ∨ ¬TristateChoice (p.modify t f).table →
      shownConditions (f (p.table.symbol t)) id = shownConditions (p.table.symbol t) id) :
    KeepsPrompt s id p (p.modify t f) := by
  have hself : (p.modify t f).table.symbol t = f (p.table.symbol t) := Function.update_self ..
  have hother : ∀ u ≠ t, (p.modify t f).table.symbol u = p.table.symbol u :=
    fun u hu => Function.update_of_ne hu ..
  constructor
  · rfl
  · intro u
    rw [SymbolTable.isChoice, SymbolTable.isChoice]
    by_cases hu : u = t
    · rw [hu, hself]
      exact hflags
    · rw [hother u hu]
      exact ⟨rfl, rfl⟩
  · intro u
    rw [SymbolTable.type, SymbolTable.type]
    by_cases hu : u = t
    · rw [hu, hself]
      exact htype
    · rw [hother u hu]
      exact fun _ => rfl
  · rw [SymbolTable.isChoiceValue, SymbolTable.isChoiceValue]
    by_cases hs : s = t
    · rw [hs, hself]
      exact hvalue
    · rw [hother s hs]
      exact fun h => h
  · rw [SymbolTable.type, SymbolTable.isChoiceValue]
    by_cases hs : s = t
    · rw [hs, hself]
      exact hshown
    · rw [hother s hs]
      exact fun _ => rfl

theorem tristateChoice_modify {f : Symbol ι → Symbol ι}
    (hf : ∀ sym, (f sym).flagChoice = sym.flagChoice ∧ (f sym).type = sym.type)
    (h : TristateChoice p.table) : TristateChoice (p.modify t f).table := by
  obtain ⟨c, hc, htype⟩ := h
  have hsym : ∀ u, ((p.modify t f).table.symbol u).flagChoice = (p.table.symbol u).flagChoice ∧
      ((p.modify t f).table.symbol u).type = (p.table.symbol u).type := by
    intro u
    by_cases hu : u = t
    · rw [hu, show (p.modify t f).table.symbol t = _ from Function.update_self ..]
      exact hf _
    · rw [show (p.modify t f).table.symbol u = _ from Function.update_of_ne hu ..]
      exact ⟨rfl, rfl⟩
  exact ⟨c, (hsym c).1.trans hc, (hsym c).2.trans htype⟩

/-- Changes that leave the properties, the type and the flags alone. -/
theorem keepsPrompt_modify_of_same {f : Symbol ι → Symbol ι}
    (hf : ∀ sym, (f sym).prop = sym.prop ∧ (f sym).type = sym.type ∧
      (f sym).flagChoiceval = sym.flagChoiceval ∧ (f sym).flagConst = sym.flagConst ∧
      (f sym).flagChoice = sym.flagChoice) : KeepsPrompt s id p (p.modify t f) := by
  obtain ⟨hprop, htype, hvalue, hflags⟩ := hf (p.table.symbol t)
  refine keepsPrompt_modify hflags (fun _ => htype) (by rw [hvalue]; exact fun h => h) ?_
  intro _
  rw [shownConditions, hprop, shownConditions]

theorem keepsPrompt_menuSetType (type : SymType) (t : ι) :
    KeepsPrompt s id p (menuSetType type t p) := by
  unfold menuSetType
  split
  · next h =>
    exact keepsPrompt_modify ⟨rfl, rfl⟩ (fun ht => absurd h ht) (fun hv => hv) fun _ => rfl
  · exact .refl s id p

theorem keepsPrompt_setTypes (node : Node ι) : KeepsPrompt s id p (setTypes node p) := by
  unfold setTypes
  split
  swap
  · exact .refl s id p
  split
  swap
  · exact .refl s id p
  unfold setChoiceTypes
  extract_lets typed p1
  have htyped : KeepsPrompt s id p p1 := by
    unfold p1
    clear p1
    clear_value typed
    cases typed with
    | none => exact .refl s id p
    | some type => exact keepsPrompt_menuSetType _ _
  refine htyped.trans (keepsPrompt_foldl (fun p m => ?_) _)
  split
  · exact keepsPrompt_menuSetType _ _
  · exact .refl s id p

theorem keepsPrompt_finalizeSelect (t : ι) (prop : Property ι) :
    KeepsPrompt s id p (finalizeSelect t prop p) := by
  unfold finalizeSelect
  split
  · exact .refl s id p
  · simp only
    split
    · exact keepsPrompt_modify_of_same fun _ => ⟨rfl, rfl, rfl, rfl, rfl⟩
    · exact keepsPrompt_modify_of_same fun _ => ⟨rfl, rfl, rfl, rfl, rfl⟩

theorem keepsPrompt_limitRevDep (m : Entry ι) : KeepsPrompt s id p (limitRevDep m p) := by
  unfold limitRevDep
  split
  · split
    · exact .refl s id p
    · exact keepsPrompt_modify_of_same fun _ => ⟨rfl, rfl, rfl, rfl, rfl⟩
  · exact .refl s id p

/-- Handing a condition down to an entry concerns the prompts of that entry. -/
theorem keepsPrompt_inheritDep (parentdep : Option (Expr ι)) (hm : m.id ≠ id) :
    KeepsPrompt s id p (inheritDep parentdep m p).2 := by
  unfold inheritDep
  simp only
  split
  · exact .refl s id p
  · refine KeepsPrompt.trans ?_ (keepsPrompt_foldl (fun p prop => keepsPrompt_finalizeSelect _ _) _)
    refine keepsPrompt_modify ⟨rfl, rfl⟩ (fun _ => rfl) (fun h => h) fun _ => ?_
    refine shownConditions_map rfl fun prop => ?_
    split
    · next h => exact ⟨rfl, rfl, fun hid => absurd (Option.some.inj (h.symm.trans hid)) hm⟩
    · exact ⟨rfl, rfl, fun _ => rfl⟩

/-- An entry becomes a choice value: the prompts of a tristate symbol stay. -/
theorem keepsPrompt_addChoiceValue (parent m : Entry ι) :
    KeepsPrompt s id p (addChoiceValue parent m p).2 := by
  unfold addChoiceValue
  split
  swap
  · exact .refl s id p
  split
  swap
  · exact .refl s id p
  next choice t _ _ hchoice =>
  extract_lets onlyYes boolMember p1 p2
  have hvalue : KeepsPrompt s id p p1 := by
    refine keepsPrompt_modify ⟨rfl, rfl⟩ (fun _ => rfl) (fun _ => rfl) fun hstays => ?_
    have hnot : ¬boolMember := by
      rintro ⟨hchoiceType, htype⟩
      rcases hstays with hv | ht | hnone
      · cases hv
      · exact htype ht
      · exact hnone (tristateChoice_modify (fun _ => ⟨rfl, rfl⟩) ⟨choice, hchoice.1, hchoiceType⟩)
    rw [shownConditions, shownConditions, if_neg hnot, List.filter_append]
    simp
  have hlist : KeepsPrompt s id p1 p2 := by
    refine keepsPrompt_modify ⟨rfl, rfl⟩ (fun _ => rfl) (fun h => h) fun _ => ?_
    refine shownConditions_map rfl fun prop => ?_
    split
    · exact ⟨rfl, rfl, fun _ => rfl⟩
    · exact ⟨rfl, rfl, fun _ => rfl⟩
  exact hvalue.trans hlist

theorem keepsPrompt_inheritDeps (parentdep : Option (Expr ι)) {c : Chain ι}
    (hid : id ∉ c.preorder) : KeepsPrompt s id p (inheritDeps parentdep c p).2 := by
  induction c generalizing p with
  | null => exact .refl s id p
  | menu m list next _ ih =>
    rw [Chain.preorder, List.cons_append, List.mem_cons, List.mem_append, not_or, not_or] at hid
    exact (keepsPrompt_inheritDep parentdep (Ne.symm hid.1)).trans (ih hid.2.2)

/-! ### The loops -/

/-- `finalize` keeps the prompts of all entries but those below and after the one it works on. -/
def KeepsOthers (finalize : Pass ι → Node ι → Result ι) (n : ℕ) : Prop :=
  ∀ p node out, node.preorder.length ≤ n → finalize p node = some out →
    ∀ s, ∀ id ∉ node.list.preorder ++ node.next.preorder, KeepsPrompt s id p out.1

section
variable {finalize : Pass ι → Node ι → Result ι} {n k : ℕ} {c : Chain ι} {node : Node ι}

omit [DecidableEq ι] in
/-- What is left of a chain after a call of `menu_finalize` on its head. -/
theorem next_preorder_subset {list next : Chain ι} {out : Pass ι × Node ι}
    (h : Reparents p ⟨m, list, next⟩ out) :
    out.2.next.preorder ⊆ (Chain.menu m list next).preorder ∧
      out.2.next.preorder.length < (Chain.menu m list next).preorder.length := by
  have hpre : m.id :: (out.2.list.preorder ++ out.2.next.preorder) =
      (Chain.menu m list next).preorder := h.preorder_eq
  refine ⟨fun id hid => ?_, h.length_next_lt⟩
  rw [← hpre]
  exact List.mem_cons_of_mem _ (List.mem_append_right _ hid)

omit [DecidableEq ι] in
theorem not_mem_below {list next : Chain ι} (h : id ∉ (Chain.menu m list next).preorder) :
    id ∉ list.preorder ++ next.preorder := by
  rw [Chain.preorder, List.cons_append, List.mem_cons, not_or] at h
  exact h.2

omit [DecidableEq ι] in
theorem keepsPrompt_finalizeList (hf : Finalizes finalize n) (hkeeps : KeepsOthers finalize n)
    (hn : c.preorder.length ≤ n) {out : Pass ι × Chain ι}
    (hout : finalizeList finalize k p c = some out) (hid : id ∉ c.preorder) :
    KeepsPrompt s id p out.1 := by
  induction k generalizing p c out with
  | zero =>
    cases c with
    | null => cases hout; exact .refl s id p
    | menu m list next => cases hout
  | succ k ih =>
    cases c with
    | null => cases hout; exact .refl s id p
    | menu m list next =>
      obtain ⟨first, hfirst, hbind⟩ := Option.bind_eq_some_iff.mp hout
      obtain ⟨rest, hrest, rfl⟩ := Option.map_eq_some_iff.mp hbind
      obtain ⟨first', hfirst', hspec⟩ := hf p ⟨m, list, next⟩ hn
      obtain rfl : first' = first := Option.some.inj (hfirst'.symm.trans hfirst)
      obtain ⟨hsubset, hlt⟩ := next_preorder_subset hspec
      have hafter := ih (by omega) hrest fun hmem => hid (hsubset hmem)
      exact (hkeeps p ⟨m, list, next⟩ _ hn hfirst s id (not_mem_below hid)).trans hafter

theorem keepsPrompt_moveEntries {parent : MenuId} {basedep : Expr ι} {t : ι}
    (hf : Finalizes finalize n) (hkeeps : KeepsOthers finalize n)
    (hn : c.preorder.length ≤ n) {out : Pass ι × Chain ι × Chain ι}
    (hout : moveEntries finalize parent basedep t k p c = some out) (hid : id ∉ c.preorder) :
    KeepsPrompt s id p out.1 := by
  induction k generalizing p c out with
  | zero =>
    cases c with
    | null => cases hout; exact .refl s id p
    | menu m list next => cases hout
  | succ k ih =>
    cases c with
    | null => cases hout; exact .refl s id p
    | menu m list next =>
      rw [moveEntries] at hout
      split at hout
      · obtain ⟨first, hfirst, hbind⟩ := Option.bind_eq_some_iff.mp hout
        obtain ⟨rest, hrest, rfl⟩ := Option.map_eq_some_iff.mp hbind
        obtain ⟨first', hfirst', hspec⟩ := hf p ⟨m, list, next⟩ hn
        obtain rfl : first' = first := Option.some.inj (hfirst'.symm.trans hfirst)
        obtain ⟨hsubset, hlt⟩ := next_preorder_subset hspec
        have hafter := ih (by omega) hrest fun hmem => hid (hsubset hmem)
        exact (hkeeps p ⟨m, list, next⟩ _ hn hfirst s id (not_mem_below hid)).trans hafter
      · cases hout
        exact .refl s id p

theorem keepsPrompt_finishList (parent : Entry ι) {out : Pass ι × Chain ι}
    (hout : finishList parent k p c = some out) : KeepsPrompt s id p out.1 := by
  induction k generalizing p c out with
  | zero =>
    cases c with
    | null => cases hout; exact .refl s id p
    | menu m list next => cases hout
  | succ k ih =>
    cases c with
    | null => cases hout; exact .refl s id p
    | menu m list next =>
      rw [finishList] at hout
      split at hout
      · obtain ⟨rest, hrest, rfl⟩ := Option.map_eq_some_iff.mp hout
        have hafter := ih hrest
        exact (keepsPrompt_addChoiceValue parent m).trans hafter
      · obtain ⟨rest, hrest, rfl⟩ := Option.map_eq_some_iff.mp hout
        have hafter := ih hrest
        exact (keepsPrompt_addChoiceValue parent m).trans hafter

theorem keepsPrompt_finalizeBelow (hf : Finalizes finalize n) (hkeeps : KeepsOthers finalize n)
    (hlist : node.list.preorder.length ≤ n) (hnext : node.next.preorder.length ≤ n)
    {out : Pass ι × Node ι} (hout : finalizeBelow finalize n p node = some out)
    (hid : id ∉ node.list.preorder ++ node.next.preorder) : KeepsPrompt s id p out.1 := by
  rw [List.mem_append, not_or] at hid
  unfold finalizeBelow at hout
  split at hout
  · obtain ⟨rest, hrest, rfl⟩ := Option.map_eq_some_iff.mp hout
    have hsame := sameChain_inheritDeps (p := setTypes node p)
      (parentDep (setTypes node p).table node.entry) node.list
    have hbelow := keepsPrompt_finalizeList (s := s) hf hkeeps
      (by rw [hsame.preorder]; exact hlist) hrest (by rw [hsame.preorder]; exact hid.1)
    exact (keepsPrompt_setTypes node).trans ((keepsPrompt_inheritDeps _ hid.1).trans hbelow)
  · split at hout
    · obtain ⟨rest, hrest, rfl⟩ := Option.map_eq_some_iff.mp hout
      have hmoved := keepsPrompt_moveEntries (s := s) hf hkeeps hnext hrest hid.2
      refine hmoved.trans ?_
      exact keepsPrompt_modify_of_same
        (f := fun sym => { sym with dirDep := exprAllocOr sym.dirDep node.entry.dep })
        fun _ => ⟨rfl, rfl, rfl, rfl, rfl⟩
    · cases hout
      exact .refl s id p

end

theorem menuFinalize_keepsOthers (n : ℕ) : KeepsOthers (menuFinalize (ι := ι) n) n := by
  induction n with
  | zero =>
    intro p node out _ hout
    cases hout
  | succ n ih =>
    intro p node out hn hout s id hid
    rw [Node.preorder, List.length_append, List.length_cons] at hn
    obtain ⟨below, hbelow, hbind⟩ := Option.bind_eq_some_iff.mp hout
    obtain ⟨rest, hrest, rfl⟩ := Option.map_eq_some_iff.mp hbind
    have hcalls : KeepsPrompt s id p { p with calls := p.calls ++ [node.entry.id] } :=
      keepsPrompt_of_table rfl
    have hbelow' := keepsPrompt_finalizeBelow (menuFinalize_spec n) ih (by omega) (by omega)
      hbelow hid (s := s)
    exact hcalls.trans (hbelow'.trans
      ((keepsPrompt_finishList _ hrest).trans (keepsPrompt_limitRevDep _)))

/-! ### The calls -/

/-- The calls that a loop over a chain makes: the entry after a call is the one that the call has
left there. -/
inductive CallsIn (finalize : Pass ι → Node ι → Result ι) :
    Pass ι → Chain ι → Pass ι → Node ι → Prop
  | here (p : Pass ι) (m : Entry ι) (list next : Chain ι) :
    CallsIn finalize p (.menu m list next) p ⟨m, list, next⟩
  | after {p q : Pass ι} {m : Entry ι} {list next : Chain ι} {x : Node ι} {out : Pass ι × Node ι}
    (hout : finalize p ⟨m, list, next⟩ = some out) (h : CallsIn finalize out.1 out.2.next q x) :
    CallsIn finalize p (.menu m list next) q x

/-- The entries that the loop after an entry moves under it, each with the pass that it is looked at
in. -/
inductive MovesIn (finalize : Pass ι → Node ι → Result ι) (basedep : Expr ι) (sym : ι) :
    Pass ι → Chain ι → Pass ι → Node ι → Prop
  | here {p : Pass ι} {m : Entry ι} (list next : Chain ι)
    (h : dependsOnEntry p.table basedep sym (conditionOf p.table m)) :
    MovesIn finalize basedep sym p (.menu m list next) p ⟨m, list, next⟩
  | after {p q : Pass ι} {m : Entry ι} {list next : Chain ι} {x : Node ι} {out : Pass ι × Node ι}
    (h : dependsOnEntry p.table basedep sym (conditionOf p.table m))
    (hout : finalize p ⟨m, list, next⟩ = some out)
    (hnext : MovesIn finalize basedep sym out.1 out.2.next q x) :
    MovesIn finalize basedep sym p (.menu m list next) q x

/-- The pass in which `menu_finalize` looks at an entry. -/
def started (p : Pass ι) (node : Node ι) : Pass ι :=
  { p with calls := p.calls ++ [node.entry.id] }

/-- What the loop over `parent->list` begins with. -/
def handedDown (p : Pass ι) (node : Node ι) : Chain ι × Pass ι :=
  let p := setTypes node (started p node)
  inheritDeps (parentDep p.table node.entry) node.list p

/-- The condition that the entries after an entry are compared with. -/
def baseCondition (G : SymbolTable ι) (m : Entry ι) : Expr ι :=
  comparedCondition G ((promptOf G m).bind fun prompt => prompt.visible)

/-- `menu_finalize` at one depth calls itself at another. -/
inductive Calls : ℕ → Pass ι → Node ι → ℕ → Pass ι → Node ι → Prop
  | self (n : ℕ) (p : Pass ι) (node : Node ι) : Calls n p node n p node
  | listed {n k : ℕ} {p p' q : Pass ι} {node x y : Node ι} (hlist : node.list.isMenu)
    (hin : CallsIn (menuFinalize n) (handedDown p node).2 (handedDown p node).1 p' x)
    (h : Calls n p' x k q y) : Calls (n + 1) p node k q y
  | moved {n k : ℕ} {p p' q : Pass ι} {node x y : Node ι} {s : ι}
    (hlist : node.list.isMenu = false) (hs : node.entry.sym = some s)
    (hin : MovesIn (menuFinalize n) (baseCondition p.table node.entry) s (started p node) node.next
      p' x)
    (h : Calls n p' x k q y) : Calls (n + 1) p node k q y

theorem Calls.trans {n k j : ℕ} {q : Pass ι} {node x y : Node ι} (h : Calls n p node k p' x)
    (h' : Calls k p' x j q y) : Calls n p node j q y := by
  induction h with
  | self => exact h'
  | listed hlist hin _ ih => exact .listed hlist hin (ih h')
  | moved hlist hs hin _ ih => exact .moved hlist hs hin (ih h')

section
variable {finalize : Pass ι → Node ι → Result ι} {n k : ℕ} {c : Chain ι} {x : Node ι}

/-- A call in a loop returns, and what the loop does after it concerns other entries. -/
structure Returns (finalize : Pass ι → Node ι → Result ι) (n : ℕ) (q : Pass ι) (x : Node ι)
    (p' : Pass ι) (done : List MenuId) : Prop where
  size : x.preorder.length ≤ n
  nodup : x.preorder.Nodup
  returns : ∃ out, finalize q x = some out ∧
    ∀ id ∈ x.entry.id :: out.2.list.preorder, id ∈ done ∧ ∀ s, KeepsPrompt s id out.1 p'

omit [DecidableEq ι] in
theorem nodup_next {list next : Chain ι} {out : Pass ι × Node ι}
    (h : Reparents p ⟨m, list, next⟩ out) (hnodup : (Chain.menu m list next).preorder.Nodup) :
    out.2.next.preorder.Nodup ∧
      ∀ id ∈ m.id :: out.2.list.preorder, id ∉ out.2.next.preorder := by
  have hpre : m.id :: (out.2.list.preorder ++ out.2.next.preorder) =
      (Chain.menu m list next).preorder := h.preorder_eq
  rw [← hpre, ← List.cons_append, List.nodup_append] at hnodup
  exact ⟨hnodup.2.1, fun id hid hid' => hnodup.2.2 id hid id hid' rfl⟩

omit [DecidableEq ι] in
theorem CallsIn.returns {q : Pass ι} (hf : Finalizes finalize n) (hkeeps : KeepsOthers finalize n)
    (h : CallsIn finalize p c q x) (hn : c.preorder.length ≤ n) (hnodup : c.preorder.Nodup)
    {out : Pass ι × Chain ι} (hout : finalizeList finalize k p c = some out) :
    Returns finalize n q x out.1 out.2.preorder := by
  induction h generalizing k out with
  | here p m list next =>
    cases k with
    | zero => cases hout
    | succ k =>
      obtain ⟨first, hfirst, hbind⟩ := Option.bind_eq_some_iff.mp hout
      obtain ⟨rest, hrest, rfl⟩ := Option.map_eq_some_iff.mp hbind
      obtain ⟨first', hfirst', hspec⟩ := hf p ⟨m, list, next⟩ hn
      obtain rfl : first' = first := Option.some.inj (hfirst'.symm.trans hfirst)
      obtain ⟨-, hlt⟩ := next_preorder_subset hspec
      obtain ⟨-, hapart⟩ := nodup_next hspec hnodup
      refine ⟨hn, hnodup, first', hfirst, fun id hid => ⟨?_, fun s => ?_⟩⟩
      · rw [Chain.preorder, List.mem_append, hspec.id]
        exact .inl hid
      · have hafter := keepsPrompt_finalizeList (s := s) hf hkeeps (by omega) hrest (hapart id hid)
        exact hafter
  | @after p q m list next x first hfirst h ih =>
    cases k with
    | zero => cases hout
    | succ k =>
      obtain ⟨first₁, hfirst₁, hbind⟩ := Option.bind_eq_some_iff.mp hout
      obtain rfl : first = first₁ := Option.some.inj (hfirst.symm.trans hfirst₁)
      obtain ⟨rest, hrest, rfl⟩ := Option.map_eq_some_iff.mp hbind
      obtain ⟨first', hfirst', hspec⟩ := hf p ⟨m, list, next⟩ hn
      obtain rfl : first' = first := Option.some.inj (hfirst'.symm.trans hfirst)
      obtain ⟨-, hlt⟩ := next_preorder_subset hspec
      obtain ⟨hnext, -⟩ := nodup_next hspec hnodup
      have hreturns := ih (by omega) hnext hrest
      obtain ⟨out', hout', hdone⟩ := hreturns.returns
      refine ⟨hreturns.size, hreturns.nodup, out', hout', fun id hid => ⟨?_, (hdone id hid).2⟩⟩
      rw [Chain.preorder, List.mem_append]
      exact .inr (hdone id hid).1

theorem MovesIn.returns {parent : MenuId} {basedep : Expr ι} {t : ι} {q : Pass ι}
    (hf : Finalizes finalize n) (hkeeps : KeepsOthers finalize n)
    (h : MovesIn finalize basedep t p c q x) (hn : c.preorder.length ≤ n)
    (hnodup : c.preorder.Nodup) {out : Pass ι × Chain ι × Chain ι}
    (hout : moveEntries finalize parent basedep t k p c = some out) :
    Returns finalize n q x out.1 out.2.1.preorder := by
  induction h generalizing k out with
  | @here p m list next hdep =>
    cases k with
    | zero => cases hout
    | succ k =>
      rw [moveEntries, if_pos hdep] at hout
      obtain ⟨first, hfirst, hbind⟩ := Option.bind_eq_some_iff.mp hout
      obtain ⟨rest, hrest, rfl⟩ := Option.map_eq_some_iff.mp hbind
      obtain ⟨first', hfirst', hspec⟩ := hf p ⟨m, list, next⟩ hn
      obtain rfl : first' = first := Option.some.inj (hfirst'.symm.trans hfirst)
      obtain ⟨-, hlt⟩ := next_preorder_subset hspec
      obtain ⟨-, hapart⟩ := nodup_next hspec hnodup
      refine ⟨hn, hnodup, first', hfirst, fun id hid => ⟨?_, fun s => ?_⟩⟩
      · rw [Chain.preorder, List.mem_append, hspec.id]
        exact .inl hid
      · have hafter := keepsPrompt_moveEntries (s := s) hf hkeeps (by omega) hrest (hapart id hid)
        exact hafter
  | @after p q m list next x first hdep hfirst h ih =>
    cases k with
    | zero => cases hout
    | succ k =>
      rw [moveEntries, if_pos hdep] at hout
      obtain ⟨first₁, hfirst₁, hbind⟩ := Option.bind_eq_some_iff.mp hout
      obtain rfl : first = first₁ := Option.some.inj (hfirst.symm.trans hfirst₁)
      obtain ⟨rest, hrest, rfl⟩ := Option.map_eq_some_iff.mp hbind
      obtain ⟨first', hfirst', hspec⟩ := hf p ⟨m, list, next⟩ hn
      obtain rfl : first' = first := Option.some.inj (hfirst'.symm.trans hfirst)
      obtain ⟨-, hlt⟩ := next_preorder_subset hspec
      obtain ⟨hnext, -⟩ := nodup_next hspec hnodup
      have hreturns := ih (by omega) hnext hrest
      obtain ⟨out', hout', hdone⟩ := hreturns.returns
      refine ⟨hreturns.size, hreturns.nodup, out', hout', fun id hid => ⟨?_, (hdone id hid).2⟩⟩
      rw [Chain.preorder, List.mem_append]
      exact .inr (hdone id hid).1

end

theorem preorder_of_finishList {n : ℕ} {c : Chain ι} {parent : Entry ι} {out : Pass ι × Chain ι}
    (hn : c.preorder.length ≤ n) (hout : finishList parent n p c = some out) :
    out.2.preorder = c.preorder := by
  obtain ⟨out', hout', hpreorder, -⟩ := finishList_spec (p := p) parent hn
  obtain rfl : out' = out := Option.some.inj (hout'.symm.trans hout)
  exact hpreorder

/-- What a run of `menu_finalize` leaves of an entry that it has been called on. -/
structure Finished (k : ℕ) (q : Pass ι) (x : Node ι) (p' : Pass ι) (done : List MenuId) : Prop where
  size : x.preorder.length ≤ k
  nodup : x.preorder.Nodup
  returns : ∃ out, menuFinalize k q x = some out
  mem : x.entry.id ∈ done
  keeps : ∀ s, KeepsPrompt s x.entry.id q p'

theorem Calls.finished {n k : ℕ} {q : Pass ι} {node x : Node ι} (h : Calls n p node k q x)
    (hn : node.preorder.length ≤ n) (hnodup : node.preorder.Nodup) {out : Pass ι × Node ι}
    (hout : menuFinalize n p node = some out) :
    Finished k q x out.1 (node.entry.id :: out.2.list.preorder) := by
  induction h generalizing out with
  | self n p node =>
    refine ⟨hn, hnodup, ⟨out, hout⟩, List.mem_cons_self, fun s => ?_⟩
    exact menuFinalize_keepsOthers n p node out hn hout s _ (List.nodup_cons.mp hnodup).1
  | @listed n k p p' q node x y hlist hin h ih =>
    rw [Node.preorder, List.length_append, List.length_cons] at hn
    obtain ⟨below, hbelow, hbind⟩ := Option.bind_eq_some_iff.mp hout
    obtain ⟨rest, hrest, rfl⟩ := Option.map_eq_some_iff.mp hbind
    rw [finalizeBelow, if_pos hlist] at hbelow
    obtain ⟨listed, hlisted, rfl⟩ := Option.map_eq_some_iff.mp hbelow
    have hsame : SameChain node.list (handedDown p node).1 _ (handedDown p node).2 :=
      sameChain_inheritDeps _ node.list
    have hnodup' : node.list.preorder.Nodup :=
      (List.nodup_append.mp (List.nodup_cons.mp hnodup).2).1
    have hreturns := hin.returns (menuFinalize_spec n) (menuFinalize_keepsOthers n)
      (by rw [hsame.preorder]; omega) (by rw [hsame.preorder]; exact hnodup') hlisted
    obtain ⟨first, hfirst, hdone⟩ := hreturns.returns
    have hfinished := ih hreturns.size hreturns.nodup hfirst
    obtain ⟨hmem, hafter⟩ := hdone _ hfinished.mem
    have hsize : listed.2.preorder.length ≤ n := by
      obtain ⟨listed', hlisted', hpreorder, -⟩ := finalizeList_spec (p := (handedDown p node).2)
        (menuFinalize_spec n) (k := n) (by rw [hsame.preorder]; omega)
        (by rw [hsame.preorder]; omega)
      obtain rfl : listed' = listed := Option.some.inj (hlisted'.symm.trans hlisted)
      rw [hpreorder, hsame.preorder]
      omega
    refine ⟨hfinished.size, hfinished.nodup, hfinished.returns, ?_, fun s => ?_⟩
    · rw [preorder_of_finishList hsize hrest]
      exact List.mem_cons_of_mem _ hmem
    · exact (hfinished.keeps s).trans ((hafter s).trans
        ((keepsPrompt_finishList _ hrest).trans (keepsPrompt_limitRevDep _)))
  | @moved n k p p' q node x y t hlist hs hin h ih =>
    rw [Node.preorder, List.length_append, List.length_cons] at hn
    obtain ⟨below, hbelow, hbind⟩ := Option.bind_eq_some_iff.mp hout
    obtain ⟨rest, hrest, rfl⟩ := Option.map_eq_some_iff.mp hbind
    rw [finalizeBelow, if_neg (by rw [hlist]; exact Bool.false_ne_true), hs] at hbelow
    obtain ⟨moved, hmoved, rfl⟩ := Option.map_eq_some_iff.mp hbelow
    have hnodup' : node.next.preorder.Nodup :=
      (List.nodup_append.mp (List.nodup_cons.mp hnodup).2).2.1
    have hreturns := hin.returns (menuFinalize_spec n) (menuFinalize_keepsOthers n) (by omega)
      hnodup' hmoved
    obtain ⟨first, hfirst, hdone⟩ := hreturns.returns
    have hfinished := ih hreturns.size hreturns.nodup hfirst
    obtain ⟨hmem, hafter⟩ := hdone _ hfinished.mem
    have hsize : moved.2.1.preorder.length ≤ n := by
      obtain ⟨moved', hmoved', hpreorder, -⟩ := moveEntries_spec (p := started p node) (k := n)
        node.entry.id (baseCondition p.table node.entry) t (menuFinalize_spec n) (c := node.next)
        (by omega) (by omega)
      obtain rfl : moved' = moved := Option.some.inj (hmoved'.symm.trans hmoved)
      have hlength := congrArg List.length hpreorder
      rw [List.length_append] at hlength
      omega
    refine ⟨hfinished.size, hfinished.nodup, hfinished.returns, ?_, fun s => ?_⟩
    · rw [preorder_of_finishList hsize hrest]
      exact List.mem_cons_of_mem _ hmem
    · have hdirDep : KeepsPrompt s y.entry.id moved.1 (moved.1.modify t fun sym =>
          { sym with dirDep := exprAllocOr sym.dirDep node.entry.dep }) :=
        keepsPrompt_modify_of_same fun _ => ⟨rfl, rfl, rfl, rfl, rfl⟩
      exact (hfinished.keeps s).trans ((hafter s).trans (hdirDep.trans
        ((keepsPrompt_finishList _ hrest).trans (keepsPrompt_limitRevDep _))))

/-! ### The rule for submenus -/

theorem MovesIn.keeps {n : ℕ} {c : Chain ι} {basedep : Expr ι} {t : ι} {q : Pass ι} {x : Node ι}
    (h : MovesIn (menuFinalize n) basedep t p c q x) (hn : c.preorder.length ≤ n)
    (hid : id ∉ c.preorder) : KeepsPrompt s id p q := by
  induction h with
  | @here p m list next hdep => exact .refl s id p
  | @after p q m list next x first hdep hfirst h ih =>
    obtain ⟨first', hfirst', hspec⟩ := menuFinalize_spec n p ⟨m, list, next⟩ hn
    obtain rfl : first' = first := Option.some.inj (hfirst'.symm.trans hfirst)
    obtain ⟨hsubset, hlt⟩ := next_preorder_subset hspec
    have hfirstKeeps := menuFinalize_keepsOthers n p ⟨m, list, next⟩ first' hn hfirst s id
      (not_mem_below hid)
    exact hfirstKeeps.trans (ih (by omega) fun hmem => hid (hsubset hmem))

theorem MovesIn.moves {n : ℕ} {c : Chain ι} {basedep : Expr ι} {t : ι} {q : Pass ι} {x : Node ι}
    (h : MovesIn (menuFinalize n) basedep t p c q x) :
    dependsOnEntry q.table basedep t (conditionOf q.table x.entry) := by
  induction h with
  | here list next hdep => exact hdep
  | after _ _ _ ih => exact ih

omit [DecidableEq ι] in
/-- The symbols of two tables differ in what values do not depend on. -/
structure SameTypes (G G' : SymbolTable ι) : Prop where
  fixed : G' = { G with symbol := G'.symbol }
  type : ∀ t, G'.type t = G.type t
  const : ∀ t, (G'.symbol t).flagConst = (G.symbol t).flagConst

section
variable {G G' : SymbolTable ι} {env : Env ι}

omit [DecidableEq ι]

theorem SameTypes.of_both {G'' : SymbolTable ι} (h : SameTypes G G'') (h' : SameTypes G' G'') :
    SameTypes G G' where
  fixed := by
    have hfixed := h.fixed
    have hfixed' := h'.fixed
    cases G
    cases G'
    cases G''
    simp_all
  type t := (h'.type t).symm.trans (h.type t)
  const t := (h'.const t).symm.trans (h.const t)

theorem stringIn_congr (h : SameTypes G G') (t : ι) : G'.stringIn env t = G.stringIn env t := by
  have hmodules : G'.modulesSym = G.modulesSym := by rw [h.fixed]
  rw [SymbolTable.stringIn, SymbolTable.stringIn, h.type, hmodules]

theorem exprIn_congr (h : SameTypes G G') (e : Expr ι) : G'.exprIn env e = G.exprIn env e := by
  induction e with
  | symbol t => rfl
  | not e ih => rw [SymbolTable.exprIn, ih, SymbolTable.exprIn]
  | equal t u => rw [SymbolTable.exprIn, stringIn_congr h, stringIn_congr h, SymbolTable.exprIn]
  | unequal t u => rw [SymbolTable.exprIn, stringIn_congr h, stringIn_congr h, SymbolTable.exprIn]
  | and l r ihl ihr => rw [SymbolTable.exprIn, ihl, ihr, SymbolTable.exprIn]
  | or l r ihl ihr => rw [SymbolTable.exprIn, ihl, ihr, SymbolTable.exprIn]

theorem condIn_congr (h : SameTypes G G') (e : Option (Expr ι)) :
    G'.condIn env e = G.condIn env e := by
  cases e with
  | none => rfl
  | some e => exact exprIn_congr h e

theorem exprTransCompare_congr (h : SameTypes G G') (type : Comparison) (e : Expr ι) :
    exprTransCompare G' type e = exprTransCompare G type e := by
  have hno : G'.symbolNo = G.symbolNo := by rw [h.fixed]
  induction e generalizing type with
  | symbol t => cases type <;> simp only [exprTransCompare, hno]
  | not e ih => simp only [exprTransCompare, ih]
  | equal t u => cases type <;> rfl
  | unequal t u => cases type <;> rfl
  | and l r ihl ihr => cases type <;> simp only [exprTransCompare, ihl, ihr]
  | or l r ihl ihr => cases type <;> simp only [exprTransCompare, ihl, ihr]

theorem transUnequalNo_congr (h : SameTypes G G') (e : Option (Expr ι)) :
    transUnequalNo G' e = transUnequalNo G e := by
  have hno : G'.symbolNo = G.symbolNo := by rw [h.fixed]
  cases e with
  | none => simp only [transUnequalNo, hno]
  | some e => exact exprTransCompare_congr h .unequal e

theorem isConstant_congr (h : SameTypes G G') (t : ι) : G'.IsConstant t ↔ G.IsConstant t := by
  rw [h.fixed]
  exact Iff.rfl

theorem symbolValues_congr (h : SameTypes G G') (henv : G'.SymbolValues env) :
    G.SymbolValues env where
  yes := by
    have hyes := henv.yes
    rwa [h.fixed] at hyes
  mod := by
    have hmod := henv.mod
    rwa [h.fixed] at hmod
  no := by
    have hno := henv.no
    rwa [h.fixed] at hno
  boolean t ht := henv.boolean t (by rw [h.type, ht])
  modules t ht hmod := by
    have hmodules := henv.modules t (by rw [h.type, ht]) hmod
    rwa [h.fixed] at hmodules
  constants b c hb hc heq := by
    rw [← stringIn_congr h, ← stringIn_congr h] at heq
    exact henv.constants b c (by rw [h.const]; exact hb) (by rw [h.const]; exact hc) heq
  other t hb ht hc := henv.other t (by rw [h.type]; exact hb) (by rw [h.type]; exact ht)
    (by rw [isConstant_congr h]; exact hc)

theorem untyped_congr (h : SameTypes G G') (hG : G'.Untyped) : G.Untyped := fun t ht => by
  rw [← h.type]
  exact hG t ((isConstant_congr h t).mpr ht)

theorem comparesSafely_congr (h : SameTypes G G') {visible : Option (Expr ι)} {e : Expr ι}
    (hsafe : G'.ComparesSafely visible e) : G.ComparesSafely visible e where
  dep t ht := by
    have hdep := hsafe.dep t ht
    rw [SymbolTable.TwoValuedSymbol, h.type, h.fixed] at hdep
    exact hdep
  visible v hv t ht := by
    have hvisible := hsafe.visible v hv t ht
    rw [SymbolTable.TristateSymbol, h.type, isConstant_congr h] at hvisible
    exact hvisible

end

theorem exprDependsSymbol_congr {G G' : SymbolTable ι} (h : SameTypes G G') (e : Expr ι) :
    exprDependsSymbol G' s e = exprDependsSymbol G s e := by
  have hyes : G'.symbolYes = G.symbolYes := by rw [h.fixed]
  have hmod : G'.symbolMod = G.symbolMod := by rw [h.fixed]
  have hno : G'.symbolNo = G.symbolNo := by rw [h.fixed]
  induction e with
  | symbol t => rfl
  | not e => rfl
  | equal t u => simp only [exprDependsSymbol, hyes, hmod]
  | unequal t u => simp only [exprDependsSymbol, hno]
  | and l r ihl ihr => simp only [exprDependsSymbol, ihl, ihr]
  | or l r => rfl

/-- The condition of the prompt of an entry. -/
def promptCondition (G : SymbolTable ι) (m : Entry ι) : Option (Expr ι) :=
  (promptOf G m).bind fun prompt => prompt.visible

/-- The entry is no choice value, its symbol is tristate, or no choice is: nothing is added to its
prompts once `menu_finalize` has come to it. -/
def StaysAsIs (G : SymbolTable ι) (m : Entry ι) : Prop :=
  ∀ t, m.sym = some t → G.isChoiceValue t = false ∨ G.type t = .tristate ∨ ¬TristateChoice G

omit [DecidableEq ι] in
theorem promptOf_congr (h : ∀ t, KeepsPrompt t m.id p p') (htypes : SameTypes p.table p'.table)
    (hstays : StaysAsIs p'.table m) :
    (promptOf p'.table m).map Property.visible = (promptOf p.table m).map Property.visible := by
  cases hm : m.sym with
  | none =>
    unfold promptOf
    rw [hm]
  | some t =>
    rw [promptOf_visible _ hm, promptOf_visible _ hm,
      (h t).shown ((hstays t hm).imp_right (Or.imp_left fun ht => by rw [← htypes.type, ht]))]

omit [DecidableEq ι] in
theorem conditionOf_congr {G G' : SymbolTable ι}
    (h : (promptOf G' m).map Property.visible = (promptOf G m).map Property.visible) :
    conditionOf G' m = conditionOf G m ∧ promptCondition G' m = promptCondition G m := by
  unfold conditionOf promptCondition
  cases hG' : promptOf G' m with
  | none =>
    cases hG : promptOf G m with
    | none => exact ⟨rfl, rfl⟩
    | some prompt => rw [hG', hG] at h; cases h
  | some prompt' =>
    cases hG : promptOf G m with
    | none => rw [hG', hG] at h; cases h
    | some prompt =>
      rw [hG', hG] at h
      exact ⟨Option.some.inj h, Option.some.inj h⟩

end
end MenuFinalize

namespace Submenus
open Name MenuFinalize

theorem symbolValues : table.SymbolValues env where
  yes := rfl
  mod := rfl
  no := rfl
  boolean s hs := by
    cases s <;> first | exact absurd hs (by decide) | exact show Tristate.yes ≠ .mod by decide
  modules _ _ _ := show Tristate.yes ≠ .no by decide
  constants b c hb hc h := by
    cases b <;> cases c <;>
      first
        | rfl
        | exact absurd hb (by decide)
        | exact absurd hc (by decide)
        | exact absurd h (by decide)
  other s hb ht hc := by
    cases s <;>
      first
        | exact absurd rfl hb
        | exact absurd rfl ht
        | exact absurd (.inl rfl) hc
        | exact absurd (.inr (.inl rfl)) hc
        | exact absurd (.inr (.inr rfl)) hc

/-- The symbols of
```
config P
	tristate "p" if ...
config C
	tristate "c"
```
-/
def prompts (visible : Option (Expr Name)) : SymbolTable Name :=
  { table with
    symbol := fun s => match s with
      | parent =>
        { table.symbol s with
          prop := [{ type := .prompt, text := some ['p'], visible := visible, menu := some 1 }] }
      | child =>
        { table.symbol s with prop := [{ type := .prompt, text := some ['c'], menu := some 2 }] }
      | s => table.symbol s }

/-- `rootmenu`, and below it `P` and `C`, which depends on the given condition. -/
def tree (dep : Expr Name) : Node Name :=
  ⟨{ id := 0, parent := none, sym := none },
    .menu { id := 1, parent := some 0, sym := some parent } .null
      (.menu { id := 2, parent := some 0, sym := some child, dep := some dep } .null .null), .null⟩

def run (visible : Option (Expr Name)) (dep : Expr Name) : Option (Pass Name × Node Name) :=
  menuFinalize 3 ⟨prompts visible, []⟩ (tree dep)

/-- Where `menu_finalize` comes to `P`. -/
def atParent (visible : Option (Expr Name)) (dep : Expr Name) :
    Pass Name × Entry Name × Chain Name :=
  let out := handedDown ⟨prompts visible, []⟩ (tree dep)
  match out.1 with
  | .menu entry _ next => (out.2, entry, next)
  | .null => (out.2, (tree dep).entry, .null)

/-- Where it looks at `C`. -/
def atChild (visible : Option (Expr Name)) (dep : Expr Name) : Pass Name × Node Name :=
  let at1 := atParent visible dep
  let p := started at1.1 ⟨at1.2.1, .null, at1.2.2⟩
  match at1.2.2 with
  | .menu entry list next => (p, ⟨entry, list, next⟩)
  | .null => (p, tree dep)

theorem calls_atParent (visible : Option (Expr Name)) (dep : Expr Name) :
    Calls 3 ⟨prompts visible, []⟩ (tree dep) 2 (atParent visible dep).1
      ⟨(atParent visible dep).2.1, .null, (atParent visible dep).2.2⟩ :=
  .listed rfl (.here _ _ _ _) (.self _ _ _)

theorem moves_atChild {visible : Option (Expr Name)} {dep : Expr Name}
    (h : dependsOnEntry (atChild visible dep).1.table
      (baseCondition (atParent visible dep).1.table (atParent visible dep).2.1) parent
      (conditionOf (atChild visible dep).1.table (atChild visible dep).2.entry)) :
    MovesIn (menuFinalize 1)
      (baseCondition (atParent visible dep).1.table (atParent visible dep).2.1) parent (started (atParent visible dep).1
        ⟨(atParent visible dep).2.1, .null, (atParent visible dep).2.2⟩)
      (atParent visible dep).2.2 (atChild visible dep).1 (atChild visible dep).2 :=
  .here _ _ h

theorem sameTypes_run {visible : Option (Expr Name)} {dep : Expr Name}
    (h : (run visible dep).isSome)
    (htypes : ∀ t, ((run visible dep).get h).1.table.type t = table.type t) :
    SameTypes ((run visible dep).get h).1.table table := by
  have hfinished := (Calls.self 3 ⟨prompts visible, []⟩ (tree dep)).finished le_rfl
    (show [0, 1, 2].Nodup by decide) (Option.some_get h).symm
  refine ⟨?_, fun t => (htypes t).symm, fun t => ?_⟩
  · rw [(hfinished.keeps y).fixed]
    rfl
  · rw [((hfinished.keeps t).flags t).1]
    cases t <;> rfl

/-- `"p" if A=n`, and `depends on !A && (P || X)`. -/
def visibleA : Option (Expr Name) := some (.equal a n)

def dependsA : Expr Name := .and (.not (.symbol a)) (.or (.symbol parent) (.symbol x))

theorem run_dependsA : (run visibleA dependsA).isSome := by decide +kernel

theorem sameTypes_dependsA : SameTypes ((run visibleA dependsA).get run_dependsA).1.table table :=
  sameTypes_run run_dependsA fun t => by cases t <;> decide +kernel

/-- `"p" if X`, and `depends on X && (P || A)`. -/
def visibleX : Option (Expr Name) := some (.symbol x)

def dependsX : Expr Name := .and (.symbol x) (.or (.symbol parent) (.symbol a))

theorem run_dependsX : (run visibleX dependsX).isSome := by decide +kernel

theorem sameTypes_dependsX : SameTypes ((run visibleX dependsX).get run_dependsX).1.table table :=
  sameTypes_run run_dependsX fun t => by cases t <;> decide +kernel

end Submenus
end OpenADK.Kconfig
