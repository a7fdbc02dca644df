import OpenADK.Kconfig.MenuFinalize

/-!
# `menu_finalize` only moves entries to other parents

The preorder of the entries stays, each entry is finalized once, and the parents are those of the new
structure. A writer that follows the pointers comes to each entry once.
-/

namespace OpenADK.Kconfig
namespace MenuFinalize
variable {ι : Type}

section
variable {c d : Chain ι} {parent : Option MenuId} {id : MenuId}

@[simp] theorem preorder_append (c d : Chain ι) :
    (c.append d).preorder = c.preorder ++ d.preorder := by
  induction c with
  | null => rfl
  | menu m list next _ ih => simp [Chain.append, Chain.preorder, ih]

@[simp] theorem preorder_setParent (c : Chain ι) : (c.setParent id).preorder = c.preorder := by
  induction c with
  | null => rfl
  | menu m list next _ ih => simp [Chain.setParent, Chain.preorder, ih]

theorem Chain.Parented.append (hc : c.Parented parent) (hd : d.Parented parent) :
    (c.append d).Parented parent := by
  induction c with
  | null => exact hd
  | menu m list next _ ih => exact ⟨hc.1, hc.2.1, ih hc.2.2⟩

theorem Chain.Parented.setParent (hc : c.Parented parent) : (c.setParent id).Parented (some id) := by
  induction c with
  | null => trivial
  | menu m list next _ ih => exact ⟨rfl, hc.2.1, ih hc.2.2⟩

end

section
variable [DecidableEq ι] {p : Pass ι}

/-! ### What does not concern the structure -/

@[simp] theorem calls_modify (s : ι) (f : Symbol ι → Symbol ι) : (p.modify s f).calls = p.calls := rfl

@[simp] theorem calls_menuSetType (type : SymType) (s : ι) :
    (menuSetType type s p).calls = p.calls := by
  unfold menuSetType
  split <;> rfl

omit [DecidableEq ι] in
theorem calls_foldl {α : Type} {f : Pass ι → α → Pass ι} (hf : ∀ p a, (f p a).calls = p.calls)
    (l : List α) : (l.foldl f p).calls = p.calls := by
  induction l generalizing p with
  | nil => rfl
  | cons a l ih => rw [List.foldl_cons, ih, hf]

@[simp] theorem calls_setChoiceTypes (choice : ι) (members : List (Entry ι)) :
    (setChoiceTypes choice members p).calls = p.calls := by
  unfold setChoiceTypes
  simp only
  rw [calls_foldl]
  · split
    · exact calls_menuSetType _ _
    · rfl
  · intro p m
    split
    · exact calls_menuSetType _ _
    · rfl

@[simp] theorem calls_setTypes (node : Node ι) : (setTypes node p).calls = p.calls := by
  unfold setTypes
  split
  · split
    · exact calls_setChoiceTypes _ _
    · rfl
  · rfl

@[simp] theorem calls_finalizeSelect (s : ι) (prop : Property ι) :
    (finalizeSelect s prop p).calls = p.calls := by
  unfold finalizeSelect
  split
  · rfl
  · simp only
    split <;> rfl

@[simp] theorem calls_limitRevDep (m : Entry ι) : (limitRevDep m p).calls = p.calls := by
  unfold limitRevDep
  split
  · split <;> rfl
  · rfl

structure SameEntry (m m' : Entry ι) (p p' : Pass ι) : Prop where
  id : m'.id = m.id
  parent : m'.parent = m.parent
  calls : p'.calls = p.calls

theorem sameEntry_inheritDep (parentdep : Option (Expr ι)) (m : Entry ι) :
    SameEntry m (inheritDep parentdep m p).1 p (inheritDep parentdep m p).2 := by
  unfold inheritDep
  simp only
  split
  · exact ⟨rfl, rfl, rfl⟩
  · exact ⟨rfl, rfl, calls_foldl (fun _ _ => calls_finalizeSelect _ _) _⟩

theorem sameEntry_addChoiceValue (parent m : Entry ι) :
    SameEntry m (addChoiceValue parent m p).1 p (addChoiceValue parent m p).2 := by
  unfold addChoiceValue
  split
  · split
    · refine ⟨?_, ?_, rfl⟩
      all_goals
        simp only
        split <;> rfl
    · exact ⟨rfl, rfl, rfl⟩
  · exact ⟨rfl, rfl, rfl⟩

structure SameChain (c c' : Chain ι) (p p' : Pass ι) : Prop where
  preorder : c'.preorder = c.preorder
  calls : p'.calls = p.calls
  parented : ∀ parent, c.Parented parent → c'.Parented parent

theorem sameChain_inheritDeps (parentdep : Option (Expr ι)) (c : Chain ι) :
    SameChain c (inheritDeps parentdep c p).1 p (inheritDeps parentdep c p).2 := by
  induction c generalizing p with
  | null => exact ⟨rfl, rfl, fun _ h => h⟩
  | menu m list next _ ih =>
    have hm := sameEntry_inheritDep (p := p) parentdep m
    have hrest := @ih (inheritDep parentdep m p).2
    refine ⟨?_, ?_, ?_⟩
    · rw [inheritDeps, Chain.preorder, Chain.preorder, hm.id, hrest.preorder]
    · rw [inheritDeps, hrest.calls, hm.calls]
    · intro parent h
      exact ⟨hm.parent.trans h.1, hm.id ▸ h.2.1, hrest.parented parent h.2.2⟩

/-! ### The loops -/

/-- What `menu_finalize` does to the structure: the entry, what comes below it and what comes after
it. -/
structure Reparents (p : Pass ι) (node : Node ι) (out : Pass ι × Node ι) : Prop where
  id : out.2.entry.id = node.entry.id
  parent : out.2.entry.parent = node.entry.parent
  preorder : out.2.preorder = node.preorder
  calls : out.1.calls = p.calls ++ node.entry.id :: out.2.list.preorder
  parented : ∀ parent, node.list.Parented (some node.entry.id) → node.next.Parented parent →
    out.2.list.Parented (some node.entry.id) ∧ out.2.next.Parented parent
  last : node.next = .null → out.2.next = .null

/-- `finalize` works on all nodes of a size. -/
def Finalizes (finalize : Pass ι → Node ι → Result ι) (n : ℕ) : Prop :=
  ∀ p node, node.preorder.length ≤ n → ∃ out, finalize p node = some out ∧ Reparents p node out

section
variable {finalize : Pass ι → Node ι → Result ι} {n k : ℕ} {c : Chain ι} {node : Node ι}
variable {out : Pass ι × Node ι}

omit [DecidableEq ι] in
theorem Reparents.preorder_eq (h : Reparents p node out) :
    node.entry.id :: (out.2.list.preorder ++ out.2.next.preorder) = node.preorder := by
  rw [← h.preorder, Node.preorder, h.id, List.cons_append]

omit [DecidableEq ι] in
theorem Reparents.length_next_lt (h : Reparents p node out) :
    out.2.next.preorder.length < node.preorder.length := by
  rw [← h.preorder_eq, List.length_cons, List.length_append]
  omega

omit [DecidableEq ι] in
theorem finalizeList_spec (hf : Finalizes finalize n) (hk : c.preorder.length ≤ k)
    (hn : c.preorder.length ≤ n) :
    ∃ out, finalizeList finalize k p c = some out ∧ out.2.preorder = c.preorder ∧
      out.1.calls = p.calls ++ c.preorder ∧ ∀ parent, c.Parented parent → out.2.Parented parent := by
  induction k generalizing p c with
  | zero =>
    cases c with
    | null => exact ⟨_, rfl, rfl, (List.append_nil _).symm, fun _ h => h⟩
    | menu m list next => simp [Chain.preorder] at hk
  | succ k ih =>
    cases c with
    | null => exact ⟨_, rfl, rfl, (List.append_nil _).symm, fun _ h => h⟩
    | menu m list next =>
      obtain ⟨out, hout, hspec⟩ := hf p ⟨m, list, next⟩ hn
      have hpre : m.id :: (out.2.list.preorder ++ out.2.next.preorder) =
          (Chain.menu m list next).preorder := hspec.preorder_eq
      have hlt : out.2.next.preorder.length < (Chain.menu m list next).preorder.length :=
        hspec.length_next_lt
      obtain ⟨rest, hrest, hpreorder, hcalls, hparented⟩ :=
        ih (p := out.1) (c := out.2.next) (by omega) (by omega)
      refine ⟨(rest.1, .menu out.2.entry out.2.list rest.2), ?_, ?_, ?_, ?_⟩
      · rw [finalizeList, hout, Option.bind_some, hrest, Option.map_some]
      · rw [Chain.preorder, hpreorder, hspec.id, List.cons_append, hpre]
      · rw [hcalls, hspec.calls, ← hpre, List.append_assoc, List.cons_append]
      · intro parent h
        obtain ⟨hlist, hnext⟩ := hspec.parented parent h.2.1 h.2.2
        refine ⟨hspec.parent.trans h.1, ?_, hparented parent hnext⟩
        rw [hspec.id]
        exact hlist

theorem moveEntries_spec (id : MenuId) (basedep : Expr ι) (s : ι) (hf : Finalizes finalize n)
    (hk : c.preorder.length ≤ k) (hn : c.preorder.length ≤ n) :
    ∃ out, moveEntries finalize id basedep s k p c = some out ∧
      out.2.1.preorder ++ out.2.2.preorder = c.preorder ∧
      out.1.calls = p.calls ++ out.2.1.preorder ∧
      ∀ parent, c.Parented parent → out.2.1.Parented (some id) ∧ out.2.2.Parented parent := by
  induction k generalizing p c with
  | zero =>
    cases c with
    | null => exact ⟨_, rfl, rfl, (List.append_nil _).symm, fun _ h => ⟨trivial, h⟩⟩
    | menu m list next => simp [Chain.preorder] at hk
  | succ k ih =>
    cases c with
    | null => exact ⟨_, rfl, rfl, (List.append_nil _).symm, fun _ h => ⟨trivial, h⟩⟩
    | menu m list next =>
      rw [moveEntries]
      split
      · obtain ⟨out, hout, hspec⟩ := hf p ⟨m, list, next⟩ hn
        have hpre : m.id :: (out.2.list.preorder ++ out.2.next.preorder) =
            (Chain.menu m list next).preorder := hspec.preorder_eq
        have hlt : out.2.next.preorder.length < (Chain.menu m list next).preorder.length :=
          hspec.length_next_lt
        obtain ⟨rest, hrest, hpreorder, hcalls, hparented⟩ :=
          ih (p := out.1) (c := out.2.next) (by omega) (by omega)
        refine ⟨(rest.1, .menu { out.2.entry with parent := some id } out.2.list rest.2.1, rest.2.2),
          ?_, ?_, ?_, ?_⟩
        · rw [hout, Option.bind_some, hrest, Option.map_some]
        · rw [← hpre, ← hpreorder, Chain.preorder, hspec.id]
          simp only [List.cons_append, List.append_assoc]
        · rw [hcalls, hspec.calls, Chain.preorder, hspec.id]
          simp only [List.cons_append, List.append_assoc]
        · intro parent h
          obtain ⟨hlist, hnext⟩ := hspec.parented parent h.2.1 h.2.2
          obtain ⟨hmoved, hafter⟩ := hparented parent hnext
          refine ⟨⟨rfl, ?_, hmoved⟩, hafter⟩
          rw [hspec.id]
          exact hlist
      · exact ⟨_, rfl, rfl, (List.append_nil _).symm, fun _ h => ⟨trivial, h⟩⟩

theorem finishList_spec (parent : Entry ι) (hk : c.preorder.length ≤ k) :
    ∃ out, finishList parent k p c = some out ∧ out.2.preorder = c.preorder ∧
      out.1.calls = p.calls ∧
      (c.Parented (some parent.id) → out.2.Parented (some parent.id)) := by
  induction k generalizing p c with
  | zero =>
    cases c with
    | null => exact ⟨_, rfl, rfl, rfl, fun h => h⟩
    | menu m list next => simp [Chain.preorder] at hk
  | succ k ih =>
    cases c with
    | null => exact ⟨_, rfl, rfl, rfl, fun h => h⟩
    | menu m list next =>
      have hm := sameEntry_addChoiceValue (p := p) parent m
      rw [Chain.preorder, List.length_append, List.length_cons] at hk
      rw [finishList]
      split
      · obtain ⟨rest, hrest, hpreorder, hcalls, hparented⟩ :=
          ih (p := (addChoiceValue parent m p).2) (c := (list.setParent parent.id).append next) (by
            rw [preorder_append, preorder_setParent, List.length_append]
            omega)
        refine ⟨(rest.1, .menu (addChoiceValue parent m p).1 .null rest.2), ?_, ?_, ?_, ?_⟩
        · rw [hrest, Option.map_some]
        · rw [Chain.preorder, hpreorder, preorder_append, preorder_setParent, hm.id]
          rfl
        · rw [hcalls, hm.calls]
        · intro h
          exact ⟨hm.parent.trans h.1, trivial, hparented (h.2.1.setParent.append h.2.2)⟩
      · obtain ⟨rest, hrest, hpreorder, hcalls, hparented⟩ :=
          ih (p := (addChoiceValue parent m p).2) (c := next) (by omega)
        refine ⟨(rest.1, .menu (addChoiceValue parent m p).1 list rest.2), ?_, ?_, ?_, ?_⟩
        · rw [hrest, Option.map_some]
        · rw [Chain.preorder, Chain.preorder, hpreorder, hm.id]
        · rw [hcalls, hm.calls]
        · intro h
          refine ⟨hm.parent.trans h.1, ?_, hparented h.2.2⟩
          rw [hm.id]
          exact h.2.1

theorem finalizeBelow_spec (node : Node ι) (hf : Finalizes finalize n) (hlist : node.list.preorder.length ≤ n)
    (hnext : node.next.preorder.length ≤ n) :
    ∃ out, finalizeBelow finalize n p node = some out ∧ out.2.entry = node.entry ∧
      out.2.preorder = node.preorder ∧ out.1.calls = p.calls ++ out.2.list.preorder ∧
      (∀ parent, node.list.Parented (some node.entry.id) → node.next.Parented parent →
        out.2.list.Parented (some node.entry.id) ∧ out.2.next.Parented parent) ∧
      (node.next = .null → out.2.next = .null) := by
  unfold finalizeBelow
  split
  · have hsame := sameChain_inheritDeps (p := setTypes node p)
      (parentDep (setTypes node p).table node.entry) node.list
    obtain ⟨rest, hrest, hpreorder, hcalls, hparented⟩ := finalizeList_spec hf (k := n)
      (p := (inheritDeps (parentDep (setTypes node p).table node.entry) node.list
        (setTypes node p)).2) (by rw [hsame.preorder]; exact hlist)
      (by rw [hsame.preorder]; exact hlist)
    refine ⟨(rest.1, { node with list := rest.2 }), ?_, rfl, ?_, ?_, ?_, fun h => h⟩
    · simp only
      rw [hrest, Option.map_some]
    · rw [Node.preorder, Node.preorder, hpreorder, hsame.preorder]
    · rw [hcalls, hsame.calls, calls_setTypes, hpreorder]
    · exact fun parent hl hn => ⟨hparented _ (hsame.parented _ hl), hn⟩
  · next hnull =>
    have hlist' : node.list = .null := by
      cases hl : node.list with
      | null => rfl
      | menu => rw [hl] at hnull; exact absurd rfl hnull
    split
    · next s _ =>
      obtain ⟨rest, hrest, hpreorder, hcalls, hparented⟩ := moveEntries_spec node.entry.id
        (comparedCondition p.table ((promptOf p.table node.entry).bind fun prompt => prompt.visible))
        s hf hnext hnext (p := p)
      have hmap := congrArg (Option.map fun rest : Pass ι × Chain ι × Chain ι =>
        (rest.1.modify s fun sym =>
            { sym with dirDep := exprAllocOr sym.dirDep node.entry.dep },
          ({ node with list := rest.2.1, next := rest.2.2 } : Node ι))) hrest
      rw [Option.map_some] at hmap
      refine ⟨_, hmap, rfl, ?_, ?_, ?_, ?_⟩
      · rw [Node.preorder, Node.preorder, hlist', ← hpreorder]
        rfl
      · rw [calls_modify, hcalls]
      · exact fun parent _ hn => hparented parent hn
      · intro hnull
        rw [hnull, moveEntries] at hrest
        cases hrest
        rfl
    · refine ⟨_, rfl, rfl, rfl, ?_, fun parent hl hn => ⟨hl, hn⟩, fun h => h⟩
      rw [hlist', Chain.preorder, List.append_nil]

end

/-! ### `menu_finalize` -/

theorem menuFinalize_spec (n : ℕ) : Finalizes (menuFinalize (ι := ι) n) n := by
  induction n with
  | zero => exact fun p node h => by simp [Node.preorder] at h
  | succ n ih =>
    intro p node h
    rw [Node.preorder, List.length_append, List.length_cons] at h
    obtain ⟨below, hbelow, hentry, hpreorder, hcalls, hparented, hlast⟩ :=
      finalizeBelow_spec node ih (p := { p with calls := p.calls ++ [node.entry.id] })
        (by omega) (by omega)
    have hlength : below.2.list.preorder.length ≤ n := by
      have hlen := congrArg List.length hpreorder
      rw [Node.preorder, Node.preorder, List.length_append, List.length_cons, List.length_append,
        List.length_cons] at hlen
      omega
    obtain ⟨rest, hrest, hpreorder', hcalls', hparented'⟩ :=
      finishList_spec below.2.entry (p := below.1) hlength
    refine ⟨(limitRevDep below.2.entry rest.1, { below.2 with list := rest.2 }), ?_, ?_⟩
    · rw [menuFinalize, hbelow, Option.bind_some, hrest, Option.map_some]
    · refine ⟨by rw [hentry], by rw [hentry], ?_, ?_, ?_, hlast⟩
      · rw [← hpreorder, Node.preorder, Node.preorder, hpreorder']
      · rw [calls_limitRevDep, hcalls', hcalls, hpreorder', List.append_assoc]
        rfl
      · intro parent hl hn
        obtain ⟨hl', hn'⟩ := hparented parent hl hn
        rw [hentry] at hparented'
        exact ⟨hparented' hl', hn'⟩

end

/-! ### Walking over the pointers -/

/-- The pointers of a `struct menu`. -/
structure Cell where
  list : Option MenuId
  next : Option MenuId
  parent : Option MenuId

/-- Where the loop over the entries in `conf_write` and `conf_write_defconfig` stands: at an entry, or
in the inner loop on its way up. -/
inductive Cursor
  | visit (menu : MenuId)
  | climb (menu : MenuId)
  | done

/-- The turn of the inner loop that has reached `menu->parent`. -/
def climbTo (mem : MenuId → Cell) : Option MenuId → Cursor
  | none => .done
  | some menu =>
    match (mem menu).next with
    | some next => .visit next
    | none => .climb menu

def afterEntry (mem : MenuId → Cell) (menu : MenuId) : Cursor :=
  match (mem menu).list with
  | some list => .visit list
  | none =>
    match (mem menu).next with
    | some next => .visit next
    | none => .climb menu

/-- The entries that the loop visits within a number of steps, if it ends. -/
def traverse (mem : MenuId → Cell) : ℕ → Cursor → Option (List MenuId)
  | _, .done => some []
  | 0, _ => none
  | n + 1, .visit menu => (traverse mem n (afterEntry mem menu)).map (menu :: ·)
  | n + 1, .climb menu => traverse mem n (climbTo mem (mem menu).parent)

namespace Chain

def head : Chain ι → Option MenuId
  | null => none
  | menu m _ _ => some m.id

def Stored (mem : MenuId → Cell) : Chain ι → Prop
  | null => True
  | menu m list next =>
    mem m.id = ⟨list.head, next.head, m.parent⟩ ∧ list.Stored mem ∧ next.Stored mem

def memory : Chain ι → MenuId → Cell
  | null, _ => ⟨none, none, none⟩
  | menu m list next, id =>
    if id = m.id then ⟨list.head, next.head, m.parent⟩
    else if id ∈ list.preorder then list.memory id
    else next.memory id

/-- `menu = rootmenu.list`. -/
def start : Chain ι → Cursor
  | null => .done
  | menu m _ _ => .visit m.id

end Chain

section
variable {mem mem' : MenuId → Cell} {c : Chain ι} {parent : Option MenuId}

theorem Chain.Stored.congr (h : c.Stored mem) (heq : ∀ id ∈ c.preorder, mem' id = mem id) :
    c.Stored mem' := by
  induction c with
  | null => trivial
  | menu m list next ihl ihn =>
    refine ⟨(heq _ (by simp [Chain.preorder])).trans h.1, ihl h.2.1 fun id hid => ?_,
      ihn h.2.2 fun id hid => ?_⟩
    · exact heq id (by simp [Chain.preorder, hid])
    · exact heq id (by simp [Chain.preorder, hid])

theorem stored_memory (hnodup : c.preorder.Nodup) : c.Stored c.memory := by
  induction c with
  | null => trivial
  | menu m list next ihl ihn =>
    obtain ⟨hm, hrest⟩ := List.nodup_cons.mp hnodup
    obtain ⟨hlist, hnext, hdisjoint⟩ := List.nodup_append.mp hrest
    refine ⟨if_pos rfl, (ihl hlist).congr fun id hid => ?_, (ihn hnext).congr fun id hid => ?_⟩
    · have hne : id ≠ m.id := fun heq => hm (heq ▸ List.mem_append_left _ hid)
      rw [Chain.memory, if_neg hne, if_pos hid]
    · have hne : id ≠ m.id := fun heq => hm (heq ▸ List.mem_append_right _ hid)
      have hnot : id ∉ list.preorder := fun hmem => hdisjoint id hmem id hid rfl
      rw [Chain.memory, if_neg hne, if_neg hnot]

/-- From the head of a chain the loop visits the chain, and then what comes after it. -/
theorem traverse_chain {n : ℕ} {l : List MenuId} (hstored : c.Stored mem)
    (hparented : c.Parented parent) (h : traverse mem n (climbTo mem parent) = some l)
    (hc : c ≠ .null) : ∃ n, traverse mem n c.start = some (c.preorder ++ l) := by
  induction c generalizing parent n l with
  | null => exact absurd rfl hc
  | menu m list next ihl ihn =>
    obtain ⟨hcell, hlist, hnext⟩ := hstored
    have hafter : ∃ n, traverse mem n (climbTo mem (some m.id)) = some (next.preorder ++ l) := by
      cases next with
      | null =>
        refine ⟨n + 1, ?_⟩
        rw [climbTo, hcell]
        simp only [Chain.head]
        rw [traverse, hcell]
        simp only
        rw [hparented.1, h]
        rfl
      | menu m' list' next' =>
        obtain ⟨k, hk⟩ := ihn hnext hparented.2.2 h nofun
        refine ⟨k, ?_⟩
        rw [climbTo, hcell]
        exact hk
    obtain ⟨k, hk⟩ := hafter
    have hbelow : ∃ n, traverse mem n (afterEntry mem m.id) =
        some (list.preorder ++ (next.preorder ++ l)) := by
      cases list with
      | null =>
        refine ⟨k, ?_⟩
        rw [climbTo] at hk
        rw [afterEntry]
        simp only [hcell, Chain.head] at hk ⊢
        exact hk
      | menu m' list' next' =>
        obtain ⟨k', hk'⟩ := ihl hlist hparented.2.1 hk nofun
        refine ⟨k', ?_⟩
        rw [afterEntry, hcell]
        exact hk'
    obtain ⟨k', hk'⟩ := hbelow
    refine ⟨k' + 1, ?_⟩
    rw [Chain.start, traverse, hk', Option.map_some, Chain.preorder]
    simp only [List.cons_append, List.append_assoc]

/-- The loop over a whole menu tree ends, and it visits the entries in preorder. -/
theorem exists_traverse {root : Entry ι} {list : Chain ι} (hroot : root.parent = none)
    (hparented : list.Parented (some root.id))
    (hstored : (Chain.menu root list .null).Stored mem) :
    ∃ n, traverse mem n list.start = some list.preorder := by
  cases list with
  | null => exact ⟨0, rfl⟩
  | menu m list next =>
    have hend : traverse mem 1 (climbTo mem (some root.id)) = some [] := by
      rw [climbTo, hstored.1]
      simp only [Chain.head]
      rw [traverse, hstored.1]
      simp only
      rw [hroot, climbTo, traverse]
    obtain ⟨n, hn⟩ := traverse_chain hstored.2.1 hparented hend nofun
    refine ⟨n, ?_⟩
    rw [hn, List.append_nil]

end

/-- `menu_finalize (&rootmenu)` ends. It keeps the preorder of the entries, it is called on each entry
once, it leaves the right parents at every depth, and the loop of the writers over the pointers ends
and visits each entry once. -/
theorem menuFinalize_reparents [DecidableEq ι] (G : SymbolTable ι) (root : Entry ι) (list : Chain ι)
    (hroot : root.parent = none) (hparented : list.Parented (some root.id))
    (hnodup : (root.id :: list.preorder).Nodup) :
    ∃ n, ∀ k ≥ n, ∃ p root' list',
      menuFinalize k ⟨G, []⟩ ⟨root, list, .null⟩ = some (p, ⟨root', list', .null⟩) ∧
        root'.id = root.id ∧ list'.preorder = list.preorder ∧ p.calls = root.id :: list.preorder ∧
        list'.Parented (some root'.id) ∧
        ∃ steps, traverse (Chain.menu root' list' .null).memory steps list'.start =
          some list.preorder := by
  refine ⟨(Node.preorder ⟨root, list, .null⟩).length, fun k hk => ?_⟩
  have hresult : ∃ out, menuFinalize k ⟨G, []⟩ ⟨root, list, .null⟩ = some out ∧
      Reparents ⟨G, []⟩ ⟨root, list, .null⟩ out := menuFinalize_spec k _ _ hk
  obtain ⟨⟨p, root', list', next'⟩, hout, hspec⟩ := hresult
  have hid : root'.id = root.id := hspec.id
  have hroot' : root'.parent = none := hspec.parent.trans hroot
  obtain rfl : next' = .null := hspec.last rfl
  have hpreorder : list'.preorder = list.preorder := by
    have h := hspec.preorder_eq
    simpa [Node.preorder, Chain.preorder] using h
  have hparented' : list'.Parented (some root'.id) := by
    rw [hid]
    exact (hspec.parented none hparented trivial).1
  have hnodup' : (Chain.menu root' list' .null).preorder.Nodup := by
    rw [Chain.preorder, Chain.preorder, List.append_nil, hid, hpreorder]
    exact hnodup
  refine ⟨p, root', list', hout, hid, hpreorder, ?_, hparented', ?_⟩
  · rw [hspec.calls, hpreorder]
    rfl
  · rw [← hpreorder]
    exact exists_traverse hroot' hparented' (stored_memory hnodup')

namespace Samples
open Submenus

/-- `rootmenu`, and below it the entries of
```
config P
	tristate
config A
	tristate
	depends on P
if X
config MODULES
	bool
endif
```
-/
def root : Entry Name := { id := 0, parent := none, sym := none }

def entryP : Entry Name := { id := 1, parent := some 0, sym := some .parent }

def entryA : Entry Name := { id := 2, parent := some 0, sym := some .a, dep := some (.symbol .parent) }

def entryIf : Entry Name := { id := 3, parent := some 0, sym := none, dep := some (.symbol .x) }

def entryModules : Entry Name := { id := 4, parent := some 3, sym := some .modules }

def list : Chain Name :=
  .menu entryP .null (.menu entryA .null (.menu entryIf (.menu entryModules .null .null) .null))

theorem menuFinalize_reparents_list : ∃ n, ∀ k ≥ n, ∃ p root' list',
    menuFinalize k ⟨table, []⟩ ⟨root, list, .null⟩ = some (p, ⟨root', list', .null⟩) ∧
      root'.id = root.id ∧ list'.preorder = list.preorder ∧ p.calls = root.id :: list.preorder ∧
      list'.Parented (some root'.id) ∧
      ∃ steps, traverse (Chain.menu root' list' .null).memory steps list'.start =
        some list.preorder :=
  menuFinalize_reparents table root list rfl
    ⟨rfl, trivial, rfl, trivial, rfl, ⟨rfl, trivial, trivial⟩, trivial⟩ (by decide)

/-- `A` is moved under `P`, which has no prompt, and back; `MODULES` is moved out of the block. -/
example : (menuFinalize 6 ⟨table, []⟩ ⟨root, list, .null⟩).map
    (fun out => out.2.list.entries.map fun m => (m.id, m.parent)) =
      some [(1, some 0), (2, some 0), (3, some 0), (4, some 0)] := by decide

end Samples
end MenuFinalize
end OpenADK.Kconfig
