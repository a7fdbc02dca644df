import OpenADK.Kconfig.Symbol
import Mathlib.Data.List.Nodup

/-!
# Looking up symbols

`sym_lookup`, with which the parser finds or creates a symbol, and `sym_find`, with which a name in
a configuration file is resolved, on the chains of the hash table.
-/

namespace OpenADK.Kconfig
namespace Lookup

def symbolConst : UInt32 := 0x0001
def symbolChoice : UInt32 := 0x0010
def symbolHashsize : UInt32 := 9973

/-- A `struct symbol` of the hash table. -/
structure Entry where
  address : ℕ
  name : Option Text
  flags : UInt32
  deriving DecidableEq

/-- `symbol_hash`. The chains are linked through `next`. -/
structure HashTable where
  symbolHash : UInt32 → List Entry
  allocated : ℕ

inductive Pointer
  | symbolYes
  | symbolMod
  | symbolNo
  | entry (address : ℕ)
  deriving DecidableEq

/-- The FNV hash; a `char` is signed. -/
def strhash (s : Text) : UInt32 :=
  s.foldl (fun hash c => (hash ^^^ (UInt8.ofNat c.toNat).toInt8.toInt32.toUInt32) * 0x01000193)
    2166136261

def bucket (name : Text) : UInt32 := strhash name % symbolHashsize

/-- The names of one character that stand for the constants. -/
def constantNamed : Text → Option Pointer
  | ['y'] => some .symbolYes
  | ['m'] => some .symbolMod
  | ['n'] => some .symbolNo
  | _ => none

/-- The condition in the loop of `sym_lookup`. -/
def Entry.found (name : Text) (flags : UInt32) (e : Entry) : Bool :=
  e.name = some name &&
    if flags ≠ 0 then e.flags &&& flags ≠ 0 else e.flags &&& (symbolConst ||| symbolChoice) = 0

/-- A new symbol is at the head of its chain. -/
def HashTable.insert (t : HashTable) (hash : UInt32) (name : Option Text) (flags : UInt32) :
    Pointer × HashTable :=
  (.entry t.allocated,
    { symbolHash := Function.update t.symbolHash hash
        (⟨t.allocated, name, flags⟩ :: t.symbolHash hash)
      allocated := t.allocated + 1 })

def symLookup (t : HashTable) (name : Option Text) (flags : UInt32) : Pointer × HashTable :=
  match name with
  | none => t.insert 0 none flags
  | some name =>
    match constantNamed name with
    | some p => (p, t)
    | none =>
      match (t.symbolHash (bucket name)).find? (Entry.found name flags) with
      | some e => (.entry e.address, t)
      | none => t.insert (bucket name) (some name) flags

def symFind (t : HashTable) (name : Text) : Option Pointer :=
  match constantNamed name with
  | some p => some p
  | none =>
    ((t.symbolHash (bucket name)).find? fun e =>
      e.name = some name && e.flags &&& symbolConst = 0).map fun e => .entry e.address

/-- A call of `sym_lookup`. -/
structure Call where
  name : Option Text
  flags : UInt32
  deriving DecidableEq

/-- The flags with which the parser calls. -/
def Call.Parses (c : Call) : Prop :=
  c.flags = 0 ∨ c.flags = symbolConst ∨ c.flags = symbolChoice

def empty : HashTable := ⟨fun _ => [], 0⟩

def run (calls : List Call) : HashTable :=
  calls.foldl (fun t c => (symLookup t c.name c.flags).2) empty

/-- One symbol for each name and class, and `sym_find` finds the plain one. -/
structure Consistent (t : HashTable) : Prop where
  unique : ∀ h e, e ∈ t.symbolHash h → ∀ h' e', e' ∈ t.symbolHash h' →
    e.name ≠ none → e.name = e'.name → e.flags = e'.flags → e = e'
  find : ∀ name, (∃ h, ∃ e ∈ t.symbolHash h, e.found name 0) →
    symFind t name = some (symLookup t (some name) 0).1

/-- No choice gets the name of a plain symbol that is there before it. -/
def ChoicesFirst (calls : List Call) : Prop :=
  ∀ before name after, calls = before ++ ⟨some name, symbolChoice⟩ :: after →
    constantNamed name = none → ⟨some name, symbolChoice⟩ ∉ before → ⟨some name, 0⟩ ∉ before

/-! ### The chains -/

/-- The symbols with a name, the newest first. -/
def chain (t : HashTable) (name : Text) : List Entry :=
  (t.symbolHash (bucket name)).filter fun e => e.name = some name

section
variable {t : HashTable} {name : Text} {c : Call} {calls : List Call} {flags : UInt32} {e : Entry}

/-- The flags of the calls for a name, each where it comes first, the newest first. -/
def firsts (name : Text) (calls : List Call) : List UInt32 :=
  calls.foldl (fun l c => if c.name = some name ∧ c.flags ∉ l then c.flags :: l else l) []

structure Built (calls : List Call) (t : HashTable) : Prop where
  placed : ∀ h, ∀ e ∈ t.symbolHash h, ∀ name, e.name = some name →
    h = bucket name ∧ constantNamed name = none
  parsed : ∀ h, ∀ e ∈ t.symbolHash h,
    e.flags = 0 ∨ e.flags = symbolConst ∨ e.flags = symbolChoice
  chained : ∀ name, constantNamed name = none →
    (chain t name).map Entry.flags = firsts name calls

theorem found_iff (he : e.flags = 0 ∨ e.flags = symbolConst ∨ e.flags = symbolChoice)
    (hf : flags = 0 ∨ flags = symbolConst ∨ flags = symbolChoice) :
    e.found name flags = true ↔ e.name = some name ∧ e.flags = flags := by
  unfold Entry.found
  rw [Bool.and_eq_true, decide_eq_true_eq]
  refine and_congr_right fun _ => ?_
  rcases he with he | he | he <;> rcases hf with hf | hf | hf <;> rw [he, hf] <;> decide

theorem mem_chain : e ∈ chain t name ↔ e ∈ t.symbolHash (bucket name) ∧ e.name = some name := by
  rw [chain, List.mem_filter, decide_eq_true_eq]

theorem find?_bucket (p : Entry → Bool) (name : Text) :
    (t.symbolHash (bucket name)).find? (fun e => e.name = some name && p e) =
      (chain t name).find? p := by
  rw [chain, List.find?_filter]
  simp only [Bool.decide_and, Bool.decide_eq_true]

theorem firsts_append (name : Text) (calls : List Call) (c : Call) :
    firsts name (calls ++ [c]) = if c.name = some name ∧ c.flags ∉ firsts name calls then
      c.flags :: firsts name calls else firsts name calls := by
  rw [firsts, List.foldl_append]
  rfl

theorem nodup_firsts (name : Text) (calls : List Call) : (firsts name calls).Nodup := by
  induction calls using List.reverseRecOn with
  | nil => exact List.nodup_nil
  | append_singleton calls c ih =>
    rw [firsts_append]
    split
    · next h => exact List.nodup_cons.mpr ⟨h.2, ih⟩
    · exact ih

theorem mem_firsts : flags ∈ firsts name calls ↔ (⟨some name, flags⟩ : Call) ∈ calls := by
  induction calls using List.reverseRecOn with
  | nil => exact ⟨fun h => absurd h List.not_mem_nil, fun h => absurd h List.not_mem_nil⟩
  | append_singleton calls c ih =>
    obtain ⟨n, f⟩ := c
    rw [firsts_append, List.mem_append, List.mem_singleton, ← ih, Call.mk.injEq]
    split
    · next h =>
      obtain ⟨rfl, -⟩ := h
      rw [List.mem_cons, or_comm, eq_self, true_and]
    · next h =>
      constructor
      · exact .inl
      · rintro (hmem | ⟨rfl, rfl⟩)
        · exact hmem
        · exact not_not.mp fun hnot => h ⟨rfl, hnot⟩

theorem Built.mem_bucket (h : Built calls t) {hash : UInt32} (he : e ∈ t.symbolHash hash)
    (hname : e.name = some name) : e ∈ chain t name :=
  mem_chain.mpr ⟨(h.placed hash e he name hname).1 ▸ he, hname⟩

/-! ### One call -/

theorem chain_insert_of_ne (t : HashTable) (hash : UInt32) {n : Option Text} (f : UInt32)
    (h : n ≠ some name) : chain (t.insert hash n f).2 name = chain t name := by
  unfold chain HashTable.insert
  dsimp only
  by_cases hb : bucket name = hash
  · subst hb
    rw [Function.update_self, List.filter_cons_of_neg (by simpa using h)]
  · rw [Function.update_of_ne hb]

theorem chain_insert_self (t : HashTable) (name : Text) (f : UInt32) :
    chain (t.insert (bucket name) (some name) f).2 name =
      ⟨t.allocated, some name, f⟩ :: chain t name := by
  unfold chain HashTable.insert
  dsimp only
  rw [Function.update_self]
  exact List.filter_cons_of_pos (decide_eq_true rfl)

theorem mem_insert {hash h : UInt32} {n : Option Text} {f : UInt32}
    (he : e ∈ (t.insert hash n f).2.symbolHash h) :
    e ∈ t.symbolHash h ∨ h = hash ∧ e = ⟨t.allocated, n, f⟩ := by
  unfold HashTable.insert at he
  dsimp only at he
  by_cases hb : h = hash
  · subst hb
    rw [Function.update_self] at he
    rcases List.mem_cons.mp he with he | he
    · exact .inr ⟨rfl, he⟩
    · exact .inl he
  · rw [Function.update_of_ne hb] at he
    exact .inl he

/-- What a call does. -/
theorem symLookup_cases (t : HashTable) (n : Option Text) (f : UInt32) :
    (n = none ∧ symLookup t n f = t.insert 0 none f) ∨
      ∃ m, n = some m ∧
        ((∃ p, constantNamed m = some p ∧ symLookup t n f = (p, t)) ∨
          constantNamed m = none ∧
            ((∃ e, (t.symbolHash (bucket m)).find? (Entry.found m f) = some e ∧
                symLookup t n f = (.entry e.address, t)) ∨
              (t.symbolHash (bucket m)).find? (Entry.found m f) = none ∧
                symLookup t n f = t.insert (bucket m) (some m) f)) := by
  cases n with
  | none => exact .inl ⟨rfl, rfl⟩
  | some m =>
    refine .inr ⟨m, rfl, ?_⟩
    simp only [symLookup]
    cases hconst : constantNamed m with
    | some p => exact .inl ⟨p, rfl, rfl⟩
    | none =>
      refine .inr ⟨rfl, ?_⟩
      cases hfind : (t.symbolHash (bucket m)).find? (Entry.found m f) with
      | some e => exact .inl ⟨e, rfl, rfl⟩
      | none => exact .inr ⟨rfl, rfl⟩

/-- The symbol that a call for a name finds, if there is one. -/
theorem Built.find?_eq_none (h : Built calls t)
    (hf : flags = 0 ∨ flags = symbolConst ∨ flags = symbolChoice)
    (hconst : constantNamed name = none) :
    (t.symbolHash (bucket name)).find? (Entry.found name flags) = none ↔
      flags ∉ firsts name calls := by
  rw [← h.chained name hconst, List.find?_eq_none, List.mem_map]
  constructor
  · rintro hnone ⟨e, he, hflags⟩
    obtain ⟨he, hn⟩ := mem_chain.mp he
    exact hnone e he ((found_iff (h.parsed _ e he) hf).mpr ⟨hn, hflags⟩)
  · intro hnot e he hfound
    obtain ⟨hn, hflags⟩ := (found_iff (h.parsed _ e he) hf).mp hfound
    exact hnot ⟨e, mem_chain.mpr ⟨he, hn⟩, hflags⟩

/-- A call that finds a symbol. -/
theorem Built.keep (h : Built calls t)
    (hnot : ∀ n, c.name = some n → constantNamed n = none → c.flags ∈ firsts n calls) :
    Built (calls ++ [c]) t := by
  refine ⟨h.placed, h.parsed, fun n hn => ?_⟩
  rw [firsts_append, if_neg fun hand => hand.2 (hnot n hand.1 hn), h.chained n hn]

theorem built_step (h : Built calls t) (hc : c.Parses) :
    Built (calls ++ [c]) (symLookup t c.name c.flags).2 := by
  obtain ⟨n, f⟩ := c
  dsimp only
  obtain ⟨rfl, heq⟩ | ⟨m, rfl, ⟨p, hconst, heq⟩ | ⟨hconst, ⟨e, hfind, heq⟩ | ⟨hfind, heq⟩⟩⟩ :=
    symLookup_cases t n f
  · rw [heq]
    refine ⟨fun hash e he name hname => ?_, fun hash e he => ?_, fun name hname => ?_⟩
    · rcases mem_insert he with he | ⟨-, rfl⟩
      · exact h.placed hash e he name hname
      · cases hname
    · rcases mem_insert he with he | ⟨-, rfl⟩
      · exact h.parsed hash e he
      · exact hc
    · rw [chain_insert_of_ne t 0 f (Option.some_ne_none name).symm, firsts_append,
        if_neg fun hand => Option.some_ne_none name hand.1.symm, h.chained name hname]
  · rw [heq]
    apply h.keep
    intro name hname hn
    cases hname
    rw [hconst] at hn
    cases hn
  · rw [heq]
    apply h.keep
    intro name hname hn
    cases hname
    apply not_not.mp
    rw [← h.find?_eq_none hc hn, hfind]
    exact Option.some_ne_none e
  · have hnew := (h.find?_eq_none hc hconst).mp hfind
    rw [heq]
    refine ⟨fun hash e he name hname => ?_, fun hash e he => ?_, fun name hname => ?_⟩
    · rcases mem_insert he with he | ⟨rfl, rfl⟩
      · exact h.placed hash e he name hname
      · cases hname
        exact ⟨rfl, hconst⟩
    · rcases mem_insert he with he | ⟨-, rfl⟩
      · exact h.parsed hash e he
      · exact hc
    · by_cases hmn : m = name
      · subst hmn
        rw [chain_insert_self, List.map_cons, firsts_append, if_pos ⟨rfl, hnew⟩,
          h.chained m hname]
      · have hne : some m ≠ some name := fun heq => hmn (Option.some.inj heq)
        rw [chain_insert_of_ne t _ f hne, firsts_append, if_neg fun hand => hne hand.1,
          h.chained name hname]

structure Addressed (t : HashTable) : Prop where
  lt : ∀ h, ∀ e ∈ t.symbolHash h, e.address < t.allocated
  inj : ∀ h e, e ∈ t.symbolHash h → ∀ h' e', e' ∈ t.symbolHash h' → e.address = e'.address → e = e'

theorem Addressed.insert (h : Addressed t) (hash : UInt32) (n : Option Text) (f : UInt32) :
    Addressed (t.insert hash n f).2 := by
  constructor
  · intro h₁ e he
    rcases mem_insert he with he | ⟨-, rfl⟩
    · exact (h.lt h₁ e he).trans (Nat.lt_succ_self _)
    · exact Nat.lt_succ_self _
  · intro h₁ e₁ he₁ h₂ e₂ he₂ heq
    rcases mem_insert he₁ with he₁ | ⟨-, rfl⟩ <;> rcases mem_insert he₂ with he₂ | ⟨-, rfl⟩
    · exact h.inj h₁ e₁ he₁ h₂ e₂ he₂ heq
    · exact absurd heq (h.lt h₁ e₁ he₁).ne
    · exact absurd heq.symm (h.lt h₂ e₂ he₂).ne
    · rfl

theorem addressed_run (calls : List Call) : Addressed (run calls) := by
  induction calls using List.reverseRecOn with
  | nil => exact ⟨nofun, nofun⟩
  | append_singleton calls c ih =>
    rw [run, List.foldl_append, List.foldl_cons, List.foldl_nil]
    obtain ⟨-, heq⟩ | ⟨m, -, ⟨p, -, heq⟩ | ⟨-, ⟨e, -, heq⟩ | ⟨-, heq⟩⟩⟩ :=
      symLookup_cases (run calls) c.name c.flags
    · exact heq ▸ ih.insert _ _ _
    · exact heq ▸ ih
    · exact heq ▸ ih
    · exact heq ▸ ih.insert _ _ _

theorem built_run (h : ∀ c ∈ calls, c.Parses) : Built calls (run calls) := by
  induction calls using List.reverseRecOn with
  | nil => exact ⟨nofun, nofun, fun _ _ => rfl⟩
  | append_singleton calls c ih =>
    rw [run, List.foldl_append]
    exact built_step (ih fun c hc => h c (List.mem_append_left _ hc))
      (h c (List.mem_append_right _ List.mem_cons_self))

/-! ### The two lookups -/

theorem find?_plain (l : List UInt32) :
    (0 :: l).find? (fun f => decide (f &&& symbolConst = 0)) = some 0 := by
  apply List.find?_cons_of_pos
  decide

theorem find?_choice (l : List UInt32) :
    (symbolChoice :: l).find? (fun f => decide (f &&& symbolConst = 0)) = some symbolChoice := by
  apply List.find?_cons_of_pos
  decide

theorem find?_const (l : List UInt32) :
    (symbolConst :: l).find? (fun f => decide (f &&& symbolConst = 0)) =
      l.find? fun f => decide (f &&& symbolConst = 0) := by
  apply List.find?_cons_of_neg
  decide

/-- The newest symbol with a name that is no constant is the plain one. -/
theorem find?_firsts (name : Text) (calls : List Call) (h : ∀ c ∈ calls, c.Parses) :
    (0 ∈ firsts name calls → (firsts name calls).find? (fun f => f &&& symbolConst = 0) = some 0) ↔
      ∀ before after, calls = before ++ ⟨some name, symbolChoice⟩ :: after →
        symbolChoice ∉ firsts name before → 0 ∉ firsts name before := by
  induction calls using List.reverseRecOn with
  | nil =>
    refine ⟨fun _ before after heq => ?_, fun _ hmem => absurd hmem List.not_mem_nil⟩
    simp at heq
  | append_singleton calls c ih =>
    have hc := h c (List.mem_append_right _ List.mem_cons_self)
    have hsplit : (∀ before after, calls ++ [c] = before ++ ⟨some name, symbolChoice⟩ :: after →
          symbolChoice ∉ firsts name before → 0 ∉ firsts name before) ↔
        (∀ before after, calls = before ++ ⟨some name, symbolChoice⟩ :: after →
          symbolChoice ∉ firsts name before → 0 ∉ firsts name before) ∧
        (c = ⟨some name, symbolChoice⟩ →
          symbolChoice ∉ firsts name calls → 0 ∉ firsts name calls) := by
      constructor
      · intro hall
        refine ⟨fun before after heq => hall before (after ++ [c]) (by rw [heq]; simp), ?_⟩
        rintro rfl
        exact hall calls [] rfl
      · rintro ⟨hall, hlast⟩ before after heq
        rcases List.eq_nil_or_concat after with rfl | ⟨after, d, rfl⟩
        · obtain ⟨rfl, hcd⟩ := List.append_inj' heq rfl
          exact hlast (List.singleton_inj.mp hcd)
        · have hcut : calls ++ [c] = before ++ ⟨some name, symbolChoice⟩ :: after ++ [d] := by
            rw [heq]
            simp
          exact hall before after (List.append_inj' hcut rfl).1
    rw [hsplit, ← ih fun c hc => h c (List.mem_append_left _ hc), firsts_append]
    by_cases hnew : c.name = some name ∧ c.flags ∉ firsts name calls
    · rw [if_pos hnew]
      obtain ⟨n, f⟩ := c
      obtain ⟨rfl, hnot⟩ := hnew
      dsimp only at hnot ⊢
      rcases hc with rfl | rfl | rfl
      · -- the plain symbol itself
        have hne : (⟨some name, 0⟩ : Call) ≠ ⟨some name, symbolChoice⟩ := by
          rw [Ne, Call.mk.injEq]
          exact fun heq => absurd heq.2 (by decide)
        refine ⟨fun _ => ⟨fun hmem => absurd hmem hnot, fun heq => absurd heq hne⟩, fun _ _ => ?_⟩
        exact find?_plain _
      · have hne : (⟨some name, symbolConst⟩ : Call) ≠ ⟨some name, symbolChoice⟩ := by
          rw [Ne, Call.mk.injEq]
          exact fun heq => absurd heq.2 (by decide)
        have hzero : (0 : UInt32) ≠ symbolConst := by decide
        rw [find?_const, List.mem_cons, or_iff_right hzero]
        exact ⟨fun hall => ⟨hall, fun heq => absurd heq hne⟩, And.left⟩
      · have hzero : (0 : UInt32) ≠ symbolChoice := by decide
        rw [find?_choice, List.mem_cons, or_iff_right hzero]
        constructor
        · intro hall
          have hno : 0 ∉ firsts name calls := fun hmem =>
            hzero (Option.some.inj (hall hmem)).symm
          exact ⟨fun hmem => absurd hmem hno, fun _ _ => hno⟩
        · exact fun hall hmem => absurd hmem (hall.2 rfl hnot)
    · rw [if_neg hnew]
      refine ⟨fun hall => ⟨hall, ?_⟩, And.left⟩
      rintro rfl hnot
      exact absurd ⟨rfl, hnot⟩ hnew

theorem Built.unique (h : Built calls t) (hash : UInt32) (e : Entry) (he : e ∈ t.symbolHash hash)
    (hash' : UInt32) (e' : Entry) (he' : e' ∈ t.symbolHash hash') (hname : e.name ≠ none)
    (heq : e.name = e'.name) (hflags : e.flags = e'.flags) : e = e' := by
  obtain ⟨name, hn⟩ := Option.ne_none_iff_exists'.mp hname
  have hnodup := nodup_firsts name calls
  rw [← h.chained name (h.placed hash e he name hn).2] at hnodup
  exact List.inj_on_of_nodup_map hnodup (h.mem_bucket he hn) (h.mem_bucket he' (heq ▸ hn)) hflags

/-- A plain symbol is there after a call for it. -/
theorem Built.exists_found_iff (h : Built calls t) :
    (∃ hash, ∃ e ∈ t.symbolHash hash, e.found name 0 = true) ↔
      constantNamed name = none ∧ 0 ∈ firsts name calls := by
  constructor
  · rintro ⟨hash, e, he, hfound⟩
    obtain ⟨hname, hflags⟩ := (found_iff (h.parsed hash e he) (.inl rfl)).mp hfound
    have hconst := (h.placed hash e he name hname).2
    refine ⟨hconst, ?_⟩
    rw [← h.chained name hconst, List.mem_map]
    exact ⟨e, h.mem_bucket he hname, hflags⟩
  · rintro ⟨hconst, hmem⟩
    rw [← h.chained name hconst, List.mem_map] at hmem
    obtain ⟨e, he, hflags⟩ := hmem
    obtain ⟨he, hname⟩ := mem_chain.mp he
    exact ⟨_, e, he, (found_iff (h.parsed _ e he) (.inl rfl)).mpr ⟨hname, hflags⟩⟩

/-- `sym_find` agrees with `sym_lookup` on the name of a plain symbol. -/
theorem Built.symFind_eq_iff (h : Built calls t) (haddress : Addressed t)
    (hconst : constantNamed name = none) (hmem : 0 ∈ firsts name calls) :
    symFind t name = some (symLookup t (some name) 0).1 ↔
      (firsts name calls).find? (fun f => f &&& symbolConst = 0) = some 0 := by
  have hsome : (t.symbolHash (bucket name)).find? (Entry.found name 0) ≠ none := fun hnone =>
    (h.find?_eq_none (.inl rfl) hconst).mp hnone hmem
  obtain ⟨e, he⟩ := Option.ne_none_iff_exists'.mp hsome
  have hin := List.mem_of_find?_eq_some he
  obtain ⟨hname, hflags⟩ := (found_iff (h.parsed _ e hin) (.inl rfl)).mp (List.find?_some he)
  have hlookup : (symLookup t (some name) 0).1 = .entry e.address := by
    simp only [symLookup, hconst, he]
  rw [hlookup, symFind]
  simp only [hconst]
  rw [find?_bucket, ← h.chained name hconst, List.find?_map, Function.comp_def]
  cases hfind : (chain t name).find? fun e => decide (e.flags &&& symbolConst = 0) with
  | none => exact iff_of_false (Option.some_ne_none _).symm (Option.some_ne_none _).symm
  | some e' =>
    obtain ⟨hin', hname'⟩ := mem_chain.mp (List.mem_of_find?_eq_some hfind)
    simp only [Option.map_some, Option.some.injEq, Pointer.entry.injEq]
    constructor
    · intro heq
      rw [haddress.inj _ e' hin' _ e hin heq, hflags]
    · intro heq
      have hsame := h.unique _ e' hin' _ e hin (by rw [hname']; exact Option.some_ne_none name)
        (hname'.trans hname.symm) (heq.trans hflags.symm)
      rw [hsame]

/-- When the two lookups agree. -/
theorem consistent_iff_choicesFirst (h : ∀ c ∈ calls, c.Parses) :
    Consistent (run calls) ↔ ChoicesFirst calls := by
  have hbuilt := built_run h
  have hagree (name : Text) (hconst : constantNamed name = none) :
      (0 ∈ firsts name calls → symFind (run calls) name = some (symLookup (run calls) (some name) 0).1) ↔
        ∀ before after, calls = before ++ ⟨some name, symbolChoice⟩ :: after →
          symbolChoice ∉ firsts name before → 0 ∉ firsts name before := by
    rw [← find?_firsts name calls h]
    exact imp_congr_right fun hmem => hbuilt.symFind_eq_iff (addressed_run calls) hconst hmem
  constructor
  · intro hcons before name after heq hconst hchoice hplain
    refine (hagree name hconst).mp (fun hmem => ?_) before after heq
      (fun hin => hchoice (mem_firsts.mp hin)) (mem_firsts.mpr hplain)
    exact hcons.find name (hbuilt.exists_found_iff.mpr ⟨hconst, hmem⟩)
  · intro hfirst
    refine ⟨hbuilt.unique, fun name hfound => ?_⟩
    obtain ⟨hconst, hmem⟩ := hbuilt.exists_found_iff.mp hfound
    refine (hagree name hconst).mpr (fun before after heq hchoice hplain => ?_) hmem
    exact hfirst before name after heq hconst (fun hin => hchoice (mem_firsts.mpr hin))
      (mem_firsts.mp hplain)

end

namespace Samples

def foo : Text := ['F', 'O', 'O']

/-- A choice that is parsed before the symbol of its name. -/
theorem consistent_choice_first :
    Consistent (run [⟨some foo, symbolChoice⟩, ⟨some foo, 0⟩]) ↔
      ChoicesFirst [⟨some foo, symbolChoice⟩, ⟨some foo, 0⟩] := by
  apply consistent_iff_choicesFirst
  intro c hc
  rcases List.mem_pair.mp hc with rfl | rfl
  · exact .inr (.inr rfl)
  · exact .inl rfl

/-- A choice that is parsed after the symbol of its name. -/
theorem not_consistent_choice_last :
    ¬Consistent (run [⟨some foo, 0⟩, ⟨some foo, symbolChoice⟩]) := by
  intro h
  have hfound : Entry.found foo 0 ⟨0, some foo, 0⟩ = true := by decide
  have hmem : (⟨0, some foo, 0⟩ : Entry) ∈
      (run [⟨some foo, 0⟩, ⟨some foo, symbolChoice⟩]).symbolHash (bucket foo) := by decide
  have heq := h.find foo ⟨bucket foo, _, hmem, hfound⟩
  revert heq
  decide

end Samples
end Lookup
end OpenADK.Kconfig
