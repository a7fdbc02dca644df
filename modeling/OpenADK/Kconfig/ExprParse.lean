import OpenADK.Kconfig.ExprPrint
import Mathlib.Logic.Relation

/-!
# Parsing what has been printed

The parser reads the tokens of an operand, of a conjunction and of a disjunction back, in every
state of its stack in which one can stand. Conjunctions and disjunctions that are nested to the
right come back nested to the left.
-/

namespace OpenADK.Kconfig
namespace SymbolTable
variable {ι : Type} {G : SymbolTable ι}

/-! ### Values -/

section
variable [DecidableEq ι] {e e' l l' r r' x : Expr ι}

theorem SameValue.refl (e : Expr ι) : G.SameValue e e := fun _ _ => rfl

theorem SameValue.trans {e'' : Expr ι} (h : G.SameValue e e') (h' : G.SameValue e' e'') :
    G.SameValue e e'' := fun calcSym σ => (h' calcSym σ).trans (h calcSym σ)

theorem SameValue.not (h : G.SameValue e e') : G.SameValue (.not e) (.not e') := by
  intro calcSym σ
  simp only [exprCalc, h calcSym σ]

theorem SameValue.and (hl : G.SameValue l l') (hr : G.SameValue r r') :
    G.SameValue (.and l r) (.and l' r') := by
  intro calcSym σ
  simp only [exprCalc, hl calcSym, hr calcSym]

theorem SameValue.or (hl : G.SameValue l l') (hr : G.SameValue r r') :
    G.SameValue (.or l r) (.or l' r') := by
  intro calcSym σ
  simp only [exprCalc, hl calcSym, hr calcSym]

theorem sameValue_and_assoc (x l r : Expr ι) :
    G.SameValue (.and x (.and l r)) (.and (.and x l) r) := by
  intro calcSym σ
  simp only [exprCalc, Tristate.exprAnd_eq_min, min_assoc]

theorem sameValue_or_assoc (x l r : Expr ι) :
    G.SameValue (.or x (.or l r)) (.or (.or x l) r) := by
  intro calcSym σ
  simp only [exprCalc, Tristate.exprOr_eq_max, max_assoc]

end

/-! ### States of the parser -/

inductive Ready : List (ParseItem ι) → Prop
  | bottom : Ready []
  | not (st : List (ParseItem ι)) : Ready (.token .not :: st)
  | openParen (st : List (ParseItem ι)) : Ready (.token .openParen :: st)
  | or (st : List (ParseItem ι)) : Ready (.token .or :: st)
  | and (st : List (ParseItem ι)) : Ready (.token .and :: st)

inductive Outer : List (ParseItem ι) → Prop
  | bottom : Outer []
  | openParen (st : List (ParseItem ι)) : Outer (.token .openParen :: st)

/-- At most a disjunction is waiting for its right operand. -/
inductive OrLevel : List (ParseItem ι) → Prop
  | outer {st : List (ParseItem ι)} (h : Outer st) : OrLevel st
  | or (x : Expr ι) (st : List (ParseItem ι)) : OrLevel (.token .or :: .expr x :: st)

inductive AfterOr : List Token → Prop
  | nil : AfterOr []
  | closeParen (input : List Token) : AfterOr (.closeParen :: input)
  | or (input : List Token) : AfterOr (.or :: input)

inductive AfterAnd : List Token → Prop
  | afterOr {input : List Token} (h : AfterOr input) : AfterAnd input
  | and (input : List Token) : AfterAnd (.and :: input)

section
variable {lookup : Text → Option ι} {st : List (ParseItem ι)} {input : List Token} {s t : ι}
  {e l r : Expr ι}

theorem Outer.ready (h : Outer st) : Ready st := by
  cases h with
  | bottom => exact .bottom
  | openParen st => exact .openParen st

theorem OrLevel.ready (h : OrLevel st) : Ready st := by
  cases h with
  | outer h => exact h.ready
  | or x st => exact .or _

/-- The parser gets from one state to another. -/
def Reaches (lookup : Text → Option ι) (c c' : ParseState ι) : Prop :=
  Relation.ReflTransGen (fun a b => parseStep lookup a = some b) c c'

theorem parseStep_operand (h : Ready st) (input : List Token) :
    parseStep lookup (st, input) = shiftOperand lookup st input := by
  cases h <;> rfl

theorem parseStep_symbol (h : Ready st) (hinput : AfterAnd input) :
    parseStep lookup (.symbol s :: st, input) = some (.expr (.symbol s) :: st, input) := by
  rcases hinput with (_ | _ | _) | _ <;> cases h <;> rfl

theorem parseStep_equal (h : Ready st) (input : List Token) :
    parseStep lookup (.symbol s :: st, .equal :: input) =
      some (.token .equal :: .symbol s :: st, input) := by
  cases h <;> rfl

theorem parseStep_unequal (h : Ready st) (input : List Token) :
    parseStep lookup (.symbol s :: st, .unequal :: input) =
      some (.token .unequal :: .symbol s :: st, input) := by
  cases h <;> rfl

theorem parseStep_not (hinput : AfterAnd input) (st : List (ParseItem ι)) :
    parseStep lookup (.expr e :: .token .not :: st, input) =
      some (.expr (.not e) :: st, input) := by
  rcases hinput with (_ | _ | _) | _ <;> rfl

theorem parseStep_reduce_and (hinput : AfterAnd input) (st : List (ParseItem ι)) :
    parseStep lookup (.expr r :: .token .and :: .expr l :: st, input) =
      some (.expr (.and l r) :: st, input) := by
  rcases hinput with (_ | _ | _) | _ <;> rfl

theorem parseStep_reduce_or (hinput : AfterOr input) (st : List (ParseItem ι)) :
    parseStep lookup (.expr r :: .token .or :: .expr l :: st, input) =
      some (.expr (.or l r) :: st, input) := by
  cases hinput <;> rfl

theorem parseStep_shift_and (h : OrLevel st) (input : List Token) :
    parseStep lookup (.expr e :: st, .and :: input) =
      some (.token .and :: .expr e :: st, input) := by
  rcases h with (_ | _) | _ <;> rfl

theorem parseStep_shift_or (h : Outer st) (input : List Token) :
    parseStep lookup (.expr e :: st, .or :: input) =
      some (.token .or :: .expr e :: st, input) := by
  cases h <;> rfl

end

/-! ### What the parser makes of tokens -/

section
variable [DecidableEq ι] {tokens tokens' : List Token} {s t : ι} {e l r : Expr ι}

/-- The tokens are read as an operand with the value of `e`, whatever waits for it. -/
def ParsesOperand (G : SymbolTable ι) (tokens : List Token) (e : Expr ι) : Prop :=
  ∀ st input, Ready st → AfterAnd input → ∃ e',
    Reaches G.symLookup (st, tokens ++ input) (.expr e' :: st, input) ∧ G.SameValue e e'

/-- The tokens are read as a conjunction with the value of `e`, also when it goes on another one. -/
def ParsesAnd (G : SymbolTable ι) (tokens : List Token) (e : Expr ι) : Prop :=
  ∀ st input, OrLevel st → AfterAnd input →
    (∃ e', Reaches G.symLookup (st, tokens ++ input) (.expr e' :: st, input) ∧ G.SameValue e e') ∧
      ∀ x, ∃ e', Reaches G.symLookup (.token .and :: .expr x :: st, tokens ++ input)
        (.expr e' :: st, input) ∧ G.SameValue (.and x e) e'

/-- The tokens are read as a disjunction with the value of `e`, also when it goes on another one. -/
def ParsesOr (G : SymbolTable ι) (tokens : List Token) (e : Expr ι) : Prop :=
  ∀ st input, Outer st → AfterOr input →
    (∃ e', Reaches G.symLookup (st, tokens ++ input) (.expr e' :: st, input) ∧ G.SameValue e e') ∧
      ∀ x, ∃ e', Reaches G.symLookup (.token .or :: .expr x :: st, tokens ++ input)
        (.expr e' :: st, input) ∧ G.SameValue (.or x e) e'

theorem parsesOperand_symbol {name : Text} (h : G.symLookup name = some s) :
    G.ParsesOperand [.word name] (.symbol s) := by
  intro st input hst hinput
  have hshift : parseStep G.symLookup (st, .word name :: input) =
      some (.symbol s :: st, input) := by
    rw [parseStep_operand hst, shiftOperand, h]
    rfl
  exact ⟨.symbol s, .head hshift (.head (parseStep_symbol hst hinput) .refl), .refl _⟩

/-- A comparison, with the operator that is shifted behind its left symbol. -/
theorem parsesOperand_equal {name name' : Text} (hs : G.symLookup name = some s)
    (ht : G.symLookup name' = some t) :
    G.ParsesOperand [.word name, .equal, .word name'] (.equal s t) := by
  intro st input hst _
  have hleft : parseStep G.symLookup (st, .word name :: .equal :: .word name' :: input) =
      some (.symbol s :: st, .equal :: .word name' :: input) := by
    rw [parseStep_operand hst, shiftOperand, hs]
    rfl
  have hright : parseStep G.symLookup (.token .equal :: .symbol s :: st, .word name' :: input) =
      some (.symbol t :: .token .equal :: .symbol s :: st, input) := by
    simp only [parseStep, shiftOperand, ht, Option.map_some]
  have hreduce : parseStep G.symLookup (.symbol t :: .token .equal :: .symbol s :: st, input) =
      some (.expr (.equal s t) :: st, input) := rfl
  exact ⟨.equal s t, .head hleft (.head (parseStep_equal hst _) (.head hright
    (.head hreduce .refl))), .refl _⟩

theorem parsesOperand_unequal {name name' : Text} (hs : G.symLookup name = some s)
    (ht : G.symLookup name' = some t) :
    G.ParsesOperand [.word name, .unequal, .word name'] (.unequal s t) := by
  intro st input hst _
  have hleft : parseStep G.symLookup (st, .word name :: .unequal :: .word name' :: input) =
      some (.symbol s :: st, .unequal :: .word name' :: input) := by
    rw [parseStep_operand hst, shiftOperand, hs]
    rfl
  have hright : parseStep G.symLookup (.token .unequal :: .symbol s :: st, .word name' :: input) =
      some (.symbol t :: .token .unequal :: .symbol s :: st, input) := by
    simp only [parseStep, shiftOperand, ht, Option.map_some]
  have hreduce : parseStep G.symLookup (.symbol t :: .token .unequal :: .symbol s :: st, input) =
      some (.expr (.unequal s t) :: st, input) := rfl
  exact ⟨.unequal s t, .head hleft (.head (parseStep_unequal hst _) (.head hright
    (.head hreduce .refl))), .refl _⟩

theorem ParsesOperand.not (h : G.ParsesOperand tokens e) :
    G.ParsesOperand (.not :: tokens) (.not e) := by
  intro st input hst hinput
  obtain ⟨e', hreach, hvalue⟩ := h (.token .not :: st) input (.not st) hinput
  refine ⟨.not e', ?_, hvalue.not⟩
  have hshift : parseStep G.symLookup (st, .not :: (tokens ++ input)) =
      some (.token .not :: st, tokens ++ input) := parseStep_operand hst _
  exact .head hshift (hreach.trans (.head (parseStep_not hinput st) .refl))

theorem ParsesOperand.parsesAnd (h : G.ParsesOperand tokens e) : G.ParsesAnd tokens e := by
  intro st input hst hinput
  refine ⟨h st input hst.ready hinput, fun x => ?_⟩
  obtain ⟨e', hreach, hvalue⟩ := h (.token .and :: .expr x :: st) input (.and _) hinput
  exact ⟨.and x e', hreach.trans (.head (parseStep_reduce_and hinput st) .refl),
    (SameValue.refl x).and hvalue⟩

theorem ParsesAnd.parsesOr (h : G.ParsesAnd tokens e) : G.ParsesOr tokens e := by
  intro st input hst hinput
  refine ⟨(h st input (.outer hst) (.afterOr hinput)).1, fun x => ?_⟩
  obtain ⟨e', hreach, hvalue⟩ :=
    (h (.token .or :: .expr x :: st) input (.or x st) (.afterOr hinput)).1
  exact ⟨.or x e', hreach.trans (.head (parseStep_reduce_or hinput st) .refl),
    (SameValue.refl x).or hvalue⟩

theorem ParsesOr.paren (h : G.ParsesOr tokens e) :
    G.ParsesOperand (.openParen :: tokens ++ [.closeParen]) e := by
  intro st input hst _
  obtain ⟨⟨e', hreach, hvalue⟩, -⟩ :=
    h (.token .openParen :: st) (.closeParen :: input) (.openParen st) (.closeParen input)
  have hshift : parseStep G.symLookup (st, .openParen :: (tokens ++ .closeParen :: input)) =
      some (.token .openParen :: st, tokens ++ .closeParen :: input) := parseStep_operand hst _
  have hclose : parseStep G.symLookup (.expr e' :: .token .openParen :: st, .closeParen :: input) =
      some (.token .closeParen :: .expr e' :: .token .openParen :: st, input) := rfl
  have hparen : parseStep G.symLookup
      (.token .closeParen :: .expr e' :: .token .openParen :: st, input) =
        some (.expr e' :: st, input) := rfl
  refine ⟨e', ?_, hvalue⟩
  rw [List.cons_append, List.cons_append, List.append_assoc]
  exact .head hshift (hreach.trans (.head hclose (.head hparen .refl)))

theorem ParsesAnd.and (hl : G.ParsesAnd tokens l) (hr : G.ParsesAnd tokens' r) :
    G.ParsesAnd (tokens ++ .and :: tokens') (.and l r) := by
  intro st input hst hinput
  rw [List.append_assoc, List.cons_append]
  obtain ⟨⟨l', hreach, hvalue⟩, hmore⟩ := hl st (.and :: (tokens' ++ input)) hst (.and _)
  constructor
  · obtain ⟨e', hreach', hvalue'⟩ := (hr st input hst hinput).2 l'
    refine ⟨e', hreach.trans (.head (parseStep_shift_and hst _) hreach'), ?_⟩
    exact (hvalue.and (.refl r)).trans hvalue'
  · intro x
    obtain ⟨l', hreach, hvalue⟩ := hmore x
    obtain ⟨e', hreach', hvalue'⟩ := (hr st input hst hinput).2 l'
    refine ⟨e', hreach.trans (.head (parseStep_shift_and hst _) hreach'), ?_⟩
    exact (sameValue_and_assoc x l r).trans ((hvalue.and (.refl r)).trans hvalue')

theorem ParsesOr.or (hl : G.ParsesOr tokens l) (hr : G.ParsesOr tokens' r) :
    G.ParsesOr (tokens ++ .or :: tokens') (.or l r) := by
  intro st input hst hinput
  rw [List.append_assoc, List.cons_append]
  obtain ⟨⟨l', hreach, hvalue⟩, hmore⟩ := hl st (.or :: (tokens' ++ input)) hst (.or _)
  constructor
  · obtain ⟨e', hreach', hvalue'⟩ := (hr st input hst hinput).2 l'
    refine ⟨e', hreach.trans (.head (parseStep_shift_or hst _) hreach'), ?_⟩
    exact (hvalue.or (.refl r)).trans hvalue'
  · intro x
    obtain ⟨l', hreach, hvalue⟩ := hmore x
    obtain ⟨e', hreach', hvalue'⟩ := (hr st input hst hinput).2 l'
    refine ⟨e', hreach.trans (.head (parseStep_shift_or hst _) hreach'), ?_⟩
    exact (sameValue_or_assoc x l r).trans ((hvalue.or (.refl r)).trans hvalue')

end

/-! ### Printed expressions -/

section
variable [DecidableEq ι] {s : ι} {e : Expr ι}

omit [DecidableEq ι] in
/-- The symbols that the text of an expression gives back. -/
theorem Parsed.lookup_name (hG : G.Parsed) (hs : G.Nameable s) (hchoice : G.isChoice s = false) :
    G.symLookup (G.printedName s) = some s ∧ G.printedName s = (G.symbol s).name.getD [] := by
  obtain ⟨hname, hconst⟩ := hs
  obtain ⟨name, hname⟩ := Option.ne_none_iff_exists'.mp hname
  unfold printedName
  rw [hname, Option.getD_some, Option.getD_some]
  refine ⟨?_, rfl⟩
  rcases hconst with hconst | rfl | rfl | rfl
  · exact hG.lookup s name hconst hchoice hname
  · cases hG.yes.symm.trans hname
    rfl
  · cases hG.mod.symm.trans hname
    rfl
  · cases hG.no.symm.trans hname
    rfl

/-- An operand is read back whatever it is printed for. -/
theorem parses_of_operand (h : G.ParsesOperand (G.exprTokens .not e) e)
    (hand : G.exprTokens .and e = G.exprTokens .not e)
    (hor : G.exprTokens .or e = G.exprTokens .not e) :
    G.ParsesOperand (G.exprTokens .not e) e ∧ G.ParsesAnd (G.exprTokens .and e) e ∧
      G.ParsesOr (G.exprTokens .or e) e := by
  rw [hand, hor]
  exact ⟨h, h.parsesAnd, h.parsesAnd.parsesOr⟩

theorem Parsed.parses (hG : G.Parsed) (e : Expr ι)
    (he : ∀ s ∈ e.symbols, G.Nameable s ∧ G.isChoice s = false) :
    G.ParsesOperand (G.exprTokens .not e) e ∧ G.ParsesAnd (G.exprTokens .and e) e ∧
      G.ParsesOr (G.exprTokens .or e) e := by
  have hlookup (s : ι) (hs : s ∈ e.symbols) := hG.lookup_name (he s hs).1 (he s hs).2
  induction e with
  | symbol s =>
    exact parses_of_operand (parsesOperand_symbol (hlookup s List.mem_cons_self).1) rfl rfl
  | not e ih => exact parses_of_operand (ih he hlookup).1.not rfl rfl
  | equal s t =>
    have ht := hlookup t (List.mem_cons_of_mem s List.mem_cons_self)
    rw [ht.2] at ht
    exact parses_of_operand (parsesOperand_equal (hlookup s List.mem_cons_self).1 ht.1) rfl rfl
  | unequal s t =>
    have ht := hlookup t (List.mem_cons_of_mem s List.mem_cons_self)
    rw [ht.2] at ht
    exact parses_of_operand (parsesOperand_unequal (hlookup s List.mem_cons_self).1 ht.1) rfl rfl
  | and l r ihl ihr =>
    have hl := ihl (fun s hs => he s (List.mem_append_left _ hs)) fun s hs =>
      hlookup s (List.mem_append_left _ hs)
    have hr := ihr (fun s hs => he s (List.mem_append_right _ hs)) fun s hs =>
      hlookup s (List.mem_append_right _ hs)
    have hand : G.ParsesAnd (G.exprTokens .and (.and l r)) (.and l r) := hl.2.1.and hr.2.1
    exact ⟨hand.parsesOr.paren, hand, hand.parsesOr⟩
  | or l r ihl ihr =>
    have hl := ihl (fun s hs => he s (List.mem_append_left _ hs)) fun s hs =>
      hlookup s (List.mem_append_left _ hs)
    have hr := ihr (fun s hs => he s (List.mem_append_right _ hs)) fun s hs =>
      hlookup s (List.mem_append_right _ hs)
    have hor : G.ParsesOr (G.exprTokens .or (.or l r)) (.or l r) := hl.2.2.or hr.2.2
    exact ⟨hor.paren, hor.paren.parsesAnd, hor⟩

end

/-! ### The number of steps -/

def itemWeight : ParseItem ι → ℕ
  | .token _ => 1
  | .symbol _ => 2
  | .expr _ => 1

def parseWeight (c : ParseState ι) : ℕ := 3 * c.2.length + (c.1.map itemWeight).sum

section
variable {lookup : Text → Option ι} {st : List (ParseItem ι)} {input : List Token} {e : Expr ι}
  {c c' : ParseState ι}

theorem parseWeight_shiftOperator (h : shiftOperator e st input = some c') :
    parseWeight c' < parseWeight (.expr e :: st, input) := by
  unfold shiftOperator at h
  split at h
  · cases h
    simp only [parseWeight, List.map_cons, List.sum_cons, itemWeight, List.length_cons]
    omega
  · cases h
    simp only [parseWeight, List.map_cons, List.sum_cons, itemWeight, List.length_cons]
    omega
  · split at h
    · cases h
      simp only [parseWeight, List.map_cons, List.sum_cons, itemWeight, List.length_cons]
      omega
    · cases h
  · cases h

theorem parseWeight_shiftOperand (h : shiftOperand lookup st input = some c') :
    parseWeight c' < parseWeight (st, input) := by
  unfold shiftOperand at h
  split at h
  · obtain ⟨s, -, rfl⟩ := Option.map_eq_some_iff.mp h
    simp only [parseWeight, List.map_cons, List.sum_cons, itemWeight, List.length_cons]
    omega
  · cases h
    simp only [parseWeight, List.map_cons, List.sum_cons, itemWeight, List.length_cons]
    omega
  · cases h
    simp only [parseWeight, List.map_cons, List.sum_cons, itemWeight, List.length_cons]
    omega
  · cases h

/-- Every step makes the state lighter. -/
theorem parseWeight_parseStep (h : parseStep lookup c = some c') :
    parseWeight c' < parseWeight c := by
  have hreduce (a b : ParseState ι) (hlt : parseWeight b < parseWeight a)
      (hb : some b = some c') : parseWeight c' < parseWeight a := by
    cases hb
    exact hlt
  unfold parseStep at h
  split at h
  · refine hreduce _ _ ?_ h
    simp only [parseWeight, List.map_cons, List.sum_cons, itemWeight]
    omega
  · refine hreduce _ _ ?_ h
    simp only [parseWeight, List.map_cons, List.sum_cons, itemWeight]
    omega
  · refine hreduce _ _ ?_ h
    simp only [parseWeight, List.map_cons, List.sum_cons, itemWeight, List.length_cons]
    omega
  · refine hreduce _ _ ?_ h
    simp only [parseWeight, List.map_cons, List.sum_cons, itemWeight, List.length_cons]
    omega
  · refine hreduce _ _ ?_ h
    simp only [parseWeight, List.map_cons, List.sum_cons, itemWeight]
    omega
  · refine hreduce _ _ ?_ h
    simp only [parseWeight, List.map_cons, List.sum_cons, itemWeight]
    omega
  · split at h
    · refine hreduce _ _ ?_ h
      simp only [parseWeight, List.map_cons, List.sum_cons, itemWeight]
      omega
    · exact parseWeight_shiftOperator h
  · split at h
    · refine hreduce _ _ ?_ h
      simp only [parseWeight, List.map_cons, List.sum_cons, itemWeight]
      omega
    · exact parseWeight_shiftOperator h
  · split at h
    · refine hreduce _ _ ?_ h
      simp only [parseWeight, List.map_cons, List.sum_cons, itemWeight]
      omega
    · exact parseWeight_shiftOperator h
  · exact parseWeight_shiftOperator h
  · exact parseWeight_shiftOperand h

/-- The steps are enough to get to a state in which there is none. -/
theorem parseFuel_of_reaches (h : Reaches lookup c c') (hend : parseStep lookup c' = none) {n : ℕ}
    (hn : parseWeight c ≤ n) : parseFuel lookup n c = c' := by
  induction h using Relation.ReflTransGen.head_induction_on generalizing n with
  | refl =>
    cases n with
    | zero => rfl
    | succ n => rw [parseFuel, hend]
  | head hstep _ ih =>
    have hlt := parseWeight_parseStep hstep
    obtain ⟨n, rfl⟩ := Nat.exists_eq_add_of_lt (Nat.lt_of_lt_of_le (Nat.zero_lt_of_lt hlt) hn)
    rw [parseFuel, hstep]
    exact ih (by omega)

end

/-- Every expression whose symbols are no choices is read back with its value. -/
theorem exists_reparse_sameValue [DecidableEq ι] (hG : G.Parsed) (e : Expr ι)
    (he : ∀ s ∈ e.symbols, G.Nameable s ∧ G.isChoice s = false) :
    ∃ e', G.reparse e = some e' ∧ G.SameValue e e' := by
  obtain ⟨⟨e', hreach, hvalue⟩, -⟩ := (hG.parses e he).2.2 [] [] .bottom .nil
  refine ⟨e', ?_, hvalue⟩
  have htokens : G.exprTokens .none e = G.exprTokens .or e := by cases e <;> rfl
  have hend : Boundary [] := nofun
  have hscan := hG.scan_exprPrint .none e (fun s hs => (he s hs).1) hend
  rw [List.append_nil, htokens] at hscan
  have hweight : parseWeight (([] : List (ParseItem ι)), G.exprTokens .or e) ≤
      3 * (G.exprTokens .or e).length := le_rfl
  rw [List.append_nil] at hreach
  have hnil : scanParam [] [] = [] := rfl
  rw [hnil, List.append_nil] at hscan
  unfold reparse parseExpr
  rw [hscan, parseFuel_of_reaches hreach rfl hweight]

end SymbolTable

namespace NamedSymbols

/-- The symbols of a tree with a boolean `FOO`, a boolean `BAR` and a choice `FOO`. -/
inductive Name
  | y | m | n | foo | bar | choice
  deriving DecidableEq

open Name

def table : SymbolTable Name where
  symbolYes := y
  symbolMod := m
  symbolNo := n
  symbolHash := [choice, bar, foo]
  modulesSym := n
  symbol
    | y => { name := some ['y'], type := .unknown, flagConst := true }
    | m => { name := some ['m'], type := .unknown, flagConst := true }
    | n => { name := some ['n'], type := .unknown, flagConst := true }
    | foo => { name := some ['F', 'O', 'O'], type := .boolean }
    | bar => { name := some ['B', 'A', 'R'], type := .boolean }
    | choice => { name := some ['F', 'O', 'O'], type := .boolean, flagChoice := true }

theorem parsed : table.Parsed where
  word s name hconst hname := by
    cases s <;> cases hname <;> exact ⟨isWord_of_all (by decide) (by decide), rfl⟩
  lookup s name hconst hchoice hname := by
    cases s <;> cases hname <;> first | rfl | exact absurd hchoice (by decide)
  yes := rfl
  mod := rfl
  no := rfl

/-- `!(FOO=y && (BAR || !FOO))` -/
def nested : Expr Name := .not (.and (.equal foo y) (.or (.symbol bar) (.not (.symbol foo))))

theorem exists_reparse_nested : ∃ e', table.reparse nested = some e' ∧ table.SameValue nested e' := by
  apply SymbolTable.exists_reparse_sameValue parsed
  intro s hs
  have hmem : s = foo ∨ s = y ∨ s = bar ∨ s = foo := by simpa [nested, Expr.symbols] using hs
  rcases hmem with rfl | rfl | rfl | rfl <;> exact ⟨⟨by decide, by decide⟩, rfl⟩

/-- The text of a choice names another symbol. -/
theorem not_exists_reparse_choice :
    ¬∀ (G : SymbolTable Name) (e : Expr Name), G.Parsed → (∀ s ∈ e.symbols, G.Nameable s) →
      ∃ e', G.reparse e = some e' ∧ G.SameValue e e' := by
  intro h
  obtain ⟨e', hparse, hvalue⟩ := h table (.symbol choice) parsed fun s hs => by
    obtain rfl := List.mem_singleton.mp hs
    exact ⟨by decide, .inl rfl⟩
  have hfoo : table.reparse (.symbol choice) = some (.symbol foo) := by decide
  obtain rfl := Option.some.inj (hfoo.symm.trans hparse)
  have heq := congrArg Prod.fst (hvalue (fun _ σ => σ)
    ⟨fun s => { curr := ⟨.null, if s = choice then .yes else .no⟩ }, .no, 0⟩)
  revert heq
  decide

end NamedSymbols
end OpenADK.Kconfig
