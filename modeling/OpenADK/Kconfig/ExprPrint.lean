import OpenADK.Kconfig.ValueLines
import OpenADK.Kconfig.Recursion

/-!
# Printing and parsing expressions

`expr_print`, and what the scanner and the grammar of the Kconfig language make of its text. The
parser is the shift-reduce machine of the grammar, whose conflicts the declared precedences decide.
-/

namespace OpenADK.Kconfig

/-- `enum expr_type`, as far as dependency expressions use it. -/
inductive ExprType
  | none
  | or
  | and
  | not
  | equal
  | unequal
  | list
  | symbol
  deriving DecidableEq

namespace ExprType

/-- `expr_compare_type` from the label `E_LIST` on; every label falls through to the next. -/
def fromList (t2 : ExprType) : ℤ := if t2 = none then 1 else -1

def fromOr (t2 : ExprType) : ℤ := if t2 = list then 1 else fromList t2

def fromAnd (t2 : ExprType) : ℤ := if t2 = or then 1 else fromOr t2

def fromNot (t2 : ExprType) : ℤ := if t2 = and then 1 else fromAnd t2

def fromEqual (t2 : ExprType) : ℤ := if t2 = not then 1 else fromNot t2

end ExprType

/-- `expr_compare_type`. -/
def exprCompareType (t1 t2 : ExprType) : ℤ :=
  if t1 = t2 then 0
  else
    match t1 with
    | .equal | .unequal => t2.fromEqual
    | .not => t2.fromNot
    | .and => t2.fromAnd
    | .or => t2.fromOr
    | .list => t2.fromList
    | _ => -1

namespace Expr

def type {ι : Type} : Expr ι → ExprType
  | .symbol _ => .symbol
  | .not _ => .not
  | .equal _ _ => .equal
  | .unequal _ _ => .unequal
  | .and _ _ => .and
  | .or _ _ => .or

end Expr

/-! ### The scanner and the grammar -/

inductive Token
  | word (name : Text)
  | kwIf
  | kwOn
  | or
  | and
  | equal
  | unequal
  | not
  | openParen
  | closeParen
  | eol
  | quote
  deriving DecidableEq

def wordToken (w : Text) : List Token :=
  if w = [] ∨ w = ['-', '-', '-'] then []
  else if w = ['i', 'f'] then [.kwIf]
  else if w = ['o', 'n'] then [.kwOn]
  else [.word w]

/-- The start condition `PARAM` of the scanner; `w` is the word that is being read. What follows a
quotation mark is not scanned. -/
def scanParam (w : Text) : Text → List Token
  | [] => wordToken w
  | c :: cs =>
    if isWordChar c then scanParam (w ++ [c]) cs
    else wordToken w ++
      match c, cs with
      | '&', '&' :: cs => .and :: scanParam [] cs
      | '|', '|' :: cs => .or :: scanParam [] cs
      | '!', '=' :: cs => .unequal :: scanParam [] cs
      | '(', cs => .openParen :: scanParam [] cs
      | ')', cs => .closeParen :: scanParam [] cs
      | '!', cs => .not :: scanParam [] cs
      | '=', cs => .equal :: scanParam [] cs
      | '"', _ => [.quote]
      | '\'', _ => [.quote]
      | '\n', _ => [.eol]
      | '#', cs => if '\n' ∈ cs then [.eol] else []
      | '\\', '\n' :: cs => scanParam [] cs
      | _, cs => scanParam [] cs

namespace Token

/-- The declared precedences, the lowest first. -/
def prec : Token → ℕ
  | .or => 1
  | .and => 2
  | .equal | .unequal => 3
  | .not => 4
  | _ => 0

/-- The tokens declared with `%left`. -/
def left : Token → Bool
  | .or | .and | .equal | .unequal => true
  | _ => false

/-- Whether a rule with the precedence of `rule` is reduced rather than the next token shifted. -/
def reduces (rule : Token) : List Token → Bool
  | [] => true
  | next :: _ => next.prec < rule.prec || (next.prec = rule.prec && rule.left)

end Token

inductive ParseItem (ι : Type)
  | token (t : Token)
  | symbol (s : ι)
  | expr (e : Expr ι)

/-- The stack, its top first, and the tokens that are left. -/
abbrev ParseState (ι : Type) := List (ParseItem ι) × List Token

section
variable {ι : Type}

def shiftOperator (e : Expr ι) (st : List (ParseItem ι)) : List Token → Option (ParseState ι)
  | .or :: input => some (.token .or :: .expr e :: st, input)
  | .and :: input => some (.token .and :: .expr e :: st, input)
  | .closeParen :: input =>
    match st with
    | .token .openParen :: _ => some (.token .closeParen :: .expr e :: st, input)
    | _ => none
  | _ => none

def shiftOperand (lookup : Text → Option ι) (st : List (ParseItem ι)) :
    List Token → Option (ParseState ι)
  | .word name :: input => (lookup name).map fun s => (.symbol s :: st, input)
  | .not :: input => some (.token .not :: st, input)
  | .openParen :: input => some (.token .openParen :: st, input)
  | _ => none

/-- One step of the parser: a rule of `expr` is reduced, or a token is shifted. -/
def parseStep (lookup : Text → Option ι) : ParseState ι → Option (ParseState ι)
  | (.symbol t :: .token .equal :: .symbol s :: st, input) => some (.expr (.equal s t) :: st, input)
  | (.symbol t :: .token .unequal :: .symbol s :: st, input) =>
    some (.expr (.unequal s t) :: st, input)
  | (.symbol s :: st, .equal :: input) => some (.token .equal :: .symbol s :: st, input)
  | (.symbol s :: st, .unequal :: input) => some (.token .unequal :: .symbol s :: st, input)
  | (.symbol s :: st, input) => some (.expr (.symbol s) :: st, input)
  | (.token .closeParen :: .expr e :: .token .openParen :: st, input) => some (.expr e :: st, input)
  | (.expr e :: .token .not :: st, input) =>
    if Token.not.reduces input then some (.expr (.not e) :: st, input)
    else shiftOperator e (.token .not :: st) input
  | (.expr r :: .token .or :: .expr l :: st, input) =>
    if Token.or.reduces input then some (.expr (.or l r) :: st, input)
    else shiftOperator r (.token .or :: .expr l :: st) input
  | (.expr r :: .token .and :: .expr l :: st, input) =>
    if Token.and.reduces input then some (.expr (.and l r) :: st, input)
    else shiftOperator r (.token .and :: .expr l :: st) input
  | (.expr e :: st, input) => shiftOperator e st input
  | (st, input) => shiftOperand lookup st input

def parseFuel (lookup : Text → Option ι) : ℕ → ParseState ι → ParseState ι
  | 0, c => c
  | n + 1, c =>
    match parseStep lookup c with
    | none => c
    | some c => parseFuel lookup n c

/-- The expression that the tokens are parsed to. At most three steps are made for each token: it is
shifted, a word is made a symbol, and a rule is reduced. -/
def parseExpr (lookup : Text → Option ι) (input : List Token) : Option (Expr ι) :=
  match parseFuel lookup (3 * input.length) ([], input) with
  | ([.expr e], []) => some e
  | _ => none

end

/-! ### `expr_print` -/

namespace SymbolTable
variable {ι : Type} (G : SymbolTable ι)

/-- The name of the left symbol of a comparison and of a symbol. -/
def printedName (s : ι) : Text := (G.symbol s).name.getD ['<', 'c', 'h', 'o', 'i', 'c', 'e', '>']

def exprPrint (prevtoken : ExprType) (e : Expr ι) : Text :=
  let body := match e with
    | .symbol s => G.printedName s
    | .not e => '!' :: exprPrint .not e
    | .equal s t => G.printedName s ++ '=' :: (G.symbol t).name.getD []
    | .unequal s t => G.printedName s ++ '!' :: '=' :: (G.symbol t).name.getD []
    | .or l r => exprPrint .or l ++ [' ', '|', '|', ' '] ++ exprPrint .or r
    | .and l r => exprPrint .and l ++ [' ', '&', '&', ' '] ++ exprPrint .and r
  if exprCompareType prevtoken e.type > 0 then '(' :: body ++ [')'] else body

/-- `sym_lookup (name, 0)`, as long as it finds a symbol. -/
def symLookup (name : Text) : Option ι :=
  match name with
  | ['y'] => some G.symbolYes
  | ['m'] => some G.symbolMod
  | ['n'] => some G.symbolNo
  | name => G.symbolHash.find? fun s =>
      (G.symbol s).name = some name ∧ ¬(G.symbol s).flagConst ∧ ¬(G.symbol s).flagChoice

/-- The names of symbols that are no constants are words of the scanner, and `sym_lookup` finds the
symbols that are no choices. -/
structure Parsed : Prop where
  word : ∀ s name, (G.symbol s).flagConst = false → (G.symbol s).name = some name →
    IsWord name ∧ wordToken name = [.word name]
  lookup : ∀ s name, (G.symbol s).flagConst = false → G.isChoice s = false →
    (G.symbol s).name = some name → G.symLookup name = some s
  yes : (G.symbol G.symbolYes).name = some ['y']
  mod : (G.symbol G.symbolMod).name = some ['m']
  no : (G.symbol G.symbolNo).name = some ['n']

/-- The symbols that an expression of the Kconfig language can name. -/
def Nameable (s : ι) : Prop :=
  (G.symbol s).name ≠ none ∧
    ((G.symbol s).flagConst = false ∨ s = G.symbolYes ∨ s = G.symbolMod ∨ s = G.symbolNo)

/-- The expression that the grammar makes of the text of an expression. -/
def reparse (e : Expr ι) : Option (Expr ι) := parseExpr G.symLookup (scanParam [] (G.exprPrint .none e))

/-- Two expressions with the same `expr_calc_value` under every valuation. -/
def SameValue [DecidableEq ι] (e e' : Expr ι) : Prop :=
  ∀ (calcSym : Calc ι) (σ : State ι), exprCalc G calcSym e' σ = exprCalc G calcSym e σ

/-! ### What the scanner returns -/

def exprTokens (prevtoken : ExprType) (e : Expr ι) : List Token :=
  let body := match e with
    | .symbol s => [.word (G.printedName s)]
    | .not e => .not :: exprTokens .not e
    | .equal s t => [.word (G.printedName s), .equal, .word ((G.symbol t).name.getD [])]
    | .unequal s t => [.word (G.printedName s), .unequal, .word ((G.symbol t).name.getD [])]
    | .or l r => exprTokens .or l ++ .or :: exprTokens .or r
    | .and l r => exprTokens .and l ++ .and :: exprTokens .and r
  if exprCompareType prevtoken e.type > 0 then .openParen :: body ++ [.closeParen] else body

def Boundary (rest : Text) : Prop := ∀ c ∈ rest.head?, isWordChar c = false

section
variable {w name rest : Text} {c : Char} {s : ι} {p : ExprType}

theorem scanParam_flush (h : Boundary rest) (w : Text) :
    scanParam w rest = wordToken w ++ scanParam [] rest := by
  cases rest with
  | nil => exact (List.append_nil _).symm
  | cons c cs =>
    have hc : ¬isWordChar c = true := by
      rw [h c rfl]
      exact Bool.false_ne_true
    unfold scanParam
    rw [if_neg hc, if_neg hc]
    rfl

theorem scanParam_cons (h : isWordChar c = true) (w cs : Text) :
    scanParam w (c :: cs) = scanParam (w ++ [c]) cs := by
  conv_lhs => unfold scanParam
  exact if_pos h

theorem scanParam_word (h : ∀ c ∈ name, isWordChar c = true) (w rest : Text) :
    scanParam w (name ++ rest) = scanParam (w ++ name) rest := by
  induction name generalizing w with
  | nil => rw [List.nil_append, List.append_nil]
  | cons c name ih =>
    rw [List.cons_append, scanParam_cons (h c List.mem_cons_self),
      ih (fun d hd => h d (List.mem_cons_of_mem c hd)), List.append_assoc]
    rfl

theorem scanParam_openParen (cs : Text) : scanParam [] ('(' :: cs) = .openParen :: scanParam [] cs :=
  rfl

theorem scanParam_closeParen (cs : Text) :
    scanParam [] (')' :: cs) = .closeParen :: scanParam [] cs := rfl

theorem scanParam_equal (cs : Text) : scanParam [] ('=' :: cs) = .equal :: scanParam [] cs := rfl

theorem scanParam_unequal (cs : Text) :
    scanParam [] ('!' :: '=' :: cs) = .unequal :: scanParam [] cs := rfl

theorem scanParam_and (cs : Text) :
    scanParam [] (' ' :: '&' :: '&' :: ' ' :: cs) = .and :: scanParam [] cs := rfl

theorem scanParam_or (cs : Text) :
    scanParam [] (' ' :: '|' :: '|' :: ' ' :: cs) = .or :: scanParam [] cs := rfl

/-- `!` is no operator of its own in front of an equals sign. -/
theorem scanParam_not (h : c ≠ '=') (cs : Text) :
    scanParam [] ('!' :: c :: cs) = .not :: scanParam [] (c :: cs) := by
  conv_lhs => unfold scanParam
  rw [if_neg (by decide)]
  split <;> simp_all [wordToken]

variable {G}

theorem Parsed.exists_name (hG : G.Parsed) (hs : G.Nameable s) :
    ∃ name, (G.symbol s).name = some name ∧ IsWord name ∧ wordToken name = [.word name] := by
  obtain ⟨hname, hconst | rfl | rfl | rfl⟩ := hs
  · obtain ⟨name, hname⟩ := Option.ne_none_iff_exists'.mp hname
    exact ⟨name, hname, hG.word s name hconst hname⟩
  · exact ⟨_, hG.yes, isWord_of_all (by decide) (by decide), rfl⟩
  · exact ⟨_, hG.mod, isWord_of_all (by decide) (by decide), rfl⟩
  · exact ⟨_, hG.no, isWord_of_all (by decide) (by decide), rfl⟩

theorem Parsed.scan_name (hG : G.Parsed) (hs : G.Nameable s) (h : Boundary rest) :
    scanParam [] (G.printedName s ++ rest) = .word (G.printedName s) :: scanParam [] rest ∧
      G.printedName s = (G.symbol s).name.getD [] := by
  obtain ⟨name, hname, hword, htoken⟩ := hG.exists_name hs
  unfold printedName
  rw [hname, Option.getD_some, Option.getD_some, scanParam_word hword.2, List.nil_append,
    scanParam_flush h, htoken]
  exact ⟨rfl, rfl⟩

/-- No text of an expression begins with an equals sign. -/
theorem Parsed.head_exprPrint (hG : G.Parsed) (p : ExprType) (e : Expr ι)
    (he : ∀ s ∈ e.symbols, G.Nameable s) : ∃ c cs, G.exprPrint p e = c :: cs ∧ c ≠ '=' := by
  have hname (s : ι) (hs : G.Nameable s) : ∃ c cs, G.printedName s = c :: cs ∧ c ≠ '=' := by
    obtain ⟨name, hname, hword, -⟩ := hG.exists_name hs
    obtain ⟨c, cs, rfl⟩ := List.exists_cons_of_ne_nil hword.1
    refine ⟨c, cs, by rw [printedName, hname, Option.getD_some], ?_⟩
    exact isWordChar_ne (hword.2 c List.mem_cons_self) (by decide)
  have hbody (p q : ExprType) (body : Text) (hb : ∃ c cs, body = c :: cs ∧ c ≠ '=') :
      ∃ c cs, (if exprCompareType p q > 0 then '(' :: body ++ [')'] else body) = c :: cs ∧
        c ≠ '=' := by
    split
    · exact ⟨'(', _, rfl, by decide⟩
    · exact hb
  have happend {body : Text} (hb : ∃ c cs, body = c :: cs ∧ c ≠ '=') (rest : Text) :
      ∃ c cs, body ++ rest = c :: cs ∧ c ≠ '=' := by
    obtain ⟨c, cs, rfl, hc⟩ := hb
    exact ⟨c, cs ++ rest, rfl, hc⟩
  induction e generalizing p with
  | symbol s =>
    unfold exprPrint
    exact hbody _ _ _ (hname s (he s List.mem_cons_self))
  | not e ih =>
    unfold exprPrint
    exact hbody _ _ _ ⟨'!', _, rfl, by decide⟩
  | equal s t =>
    unfold exprPrint
    exact hbody _ _ _ (happend (hname s (he s List.mem_cons_self)) _)
  | unequal s t =>
    unfold exprPrint
    exact hbody _ _ _ (happend (hname s (he s List.mem_cons_self)) _)
  | and l r ihl ihr =>
    unfold exprPrint
    refine hbody _ _ _ ?_
    simp only [List.append_assoc]
    exact happend (ihl .and fun s hs => he s (List.mem_append_left _ hs)) _
  | or l r ihl ihr =>
    unfold exprPrint
    refine hbody _ _ _ ?_
    simp only [List.append_assoc]
    exact happend (ihl .or fun s hs => he s (List.mem_append_left _ hs)) _

/-- The scanner finds the tokens of the printed text. -/
theorem Parsed.scan_exprPrint (hG : G.Parsed) (p : ExprType) (e : Expr ι)
    (he : ∀ s ∈ e.symbols, G.Nameable s) (h : Boundary rest) :
    scanParam [] (G.exprPrint p e ++ rest) = G.exprTokens p e ++ scanParam [] rest := by
  have hbody (p q : ExprType) (body : Text) (tokens : List Token) {rest : Text}
      (hrest : Boundary rest)
      (hb : ∀ rest, Boundary rest → scanParam [] (body ++ rest) = tokens ++ scanParam [] rest) :
      scanParam [] ((if exprCompareType p q > 0 then '(' :: body ++ [')'] else body) ++ rest) =
        (if exprCompareType p q > 0 then .openParen :: tokens ++ [.closeParen] else tokens) ++
          scanParam [] rest := by
    split
    · have hclose : Boundary (')' :: rest) := by
        intro c hc
        cases hc
        rfl
      have hscan := hb _ hclose
      rw [scanParam_closeParen] at hscan
      rw [List.cons_append, List.cons_append, scanParam_openParen, List.append_assoc,
        List.singleton_append, hscan]
      simp
    · exact hb rest hrest
  induction e generalizing p rest with
  | symbol s =>
    unfold exprPrint exprTokens
    exact hbody _ _ _ _ h fun rest hrest => (hG.scan_name (he s List.mem_cons_self) hrest).1
  | not e ih =>
    unfold exprPrint exprTokens
    refine hbody _ _ _ _ h fun rest hrest => ?_
    obtain ⟨c, cs, heq, hc⟩ := hG.head_exprPrint .not e he
    have hscan := ih .not he hrest
    simp only
    rw [heq] at hscan ⊢
    rw [List.cons_append, List.cons_append, scanParam_not hc, ← List.cons_append, hscan]
    rfl
  | equal s t =>
    unfold exprPrint exprTokens
    refine hbody _ _ _ _ h fun rest hrest => ?_
    have hequal : Boundary ('=' :: ((G.symbol t).name.getD [] ++ rest)) := by
      intro c hc
      cases hc
      rfl
    obtain ⟨hright, hname⟩ := hG.scan_name (he t (List.mem_cons_of_mem s List.mem_cons_self)) hrest
    simp only
    rw [List.append_assoc, List.cons_append, (hG.scan_name (he s List.mem_cons_self) hequal).1,
      scanParam_equal, ← hname, hright]
    rfl
  | unequal s t =>
    unfold exprPrint exprTokens
    refine hbody _ _ _ _ h fun rest hrest => ?_
    have hunequal : Boundary ('!' :: '=' :: ((G.symbol t).name.getD [] ++ rest)) := by
      intro c hc
      cases hc
      rfl
    obtain ⟨hright, hname⟩ := hG.scan_name (he t (List.mem_cons_of_mem s List.mem_cons_self)) hrest
    simp only
    rw [List.append_assoc, List.cons_append, List.cons_append,
      (hG.scan_name (he s List.mem_cons_self) hunequal).1, scanParam_unequal, ← hname, hright]
    rfl
  | and l r ihl ihr =>
    unfold exprPrint exprTokens
    refine hbody _ _ _ _ h fun rest hrest => ?_
    have hblank : Boundary (' ' :: '&' :: '&' :: ' ' :: (G.exprPrint .and r ++ rest)) := by
      intro c hc
      cases hc
      rfl
    have hl := ihl .and (fun s hs => he s (List.mem_append_left _ hs)) hblank
    have hr := ihr .and (fun s hs => he s (List.mem_append_right _ hs)) hrest
    rw [scanParam_and, hr] at hl
    simpa using hl
  | or l r ihl ihr =>
    unfold exprPrint exprTokens
    refine hbody _ _ _ _ h fun rest hrest => ?_
    have hblank : Boundary (' ' :: '|' :: '|' :: ' ' :: (G.exprPrint .or r ++ rest)) := by
      intro c hc
      cases hc
      rfl
    have hl := ihl .or (fun s hs => he s (List.mem_append_left _ hs)) hblank
    have hr := ihr .or (fun s hs => he s (List.mem_append_right _ hs)) hrest
    rw [scanParam_or, hr] at hl
    simpa using hl

end

end SymbolTable
end OpenADK.Kconfig
