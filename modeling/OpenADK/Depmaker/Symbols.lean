import OpenADK.Depmaker.HostRule
import OpenADK.Pkgmaker.Depends
import Mathlib.Data.List.Infix

/-!
# The symbols of flavours, choices and subpackages

`depmaker` looks for the symbol of a flavour while it reads the Makefile, under the package of the
last declaration so far. `pkgmaker` writes all symbols when it has read the Makefile, under the
package of the last declaration of all.
-/

namespace OpenADK.Depmaker
open CString Pkgmaker

inductive Kind
  | flavour
  | choice
  | subpkg
  deriving DecidableEq

/-- `fpkg`, `cpkg` and `spkg`, which are kept for the next package. -/
abbrev Current := Kind → Option Bytes

/-- What is searched for in a line: a declaration, or the dependencies of what is declared. -/
inductive Block
  | declare (k : Kind)
  | use (k : Kind)
  deriving DecidableEq

def Block.name : Block → Bytes
  | .declare .flavour => str "PKG_FLAVOURS_"
  | .use .flavour => str "PKGFB_"
  | .declare .choice => str "PKG_CHOICES_"
  | .use .choice => str "PKGCB_"
  | .declare .subpkg => str "PKG_SUBPKGS_"
  | .use .subpkg => str "PKGSB_"

/-- A line while it is read, and the symbols that were looked for because of it. -/
structure Line where
  buf : Bytes
  cur : Current
  looked : Kind → Option Bytes

/-- The key that `strtok` returns. -/
def keyOf (string : Bytes) : Bytes :=
  ((strtok (str ":=") string.dropLast).map Prod.fst).getD []

/-- What is left of the line when `strtok` has cut it behind the key. -/
def cutKey (buf string : Bytes) : Bytes := buf.take (buf.length - string.length) ++ keyOf string

/-- The blocks of the loop for one variable. Subpackages have symbols of their own. -/
def Block.run (b : Block) (s : Line) : Line :=
  match strstr b.name s.buf with
  | none => s
  | some string =>
    match b with
    | .declare k =>
      if (strstr (str ":=") s.buf).isSome then
        { s with
          buf := cutKey s.buf string
          cur := Function.update s.cur k (some ((keyOf string).drop b.name.length)) }
      else s
    | .use k =>
      { s with
        buf := cutKey s.buf string
        looked := Function.update s.looked k
          (some (keySym (shown (s.cur k)) (keyOf string) (k = .subpkg) 0)) }

def blocks : List Block :=
  [.declare .flavour, .use .flavour, .declare .choice, .use .choice, .declare .subpkg, .use .subpkg]

def cutVar (varname buf : Bytes) : Bytes :=
  match strstr varname buf with
  | none => buf
  | some string => cutKey buf string

/-- The blocks for `PKG_BUILDDEP`, which come first and cut the line too. -/
def cutBuilddep (buf : Bytes) : Bytes :=
  let buf := cutVar (str "PKG_BUILDDEP+=") (cutVar (str "PKG_BUILDDEP:=") buf)
  if (strstr (str ":=") buf).isSome then cutVar (str "PKG_BUILDDEP_") buf else buf

def mainLine (c : Current) (buf : Bytes) : Line :=
  if str "PKG" <+: buf then
    blocks.foldl (fun s b => b.run s) ⟨cutBuilddep buf, c, fun _ => none⟩
  else ⟨buf, c, fun _ => none⟩

def current (c : Current) (bufs : List Bytes) : Current :=
  bufs.foldl (fun c buf => (mainLine c buf).cur) c

/-! ### What a line says -/

/-- The package for which the last line with `:=` declares something, with all that comes after the
name of the variable. -/
def currentStep (k : Kind) (old : Option Bytes) (line : Bytes) : Option Bytes :=
  match assignment line with
  | none => old
  | some a =>
    if (Block.declare k).name <+: a.name ∧ a.appends = false then
      some (a.name.drop (Block.declare k).name.length)
    else old

/-- A line of these variables is written without blanks around the name and without another `=`,
and the names of these variables are not elsewhere in lines for variables. -/
structure Legible (line : Bytes) : Prop where
  written : ∀ a ∈ assignment line, ∀ b ∈ blocks, b.name <+: a.name →
    line = a.name ++ (str (if a.appends then "+=" else ":=") ++ a.value) ∧ chr '=' ∉ a.value ∧
      strstr (str "PKG_BUILDDEP") (line ++ [newline]) = none
  alone : str "PKG" <+: line ++ [newline] → ∀ b ∈ blocks,
    (strstr b.name (line ++ [newline])).isSome → ∃ a ∈ assignment line, b.name <+: a.name

instance (line : Bytes) : Decidable (Legible line) :=
  decidable_of_iff
    ((∀ a ∈ assignment line, ∀ b ∈ blocks, b.name <+: a.name →
      line = a.name ++ (str (if a.appends then "+=" else ":=") ++ a.value) ∧ chr '=' ∉ a.value ∧
        strstr (str "PKG_BUILDDEP") (line ++ [newline]) = none) ∧
      (str "PKG" <+: line ++ [newline] → ∀ b ∈ blocks,
        (strstr b.name (line ++ [newline])).isSome → ∃ a ∈ assignment line, b.name <+: a.name))
    ⟨fun ⟨h1, h2⟩ => ⟨h1, h2⟩, fun h => ⟨h.written, h.alone⟩⟩

section
variable {line buf string : Bytes} {a : Assignment} {b b' : Block} {s : Line} {c : Current}
variable {k : Kind}

theorem mem_blocks (b : Block) : b ∈ blocks := by
  cases b with
  | declare k => cases k <;> decide
  | use k => cases k <;> decide

theorem Block.run_of_none (h : strstr b.name s.buf = none) : b.run s = s := by
  rw [Block.run, h]

theorem Block.run_declare (h : strstr (Block.declare k).name s.buf = some string) :
    (Block.declare k).run s = if (strstr (str ":=") s.buf).isSome then
      { s with
        buf := cutKey s.buf string
        cur := Function.update s.cur k
          (some ((keyOf string).drop (Block.declare k).name.length)) }
    else s := by
  rw [Block.run, h]

theorem Block.run_use (h : strstr (Block.use k).name s.buf = some string) :
    (Block.use k).run s = { s with
      buf := cutKey s.buf string
      looked := Function.update s.looked k
        (some (keySym (shown (s.cur k)) (keyOf string) (k = .subpkg) 0)) } := by
  rw [Block.run, h]

theorem foldl_run_of_none {bs : List Block} (h : ∀ b ∈ bs, strstr b.name s.buf = none) :
    bs.foldl (fun s b => b.run s) s = s := by
  induction bs with
  | nil => rfl
  | cons b bs ih =>
    obtain ⟨hb, hbs⟩ := List.forall_mem_cons.mp h
    rw [List.foldl_cons, Block.run_of_none hb, ih hbs]

/-- An element and the others of a list without duplicates. -/
theorem exists_split_of_nodup {β : Type} {x : β} {xs : List β} (hx : x ∈ xs) (h : xs.Nodup) :
    ∃ front back, xs = front ++ x :: back ∧ (∀ y ∈ front, y ≠ x) ∧ ∀ y ∈ back, y ≠ x := by
  obtain ⟨front, back, rfl⟩ := List.append_of_mem hx
  obtain ⟨-, hcons, hdisjoint⟩ := List.nodup_append.mp h
  refine ⟨front, back, rfl, fun y hy heq => hdisjoint y hy x List.mem_cons_self heq, ?_⟩
  rintro y hy rfl
  exact (List.nodup_cons.mp hcons).1 hy

/-- Only one block finds its variable. -/
theorem foldl_blocks (b : Block) (h : ∀ b' ≠ b, strstr b'.name s.buf = none)
    (hafter : ∀ b' ≠ b, strstr b'.name (b.run s).buf = none) :
    blocks.foldl (fun s b => b.run s) s = b.run s := by
  obtain ⟨front, back, hsplit, hfront, hback⟩ :=
    exists_split_of_nodup (mem_blocks b) (by decide : blocks.Nodup)
  rw [hsplit, List.foldl_append, foldl_run_of_none fun b' hb' => h b' (hfront b' hb'),
    List.foldl_cons, foldl_run_of_none fun b' hb' => hafter b' (hback b' hb')]

/-- No name of a variable begins another one. -/
theorem eq_of_prefixes {name : Bytes} (h : b.name <+: name) (h' : b'.name <+: name) : b' = b := by
  have hall : ∀ b ∈ blocks, ∀ b' ∈ blocks, b.name <+: b'.name → b' = b := by decide
  obtain hpre | hpre := List.prefix_or_prefix_of_prefix h h'
  · exact hall b (mem_blocks b) b' (mem_blocks b') hpre
  · exact (hall b' (mem_blocks b') b (mem_blocks b) hpre).symm

/-! ### Reading a legible line -/

/-- The names of the variables begin with a character that does not end a key. -/
theorem prefix_keyOf {n : Bytes} (h : chr 'P' :: n <+: string) :
    keyOf string <+: string := by
  obtain ⟨w, rfl⟩ := h
  rw [keyOf]
  generalize hinit : ((chr 'P' :: n) ++ w).dropLast = init
  have hpre : init <+: (chr 'P' :: n) ++ w := hinit ▸ List.dropLast_prefix _
  cases init with
  | nil => exact List.nil_prefix
  | cons a init =>
    have ha : a = chr 'P' := (List.cons_prefix_cons.mp hpre).1
    have hdrop : (a :: init).dropWhile (fun c => decide (c ∈ str ":=")) = a :: init := by
      apply List.dropWhile_cons_of_neg
      rw [ha]
      decide
    rw [strtok, hdrop]
    exact (List.takeWhile_prefix _).trans hpre

theorem prefix_cutVar {n : Bytes} : cutVar (chr 'P' :: n) buf <+: buf := by
  unfold cutVar
  split
  · exact List.prefix_rfl
  · next string hfound =>
    obtain ⟨⟨front, rfl⟩, hpre⟩ := of_strstr hfound
    rw [cutKey, List.length_append, Nat.add_sub_cancel, List.take_left,
      List.prefix_append_right_inj]
    exact prefix_keyOf hpre

theorem prefix_cutBuilddep (buf : Bytes) : cutBuilddep buf <+: buf := by
  have h : cutVar (str "PKG_BUILDDEP+=") (cutVar (str "PKG_BUILDDEP:=") buf) <+: buf :=
    (prefix_cutVar (n := str "KG_BUILDDEP+=")).trans (prefix_cutVar (n := str "KG_BUILDDEP:="))
  rw [cutBuilddep]
  split
  · exact (prefix_cutVar (n := str "KG_BUILDDEP_")).trans h
  · exact h

theorem cutBuilddep_of_none (h : strstr (str "PKG_BUILDDEP") buf = none) :
    cutBuilddep buf = buf := by
  have hcut (rest : Bytes) : cutVar (str "PKG_BUILDDEP" ++ rest) buf = buf := by
    rw [cutVar, strstr_append_eq_none h]
  have hset : cutVar (str "PKG_BUILDDEP:=") buf = buf := hcut (str ":=")
  have hadd : cutVar (str "PKG_BUILDDEP+=") buf = buf := hcut (str "+=")
  have hsys : cutVar (str "PKG_BUILDDEP_") buf = buf := hcut (str "_")
  rw [cutBuilddep, hset, hadd, hsys, ite_self]

/-- A line that holds none of the names does nothing. -/
theorem mainLine_of_none (h : str "PKG" <+: buf → ∀ b, strstr (Block.name b) buf = none) :
    (mainLine c buf).cur = c ∧ (mainLine c buf).looked = fun _ => none := by
  unfold mainLine
  split
  · next hpkg =>
    rw [foldl_run_of_none fun b _ => strstr_of_prefix_none (prefix_cutBuilddep buf) (h hpkg b)]
    exact ⟨rfl, rfl⟩
  · exact ⟨rfl, rfl⟩

/-- The key of a line, with the plus sign of `+=`. -/
theorem keyOf_line (ha : assignment line = some a)
    (hwritten : line = a.name ++ (str (if a.appends then "+=" else ":=") ++ a.value)) :
    keyOf (line ++ [newline]) = a.name ++ (if a.appends then str "+" else []) := by
  obtain ⟨hne, hchars⟩ := name_of_assignment ha
  have hcolon : ∀ c ∈ a.name, c ∉ str ":=" := fun c hc hin =>
    hchars c hc ((by decide : str ":=" ⊆ str ":+=") hin)
  rw [keyOf, List.dropLast_concat, hwritten]
  cases a.appends with
  | false =>
    change ((strtok (str ":=") (a.name ++ chr ':' :: (chr '=' :: a.value))).map Prod.fst).getD [] =
      a.name ++ []
    rw [(strtok_of_not_mem hne hcolon (by decide) _).1, List.append_nil]
    rfl
  | true =>
    have hplus : ∀ c ∈ a.name ++ str "+", c ∉ str ":=" := fun c hc =>
      (List.mem_append.mp hc).elim (hcolon c) fun hc => by
        rw [List.mem_singleton.mp hc]
        decide
    change ((strtok (str ":=") (a.name ++ (str "+" ++ chr '=' :: a.value))).map Prod.fst).getD [] =
      a.name ++ str "+"
    rw [← List.append_assoc, (strtok_of_not_mem (List.append_ne_nil_of_left_ne_nil hne _) hplus
      (by decide) _).1]
    rfl

/-- Only `:=` is found in a line with it. -/
theorem isSome_strstr_set (ha : assignment line = some a)
    (hwritten : line = a.name ++ (str (if a.appends then "+=" else ":=") ++ a.value))
    (hplain : chr '=' ∉ a.value) :
    (strstr (str ":=") (line ++ [newline])).isSome = !a.appends := by
  obtain ⟨-, hchars⟩ := name_of_assignment ha
  rw [hwritten, List.append_assoc, List.append_assoc]
  cases a.appends with
  | false => exact isSome_strstr _ ⟨a.value ++ [newline], rfl⟩
  | true =>
    have hname : chr '=' ∉ a.name := fun hin => hchars _ hin (by decide)
    have hvalue : chr '=' ∉ a.value ++ [newline] := by
      rw [List.mem_append, not_or]
      exact ⟨hplain, by decide⟩
    have hnone : strstr ([] ++ [chr ':', chr '=']) (a.name ++ chr '+' :: chr '=' ::
        (a.value ++ [newline])) = none := strstr_eq_none hname hvalue (by decide) (by decide)
    exact congrArg Option.isSome hnone

/-- The block for the variable of a line finds it at the beginning. -/
theorem Legible.found (h : Legible line) (ha : assignment line = some a) (hb : b.name <+: a.name) :
    b.name <+: line ++ [newline] ∧
      strstr b.name (line ++ [newline]) = some (line ++ [newline]) := by
  obtain ⟨hwritten, -⟩ := h.written a ha b (mem_blocks b) hb
  have hpre : b.name <+: line ++ [newline] := by
    rw [hwritten, List.append_assoc]
    exact hb.trans (List.prefix_append _ _)
  exact ⟨hpre, strstr_of_prefix hpre⟩

/-- A line for one of the variables is read by its block only. -/
theorem Legible.mainLine_eq (h : Legible line) (ha : assignment line = some a)
    (hb : b.name <+: a.name) :
    mainLine c (line ++ [newline]) = b.run ⟨line ++ [newline], c, fun _ => none⟩ := by
  obtain ⟨-, -, hbuilddep⟩ := h.written a ha b (mem_blocks b) hb
  obtain ⟨hpre, hfound⟩ := h.found ha hb
  have hpkg : str "PKG" <+: line ++ [newline] :=
    ((by decide : ∀ b ∈ blocks, str "PKG" <+: b.name) b (mem_blocks b)).trans hpre
  have hothers : ∀ b' ≠ b, strstr b'.name (line ++ [newline]) = none := by
    intro b' hne
    by_contra hfound
    obtain ⟨a', ha', hb'⟩ := h.alone hpkg b' (mem_blocks b') (Option.isSome_iff_ne_none.mpr hfound)
    obtain rfl := Option.some.inj (ha.symm.trans ha')
    exact hne (eq_of_prefixes hb hb')
  rw [mainLine, if_pos hpkg, cutBuilddep_of_none hbuilddep]
  refine foldl_blocks b hothers fun b' hne => strstr_of_prefix_none ?_ (hothers b' hne)
  -- what the block leaves of the line
  have hkey : cutKey (line ++ [newline]) (line ++ [newline]) <+: line ++ [newline] := by
    rw [cutKey, Nat.sub_self, List.take_zero, List.nil_append]
    exact prefix_keyOf (n := str "KG") hpkg
  cases b with
  | declare k =>
    rw [Block.run_declare hfound]
    split
    · exact hkey
    · exact List.prefix_rfl
  | use k =>
    rw [Block.run_use hfound]
    exact hkey

/-- What a line declares is remembered. -/
theorem Legible.cur_mainLine (h : Legible line) (k : Kind) :
    (mainLine c (line ++ [newline])).cur k = currentStep k (c k) line := by
  by_cases hany : ∃ a ∈ assignment line, ∃ b : Block, b.name <+: a.name
  · obtain ⟨a, ha, b, hb⟩ := hany
    obtain ⟨hwritten, hplain, -⟩ := h.written a ha b (mem_blocks b) hb
    have hfound := (h.found ha hb).2
    have ha' : assignment line = some a := ha
    rw [h.mainLine_eq ha hb, currentStep, ha']
    dsimp only
    cases b with
    | declare k' =>
      rw [Block.run_declare hfound, isSome_strstr_set ha hwritten hplain,
        keyOf_line ha hwritten]
      by_cases hk : k = k'
      · subst hk
        cases happends : a.appends with
        | true => simp
        | false => simp [hb]
      · have hother : ¬((Block.declare k).name <+: a.name ∧ a.appends = false) := fun hcond =>
          hk (Block.declare.inj (eq_of_prefixes hb hcond.1))
        rw [if_neg hother]
        split
        · exact Function.update_of_ne hk _ _
        · rfl
    | use k' =>
      have hother : ¬((Block.declare k).name <+: a.name ∧ a.appends = false) := fun hcond =>
        Block.noConfusion (eq_of_prefixes hb hcond.1)
      rw [if_neg hother, Block.run_use hfound]
  · have hnone : str "PKG" <+: line ++ [newline] →
        ∀ b, strstr (Block.name b) (line ++ [newline]) = none := by
      intro hpkg b
      by_contra hfound
      obtain ⟨a, ha, hb⟩ := h.alone hpkg b (mem_blocks b) (Option.isSome_iff_ne_none.mpr hfound)
      exact hany ⟨a, ha, b, hb⟩
    rw [(mainLine_of_none hnone).1, currentStep]
    split
    · rfl
    · next a ha =>
      have hother : ¬((Block.declare k).name <+: a.name ∧ a.appends = false) := fun hcond =>
        hany ⟨a, ha, _, hcond.1⟩
      rw [if_neg hother]

/-- The symbol that is looked for in a line with dependencies. -/
theorem Legible.looked_mainLine (h : Legible line) (ha : assignment line = some a)
    (hk : (Block.use k).name <+: a.name) :
    (mainLine c (line ++ [newline])).looked k = some (keySym (shown (c k))
      (a.name ++ (if a.appends then str "+" else [])) (k = .subpkg) 0) := by
  obtain ⟨hwritten, -, -⟩ := h.written a ha _ (mem_blocks _) hk
  rw [h.mainLine_eq ha hk, Block.run_use (h.found ha hk).2, keyOf_line ha hwritten]
  exact Function.update_self _ _ _

/-- The packages after legible lines. -/
theorem current_eq {lines : List Bytes} (h : ∀ line ∈ lines, Legible line) (c : Current)
    (k : Kind) :
    current c (lines.map (· ++ [newline])) k = lines.foldl (currentStep k) (c k) := by
  induction lines generalizing c with
  | nil => rfl
  | cons line lines ih =>
    obtain ⟨hline, hlines⟩ := List.forall_mem_cons.mp h
    rw [List.map_cons, List.foldl_cons, ← hline.cur_mainLine k]
    exact ih hlines _

end

/-! ### What both should agree on -/

def Kind.vars : Kind → List Var
  | .flavour => [.flavours, .flavoursString]
  | .choice => [.choices]
  | .subpkg => [.subpkgs]

def Kind.declares : Kind → Bytes → Bool
  | .subpkg, name => name = str "PKG_SUBPKGS"
  | k, name => (Block.declare k).name <+: name

/-- A line that declares a flavour, a choice or a subpackage. -/
def DeclaredBy (k : Kind) (F line : Bytes) : Prop :=
  ∃ a ∈ assignment line, k.declares a.name ∧
    F ∈ tokens (str " ") (a.value.dropWhile (· ∈ blanks))

deriving instance DecidableEq for Assignment

instance (k : Kind) (F line : Bytes) : Decidable (DeclaredBy k F line) :=
  inferInstanceAs (Decidable (∃ a ∈ assignment line, _ ∧ _))

/-- It is among what is declared when all lines have been read. -/
def Held (p : Package) (k : Kind) (F : Bytes) : Prop :=
  ∃ x ∈ k.vars, F ∈ tokens (str " ") ((p.reading.vars x).getD [])

def definedSymbol (p : Package) : Kind → Bytes → Bytes
  | .subpkg, F => str "ADK_PACKAGE_" ++ toupperstr (tolowerstr F)
  | _, F => str "ADK_PACKAGE_" ++ shown (p.reading.vars .pkgname) ++ str "_" ++ toupperstr F

def entryLine (p : Package) (k : Kind) (F : Bytes) : Bytes :=
  str "config " ++ definedSymbol p k F ++ [newline]

/-- Its entry is in one of the files of the package. -/
def Defines (p : Package) (k : Kind) (F : Bytes) : Prop :=
  Held p k F ∧ ∃ token ∈ p.tokens, entryLine p k F ∈ p.printed token

/-- A line for the dependencies of something that a line before it declares. -/
structure UsedIn (p : Package) (k : Kind) (F : Bytes) (pre : List Bytes) (line : Bytes)
    (a : Assignment) : Prop where
  here : ∃ post, p.lines = pre ++ line :: post
  assigned : assignment line = some a
  name : a.name = (Block.use k).name ++ F
  declared : ∃ line' ∈ pre, DeclaredBy k F line'

/-- Whatever is declared, the symbol that is looked for in a line for its dependencies is the one
of its entry. -/
def Agrees (c : Current) (p : Package) : Prop :=
  ∀ k F pre line a, UsedIn p k F pre line a → Defines p k F ∧
    ∃ before after, fileLines p.dir.makefile = before ++ (line ++ [newline]) :: after ∧
      before.length = pre.length ∧
      (mainLine (current c before) (line ++ [newline])).looked k = some (definedSymbol p k F)

/-- The lines are read as they are written by both programs, and the symbols fit into the buffer. -/
structure ReadableLines (c : Current) (p : Package) : Prop extends Plain p where
  whole : fileLines p.dir.makefile = p.lines.dropLast.map (· ++ [newline])
  ended : p.lines.getLast? = some []
  legible : ∀ line ∈ p.lines, Legible line
  room : ∀ k, ∀ pre ∈ p.lines.inits,
    (shown (pre.foldl (currentStep k) (c k))).length + 13 < maxLine

/-- The names are in capitals, and the declaration before the line is for the same package as the
last one of all. Subpackages have no package. -/
def Matches (c : Current) (p : Package) (pre : List Bytes) : Kind → Bytes → Prop
  | .subpkg, F => toupperstr (tolowerstr F) = F
  | k, F => toupperstr F = F ∧ shown (pre.foldl (currentStep k) (c k)) =
      shown (p.lines.foldl packageStep (p.vars .pkgname))

/-- Something is still among what is declared in the end. -/
def StillDeclared (p : Package) (k : Kind) (F : Bytes) : Prop :=
  ∃ x ∈ k.vars, F ∈ tokens (str " ") ((p.lines.foldl (valueStep x) (p.vars x)).getD [])

/-- The entry is written: the Makefile has packages to build, and for flavours and choices the file
of the first one is not written again for another one with the same name, unless a package has the
symbol for its own. -/
structure Written (p : Package) (k : Kind) (F : Bytes) : Prop where
  builds : p.reading.nobinpkgs = false
  kept : k ≠ .subpkg → (∃ first rest, p.named = first :: rest ∧ first ∉ rest) ∨
    ∃ token ∈ p.named, definedSymbol p k F = str "ADK_PACKAGE_" ++ toupperstr token ∨
      definedSymbol p k F = str "ADK_PACKAGE_" ++ toupperstr token ++ str "_DBG"

section
variable {c : Current} {p : Package} {k : Kind} {F line op : Bytes} {pre : List Bytes}
variable {a : Assignment}

theorem plus_not_mem_toupperstr (s : Bytes) : chr '+' ∉ toupperstr s := by
  intro h
  obtain ⟨b, -, hb⟩ := List.mem_map.mp h
  have hall : ∀ i : Fin 256, (if UInt8.ofFin i = chr '+' then chr 'X'
      else if UInt8.ofFin i = chr '-' ∨ UInt8.ofFin i = chr '!' then chr '_'
      else toupper (UInt8.ofFin i)) ≠ chr '+' := by decide +kernel
  exact hall b.toFin hb

/-- A name with a plus sign is not in capitals. -/
theorem append_op_eq_toupperstr_iff (hop : op = [] ∨ op = str "+") {s t u : Bytes}
    (hlen : u.length = s.length) :
    (t ++ (s ++ op) = t ++ toupperstr u) ↔ op = [] ∧ toupperstr u = s := by
  have hlength : (toupperstr u).length = s.length := by rw [toupperstr, List.length_map, hlen]
  rw [List.append_cancel_left_eq]
  constructor
  · intro h
    obtain rfl | rfl := hop
    · exact ⟨rfl, by rw [← h, List.append_nil]⟩
    · exact absurd (h ▸ List.mem_append_right s (List.mem_singleton_self _))
        (plus_not_mem_toupperstr u)
  · rintro ⟨rfl, h⟩
    rw [h, List.append_nil]

theorem symbols_eq_iff (hop : op = [] ∨ op = str "+") {x y : Bytes} :
    (str "ADK_PACKAGE_" ++ x ++ str "_" ++ (F ++ op) =
      str "ADK_PACKAGE_" ++ y ++ str "_" ++ toupperstr F) ↔
      op = [] ∧ toupperstr F = F ∧ x = y := by
  constructor
  · intro h
    obtain rfl | rfl := hop
    · rw [List.append_nil] at h
      obtain ⟨hfront, hback⟩ := List.append_inj' h (by rw [toupperstr, List.length_map])
      have hxy := List.append_cancel_right hfront
      exact ⟨rfl, hback.symm, List.append_cancel_left hxy⟩
    · have hlast := congrArg List.getLast? h
      rw [← List.append_assoc, List.getLast?_append_of_ne_nil _ (by decide)] at hlast
      by_cases hF : F = []
      · subst hF
        rw [toupperstr, List.map_nil, List.append_nil,
          List.getLast?_append_of_ne_nil _ (by decide)] at hlast
        exact absurd hlast (by decide)
      · have hne : toupperstr F ≠ [] := fun hnil => hF (List.map_eq_nil_iff.mp hnil)
        rw [List.getLast?_append_of_ne_nil _ hne] at hlast
        exact absurd (List.mem_of_mem_getLast? hlast.symm) (plus_not_mem_toupperstr F)
  · rintro ⟨rfl, hF, rfl⟩
    rw [hF, List.append_nil]

/-- The symbol that is looked for is that of the entry. -/
theorem keySym_eq_iff (hplain : Plain p) (happends : op = if a.appends then str "+" else [])
    (hroom : (shown (pre.foldl (currentStep k) (c k))).length + 13 < maxLine) :
    keySym (shown (pre.foldl (currentStep k) (c k))) ((Block.use k).name ++ F ++ op)
        (k = .subpkg) 0 = definedSymbol p k F ↔
      a.appends = false ∧ Matches c p pre k F := by
  have hop : op = [] ∨ op = str "+" := by
    rw [happends]
    split
    · exact .inr rfl
    · exact .inl rfl
  have hset : op = [] ↔ a.appends = false := by
    rw [happends]
    cases a.appends <;> decide
  have hdrop : ((Block.use k).name ++ F ++ op).drop 6 = F ++ op := by
    rw [List.append_assoc]
    cases k <;> rfl
  have hfits (x : Bytes) (hx : x.length + 13 < maxLine) :
      snprintf (str "ADK_PACKAGE_" ++ x ++ str "_") = str "ADK_PACKAGE_" ++ x ++ str "_" := by
    have hlen : (str "ADK_PACKAGE_" ++ x ++ str "_").length = x.length + 13 := by
      rw [List.length_append, List.length_append]
      change 12 + x.length + 1 = x.length + 13
      omega
    rw [snprintf, List.take_of_length_le (by omega)]
  rw [← hset]
  cases k with
  | subpkg =>
    have hlen : (tolowerstr F).length = F.length := by rw [tolowerstr, List.length_map]
    simp only [keySym, decide_true, if_true, hdrop, definedSymbol, Matches]
    exact append_op_eq_toupperstr_iff hop hlen
  | flavour =>
    simp only [keySym, reduceCtorEq, decide_false, Bool.false_eq_true, if_false, hdrop,
      hfits _ hroom, definedSymbol, Matches, hplain.pkgname_reading]
    exact symbols_eq_iff hop
  | choice =>
    simp only [keySym, reduceCtorEq, decide_false, Bool.false_eq_true, if_false, hdrop,
      hfits _ hroom, definedSymbol, Matches, hplain.pkgname_reading]
    exact symbols_eq_iff hop

theorem held_iff (hplain : Plain p) : Held p k F ↔ StillDeclared p k F := by
  have hvars : ∀ x ∈ k.vars, x ∈ dependVars ∧ x ≠ .pkgname := by cases k <;> decide
  exact exists_congr fun x => and_congr_right fun hx => by
    rw [hplain.value_reading (hvars x hx).1 (hvars x hx).2]

/-- The entry of a subpackage is in the file of the subpackage. -/
theorem Held.defines_subpkg (h : Held p .subpkg F) (htokens : p.tokens = p.named) :
    Defines p .subpkg F := by
  obtain ⟨x, hx, hmem⟩ := id h
  obtain rfl := List.mem_singleton.mp hx
  have htoken := htokens ▸ Package.mem_named hmem
  obtain ⟨v, hprinted⟩ := Package.printed_eq htoken
  refine ⟨h, _, htoken, ?_⟩
  rw [hprinted]
  exact entry_mem_configLines (.inl rfl)

/-- Those of flavours and choices are in the file of the first package. -/
theorem Held.mem_printed_first {first : Bytes} {rest : List Bytes} (h : Held p k F)
    (hk : k ≠ .subpkg) (htokens : p.tokens = first :: rest) (honce : first ∉ rest) :
    entryLine p k F ∈ p.printed first := by
  have hdecl : ∀ k' ≠ Kind.subpkg, ∀ x ∈ Kind.vars k', x ≠ Var.descr ∧
      ∃ varname fam, (varname, x, fam) ∈ declareRules := by
    intro k' hk' x hx
    cases k' with
    | flavour =>
      obtain rfl | rfl := (List.mem_pair.mp hx)
      · exact ⟨by decide, _, _, List.mem_cons_of_mem _ List.mem_cons_self⟩
      · exact ⟨by decide, _, _, List.mem_cons_self⟩
    | choice =>
      obtain rfl := List.mem_singleton.mp hx
      exact ⟨by decide, _, _, List.mem_cons_of_mem _ (List.mem_cons_of_mem _ List.mem_cons_self)⟩
    | subpkg => exact absurd rfl hk'
  obtain ⟨x, hx, hmem⟩ := h
  obtain ⟨hdescr, varname, fam, hrule⟩ := hdecl k hk x hx
  obtain ⟨v, hprinted, hv⟩ := Package.printed_first htokens honce
  have hline : entryLine p k F = symbolLine (shown (v .pkgname)) F := by
    rw [hv .pkgname (by decide), symbolLine, entryLine]
    cases k with
    | subpkg => exact absurd rfl hk
    | flavour => simp only [definedSymbol, List.append_assoc]; rfl
    | choice => simp only [definedSymbol, List.append_assoc]; rfl
  rw [← hv x hdescr] at hmem
  rw [hprinted]
  exact mem_declared hrule hmem _ (.inl hline)

theorem tokens_eq_ite (hgenerated : p.dir.manual = false) :
    p.tokens = if p.reading.nobinpkgs then [] else p.named := by
  simp only [Package.tokens, Package.named, hgenerated, Bool.false_eq_true, false_or]

/-- Something is defined when it is still declared and its entry is written. -/
theorem defines_iff (hplain : Plain p) : Defines p k F ↔ StillDeclared p k F ∧ Written p k F := by
  have htokens := tokens_eq_ite hplain.generated
  rw [← held_iff hplain]
  constructor
  · rintro ⟨hheld, token, htoken, hentry⟩
    have hbuilds : p.reading.nobinpkgs = false := by
      by_contra hno
      rw [htokens, if_pos (Bool.eq_true_of_not_eq_false hno)] at htoken
      cases htoken
    rw [hbuilds, if_neg Bool.false_ne_true] at htokens
    refine ⟨hheld, hbuilds, fun _ => ?_⟩
    cases hnamed : p.named with
    | nil => rw [htokens, hnamed] at htoken; cases htoken
    | cons first rest =>
      by_cases honce : first ∈ rest
      · have hrest : token ∈ rest := by
          rw [htokens, hnamed] at htoken
          exact (List.mem_cons.mp htoken).elim (· ▸ honce) id
        obtain ⟨v, hprinted, hreset⟩ := Package.printed_rest (htokens.trans hnamed) hrest
        rw [hprinted] at hentry
        exact .inr ⟨token, List.mem_cons_of_mem _ hrest, entry_of_mem_configLines hentry hreset⟩
      · exact .inl ⟨first, rest, rfl, honce⟩
  · rintro ⟨hheld, hbuilds, hkept⟩
    rw [hbuilds, if_neg Bool.false_ne_true] at htokens
    by_cases hk : k = .subpkg
    · subst hk
      exact hheld.defines_subpkg htokens
    · obtain ⟨first, rest, hnamed, honce⟩ | ⟨token, htoken, hsym⟩ := hkept hk
      · have hfirst := htokens.trans hnamed
        exact ⟨hheld, first, hfirst ▸ List.mem_cons_self,
          hheld.mem_printed_first hk hfirst honce⟩
      · obtain ⟨v, hprinted⟩ := Package.printed_eq (htokens ▸ htoken)
        exact ⟨hheld, token, htokens ▸ htoken, hprinted ▸ entry_mem_configLines hsym⟩

theorem UsedIn.room (h : UsedIn p k F pre line a) (hread : ReadableLines c p) :
    (shown (pre.foldl (currentStep k) (c k))).length + 13 < maxLine := by
  obtain ⟨post, hlines⟩ := h.here
  exact hread.room k pre ((List.mem_inits _ _).mpr (hlines ▸ List.prefix_append _ _))

theorem UsedIn.looked_eq (h : UsedIn p k F pre line a) (hread : ReadableLines c p) :
    ∃ before after, fileLines p.dir.makefile = before ++ (line ++ [newline]) :: after ∧
      before.length = pre.length ∧ (mainLine (current c before) (line ++ [newline])).looked k =
        some (keySym (shown (pre.foldl (currentStep k) (c k)))
          ((Block.use k).name ++ F ++ if a.appends then str "+" else []) (k = .subpkg) 0) := by
  obtain ⟨post, hlines⟩ := h.here
  have hpost : post ≠ [] := by
    rintro rfl
    have hended := hread.ended
    rw [hlines, List.getLast?_concat] at hended
    have hassigned := h.assigned
    rw [Option.some.inj hended] at hassigned
    exact absurd hassigned.symm (Option.some_ne_none a)
  have hsplit : fileLines p.dir.makefile = pre.map (· ++ [newline]) ++
      (line ++ [newline]) :: post.dropLast.map (· ++ [newline]) := by
    rw [hread.whole, hlines, List.dropLast_append_of_ne_nil (List.cons_ne_nil _ _),
      List.dropLast_cons_of_ne_nil hpost, List.map_append, List.map_cons]
  have hlegible : ∀ l ∈ pre, Legible l := fun l hl =>
    hread.legible l (hlines ▸ List.mem_append_left _ hl)
  have hline : Legible line :=
    hread.legible line (hlines ▸ List.mem_append_right _ List.mem_cons_self)
  refine ⟨_, _, hsplit, List.length_map _, ?_⟩
  rw [hline.looked_mainLine h.assigned (h.name ▸ List.prefix_append _ _), current_eq hlegible,
    h.name]

theorem matches_of_agrees (hread : ReadableLines c p) (h : Agrees c p)
    (hused : UsedIn p k F pre line a) :
    (StillDeclared p k F ∧ Written p k F) ∧ a.appends = false ∧ Matches c p pre k F := by
  obtain ⟨hdefines, before, after, hsplit, hlen, hlooked⟩ := h k F pre line a hused
  obtain ⟨before', after', hsplit', hlen', hlooked'⟩ := hused.looked_eq hread
  obtain ⟨rfl, -⟩ := List.append_inj (hsplit.symm.trans hsplit') (hlen.trans hlen'.symm)
  have hsym := Option.some.inj (hlooked'.symm.trans hlooked)
  exact ⟨(defines_iff hread.toPlain).mp hdefines,
    (keySym_eq_iff hread.toPlain rfl (hused.room hread)).mp hsym⟩

theorem agrees_of_matches (hread : ReadableLines c p)
    (h : ∀ k F pre line a, UsedIn p k F pre line a →
      (StillDeclared p k F ∧ Written p k F) ∧ a.appends = false ∧ Matches c p pre k F) :
    Agrees c p := by
  intro k F pre line a hused
  obtain ⟨hstill, hmatches⟩ := h k F pre line a hused
  obtain ⟨before, after, hsplit, hlen, hlooked⟩ := hused.looked_eq hread
  refine ⟨(defines_iff hread.toPlain).mpr hstill, before, after, hsplit, hlen, ?_⟩
  rw [hlooked, (keySym_eq_iff hread.toPlain rfl (hused.room hread)).mpr hmatches]

end

namespace Samples

def withFlavour : Package where
  dir := ⟨str "a", str "PKG_SUBPKGS:=A\nPKG_FLAVOURS_A:=F\nPKGFB_F:=zlib\n", false⟩
  vars := fun _ => none
  nobinpkgs := false

def withString : Package where
  dir := ⟨str "a", str "PKG_SUBPKGS:=A\nPKG_FLAVOURS_STRING_A:=F\nPKGFB_F:=zlib\n", false⟩
  vars := fun _ => none
  nobinpkgs := false

theorem readableLines_withFlavour : ReadableLines (fun _ => none) withFlavour where
  generated := rfl
  pieces := by decide +kernel
  tidy := tidy_of_clean (by decide +kernel)
  whole := by decide +kernel
  ended := by decide +kernel
  legible := by decide +kernel
  room k := by cases k <;> decide +kernel

theorem readableLines_withString : ReadableLines (fun _ => none) withString where
  generated := rfl
  pieces := by decide +kernel
  tidy := tidy_of_clean (by decide +kernel)
  whole := by decide +kernel
  ended := by decide +kernel
  legible := by decide +kernel
  room k := by cases k <;> decide +kernel

end Samples

end OpenADK.Depmaker
