import OpenADK.Depmaker.Symbols

/-!
# Rules for packages

For each package `depmaker` prints the entries for the lists of packages, and a rule for `make` with
the packages that are built before it. They come from the `PKG_BUILDDEP` lines of its Makefile, and
from the lines for systems, flavours, choices and subpackages whose symbols are set in `.config`.
-/

namespace OpenADK.Depmaker
open CString Pkgmaker

/-! ### The lines for `PKG` variables -/

/-- `prefix`, passed on as `prefixp`, and `pkgdeps` -/
structure CompileRule where
  prefixp : Bool := false
  pkgdeps : Bytes := []
  deriving DecidableEq

/-- What `parse_line` returns is appended. -/
def CompileRule.add (r : CompileRule) (result : Option Bytes × Bool) : CompileRule :=
  ⟨result.2, r.pkgdeps ++ result.1.getD []⟩

/-- `PKG_BUILDDEP:=` and `PKG_BUILDDEP+=` -/
def parseBuilddep (config name pkgvar varname : Bytes) (s : Bytes × CompileRule) :
    Option (Bytes × CompileRule) :=
  match strstr varname s.1 with
  | none => some s
  | some string =>
    (parseLine config name pkgvar string 0 false 0 s.2.prefixp).map fun result =>
      (cutKey s.1 string, s.2.add result)

/-- C libraries are told from systems. -/
def systemOf (dpkg : Bytes) : ℕ := if str "UCLIBC_NG" <+: dpkg ∨ str "MUSL" <+: dpkg then 2 else 1

/-- `PKG_BUILDDEP_`, which is read from a copy of the line. -/
def parseSystem (config name : Bytes) (s : Bytes × CompileRule) : Option (Bytes × CompileRule) :=
  match strstr (str "PKG_BUILDDEP_") s.1 with
  | none => some s
  | some string =>
    if (strstr (str ":=") s.1).isSome then
      let dpkg := (keyOf string).drop 13
      (parseLine config name dpkg string 1 false (systemOf dpkg) s.2.prefixp).map fun result =>
        (cutKey s.1 string, s.2.add result)
    else some s

def Block.parse (config name : Bytes) (b : Block) (s : Line × CompileRule) :
    Option (Line × CompileRule) :=
  match b, strstr b.name s.1.buf with
  | .use k, some string =>
    (parseLine config name (shown (s.1.cur k)) string 1 (k = .subpkg) 0 s.2.prefixp).map
      fun result => (b.run s.1, s.2.add result)
  | _, _ => some (b.run s.1, s.2)

/-- What is done with a line that begins with `PKG`. -/
def pkgLine (config name pkgvar : Bytes) (c : Current) (r : CompileRule) (buf : Bytes) :
    Option (Line × CompileRule) := do
  let s ← parseBuilddep config name pkgvar (str "PKG_BUILDDEP:=") (buf, r)
  let s ← parseBuilddep config name pkgvar (str "PKG_BUILDDEP+=") s
  let s ← parseSystem config name s
  blocks.foldlM (fun s b => b.parse config name s) (⟨s.1, c, fun _ => none⟩, s.2)

/-! ### `main` -/

/-- What is known while the Makefile of a package is read. -/
structure Scan where
  cur : Current
  rule : CompileRule := {}
  host : Host := {}

def scanLine (config name : Bytes) (s : Scan) (buf : Bytes) : Option Scan :=
  if str "PKG" <+: buf then
    (pkgLine config name (upperstr name) s.cur s.rule buf).map fun (line, rule) =>
      { s with cur := line.cur, rule }
  else (readLine config name s.host buf).map fun host => { s with host }

def manual (name : Bytes) : Bool :=
  name = str "uclibc-ng" ∨ str "musl" <+: name ∨ str "glibc" <+: name

def listLines (name : Bytes) : List Bytes :=
  if manual name then []
  else
    [str "package-$(ADK_COMPILE_" ++ upperstr name ++ str ") += " ++ name,
      str "hostpackage-$(ADK_HOST_BUILD_" ++ upperstr name ++ str ") += " ++ name]

def printed (text : Bytes) : List Bytes := if text = [] then [] else [text]

/-- What is printed for a package, and the packages of its last declarations. -/
def packageLines (config name makefile : Bytes) (c : Current) : Option (Current × List Bytes) :=
  ((fileLines makefile).foldlM (scanLine config name) { cur := c }).map fun s =>
    (s.cur, listLines name ++ printed s.rule.pkgdeps ++ printed (s.host.hpkgdeps.getD []))

/-- An entry of the directory `package`, with its Makefile if that can be opened. -/
structure Entry where
  name : Bytes
  makefile : Option Bytes

/-- Dotfiles are skipped, and so are all names that begin with a character before the dot. -/
def Entry.visited (e : Entry) : Option Bytes :=
  match e.name with
  | [] => none
  | c :: _ => if chr '.' < c then e.makefile else none

/-- The lines of `package/Depends.mk`. -/
def dependsMk (config : Bytes) : Current → List Entry → Option (List Bytes)
  | _, [] => some []
  | c, e :: es =>
    match e.visited with
    | none => dependsMk config c es
    | some makefile => do
      let (c, lines) ← packageLines config e.name makefile c
      let rest ← dependsMk config c es
      some (lines ++ rest)

/-! ### What the Makefiles say -/

/-- The lines of a Makefile that ends with a line. -/
def textLines (makefile : Bytes) : List Bytes := (makefile.splitOn newline).dropLast

/-- The symbol of a flavour, a choice or a subpackage. -/
def useSymbol (k : Kind) (pkg : Option Bytes) (name : Bytes) : Bytes :=
  match k with
  | .subpkg => str "ADK_PACKAGE_" ++ name
  | _ => str "ADK_PACKAGE_" ++ shown pkg ++ str "_" ++ name

def systemSymbol (system : Bytes) : Bytes :=
  (if systemOf system = 2 then str "ADK_TARGET_LIB_" else str "ADK_TARGET_SYSTEM_") ++ system

def kinds : List Kind := [.flavour, .choice, .subpkg]

/-- The dependencies of this line are built before the package. With `+=` nothing is read for
systems, and for what is declared the sign belongs to the symbol. -/
def Requires (config : Bytes) (c : Current) (a : Assignment) : Prop :=
  a.name = str "PKG_BUILDDEP" ∨
    (str "PKG_BUILDDEP_" <+: a.name ∧ a.appends = false ∧
      checkSymbol config (systemSymbol (a.name.drop 13))) ∨
    ∃ k ∈ kinds, (Block.use k).name <+: a.name ∧
      checkSymbol config
        (useSymbol k (c k) (a.name.drop 6 ++ if a.appends then str "+" else []))

instance (config : Bytes) (c : Current) (a : Assignment) : Decidable (Requires config c a) :=
  inferInstanceAs (Decidable (_ ∨ _ ∨ ∃ _ ∈ _, _))

def lineDeps (config : Bytes) (c : Current) (line : Bytes) : List Bytes :=
  match assignment line with
  | none => []
  | some a => if Requires config c a then tokens blanks a.value else []

/-- The packages that are built before this one, as the lines say one after the other. -/
def compileDeps (config : Bytes) : Current → List Bytes → List Bytes
  | _, [] => []
  | c, line :: lines =>
    lineDeps config c line ++ compileDeps config (fun k => currentStep k (c k) line) lines

def compileRule (name : Bytes) (ds : List Bytes) : List Bytes :=
  if ds = [] then [] else [name ++ str "-compile:" ++ compiles ds]

/-- The lines that `depmaker` reads dependencies from are written without blanks around the name,
without another `=` and without an inner tab, and no other variable is named in them. -/
structure Buildable (line : Bytes) : Prop extends Legible line where
  builddep : ∀ a ∈ assignment line, str "PKG_BUILDDEP" <+: a.name →
    line = a.name ++ (str (if a.appends then "+=" else ":=") ++ a.value) ∧ chr '=' ∉ a.value ∧
      (a.name = str "PKG_BUILDDEP" ∨ str "PKG_BUILDDEP_" <+: a.name)
  named : str "PKG_BUILDDEP" <+: line → ∃ a ∈ assignment line, str "PKG_BUILDDEP" <+: a.name
  once : str "PKG" <+: line → strstr (str "PKG_BUILDDEP") (line.tail ++ [newline]) = none
  plain : ∀ a ∈ assignment line,
    str "PKG_BUILDDEP" <+: a.name ∨ (∃ b ∈ blocks, b.name <+: a.name) →
      tab ∉ a.value.dropWhile (· = tab) ∧ a.name.length ≤ 500

instance (line : Bytes) : Decidable (Buildable line) :=
  decidable_of_iff
    (Legible line ∧
      (∀ a ∈ assignment line, str "PKG_BUILDDEP" <+: a.name →
        line = a.name ++ (str (if a.appends then "+=" else ":=") ++ a.value) ∧
          chr '=' ∉ a.value ∧
            (a.name = str "PKG_BUILDDEP" ∨ str "PKG_BUILDDEP_" <+: a.name)) ∧
      (str "PKG_BUILDDEP" <+: line → ∃ a ∈ assignment line, str "PKG_BUILDDEP" <+: a.name) ∧
      (str "PKG" <+: line → strstr (str "PKG_BUILDDEP") (line.tail ++ [newline]) = none) ∧
      ∀ a ∈ assignment line, str "PKG_BUILDDEP" <+: a.name ∨ (∃ b ∈ blocks, b.name <+: a.name) →
        tab ∉ a.value.dropWhile (· = tab) ∧ a.name.length ≤ 500)
    ⟨fun ⟨h1, h2, h3, h4, h5⟩ => ⟨h1, h2, h3, h4, h5⟩,
      fun h => ⟨h.toLegible, h.builddep, h.named, h.once, h.plain⟩⟩

/-- Flavours and choices are declared for a package before their lines. -/
def Declared : Current → List Bytes → Prop
  | _, [] => True
  | c, line :: lines =>
    (∀ a ∈ assignment line, ∀ k ∈ kinds, k ≠ .subpkg → (Block.use k).name <+: a.name →
      (c k).isSome) ∧ Declared (fun k => currentStep k (c k) line) lines

instance decidableDeclared : (c : Current) → (lines : List Bytes) → Decidable (Declared c lines)
  | _, [] => isTrue trivial
  | c, line :: lines =>
    have := decidableDeclared (fun k => currentStep k (c k) line) lines
    inferInstanceAs (Decidable ((∀ a ∈ assignment line, ∀ k ∈ kinds, _) ∧ _))

/-- The Makefile is read as it is written, and the rule of its package fits into the buffer. -/
structure ReadableMakefile (config name makefile : Bytes) : Prop where
  whole : fileLines makefile = (textLines makefile).map (· ++ [newline])
  buildable : ∀ line ∈ textLines makefile, Buildable line
  declared : Declared (fun _ => none) (textLines makefile)
  room : ∀ text ∈ compileRule name (compileDeps config (fun _ => none) (textLines makefile)),
    text.length < maxLine

def packageBlock (config name makefile : Bytes) : List Bytes :=
  listLines name ++ compileRule name (compileDeps config (fun _ => none) (textLines makefile)) ++
    (hostRules config name makefile).getD []

/-! ### The tokens of a line -/

section
variable {config name package pkgvar line buf varname : Bytes} {a : Assignment} {b : Block}
variable {k : Kind} {c c' : Current} {r : CompileRule} {ts : List Bytes} {checksym : ℕ}

theorem snprintf_temp {dep : Bytes}
    (hdep : (package ++ str "-compile: " ++ dep ++ str "-compile").length < maxLine) :
    snprintf (str " " ++ dep ++ str "-compile") = str " " ++ dep ++ str "-compile" ∧
      snprintf (package ++ str "-compile: " ++ dep ++ str "-compile") =
        package ++ str "-compile:" ++ (str " " ++ dep ++ str "-compile") := by
  have hspace : str "-compile: " = str "-compile:" ++ str " " := by decide
  constructor
  · rw [snprintf, List.take_of_length_le]
    simp only [List.length_append, hspace] at hdep ⊢
    omega
  · rw [snprintf, List.take_of_length_le (by omega), hspace]
    simp only [List.append_assoc]

theorem depsText_true (package : Bytes) (ts : List Bytes) :
    depsText package true ts = compiles ts := by
  cases ts with
  | nil => rfl
  | cons dep ts => rw [depsText, if_neg (List.cons_ne_nil _ _), if_pos rfl, List.nil_append]

/-- But for the host part every token is taken. -/
theorem deps_of_ne (hcheck : checksym ≠ 2) (hshort : ∀ dep ∈ ts,
      (package ++ str "-compile: " ++ dep ++ str "-compile").length < maxLine)
    (prefixp : Bool) (pkgdeps : Bytes) : deps config package checksym ts prefixp pkgdeps =
      (some (pkgdeps ++ depsText package prefixp ts), prefixp || decide (ts ≠ [])) := by
  induction ts generalizing prefixp pkgdeps with
  | nil => simp [deps, depsText]
  | cons dep ts ih =>
    obtain ⟨hdep, hts⟩ := List.forall_mem_cons.mp hshort
    obtain ⟨hbegun, hfirst⟩ := snprintf_temp hdep
    rw [deps, if_neg fun h => hcheck h.1]
    simp only [ih hts, depsText_true, Bool.true_or, ne_eq, reduceCtorEq, not_false_eq_true,
      decide_true, Bool.or_true, Prod.mk.injEq, Option.some.injEq, and_true]
    rw [depsText, if_neg (List.cons_ne_nil _ _), compiles_cons]
    cases prefixp with
    | true => rw [if_pos rfl, if_pos rfl, hbegun, List.nil_append, List.append_assoc]
    | false =>
      rw [if_neg Bool.false_ne_true, if_neg Bool.false_ne_true, hfirst]
      simp only [List.append_assoc]

def CompileRule.step (name : Bytes) (r : CompileRule) (ts : List Bytes) : CompileRule :=
  ⟨r.prefixp || decide (ts ≠ []), r.pkgdeps ++ depsText name r.prefixp ts⟩

def Fitting (name : Bytes) (ts : List Bytes) : Prop :=
  ∀ dep ∈ ts, (name ++ str "-compile: " ++ dep ++ str "-compile").length < maxLine

/-- Written lines are read whole, if their symbol is set. -/
theorem add_parseLine {system : ℕ} { pprefix : Bool} {P : Prop} [Decidable P]
    (ha : assignment line = some a)
    (hwritten : line = a.name ++ (str (if a.appends then "+=" else ":=") ++ a.value))
    (heq : chr '=' ∉ a.value) (htab : tab ∉ a.value.dropWhile (· = tab)) (hcheck : checksym ≠ 2)
    (hP : P ↔ (checksym = 1 → checkSymbol config (keySym pkgvar
      (a.name ++ if a.appends then str "+" else []) pprefix system)))
    (hfits : Fitting name (if P then tokens blanks a.value else [])) :
    (parseLine config name pkgvar (line ++ [newline]) checksym pprefix system r.prefixp).map r.add =
      some (r.step name (if P then tokens blanks a.value else [])) := by
  obtain ⟨hne, hchars⟩ := name_of_assignment ha
  have hcolon : ∀ c ∈ a.name, c ∉ str ":=" := fun c hc hin =>
    hchars c hc ((by decide : str ":=" ⊆ str ":+=") hin)
  have hkey : ∃ rest, strtok (str ":=") line =
      some (a.name ++ if a.appends then str "+" else [], rest) ∧
        (strtok (str "=\t") rest).map Prod.fst = cut a.value := by
    rw [hwritten]
    cases a.appends with
    | false =>
      have hskip : strtok (str "=\t") ([chr '='] ++ a.value) = strtok (str "=\t") a.value :=
        strtok_append_left (by decide +kernel) a.value
      refine ⟨chr '=' :: a.value, ?_, congrArg (Option.map Prod.fst) hskip⟩
      change strtok (str ":=") (a.name ++ chr ':' :: (chr '=' :: a.value)) = _
      rw [(strtok_of_not_mem hne hcolon (by decide) _).1, if_neg Bool.false_ne_true,
        List.append_nil]
    | true =>
      have hplus : ∀ c ∈ a.name ++ str "+", c ∉ str ":=" := fun c hc =>
        (List.mem_append.mp hc).elim (hcolon c) fun hc => by
          rw [List.mem_singleton.mp hc]
          decide
      refine ⟨a.value, ?_, rfl⟩
      change strtok (str ":=") (a.name ++ (str "+" ++ chr '=' :: a.value)) = _
      rw [← List.append_assoc, (strtok_of_not_mem (List.append_ne_nil_of_left_ne_nil hne _) hplus
        (by decide) _).1, if_pos rfl]
  obtain ⟨rest, hkey, hvalue⟩ := hkey
  rw [parseLine, List.dropLast_concat, hkey]
  dsimp only
  rw [hvalue, tokens_cut heq htab]
  by_cases hcond : P
  · rw [if_pos hcond] at hfits ⊢
    rw [if_neg fun h => h.2 (hP.mp hcond h.1), deps_of_ne hcheck hfits]
    simp [CompileRule.add, CompileRule.step]
  · have hunset := mt hP.mpr hcond
    rw [if_pos ⟨(not_forall.mp hunset).1, fun h => hunset fun _ => h⟩, if_neg hcond]
    simp [CompileRule.add, CompileRule.step, depsText]

/-! ### The rest of a line -/

theorem parseBuilddep_of_none {s : Bytes × CompileRule} (h : strstr varname s.1 = none) :
    parseBuilddep config name pkgvar varname s = some s := by
  rw [parseBuilddep, h]

theorem parseSystem_of_none {s : Bytes × CompileRule}
    (h : strstr (str "PKG_BUILDDEP_") s.1 = none) : parseSystem config name s = some s := by
  rw [parseSystem, h]

theorem Block.parse_of_none {s : Line × CompileRule} (h : strstr b.name s.1.buf = none) :
    b.parse config name s = some s := by
  rw [Block.parse, Block.run_of_none h]
  rintro k string rfl hfound
  cases h.symm.trans hfound

theorem foldlM_parse_of_none {bs : List Block} {s : Line × CompileRule}
    (h : ∀ b ∈ bs, strstr b.name s.1.buf = none) :
    bs.foldlM (fun s b => b.parse config name s) s = some s := by
  induction bs with
  | nil => rfl
  | cons b bs ih =>
    obtain ⟨hb, hbs⟩ := List.forall_mem_cons.mp h
    rw [List.foldlM_cons, Block.parse_of_none hb]
    exact ih hbs

theorem parseBuilddep_fst {s t : Bytes × CompileRule}
    (h : parseBuilddep config name pkgvar varname s = some t) : t.1 = cutVar varname s.1 := by
  unfold parseBuilddep at h
  split at h
  case h_1 hnone =>
    cases h
    rw [cutVar, hnone]
  case h_2 string hfound =>
    obtain ⟨result, -, rfl⟩ := Option.map_eq_some_iff.mp h
    rw [cutVar, hfound]

theorem parseSystem_fst {s t : Bytes × CompileRule} (h : parseSystem config name s = some t) :
    t.1 = if (strstr (str ":=") s.1).isSome then cutVar (str "PKG_BUILDDEP_") s.1 else s.1 := by
  unfold parseSystem at h
  split at h
  case h_1 hnone =>
    cases h
    rw [cutVar, hnone]
    exact (ite_self _).symm
  case h_2 string hfound =>
    rw [cutVar, hfound]
    split at h
    case isTrue hset =>
      obtain ⟨result, -, rfl⟩ := Option.map_eq_some_iff.mp h
      rw [if_pos hset]
    case isFalse hset =>
      cases h
      rw [if_neg hset]

theorem Block.parse_fst {s t : Line × CompileRule} (h : b.parse config name s = some t) :
    t.1 = b.run s.1 := by
  unfold Block.parse at h
  split at h
  · obtain ⟨result, -, rfl⟩ := Option.map_eq_some_iff.mp h
    rfl
  · cases h
    rfl

theorem foldlM_parse_fst {bs : List Block} {s t : Line × CompileRule}
    (h : bs.foldlM (fun s b => b.parse config name s) s = some t) :
    t.1 = bs.foldl (fun s b => b.run s) s.1 := by
  induction bs generalizing s with
  | nil =>
    cases h
    rfl
  | cons b bs ih =>
    rw [List.foldlM_cons] at h
    obtain ⟨u, hu, h⟩ := Option.bind_eq_some_iff.mp h
    rw [List.foldl_cons, ih h, Block.parse_fst hu]

/-- With the dependencies a line is read as without them. -/
theorem pkgLine_fst {t : Line × CompileRule} (h : pkgLine config name pkgvar c r buf = some t)
    (hpkg : str "PKG" <+: buf) : t.1 = mainLine c buf := by
  obtain ⟨s, hset, h⟩ := Option.bind_eq_some_iff.mp h
  obtain ⟨s', hadd, h⟩ := Option.bind_eq_some_iff.mp h
  obtain ⟨s'', hsystem, h⟩ := Option.bind_eq_some_iff.mp h
  rw [foldlM_parse_fst h, mainLine, if_pos hpkg, cutBuilddep, parseSystem_fst hsystem,
    parseBuilddep_fst hadd, parseBuilddep_fst hset]

/-! ### What a line requires -/

theorem not_builddep_of_block (h : b.name <+: varname) : ¬str "PKG_BUILDDEP" <+: varname := by
  have hall : ∀ b ∈ blocks, ¬b.name <+: str "PKG_BUILDDEP" ∧ ¬str "PKG_BUILDDEP" <+: b.name := by
    decide
  intro hbuilddep
  obtain hpre | hpre := List.prefix_or_prefix_of_prefix h hbuilddep
  · exact (hall b (mem_blocks b)).1 hpre
  · exact (hall b (mem_blocks b)).2 hpre

theorem mem_kinds (k : Kind) : k ∈ kinds := by cases k <;> decide

theorem builddep_of_requires_cases (h : Requires config c a) :
    str "PKG_BUILDDEP" <+: a.name ∨ ∃ k, (Block.use k).name <+: a.name := by
  rcases h with hname | ⟨hpre, -⟩ | ⟨k, -, hpre, -⟩
  · exact .inl (hname ▸ List.prefix_rfl)
  · exact .inl (List.IsPrefix.trans (by decide) hpre)
  · exact .inr ⟨k, hpre⟩

theorem requires_system (h : str "PKG_BUILDDEP_" <+: a.name) : Requires config c a ↔
    a.appends = false ∧ checkSymbol config (systemSymbol (a.name.drop 13)) := by
  have hbuilddep : str "PKG_BUILDDEP" <+: a.name := List.IsPrefix.trans (by decide) h
  have hname : a.name ≠ str "PKG_BUILDDEP" := fun heq =>
    absurd (heq ▸ h) (by decide)
  rw [Requires]
  constructor
  · rintro (heq | ⟨-, hset⟩ | ⟨k, -, hk, -⟩)
    · exact absurd heq hname
    · exact hset
    · exact absurd hbuilddep (not_builddep_of_block hk)
  · exact fun hset => .inr (.inl ⟨h, hset⟩)

theorem requires_use (h : (Block.use k).name <+: a.name) : Requires config c a ↔
    checkSymbol config
      (useSymbol k (c k) (a.name.drop 6 ++ if a.appends then str "+" else [])) := by
  rw [Requires]
  constructor
  · rintro (heq | ⟨hpre, -⟩ | ⟨k', -, hk', hset⟩)
    · exact absurd (heq ▸ List.prefix_rfl) (not_builddep_of_block h)
    · exact absurd (List.IsPrefix.trans (by decide) hpre) (not_builddep_of_block h)
    · obtain rfl := Block.use.inj (eq_of_prefixes h hk')
      exact hset
  · exact fun hset => .inr (.inr ⟨k, mem_kinds k, h, hset⟩)

theorem keySym_use (hshort : (shown (c k)).length ≤ 500) (key : Bytes) :
    keySym (shown (c k)) key (k = .subpkg) 0 = useSymbol k (c k) (key.drop 6) := by
  have hfits : snprintf (str "ADK_PACKAGE_" ++ shown (c k) ++ str "_") =
      str "ADK_PACKAGE_" ++ shown (c k) ++ str "_" := by
    have hlen : (str "ADK_PACKAGE_" ++ shown (c k) ++ str "_").length =
        (shown (c k)).length + 13 := by
      rw [List.length_append, List.length_append]
      change 12 + (shown (c k)).length + 1 = _
      omega
    rw [snprintf, List.take_of_length_le]
    rw [hlen, maxLine]
    omega
  cases k with
  | subpkg => rfl
  | flavour => exact congrArg (· ++ key.drop 6) hfits
  | choice => exact congrArg (· ++ key.drop 6) hfits

theorem keySym_system {system : Bytes} (hshort : system.length ≤ 500) (key : Bytes) :
    keySym system key false (systemOf system) = systemSymbol system := by
  have hfits : ∀ front ∈ [str "ADK_TARGET_LIB_", str "ADK_TARGET_SYSTEM_"],
      snprintf (front ++ system) = front ++ system := by
    intro front hfront
    have hlen : front.length ≤ 18 := (by decide : ∀ front ∈
      [str "ADK_TARGET_LIB_", str "ADK_TARGET_SYSTEM_"], front.length ≤ 18) front hfront
    rw [snprintf, List.take_of_length_le]
    rw [List.length_append, maxLine]
    omega
  rw [systemSymbol, systemOf]
  split
  · rw [if_pos rfl]
    exact hfits _ (by simp)
  · rw [if_neg (by decide)]
    exact hfits _ (by simp)

/-! ### Reading a line -/

theorem CompileRule.step_nil (name : Bytes) (r : CompileRule) : r.step name [] = r := by
  simp [CompileRule.step, depsText]

theorem map_pair {α β γ : Type} {o : Option α} {f : α → β} {x : β} (p : γ)
    (h : o.map f = some x) : (o.map fun y => (p, f y)) = some (p, x) := by
  obtain ⟨y, rfl, rfl⟩ := Option.map_eq_some_iff.mp h
  rfl

theorem cutKey_self (buf : Bytes) : cutKey buf buf = keyOf buf := by
  rw [cutKey, Nat.sub_self, List.take_zero, List.nil_append]

/-- The variable for build dependencies is found at the beginning only. -/
theorem Buildable.strstr_builddep (h : Buildable line) (hpkg : str "PKG" <+: line)
    (rest : Bytes) : strstr (str "PKG_BUILDDEP" ++ rest) (line ++ [newline]) =
      if str "PKG_BUILDDEP" ++ rest <+: line ++ [newline] then some (line ++ [newline])
      else none := by
  have honce := h.once hpkg
  obtain ⟨w, rfl⟩ := hpkg
  have hnone : strstr (str "PKG_BUILDDEP" ++ rest) (str "KG" ++ w ++ [newline]) = none :=
    strstr_append_eq_none honce
  change strstr _ (chr 'P' :: (str "KG" ++ w ++ [newline])) = _
  rw [strstr, hnone]
  rfl

theorem Buildable.strstr_none (h : Buildable line) (hpkg : str "PKG" <+: line)
    (hnot : ¬str "PKG_BUILDDEP" <+: line) (rest : Bytes) :
    strstr (str "PKG_BUILDDEP" ++ rest) (line ++ [newline]) = none := by
  rw [h.strstr_builddep hpkg, if_neg]
  intro hpre
  obtain heq | hline := List.prefix_concat_iff.mp ((List.prefix_append _ _).trans hpre)
  · have hmem : newline ∈ str "PKG_BUILDDEP" := heq ▸ by simp
    exact absurd hmem (by decide)
  · exact hnot hline

/-- No other variable is in a line for build dependencies. -/
theorem Buildable.blocks_none (h : Buildable line) (hpre : str "PKG_BUILDDEP" <+: line)
    (b : Block) : strstr b.name (line ++ [newline]) = none := by
  by_contra hfound
  have hpre' : str "PKG_BUILDDEP" <+: line ++ [newline] := hpre.trans (List.prefix_append _ _)
  obtain ⟨a, ha, hb⟩ := h.alone (List.IsPrefix.trans (by decide) hpre') b (mem_blocks b)
    (Option.isSome_iff_ne_none.mpr hfound)
  obtain ⟨-, -, hnone⟩ := h.written a ha b (mem_blocks b) hb
  have hsome := strstr_of_prefix hpre'
  cases hsome.symm.trans hnone

theorem lineDeps_eq {P : Prop} [Decidable P] (ha : assignment line = some a)
    (hP : Requires config c a ↔ P) :
    lineDeps config c line = if P then tokens blanks a.value else [] := by
  rw [lineDeps, ha]
  exact if_congr hP rfl rfl

theorem pkgLine_of {s s' s'' : Bytes × CompileRule} {t : Line × CompileRule}
    (hset : parseBuilddep config name pkgvar (str "PKG_BUILDDEP:=") (buf, r) = some s)
    (hadd : parseBuilddep config name pkgvar (str "PKG_BUILDDEP+=") s = some s')
    (hsystem : parseSystem config name s' = some s'')
    (hblocks : blocks.foldlM (fun s b => b.parse config name s)
      (⟨s''.1, c, fun _ => none⟩, s''.2) = some t) :
    pkgLine config name pkgvar c r buf = some t := by
  unfold pkgLine
  simp only [hset, hadd, hsystem, hblocks, Option.bind_eq_bind, Option.bind_some]

theorem Buildable.pkgLine_package (h : Buildable line) (ha : assignment line = some a)
    (hwritten : line = a.name ++ (str (if a.appends then "+=" else ":=") ++ a.value))
    (heq : chr '=' ∉ a.value) (hname : a.name = str "PKG_BUILDDEP")
    (hfits : Fitting name (lineDeps config c line)) :
    ∃ l, pkgLine config name pkgvar c r (line ++ [newline]) =
      some (l, r.step name (lineDeps config c line)) := by
  obtain ⟨htab, -⟩ := h.plain a ha (.inl (hname ▸ List.prefix_rfl))
  have hpkg : str "PKG" <+: line := by
    rw [hwritten, hname]
    exact List.IsPrefix.trans (by decide) (List.prefix_append _ _)
  have hkey := keyOf_line ha hwritten
  rw [lineDeps_eq ha (iff_true_intro (.inl hname))] at hfits ⊢
  have hparse : (parseLine config name pkgvar (line ++ [newline]) 0 false 0 r.prefixp).map r.add =
      some (r.step name (if True then tokens blanks a.value else [])) :=
    add_parseLine ha hwritten heq htab (by decide) (by simp) hfits
  have hcall (varname : Bytes) (hvar : varname <+: line ++ [newline]) :
      parseBuilddep config name pkgvar varname (line ++ [newline], r) =
        some (keyOf (line ++ [newline]),
          r.step name (if True then tokens blanks a.value else [])) := by
    rw [parseBuilddep, strstr_of_prefix hvar]
    dsimp only
    rw [cutKey_self]
    exact map_pair _ hparse
  cases happends : a.appends with
  | false =>
    have hline : line ++ [newline] = str "PKG_BUILDDEP:=" ++ (a.value ++ [newline]) := by
      conv_lhs => rw [hwritten, hname, happends, List.append_assoc, List.append_assoc]
      rfl
    have hkey : keyOf (line ++ [newline]) = str "PKG_BUILDDEP" := by
      rw [hkey, hname, happends]
      rfl
    have hrest : strstr (str "PKG_BUILDDEP+=") (str "PKG_BUILDDEP") = none ∧
        strstr (str "PKG_BUILDDEP_") (str "PKG_BUILDDEP") = none ∧
          ∀ b ∈ blocks, strstr b.name (str "PKG_BUILDDEP") = none := by decide
    have hread := hcall _ ⟨_, hline.symm⟩
    rw [hkey] at hread
    exact ⟨_, pkgLine_of hread (parseBuilddep_of_none hrest.1) (parseSystem_of_none hrest.2.1)
      (foldlM_parse_of_none hrest.2.2)⟩
  | true =>
    have hline : line ++ [newline] = str "PKG_BUILDDEP+=" ++ (a.value ++ [newline]) := by
      conv_lhs => rw [hwritten, hname, happends, List.append_assoc, List.append_assoc]
      rfl
    have hkey : keyOf (line ++ [newline]) = str "PKG_BUILDDEP+" := by
      rw [hkey, hname, happends]
      rfl
    have hset : strstr (str "PKG_BUILDDEP:=") (line ++ [newline]) = none := by
      refine (h.strstr_builddep hpkg (str ":=")).trans (if_neg fun hset => ?_)
      rw [hline] at hset
      exact absurd (List.prefix_of_prefix_length_le hset (List.prefix_append _ _) (by decide))
        (by decide)
    have hrest : strstr (str "PKG_BUILDDEP_") (str "PKG_BUILDDEP+") = none ∧
        ∀ b ∈ blocks, strstr b.name (str "PKG_BUILDDEP+") = none := by decide
    have hread := hcall _ ⟨_, hline.symm⟩
    rw [hkey] at hread
    exact ⟨_, pkgLine_of (parseBuilddep_of_none hset) hread (parseSystem_of_none hrest.1)
      (foldlM_parse_of_none hrest.2)⟩

theorem Buildable.pkgLine_system (h : Buildable line) (ha : assignment line = some a)
    (hwritten : line = a.name ++ (str (if a.appends then "+=" else ":=") ++ a.value))
    (heq : chr '=' ∉ a.value) (hsystem : str "PKG_BUILDDEP_" <+: a.name)
    (hfits : Fitting name (lineDeps config c line)) :
    ∃ l, pkgLine config name pkgvar c r (line ++ [newline]) =
      some (l, r.step name (lineDeps config c line)) := by
  have hbuilddep : str "PKG_BUILDDEP" <+: a.name := List.IsPrefix.trans (by decide) hsystem
  obtain ⟨htab, hshort⟩ := h.plain a ha (.inl hbuilddep)
  have hpre : str "PKG_BUILDDEP" <+: line := by
    rw [hwritten]
    exact hbuilddep.trans (List.prefix_append _ _)
  have hpkg : str "PKG" <+: line := List.IsPrefix.trans (by decide) hpre
  have hline : str "PKG_BUILDDEP_" <+: line ++ [newline] := by
    rw [hwritten, List.append_assoc]
    exact hsystem.trans (List.prefix_append _ _)
  have hother : ∀ op ∈ [str ":=", str "+="],
      strstr (str "PKG_BUILDDEP" ++ op) (line ++ [newline]) = none := by
    intro op hop
    rw [h.strstr_builddep hpkg, if_neg]
    intro hpre
    have hshape : ∀ op ∈ [str ":=", str "+="], (str "PKG_BUILDDEP_").length ≤
        (str "PKG_BUILDDEP" ++ op).length ∧ ¬str "PKG_BUILDDEP_" <+: str "PKG_BUILDDEP" ++ op := by
      decide
    obtain ⟨hlen, hnot⟩ := hshape op hop
    exact hnot (List.prefix_of_prefix_length_le hline hpre hlen)
  have hset : parseBuilddep config name pkgvar (str "PKG_BUILDDEP:=") (line ++ [newline], r) =
      some (line ++ [newline], r) := parseBuilddep_of_none (hother (str ":=") (by simp))
  have hadd : parseBuilddep config name pkgvar (str "PKG_BUILDDEP+=") (line ++ [newline], r) =
      some (line ++ [newline], r) := parseBuilddep_of_none (hother (str "+=") (by simp))
  have hop := isSome_strstr_set ha hwritten heq
  have hkey := keyOf_line ha hwritten
  have hblocks := h.blocks_none hpre
  rw [lineDeps_eq ha (requires_system hsystem)] at hfits ⊢
  obtain happends | happends := Bool.eq_false_or_eq_true a.appends
  · have hcall : parseSystem config name (line ++ [newline], r) = some (line ++ [newline], r) := by
      rw [parseSystem, strstr_of_prefix hline]
      dsimp only
      rw [hop, happends]
      rfl
    rw [if_neg fun h => absurd (happends.symm.trans h.1) (by decide), CompileRule.step_nil]
    exact ⟨_, pkgLine_of hset hadd hcall (foldlM_parse_of_none fun b _ => hblocks b)⟩
  · have hdpkg : (keyOf (line ++ [newline])).drop 13 = a.name.drop 13 := by
      rw [hkey, happends, if_neg Bool.false_ne_true, List.append_nil]
    have hsym (key : Bytes) : keySym (a.name.drop 13) key false (systemOf (a.name.drop 13)) =
        systemSymbol (a.name.drop 13) :=
      keySym_system ((List.drop_sublist 13 a.name).length_le.trans hshort) key
    have hcall : parseSystem config name (line ++ [newline], r) = some (keyOf (line ++ [newline]),
        r.step name (if a.appends = false ∧ checkSymbol config (systemSymbol (a.name.drop 13))
          then tokens blanks a.value else [])) := by
      have hset : (!false) = true := rfl
      rw [parseSystem, strstr_of_prefix hline]
      dsimp only
      rw [hop, hdpkg, cutKey_self]
      conv_lhs => rw [happends, if_pos hset]
      refine map_pair _ (add_parseLine ha hwritten heq htab (by decide) ?_ hfits)
      rw [hsym]
      simp [happends]
    have hleft : keyOf (line ++ [newline]) <+: line ++ [newline] :=
      prefix_keyOf (n := str "KG") (List.IsPrefix.trans (by decide) hline)
    exact ⟨_, pkgLine_of hset hadd hcall
      (foldlM_parse_of_none fun b _ => strstr_of_prefix_none hleft (hblocks b))⟩

/-- Only one block finds its variable. -/
theorem foldlM_blocks (b : Block) {s t : Line × CompileRule}
    (h : ∀ b' ≠ b, strstr b'.name s.1.buf = none) (hparse : b.parse config name s = some t)
    (hafter : ∀ b' ≠ b, strstr b'.name t.1.buf = none) :
    blocks.foldlM (fun s b => b.parse config name s) s = some t := by
  obtain ⟨front, back, hsplit, hfront, hback⟩ :=
    exists_split_of_nodup (mem_blocks b) (by decide : blocks.Nodup)
  rw [hsplit, List.foldlM_append, foldlM_parse_of_none fun b' hb' => h b' (hfront b' hb')]
  change (b.parse config name s).bind _ = _
  rw [hparse]
  exact foldlM_parse_of_none fun b' hb' => hafter b' (hback b' hb')

/-- What a block leaves of a line that begins with its variable. -/
theorem Block.run_leaves {s : Line} (hpkg : str "PKG" <+: s.buf)
    (hfound : strstr b.name s.buf = some s.buf) : (b.run s).buf <+: s.buf := by
  have hkey : cutKey s.buf s.buf <+: s.buf := by
    rw [cutKey_self]
    exact prefix_keyOf (n := str "KG") hpkg
  cases b with
  | declare k =>
    rw [Block.run_declare hfound]
    split
    · exact hkey
    · exact List.prefix_rfl
  | use k =>
    rw [Block.run_use hfound]
    exact hkey

theorem not_requires_declare (h : (Block.declare k).name <+: a.name) : ¬Requires config c a := by
  intro hreq
  obtain hbuilddep | ⟨k', hk'⟩ := builddep_of_requires_cases hreq
  · exact not_builddep_of_block h hbuilddep
  · exact Block.noConfusion (eq_of_prefixes h hk')

/-- The block of a line reads its dependencies. -/
theorem Buildable.parse_block (h : Buildable line) (ha : assignment line = some a)
    (hb : b.name <+: a.name) (hc : ∀ k, (shown (c k)).length ≤ 500)
    (hfits : Fitting name (lineDeps config c line)) :
    b.parse config name (⟨line ++ [newline], c, fun _ => none⟩, r) =
      some (b.run ⟨line ++ [newline], c, fun _ => none⟩,
        r.step name (lineDeps config c line)) := by
  obtain ⟨hwritten, heq, -⟩ := h.written a ha b (mem_blocks b) hb
  obtain ⟨htab, -⟩ := h.plain a ha (.inr ⟨b, mem_blocks b, hb⟩)
  obtain ⟨-, hfound⟩ := h.found ha hb
  cases b with
  | declare k =>
    rw [lineDeps_eq ha (iff_false_intro (not_requires_declare hb)), if_neg not_false,
      CompileRule.step_nil]
    rfl
  | use k =>
    have hlen : 6 ≤ a.name.length := by
      have hsix : (Block.use k).name.length = 6 := by cases k <;> rfl
      exact hsix ▸ hb.length_le
    have hsym : keySym (shown (c k)) (a.name ++ if a.appends then str "+" else [])
        (k = .subpkg) 0 =
          useSymbol k (c k) (a.name.drop 6 ++ if a.appends then str "+" else []) := by
      rw [keySym_use (hc k), List.drop_append_of_le_length hlen]
    rw [lineDeps_eq ha (requires_use hb)] at hfits ⊢
    have hparse : Block.parse config name (.use k) (⟨line ++ [newline], c, fun _ => none⟩, r) =
        (parseLine config name (shown (c k)) (line ++ [newline]) 1 (k = .subpkg) 0 r.prefixp).map
          fun result =>
            ((Block.use k).run ⟨line ++ [newline], c, fun _ => none⟩, r.add result) := by
      simp only [Block.parse, hfound]
    rw [hparse]
    refine map_pair _ (add_parseLine ha hwritten heq htab (by decide) ?_ hfits)
    rw [hsym]
    exact ⟨fun hset _ => hset, fun hset => hset rfl⟩

/-- A line for one of the variables is read by its block only. -/
theorem Buildable.pkgLine_block (h : Buildable line) (ha : assignment line = some a)
    (hb : b.name <+: a.name) (hc : ∀ k, (shown (c k)).length ≤ 500)
    (hfits : Fitting name (lineDeps config c line)) :
    ∃ l, pkgLine config name pkgvar c r (line ++ [newline]) =
      some (l, r.step name (lineDeps config c line)) := by
  obtain ⟨-, -, hbuilddep⟩ := h.written a ha b (mem_blocks b) hb
  obtain ⟨hpre, hfound⟩ := h.found ha hb
  have hpkg : str "PKG" <+: line ++ [newline] :=
    ((by decide : ∀ b ∈ blocks, str "PKG" <+: b.name) b (mem_blocks b)).trans hpre
  have hnone (rest : Bytes) : strstr (str "PKG_BUILDDEP" ++ rest) (line ++ [newline]) = none :=
    strstr_append_eq_none hbuilddep
  have hothers : ∀ b' ≠ b, strstr b'.name (line ++ [newline]) = none := by
    intro b' hne
    by_contra hfound
    obtain ⟨a', ha', hb'⟩ := h.alone hpkg b' (mem_blocks b') (Option.isSome_iff_ne_none.mpr hfound)
    obtain rfl := Option.some.inj (ha.symm.trans ha')
    exact hne (eq_of_prefixes hb hb')
  have hblocks := foldlM_blocks b hothers (h.parse_block (r := r) ha hb hc hfits) fun b' hne =>
    strstr_of_prefix_none (Block.run_leaves hpkg hfound) (hothers b' hne)
  exact ⟨_, pkgLine_of (parseBuilddep_of_none (hnone (str ":=")))
    (parseBuilddep_of_none (hnone (str "+="))) (parseSystem_of_none (hnone (str "_"))) hblocks⟩

/-- A line that begins with `PKG` begins with the name. -/
theorem name_begins (ha : assignment line = some a) (hpkg : str "PKG" <+: line) :
    a.name <+: line := by
  obtain ⟨w, rfl⟩ := hpkg
  have hfront : (str "PKG" ++ w).takeWhile (· ∉ str ":+=") =
      chr 'P' :: (str "KG" ++ w).takeWhile (· ∉ str ":+=") :=
    List.takeWhile_cons_of_pos (by decide)
  have hkeep : (chr 'P' :: (str "KG" ++ w).takeWhile (· ∉ str ":+=")).dropWhile (· ∈ blanks) =
      chr 'P' :: (str "KG" ++ w).takeWhile (· ∉ str ":+=") :=
    List.dropWhile_cons_of_neg (by decide)
  unfold assignment at ha
  dsimp only at ha
  split at ha
  case h_2 => cases ha
  case h_1 name htok =>
    rw [hfront, tokens_eq, strtok, hkeep] at htok
    have hname : name <+: str "PKG" ++ w := by
      rw [← (List.cons.inj htok).1, ← hfront]
      exact (List.takeWhile_prefix _).trans (List.takeWhile_prefix _)
    split at ha
    · cases ha
      exact hname
    · split at ha <;> cases ha
      exact hname

/-- What a line for `PKG` variables does to the rule. -/
theorem Buildable.pkgLine_eq (h : Buildable line) (hpkg : str "PKG" <+: line)
    (hc : ∀ k, (shown (c k)).length ≤ 500) (hfits : Fitting name (lineDeps config c line)) :
    ∃ l, pkgLine config name pkgvar c r (line ++ [newline]) =
      some (l, r.step name (lineDeps config c line)) := by
  by_cases hpre : str "PKG_BUILDDEP" <+: line
  · obtain ⟨a, ha, hbuilddep⟩ := h.named hpre
    obtain ⟨hwritten, heq, hname | hsystem⟩ := h.builddep a ha hbuilddep
    · exact h.pkgLine_package ha hwritten heq hname hfits
    · exact h.pkgLine_system ha hwritten heq hsystem hfits
  have hnone := h.strstr_none hpkg hpre
  by_cases hany : ∃ a ∈ assignment line, ∃ b : Block, b.name <+: a.name
  · obtain ⟨a, ha, b, hb⟩ := hany
    exact h.pkgLine_block ha hb hc hfits
  · -- no variable that is read
    have hline : lineDeps config c line = [] := by
      cases ha : assignment line with
      | none => rw [lineDeps, ha]
      | some a =>
        refine (lineDeps_eq ha (iff_false_intro fun hreq => ?_)).trans (if_neg not_false)
        obtain hbuilddep | ⟨k, hk⟩ := builddep_of_requires_cases hreq
        · exact hpre (hbuilddep.trans (name_begins ha hpkg))
        · exact hany ⟨a, ha, _, hk⟩
    have hblocks : ∀ b ∈ blocks, strstr b.name (line ++ [newline]) = none := by
      intro b hb
      by_contra hfound
      obtain ⟨a, ha, hname⟩ := h.alone (hpkg.trans (List.prefix_append _ _)) b hb
        (Option.isSome_iff_ne_none.mpr hfound)
      exact hany ⟨a, ha, b, hname⟩
    rw [hline, CompileRule.step_nil]
    exact ⟨_, pkgLine_of (parseBuilddep_of_none (hnone (str ":=")))
      (parseBuilddep_of_none (hnone (str "+="))) (parseSystem_of_none (hnone (str "_")))
        (foldlM_parse_of_none hblocks)⟩

/-! ### All lines of a package -/

def Short (c : Current) : Prop := ∀ k, (shown (c k)).length ≤ 500

theorem Buildable.short_step (h : Buildable line) (hc : Short c) :
    Short fun k => currentStep k (c k) line := by
  intro k
  dsimp only
  rw [currentStep]
  cases ha : assignment line with
  | none => exact hc k
  | some a =>
    dsimp only
    split
    · next hdeclare =>
      obtain ⟨-, hshort⟩ := h.plain a ha (.inr ⟨_, mem_blocks _, hdeclare.1⟩)
      exact (List.drop_sublist _ a.name).length_le.trans hshort
    · exact hc k

/-- Other lines are not for these variables. -/
theorem Buildable.of_not_pkg (h : Buildable line) (hpkg : ¬str "PKG" <+: line ++ [newline]) :
    lineDeps config c line = [] ∧ (fun k => currentStep k (c k) line) = c := by
  constructor
  · cases ha : assignment line with
    | none => rw [lineDeps, ha]
    | some a =>
      refine (lineDeps_eq ha (iff_false_intro fun hreq => hpkg ?_)).trans (if_neg not_false)
      obtain hname | ⟨k, hk⟩ := builddep_of_requires_cases hreq
      · rw [(h.builddep a ha hname).1, List.append_assoc]
        exact (List.IsPrefix.trans (by decide) hname).trans (List.prefix_append _ _)
      · have hfound := (h.found ha hk).1
        exact ((by decide : ∀ b ∈ blocks, str "PKG" <+: b.name) _ (mem_blocks _)).trans hfound
  · funext k
    rw [← h.cur_mainLine k, mainLine, if_neg hpkg]

theorem not_pkg_of_host (h : str "PKG" <+: buf) : ¬str "HOST_BUILDDEP" <+: buf := by
  intro hhost
  exact absurd (List.prefix_of_prefix_length_le h hhost (by decide)) (by decide)

/-- What a line does to what is known. -/
theorem Buildable.scanLine_eq (h : Buildable line) {s : Scan} (hc : Short s.cur)
    (hfits : Fitting name (lineDeps config s.cur line)) :
    scanLine config name s (line ++ [newline]) =
      (readLine config name s.host (line ++ [newline])).map fun host =>
        ⟨fun k => currentStep k (s.cur k) line,
          s.rule.step name (lineDeps config s.cur line), host⟩ := by
  unfold scanLine
  split
  case isTrue hpkg =>
    have hline : str "PKG" <+: line := by
      obtain heq | hline := List.prefix_concat_iff.mp hpkg
      · have hmem : newline ∈ str "PKG" := heq ▸ by simp
        exact absurd hmem (by decide)
      · exact hline
    obtain ⟨l, hread⟩ : ∃ l, pkgLine config name (upperstr name) s.cur s.rule (line ++ [newline]) =
        some (l, s.rule.step name (lineDeps config s.cur line)) := h.pkgLine_eq hline hc hfits
    have hcur : l.cur = fun k => currentStep k (s.cur k) line := by
      funext k
      rw [← h.cur_mainLine k]
      exact congrArg (fun l => Line.cur l k) (pkgLine_fst hread hpkg)
    rw [hread, readLine, if_neg (not_pkg_of_host hpkg), Option.map_some, Option.map_some, ← hcur]
  case isFalse hpkg =>
    obtain ⟨hnone, hcur⟩ : lineDeps config s.cur line = [] ∧
        (fun k => currentStep k (s.cur k) line) = s.cur := h.of_not_pkg hpkg
    rw [hnone, CompileRule.step_nil, hcur]

theorem CompileRule.step_step (name : Bytes) (r : CompileRule) (ts us : List Bytes) :
    (r.step name ts).step name us = r.step name (ts ++ us) := by
  by_cases hts : ts = []
  · subst hts
    rw [CompileRule.step_nil, List.nil_append]
  · rw [CompileRule.step, CompileRule.step, CompileRule.step, depsText_append _ _ hts]
    simp [hts]

theorem Fitting.left {us : List Bytes} (h : Fitting name (ts ++ us)) :
    Fitting name ts ∧ Fitting name us :=
  ⟨fun dep hdep => h dep (List.mem_append_left _ hdep),
    fun dep hdep => h dep (List.mem_append_right _ hdep)⟩

/-- What the lines do one after the other. -/
theorem foldlM_scanLine {lines : List Bytes} (hlines : ∀ line ∈ lines, Buildable line) (s : Scan)
    (hc : Short s.cur) (hfits : Fitting name (compileDeps config s.cur lines)) :
    (lines.map (· ++ [newline])).foldlM (scanLine config name) s =
      ((lines.map (· ++ [newline])).foldlM (readLine config name) s.host).map fun host =>
        ⟨fun k => lines.foldl (currentStep k) (s.cur k),
          s.rule.step name (compileDeps config s.cur lines), host⟩ := by
  induction lines generalizing s with
  | nil => rw [compileDeps, CompileRule.step_nil]; rfl
  | cons line lines ih =>
    obtain ⟨hline, hlines⟩ := List.forall_mem_cons.mp hlines
    obtain ⟨hfirst, hrest⟩ := Fitting.left hfits
    rw [List.map_cons, List.foldlM_cons, List.foldlM_cons, hline.scanLine_eq hc hfirst]
    cases readLine config name s.host (line ++ [newline]) with
    | none => rfl
    | some host =>
      refine (ih hlines _ (hline.short_step hc) hrest).trans ?_
      rw [CompileRule.step_step]
      rfl

theorem Short.foldl {lines : List Bytes} (hlines : ∀ line ∈ lines, Buildable line)
    (hc : Short c) : Short fun k => lines.foldl (currentStep k) (c k) := by
  induction lines generalizing c with
  | nil => exact hc
  | cons line lines ih =>
    obtain ⟨hline, hlines⟩ := List.forall_mem_cons.mp hlines
    exact ih hlines (hline.short_step hc)

theorem currentStep_congr {old old' : Option Bytes} (h : old.isSome → old' = old)
    (hsome : (currentStep k old line).isSome) :
    currentStep k old' line = currentStep k old line := by
  unfold currentStep at hsome ⊢
  split at hsome
  case h_1 => exact h hsome
  case h_2 =>
    split at hsome
    case isTrue hdeclare => rw [if_pos hdeclare, if_pos hdeclare]
    case isFalse hnot =>
      rw [if_neg hnot, if_neg hnot]
      exact h hsome

/-- Where everything is declared for a package before, what was declared in the packages before
does not matter. -/
theorem compileDeps_congr {lines : List Bytes} (h : Declared c lines)
    (hcur : ∀ k, (c k).isSome → c' k = c k) :
    compileDeps config c' lines = compileDeps config c lines := by
  induction lines generalizing c c' with
  | nil => rfl
  | cons line lines ih =>
    obtain ⟨hline, hlines⟩ := h
    have hreq (a : Assignment) (ha : assignment line = some a) :
        Requires config c' a ↔ Requires config c a := by
      refine or_congr_right (or_congr_right (exists_congr fun k => and_congr_right fun hk =>
        and_congr_right fun hname => ?_))
      cases k with
      | subpkg => rfl
      | flavour => rw [hcur _ (hline a ha _ hk (by decide) hname)]
      | choice => rw [hcur _ (hline a ha _ hk (by decide) hname)]
    have hdeps : lineDeps config c' line = lineDeps config c line := by
      cases ha : assignment line with
      | none => rw [lineDeps, lineDeps, ha]
      | some a => rw [lineDeps_eq ha (hreq a ha), lineDeps_eq ha Iff.rfl]
    rw [compileDeps, compileDeps, hdeps, ih hlines]
    exact fun k hsome => currentStep_congr (hcur k) hsome

/-! ### What is printed -/

theorem printed_step (name : Bytes) (ts : List Bytes) :
    printed (({} : CompileRule).step name ts).pkgdeps = compileRule name ts := by
  have hstep : (({} : CompileRule).step name ts).pkgdeps = depsText name false ts :=
    List.nil_append _
  rw [hstep, printed, compileRule]
  by_cases hts : ts = []
  · subst hts
    rfl
  · rw [if_neg (depsText_ne_nil name false hts), if_neg hts, depsText, if_neg hts,
      if_neg Bool.false_ne_true]

/-- A token is no longer than the rule. -/
theorem fitting_of_room (h : ∀ text ∈ compileRule name ts, text.length < maxLine) :
    Fitting name ts := by
  intro dep hdep
  have hne : ts ≠ [] := List.ne_nil_of_mem hdep
  rw [compileRule, if_neg hne] at h
  have hroom := h _ (List.mem_singleton_self _)
  have hle : (str " " ++ dep ++ str "-compile").length ≤ (compiles ts).length := by
    rw [compiles, List.flatMap_def]
    exact (List.sublist_flatten_of_mem
      (List.mem_map_of_mem (f := fun dep => str " " ++ dep ++ str "-compile") hdep)).length_le
  have hspace : str "-compile: " = str "-compile:" ++ str " " := by decide
  simp only [List.length_append, hspace] at hroom hle ⊢
  omega

/-- The host part does not stop. -/
theorem isSome_readLine (h : Host) (buf : Bytes) : (readLine config name h buf).isSome := by
  unfold readLine
  split
  case isFalse => rfl
  case isTrue hpre =>
    obtain ⟨w, rfl⟩ := hpre
    have hdrop : (str "HOST_BUILDDEP" ++ w).dropLast =
        chr 'H' :: (str "OST_BUILDDEP" ++ w).dropLast := rfl
    have hkeep : (chr 'H' :: (str "OST_BUILDDEP" ++ w).dropLast).dropWhile (· ∈ str ":=") =
        chr 'H' :: (str "OST_BUILDDEP" ++ w).dropLast := List.dropWhile_cons_of_neg (by decide)
    rw [hostLine, Option.isSome_map, parseLine, hdrop, strtok, hkeep]
    rfl

theorem isSome_foldlM_readLine (bufs : List Bytes) (h : Host) :
    (bufs.foldlM (readLine config name) h).isSome := by
  induction bufs generalizing h with
  | nil => rfl
  | cons buf bufs ih =>
    obtain ⟨host, hhost⟩ : ∃ host, readLine config name h buf = some host :=
      Option.isSome_iff_exists.mp (isSome_readLine h buf)
    rw [List.foldlM_cons, hhost]
    exact ih host

variable {makefile : Bytes}

theorem hostRules_printed (h : (fileLines makefile).foldlM (readLine config name) {} = some host) :
    (hostRules config name makefile).getD [] = printed (host.hpkgdeps.getD []) := by
  rw [hostRules, h, Option.map_some, Option.getD_some]
  cases host.hpkgdeps with
  | none => rfl
  | some text => rfl

/-- What is printed for a package does not depend on the packages before. -/
theorem ReadableMakefile.packageLines_eq (h : ReadableMakefile config name makefile)
    (hc : Short c) : packageLines config name makefile c =
      some (fun k => (textLines makefile).foldl (currentStep k) (c k),
        packageBlock config name makefile) := by
  have hdeps : compileDeps config c (textLines makefile) =
      compileDeps config (fun _ => none) (textLines makefile) :=
    compileDeps_congr h.declared fun k hsome => by cases hsome
  have hfits : Fitting name (compileDeps config c (textLines makefile)) :=
    hdeps ▸ fitting_of_room h.room
  obtain ⟨host, hhost⟩ : ∃ host,
      (fileLines makefile).foldlM (readLine config name) {} = some host :=
    Option.isSome_iff_exists.mp (isSome_foldlM_readLine _ _)
  have hscan := foldlM_scanLine h.buildable { cur := c } hc hfits
  rw [← h.whole] at hscan
  rw [packageLines, hscan, hhost]
  simp only [Option.map_some, hdeps, printed_step, packageBlock, hostRules_printed hhost]

/-- `package/Depends.mk` holds one block for each package, which depends on its Makefile and on
`.config` only. -/
theorem dependsMk_eq {es : List Entry}
    (h : ∀ e ∈ es, ∀ makefile ∈ e.visited, ReadableMakefile config e.name makefile) :
    dependsMk config (fun _ => none) es =
      some (es.flatMap fun e => e.visited.elim [] (packageBlock config e.name)) := by
  suffices hall : ∀ c, Short c → dependsMk config c es =
      some (es.flatMap fun e => e.visited.elim [] (packageBlock config e.name)) from
    hall _ fun k => (by decide : (shown none).length ≤ 500)
  induction es with
  | nil => exact fun c _ => rfl
  | cons e es ih =>
    intro c hc
    obtain ⟨he, hes⟩ := List.forall_mem_cons.mp h
    rw [dependsMk, List.flatMap_cons]
    cases hvisited : e.visited with
    | none => exact ih hes c hc
    | some makefile =>
      have hread := he makefile hvisited
      dsimp only
      rw [hread.packageLines_eq hc, Option.bind_eq_bind, Option.bind_some,
        ih hes _ (hc.foldl hread.buildable)]
      rfl

end

namespace Samples

def config : Bytes := str "ADK_PACKAGE_B_F=y\n"

def first : Bytes := str "PKG_NAME:=\ta\n"

def second : Bytes := str "PKG_BUILDDEP:=\ta\nPKG_FLAVOURS_B:=F G\nPKGFB_F:=c\nPKGFB_G:=d\n"

def entries : List Entry := [⟨str "a", some first⟩, ⟨str "b", some second⟩]

theorem readableMakefile_entries : ∀ e ∈ entries, ∀ makefile ∈ e.visited,
    ReadableMakefile config e.name makefile := by
  have hfirst : ReadableMakefile config (str "a") first :=
    ⟨by decide +kernel, by decide +kernel, by decide +kernel, by decide +kernel⟩
  have hsecond : ReadableMakefile config (str "b") second :=
    ⟨by decide +kernel, by decide +kernel, by decide +kernel, by decide +kernel⟩
  intro e he makefile hvisited
  obtain rfl | he := List.mem_cons.mp he
  · exact Option.some.inj hvisited ▸ hfirst
  · obtain rfl := List.mem_singleton.mp he
    exact Option.some.inj hvisited ▸ hsecond

theorem dependsMk_eq_twoPackages : dependsMk config (fun _ => none) entries =
    some [str "package-$(ADK_COMPILE_A) += a", str "hostpackage-$(ADK_HOST_BUILD_A) += a",
      str "package-$(ADK_COMPILE_B) += b", str "hostpackage-$(ADK_HOST_BUILD_B) += b",
      str "b-compile: a-compile c-compile"] :=
  (dependsMk_eq readableMakefile_entries).trans (by decide +kernel)

end Samples

end OpenADK.Depmaker
