import OpenADK.Pkgmaker.Assignments

/-!
# Host rules

`depmaker` prints the build dependencies of the packages as rules for `make`. The rule for the host
part of a package is made of the `HOST_BUILDDEP` lines of its Makefile.
-/

namespace OpenADK.Depmaker
open CString Pkgmaker

def maxLine : ℕ := 1024

/-- The lines of a file, as far as they fit into a buffer of `MAXLINE` bytes. -/
def fileLines (file : Bytes) : List Bytes := readLines newline (maxLine - 2) file

/-- `snprintf` into a buffer of `MAXLINE` bytes. -/
def snprintf (s : Bytes) : Bytes := s.take (maxLine - 1)

/-- The symbol is set in `.config`; `check_symbol` returns 0 then. -/
def checkSymbol (config symbol : Bytes) : Bool :=
  (fileLines config).any fun buf => symbol ++ str "=" <+: buf

def upperstr (s : Bytes) : Bytes :=
  s.map fun c => if c = chr '+' then chr 'X' else if c = chr '-' then chr '_' else toupper c

/-! ### `parse_line` -/

/-- The symbol of a line that is read only if it is set. -/
def keySym (pkgvar key : Bytes) ( pprefix : Bool) (system : ℕ) : Bytes :=
  match system with
  | 0 =>
    if pprefix then str "ADK_PACKAGE_" ++ key.drop 6
    else snprintf (str "ADK_PACKAGE_" ++ pkgvar ++ str "_") ++ key.drop 6
  | 1 => snprintf (str "ADK_TARGET_SYSTEM_" ++ pkgvar)
  | 2 => snprintf (str "ADK_TARGET_LIB_" ++ pkgvar)
  | _ => []

/-- What the names of the optional host tools begin with. -/
def optionalTools : List Bytes :=
  [str "bc", str "bzip2", str "file", str "gawk", str "grep", str "sed", str "xz"]

/-- The name without its last five characters. From a shorter one nothing is taken, since the
length wraps around. -/
def depvar (dep : Bytes) : Bytes := if dep.length < 5 then dep else dep.take (dep.length - 5)

def skipped (config dep : Bytes) : Bool :=
  optionalTools.any (· <+: depvar dep) &&
    !checkSymbol config (snprintf (str "ADK_HOST_BUILD_" ++ upperstr (depvar dep)))

/-- The `while` loop: the text for the tokens, and whether the rule has been begun. A token that is
not required ends the line, and nothing is returned for it. -/
def deps (config package : Bytes) (checksym : ℕ) :
    List Bytes → Bool → Bytes → Option Bytes × Bool
  | [], prefixp, pkgdeps => (some pkgdeps, prefixp)
  | dep :: ds, prefixp, pkgdeps =>
    if checksym = 2 ∧ skipped config dep then (none, prefixp)
    else
      let temp :=
        if prefixp then str " " ++ dep ++ str "-compile"
        else package ++ str "-compile: " ++ dep ++ str "-compile"
      deps config package checksym ds true (pkgdeps ++ snprintf temp)

/-- `parse_line`, which exits if there is no key. -/
def parseLine (config package pkgvar string : Bytes) (checksym : ℕ) ( pprefix : Bool) (system : ℕ)
    (prefixp : Bool) : Option (Option Bytes × Bool) :=
  match strtok (str ":=") string.dropLast with
  | none => none
  | some (key, rest) =>
    if checksym = 1 ∧ ¬checkSymbol config (keySym pkgvar key pprefix system) then
      some (none, prefixp)
    else
      let value := (strtok (str "=\t") rest).map Prod.fst
      some (deps config package checksym (tokens (str " ") (value.getD [])) prefixp [])

/-! ### The host part of `main` -/

/-- `hprefix`, passed on as `prefixp`, and `hpkgdeps` -/
structure Host where
  hprefixp : Bool := false
  hpkgdeps : Option Bytes := none
  deriving DecidableEq, Repr

/-- What is done with a line that begins with `HOST_BUILDDEP`. -/
def hostLine (config name : Bytes) (h : Host) (buf : Bytes) : Option Host :=
  (parseLine config (name ++ str "-host") [] buf 2 false 0 h.hprefixp).map fun (tmp, hprefixp) =>
    match tmp with
    | none => ⟨hprefixp, h.hpkgdeps⟩
    | some tmp => ⟨hprefixp, if tmp = [] then h.hpkgdeps else some (h.hpkgdeps.getD [] ++ tmp)⟩

/-- The lines for `PKG` variables leave the host part as it is. -/
def readLine (config name : Bytes) (h : Host) (buf : Bytes) : Option Host :=
  if str "HOST_BUILDDEP" <+: buf then hostLine config name h buf else some h

def hostRules (config name makefile : Bytes) : Option (List Bytes) :=
  ((fileLines makefile).foldlM (readLine config name) {}).map fun h =>
    match h.hpkgdeps with
    | none => []
    | some hpkgdeps => if hpkgdeps = [] then [] else [hpkgdeps]

/-! ### What a Makefile says -/

def givingLines (makefile : Bytes) : List Bytes :=
  (makefile.splitOn newline).filter fun line =>
    str "HOST_BUILDDEP:=" <+: line ∨ str "HOST_BUILDDEP+=" <+: line

def given (line : Bytes) : List Bytes := tokens blanks (line.drop 15)

/-- One of the optional host tools, whose symbol is not set. -/
def Unset (config dep : Bytes) : Prop :=
  ∃ tool ∈ optionalTools, dep = tool ++ str "-host" ∧
    ¬checkSymbol config (str "ADK_HOST_BUILD_" ++ upperstr tool)

instance (config dep : Bytes) : Decidable (Unset config dep) :=
  inferInstanceAs (Decidable (∃ _ ∈ _, _))

/-- The host dependencies but for the optional tools that are not set. -/
def required (config makefile : Bytes) : List Bytes :=
  ((givingLines makefile).flatMap given).filter fun dep => ¬Unset config dep

def rule (name : Bytes) (ds : List Bytes) : Bytes :=
  name ++ str "-host-compile:" ++ ds.flatMap fun dep => str " " ++ dep ++ str "-compile"

/-- At most one rule is printed, and it has exactly the dependencies that are required. -/
def RuleRight (config name makefile : Bytes) : Prop :=
  hostRules config name makefile =
    some (if required config makefile = [] then [] else [rule name (required config makefile)])

/-! ### The tokens of a line -/

variable {config name makefile package line : Bytes} {ts : List Bytes} {h : Host}

def compiles (ts : List Bytes) : Bytes := ts.flatMap fun dep => str " " ++ dep ++ str "-compile"

def depsText (package : Bytes) (prefixp : Bool) (ts : List Bytes) : Bytes :=
  if ts = [] then [] else (if prefixp then [] else package ++ str "-compile:") ++ compiles ts

def begun (config : Bytes) (prefixp : Bool) : List Bytes → Bool
  | [] => prefixp
  | dep :: _ => prefixp || !skipped config dep

theorem compiles_cons (dep : Bytes) (ts : List Bytes) :
    compiles (dep :: ts) = str " " ++ dep ++ str "-compile" ++ compiles ts := List.flatMap_cons

theorem depsText_ne_nil (package : Bytes) (prefixp : Bool) (hts : ts ≠ []) :
    depsText package prefixp ts ≠ [] := by
  obtain ⟨dep, ts, rfl⟩ := List.exists_cons_of_ne_nil hts
  rw [depsText, if_neg hts, compiles_cons]
  exact List.append_ne_nil_of_right_ne_nil _ (List.cons_ne_nil _ _)

/-- A line gives its text unless a token is not required. The rule is begun also by the tokens
before such a one. -/
theorem deps_eq (hshort : ∀ dep ∈ ts,
      (package ++ str "-compile: " ++ dep ++ str "-compile").length < maxLine)
    (prefixp : Bool) (pkgdeps : Bytes) :
    deps config package 2 ts prefixp pkgdeps =
      (if ts.any (skipped config) then none else some (pkgdeps ++ depsText package prefixp ts),
        begun config prefixp ts) := by
  induction ts generalizing prefixp pkgdeps with
  | nil => simp [deps, depsText, begun]
  | cons dep ts ih =>
    have hdep := hshort dep List.mem_cons_self
    rw [deps]
    cases hskip : skipped config dep with
    | true => simp [hskip, begun]
    | false =>
      have hfits (b : Bool) : snprintf (if b then str " " ++ dep ++ str "-compile"
          else package ++ str "-compile: " ++ dep ++ str "-compile") =
          (if b then [] else package ++ str "-compile:") ++ (str " " ++ dep ++ str "-compile") := by
        have hspace : str "-compile: " = str "-compile:" ++ str " " := by decide
        cases b with
        | true =>
          rw [if_pos rfl, if_pos rfl, List.nil_append, snprintf, List.take_of_length_le]
          simp only [List.length_append, hspace] at hdep ⊢
          omega
        | false =>
          rw [if_neg Bool.false_ne_true, if_neg Bool.false_ne_true, snprintf,
            List.take_of_length_le (by omega), hspace]
          simp only [List.append_assoc]
      have hcond : ¬(2 = 2 ∧ false = true) := by simp
      rw [if_neg hcond, ih (fun dep hdep => hshort dep (List.mem_cons_of_mem _ hdep))]
      simp only [hfits, List.any_cons, hskip, Bool.false_or, begun, Bool.not_false,
        Bool.or_true, depsText, if_neg (List.cons_ne_nil dep ts), compiles_cons]
      cases hts : ts with
      | nil => simp [compiles]
      | cons dep' ts' => simp [List.append_assoc]

/-! ### Lines that are read as they are written -/

/-- The lines for host dependencies are the pieces that are read for them, their values hold no
`=` and no inner tab, and what they become fits into the buffers. -/
structure Readable (name makefile : Bytes) : Prop where
  whole : (fileLines makefile).filter (str "HOST_BUILDDEP" <+: ·) =
    (givingLines makefile).map (· ++ [newline])
  plain : ∀ line ∈ givingLines makefile,
    chr '=' ∉ line.drop 15 ∧ tab ∉ (line.drop 15).dropWhile (· = tab)
  room : ∀ line ∈ givingLines makefile, (rule name (given line)).length < maxLine

theorem tokens_cut {value : Bytes} (heq : chr '=' ∉ value)
    (htab : tab ∉ value.dropWhile (· = tab)) :
    tokens (str " ") ((cut value).getD []) = tokens blanks value := by
  have hsplit := List.takeWhile_append_dropWhile (p := (· = tab)) (l := value)
  have htabs : ∀ c ∈ value.takeWhile (· = tab), c ∈ blanks := fun c hc => by
    have hc : c = tab := by simpa using List.mem_takeWhile_imp hc
    exact hc ▸ by decide
  have hcut : (cut value).getD [] = value.dropWhile (· = tab) := by
    rw [cut_of_plain heq htab]
    split
    case isTrue hnil => exact hnil.symm
    case isFalse => rfl
  rw [hcut, ← tokens_blanks htab]
  conv_rhs => rw [← hsplit, tokens_append_left htabs]

/-- The value of such a line is found behind its operator. -/
theorem parseLine_eq (hgiving : line ∈ givingLines makefile) (heq : chr '=' ∉ line.drop 15)
    (htab : tab ∉ (line.drop 15).dropWhile (· = tab)) (prefixp : Bool) :
    parseLine config package [] (line ++ [newline]) 2 false 0 prefixp =
      some (deps config package 2 (given line) prefixp []) := by
  have hkey : ∃ key rest, strtok (str ":=") line = some (key, rest) ∧
      (strtok (str "=\t") rest).map Prod.fst = cut (line.drop 15) := by
    have hform := of_decide_eq_true (List.mem_filter.mp hgiving).2
    rcases hform with ⟨value, rfl⟩ | ⟨value, rfl⟩
    · refine ⟨_, _, (strtok_of_not_mem (s := str "HOST_BUILDDEP") (by decide) (by decide +kernel)
        (by decide : chr ':' ∈ str ":=") (chr '=' :: value)).1, ?_⟩
      have hskip : strtok (str "=\t") ([chr '='] ++ value) = strtok (str "=\t") value :=
        strtok_append_left (by decide +kernel) value
      exact congrArg (Option.map Prod.fst) hskip
    · exact ⟨_, _, (strtok_of_not_mem (s := str "HOST_BUILDDEP+") (by decide) (by decide +kernel)
        (by decide : chr '=' ∈ str ":=") value).1, rfl⟩
  obtain ⟨key, rest, hkey, hvalue⟩ := hkey
  rw [parseLine, List.dropLast_concat, hkey]
  simp only
  rw [if_neg (by simp), hvalue, tokens_cut heq htab, given]

def Host.step (config name : Bytes) (h : Host) (ts : List Bytes) : Host where
  hprefixp := begun config h.hprefixp ts
  hpkgdeps :=
    if ts.any (skipped config) ∨ ts = [] then h.hpkgdeps
    else some (h.hpkgdeps.getD [] ++ depsText (name ++ str "-host") h.hprefixp ts)

theorem length_le_of_mem {dep : Bytes} (h : dep ∈ ts) :
    (name ++ str "-host" ++ str "-compile: " ++ dep ++ str "-compile").length ≤
      (rule name ts).length := by
  have hsub := List.sublist_flatten_of_mem
    (List.mem_map_of_mem (f := fun dep => str " " ++ dep ++ str "-compile") h)
  have hle := hsub.length_le
  rw [rule, List.flatMap_def, List.length_append]
  simp only [List.length_append, str, List.length_map] at hle ⊢
  simp at hle ⊢
  omega

theorem readLine_eq (hread : Readable name makefile) (hgiving : line ∈ givingLines makefile)
    (h : Host) :
    readLine config name h (line ++ [newline]) = some (h.step config name (given line)) := by
  have hpre : str "HOST_BUILDDEP" <+: line ++ [newline] := by
    have hform := of_decide_eq_true (List.mem_filter.mp hgiving).2
    rcases hform with ⟨value, rfl⟩ | ⟨value, rfl⟩
    · exact ⟨str ":=" ++ value ++ [newline], rfl⟩
    · exact ⟨str "+=" ++ value ++ [newline], rfl⟩
  have hshort : ∀ dep ∈ given line,
      (name ++ str "-host" ++ str "-compile: " ++ dep ++ str "-compile").length < maxLine :=
    fun dep hdep => lt_of_le_of_lt (length_le_of_mem hdep) (hread.room line hgiving)
  obtain ⟨heq, htab⟩ := hread.plain line hgiving
  rw [readLine, if_pos hpre, hostLine, parseLine_eq hgiving heq htab, deps_eq hshort,
    Option.map_some, Host.step]
  simp only [List.nil_append]
  cases hany : (given line).any (skipped config) with
  | true => simp
  | false =>
    by_cases hnil : given line = []
    · simp [hnil, depsText]
    · simp [hnil, depsText_ne_nil (name ++ str "-host") h.hprefixp hnil]

/-! ### All lines -/

variable {Ls : List (List Bytes)}

theorem foldlM_readLine {pieces lines : List Bytes} (hread : Readable name makefile)
    (hlines : ∀ line ∈ lines, line ∈ givingLines makefile)
    (hpieces : pieces.filter (str "HOST_BUILDDEP" <+: ·) = lines.map (· ++ [newline])) (h : Host) :
    pieces.foldlM (readLine config name) h =
      some ((lines.map given).foldl (Host.step config name) h) := by
  induction pieces generalizing lines h with
  | nil =>
    obtain rfl := List.map_eq_nil_iff.mp hpieces.symm
    rfl
  | cons buf pieces ih =>
    rw [List.filter_cons] at hpieces
    rw [List.foldlM_cons]
    split at hpieces
    case isTrue =>
      cases lines with
      | nil => cases hpieces
      | cons line lines =>
        obtain ⟨rfl, hrest⟩ := List.cons.inj hpieces
        rw [readLine_eq hread (hlines line List.mem_cons_self)]
        exact ih (fun line hline => hlines line (List.mem_cons_of_mem _ hline)) hrest _
    case isFalse hother =>
      rw [readLine, if_neg (by simpa using hother)]
      exact ih hlines hpieces h

def Host.held (h : Host) : Bytes := h.hpkgdeps.getD []

theorem hostRules_eq (hread : Readable name makefile) : hostRules config name makefile =
    let held := (((givingLines makefile).map given).foldl (Host.step config name) {}).held
    some (if held = [] then [] else [held]) := by
  rw [hostRules, foldlM_readLine hread (fun _ h => h) hread.whole, Option.map_some]
  dsimp only [Host.held]
  split
  case h_1 hnone => rw [hnone, Option.getD_none, if_pos rfl]
  case h_2 hsome => rw [hsome, Option.getD_some]

def kept (config : Bytes) (Ls : List (List Bytes)) : List Bytes :=
  (Ls.filter fun ts => !ts.any (skipped config)).flatten

theorem compiles_append (ts us : List Bytes) : compiles (ts ++ us) = compiles ts ++ compiles us :=
  List.flatMap_append

theorem Host.held_step (h : Host) (ts : List Bytes) : (h.step config name ts).held =
    if ts.any (skipped config) ∨ ts = [] then h.held
    else h.held ++ depsText (name ++ str "-host") h.hprefixp ts := by
  unfold Host.held Host.step
  split <;> rfl

theorem kept_cons (ts : List Bytes) (Ls : List (List Bytes)) : kept config (ts :: Ls) =
    (if ts.any (skipped config) then [] else ts) ++ kept config Ls := by
  rw [kept, List.filter_cons]
  cases ts.any (skipped config) <;> rfl

/-- Once begun, the rule remains so. -/
theorem begun_true (config : Bytes) (ts : List Bytes) : begun config true ts = true := by
  cases ts <;> rfl

theorem begun_of_not_skipped (hts : ts ≠ []) (hany : ts.any (skipped config) = false)
    (prefixp : Bool) : begun config prefixp ts = true := by
  obtain ⟨dep, ts, rfl⟩ := List.exists_cons_of_ne_nil hts
  rw [List.any_cons, Bool.or_eq_false_iff] at hany
  rw [begun, hany.1, Bool.not_false, Bool.or_true]

/-- No more is held than the beginning of the rule and the tokens of the lines that are kept. -/
theorem length_held_le (config name : Bytes) (Ls : List (List Bytes)) (h : Host) :
    (Ls.foldl (Host.step config name) h).held.length ≤ h.held.length +
      (if h.hprefixp then 0 else (name ++ str "-host" ++ str "-compile:").length) +
        (compiles (kept config Ls)).length := by
  induction Ls generalizing h with
  | nil =>
    rw [List.foldl_nil]
    omega
  | cons ts Ls ih =>
    rw [List.foldl_cons]
    apply (ih _).trans
    rw [Host.held_step, kept_cons, compiles_append]
    generalize hheader : name ++ str "-host" ++ str "-compile:" = header
    have hb : (h.step config name ts).hprefixp = begun config h.hprefixp ts := rfl
    rw [hb]
    by_cases hdrop : ts.any (skipped config) ∨ ts = []
    · have hnil : compiles (if ts.any (skipped config) then [] else ts) = [] := by
        rcases hdrop with hany | rfl
        · rw [if_pos hany]
          rfl
        · rfl
      rw [if_pos hdrop, hnil, List.nil_append]
      cases h.hprefixp with
      | true => rw [begun_true]
      | false =>
        have hle : (if begun config false ts then 0 else header.length) ≤ header.length := by
          split <;> omega
        rw [if_neg Bool.false_ne_true]
        omega
    · obtain ⟨hany, hts⟩ := not_or.mp hdrop
      have hany : ts.any (skipped config) = false := by simpa using hany
      rw [if_neg hdrop, begun_of_not_skipped hts hany, if_pos rfl, hany,
        if_neg Bool.false_ne_true, depsText, if_neg hts, hheader, List.length_append,
        List.length_append, List.length_append]
      cases h.hprefixp with
      | true =>
        rw [if_pos rfl, if_pos rfl, List.length_nil]
        omega
      | false =>
        rw [if_neg Bool.false_ne_true, if_neg Bool.false_ne_true]
        omega

theorem depsText_append (package : Bytes) (prefixp : Bool) (hts : ts ≠ []) (us : List Bytes) :
    depsText package prefixp (ts ++ us) =
      depsText package prefixp ts ++ depsText package true us := by
  have hne : ts ++ us ≠ [] := List.append_ne_nil_of_left_ne_nil hts us
  have htrue : depsText package true us = compiles us := by
    rw [depsText]
    split
    case isTrue hus => rw [hus]; rfl
    case isFalse => rw [if_pos rfl, List.nil_append]
  rw [htrue, depsText, depsText, if_neg hne, if_neg hts, compiles_append, List.append_assoc]

/-- A tool that is not set is not required. -/
theorem skipped_of_unset {dep : Bytes} (h : Unset config dep) : skipped config dep := by
  obtain ⟨tool, htool, rfl, hunset⟩ := h
  have hlen : (tool ++ str "-host").length = tool.length + 5 := List.length_append
  have hvar : depvar (tool ++ str "-host") = tool := by
    rw [depvar, if_neg (by omega), hlen, Nat.add_sub_cancel, List.take_left]
  have hshort : ∀ tool ∈ optionalTools, snprintf (str "ADK_HOST_BUILD_" ++ upperstr tool) =
      str "ADK_HOST_BUILD_" ++ upperstr tool := by decide
  rw [skipped, hvar, hshort tool htool, Bool.and_eq_true, List.any_eq_true]
  exact ⟨⟨tool, htool, decide_eq_true (List.prefix_refl tool)⟩, by simpa using hunset⟩

/-- Lines that are dropped only if no token of them is required. -/
theorem held_eq (name : Bytes)
    (hright : ∀ ts ∈ Ls, (∀ dep ∈ ts, ¬skipped config dep) ∨ ∀ dep ∈ ts, Unset config dep)
    (h : Host) : (Ls.foldl (Host.step config name) h).held =
      h.held ++ depsText (name ++ str "-host") h.hprefixp
        (Ls.flatten.filter fun dep => ¬Unset config dep) := by
  induction Ls generalizing h with
  | nil => simp [depsText]
  | cons ts Ls ih =>
    rw [List.foldl_cons, ih fun ts hts => hright ts (List.mem_cons_of_mem _ hts), Host.held_step,
      List.flatten_cons, List.filter_append]
    have hprefixp : (h.step config name ts).hprefixp = begun config h.hprefixp ts := rfl
    rw [hprefixp]
    by_cases hts : ts = []
    · subst hts
      rw [if_pos (.inr rfl)]
      rfl
    · rcases hright ts List.mem_cons_self with hkept | hunset
      · have hany : ts.any (skipped config) = false := by
          rw [List.any_eq_false]
          exact hkept
        have hall : ts.filter (fun dep => ¬Unset config dep) = ts := by
          rw [List.filter_eq_self]
          exact fun dep hdep => decide_eq_true fun h => hkept dep hdep (skipped_of_unset h)
        rw [hany, if_neg (by simpa using hts), begun_of_not_skipped hts hany, hall,
          depsText_append _ _ hts, List.append_assoc]
      · obtain ⟨dep, us, rfl⟩ := List.exists_cons_of_ne_nil hts
        have hskip := skipped_of_unset (hunset dep List.mem_cons_self)
        have hnone : (dep :: us).filter (fun dep => ¬Unset config dep) = [] := by
          rw [List.filter_eq_nil_iff]
          exact fun dep hdep => by simpa using hunset dep hdep
        rw [if_pos (.inl (by rw [List.any_cons, hskip, Bool.true_or])), hnone, begun, hskip,
          Bool.not_true, Bool.or_false, List.nil_append]

/-! ### When the rule is right -/

/-- Each line is kept or has nothing that is required. -/
def KeepsRequired (config makefile : Bytes) : Prop :=
  ∀ line ∈ givingLines makefile, (∀ dep ∈ given line, ¬skipped config dep) ∨
    ∀ dep ∈ given line, Unset config dep

theorem length_compiles (ts : List Bytes) :
    (compiles ts).length = (ts.map fun dep => dep.length + 9).sum := by
  induction ts with
  | nil => rfl
  | cons dep ts ih =>
    rw [compiles_cons, List.length_append, ih, List.map_cons, List.sum_cons]
    simp [str]

/-- No line gives more than what is required of it. -/
theorem kept_line_le (ts : List Bytes) :
    (compiles (if ts.any (skipped config) then [] else ts)).length ≤
      (compiles (ts.filter fun dep => ¬Unset config dep)).length := by
  split
  case isTrue => exact Nat.zero_le _
  case isFalse hany =>
    have hall : ts.filter (fun dep => ¬Unset config dep) = ts := by
      rw [List.filter_eq_self]
      refine fun dep hdep => decide_eq_true fun h => hany ?_
      exact List.any_eq_true.mpr ⟨dep, hdep, skipped_of_unset h⟩
    rw [hall]

theorem length_kept_le (config : Bytes) (Ls : List (List Bytes)) :
    (compiles (kept config Ls)).length ≤
      (compiles (Ls.flatten.filter fun dep => ¬Unset config dep)).length := by
  induction Ls with
  | nil => exact le_rfl
  | cons ts Ls ih =>
    rw [kept_cons, compiles_append, List.flatten_cons, List.filter_append, compiles_append,
      List.length_append, List.length_append]
    exact Nat.add_le_add (kept_line_le ts) ih

/-- A line that is dropped although something of it is required is missed. -/
theorem length_kept_lt {dep : Bytes} (hts : ts ∈ Ls) (hany : ts.any (skipped config))
    (hdep : dep ∈ ts) (hset : ¬Unset config dep) : (compiles (kept config Ls)).length <
      (compiles (Ls.flatten.filter fun dep => ¬Unset config dep)).length := by
  induction Ls with
  | nil => cases hts
  | cons us Ls ih =>
    rw [kept_cons, compiles_append, List.flatten_cons, List.filter_append, compiles_append,
      List.length_append, List.length_append]
    rcases List.mem_cons.mp hts with rfl | hts
    · have hne : 0 < (compiles (ts.filter fun dep => ¬Unset config dep)).length := by
        have hmem : dep ∈ ts.filter fun dep => ¬Unset config dep :=
          List.mem_filter.mpr ⟨hdep, decide_eq_true hset⟩
        obtain ⟨u, us, hus⟩ := List.exists_cons_of_ne_nil (List.ne_nil_of_mem hmem)
        rw [hus, length_compiles, List.map_cons, List.sum_cons]
        omega
      have hrest := length_kept_le config Ls
      rw [if_pos hany]
      exact Nat.add_lt_add_of_lt_of_le hne hrest
    · exact Nat.add_lt_add_of_le_of_lt (kept_line_le us) (ih hts)

theorem depsText_eq_rule (ds : List Bytes) :
    depsText (name ++ str "-host") false ds = if ds = [] then [] else rule name ds := by
  have hheader : str "-host-compile:" = str "-host" ++ str "-compile:" := by decide
  have hcompiles : ds.flatMap (fun dep => str " " ++ dep ++ str "-compile") = compiles ds := rfl
  rw [depsText, rule, hheader, hcompiles, if_neg Bool.false_ne_true]
  simp only [List.append_assoc]

theorem rule_ne_nil (name : Bytes) (ds : List Bytes) : rule name ds ≠ [] := by
  rw [rule, List.append_assoc]
  exact List.append_ne_nil_of_right_ne_nil _ (List.cons_ne_nil _ _)

/-- The rule for the host part is right exactly when no line is dropped that has a dependency
which is required. -/
theorem ruleRight_iff (hread : Readable name makefile) :
    RuleRight config name makefile ↔ KeepsRequired config makefile := by
  have hrequired : required config makefile =
      ((givingLines makefile).map given).flatten.filter fun dep => ¬Unset config dep := by
    rw [required, List.flatMap_def]
  have hstart : ({} : Host).held = [] := rfl
  rw [RuleRight, hostRules_eq hread]
  constructor
  · intro h line hline
    by_contra hbad
    obtain ⟨hskip, hset⟩ := not_or.mp hbad
    have hany : (given line).any (skipped config) := by
      rw [List.any_eq_true]
      push Not at hskip
      exact hskip
    push Not at hset
    obtain ⟨dep, hdep, hset⟩ := hset
    have hlt := length_kept_lt (List.mem_map_of_mem hline) hany hdep hset
    have hne : required config makefile ≠ [] := by
      rw [hrequired]
      refine List.ne_nil_of_mem (a := dep) (List.mem_filter.mpr ⟨?_, decide_eq_true hset⟩)
      exact List.mem_flatten.mpr ⟨_, List.mem_map_of_mem hline, hdep⟩
    have hle := length_held_le config name ((givingLines makefile).map given) {}
    rw [if_neg hne] at h
    dsimp only at h
    split at h
    case isTrue => cases h
    case isFalse =>
      have heq := (List.cons.inj (Option.some.inj h)).1
      rw [heq, hrequired, hstart, rule, List.length_append] at hle
      have hheader : (name ++ str "-host" ++ str "-compile:").length =
          (name ++ str "-host-compile:").length := by simp [str]
      rw [hheader] at hle
      rw [if_neg Bool.false_ne_true, List.length_nil, Nat.zero_add] at hle
      have hcompiles (ds : List Bytes) :
          ds.flatMap (fun dep => str " " ++ dep ++ str "-compile") = compiles ds := rfl
      rw [hcompiles] at hle
      omega
  · intro hkeeps
    have hlines : ∀ ts ∈ (givingLines makefile).map given,
        (∀ dep ∈ ts, ¬skipped config dep) ∨ ∀ dep ∈ ts, Unset config dep := fun ts hts => by
      obtain ⟨line, hline, rfl⟩ := List.mem_map.mp hts
      exact hkeeps line hline
    have hheld := held_eq name hlines {}
    have hfresh : ({} : Host).hprefixp = false := rfl
    dsimp only
    rw [hheld, hstart, hfresh, List.nil_append, depsText_eq_rule, ← hrequired]
    by_cases hnil : required config makefile = []
    · rw [if_pos hnil, if_pos rfl, if_pos hnil]
    · rw [if_neg hnil, if_neg (rule_ne_nil _ _), if_neg hnil]

theorem ruleRight_iff_squashfs :
    RuleRight [] (str "squashfs") (str "HOST_BUILDDEP:=\t\tzlib-host lz4-host\n") ↔
      KeepsRequired [] (str "HOST_BUILDDEP:=\t\tzlib-host lz4-host\n") :=
  ruleRight_iff ⟨by decide +kernel, by decide +kernel, by decide +kernel⟩

/-- The rule is lost with the optional tool that is not set. -/
theorem not_ruleRight_squashfs :
    ¬RuleRight [] (str "squashfs") (str "HOST_BUILDDEP:=\t\tzlib-host xz-host\n") := by
  unfold RuleRight
  decide +kernel

end OpenADK.Depmaker
