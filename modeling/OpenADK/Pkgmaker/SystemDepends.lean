import OpenADK.Pkgmaker.Depends

/-!
# Dependencies of a system

The lines `PKG_DEPENDS_<X>` give dependencies for one system or C library. All of them are read into
one variable, and one name is remembered for it.
-/

namespace OpenADK.Pkgmaker
open CString

/-! ### What is printed -/

/-- The lines for systems and C libraries in all files of a package. -/
def Package.selectsPrinted (p : Package) : List Bytes :=
  (configVars p.reading.pkgmap p.reading.vars p.tokens).flatMap fun (_, v) => systemSelects v

/-! ### What the Makefile says -/

def Assignment.system (a : Assignment) : Bytes := a.name.drop 12

def Assignment.given (a : Assignment) : List Bytes :=
  tokens (str " ") (a.value.dropWhile (· ∈ blanks))

def Package.systemLines (p : Package) : List Assignment :=
  (p.lines.filterMap assignment).filter fun a => str "PKG_DEPENDS_" <+: a.name

/-- A name of a C library, as `depmaker` tells them from systems. -/
def libcName (system : Bytes) : Bool := str "UCLIBC_NG" <+: system ∨ str "MUSL" <+: system

def systemSelect (system token : Bytes) : Bytes :=
  str "\tselect ADK_PACKAGE_" ++ toupperstr token ++
    (if libcName system then str " if ADK_TARGET_LIB_" else str " if ADK_TARGET_SYSTEM_") ++
    system ++ [newline]

def Package.selectsGiven (p : Package) : List Bytes :=
  p.systemLines.flatMap fun a => a.given.map (systemSelect a.system)

/-- Each token of each line is printed once, for the system of its line. -/
def SelectsRight (p : Package) : Prop := p.selectsPrinted.Perm p.selectsGiven

/-! ### Lines for one system -/

/-- The line replaces what is there. A line without a value does not. -/
def Assignment.overwrites (a : Assignment) : Bool :=
  !a.appends && !(a.value.dropWhile (· = tab)).isEmpty

/-- The last name given with `:=`, or the one left by a package before. -/
def Package.system (p : Package) : Bytes :=
  shown ((((p.systemLines.filter (!·.appends)).getLast?).map Assignment.system).or
    (p.vars .sysname))

/-- The lines are for one system, which is no C library and is the one remembered. Nothing is
overwritten, and nothing is left by a package before. -/
structure OneSystem (p : Package) : Prop where
  same : ∀ a ∈ p.systemLines, a.given ≠ [] → a.system = p.system ∧ ¬libcName a.system
  kept : p.systemLines.Pairwise fun a b => b.overwrites → a.given = []
  fresh : (∀ a ∈ p.systemLines, ¬a.overwrites) →
    tokens (str " ") ((p.vars .dependsSystem).getD []) = []

/-! ### The tokens that are held -/

variable {p : Package} {r r' : Reading} {rule : Rule} {a : Assignment} {line buf nameU : Bytes}
variable {lines : List Assignment} {held : List Bytes}

def heldStep (held : List Bytes) (a : Assignment) : List Bytes :=
  (if a.overwrites then [] else held) ++ a.given

/-- As many tokens are held as there are exactly when none is overwritten and none was left. -/
theorem length_held (held : List Bytes) (lines : List Assignment) :
    (lines.foldl heldStep held).length = (lines.flatMap Assignment.given).length ↔
      lines.Pairwise (fun a b => b.overwrites → a.given = []) ∧
        ((∀ a ∈ lines, ¬a.overwrites) → held = []) := by
  induction lines using List.reverseRecOn with
  | nil => simp
  | append_singleton lines a ih =>
    rw [List.foldl_concat, List.flatMap_append, List.flatMap_singleton, heldStep,
      List.length_append, List.length_append, Nat.add_right_cancel_iff, List.pairwise_append]
    cases ha : a.overwrites with
    | true =>
      have hnil : 0 = (lines.flatMap Assignment.given).length ↔ ∀ b ∈ lines, b.given = [] := by
        rw [eq_comm, List.length_eq_zero_iff, List.flatMap_eq_nil_iff]
      rw [if_pos rfl, List.length_nil, hnil]
      constructor
      · intro h
        refine ⟨⟨?_, List.pairwise_singleton _ _, ?_⟩, ?_⟩
        · exact List.pairwise_of_forall_mem_list fun b hb _ _ _ => h b hb
        · exact fun b hb _ _ _ => h b hb
        · exact fun hall => absurd ha (hall a (by simp))
      · rintro ⟨⟨-, -, h⟩, -⟩ b hb
        exact h b hb a (List.mem_singleton_self a) ha
    | false =>
      have hlast : ∀ b ∈ lines, ∀ c ∈ [a], c.overwrites → b.given = [] := fun b _ c hc hover => by
        rw [List.mem_singleton.mp hc, ha] at hover
        cases hover
      have hall : (∀ b ∈ lines ++ [a], ¬b.overwrites) ↔ ∀ b ∈ lines, ¬b.overwrites := by
        rw [List.forall_mem_append]
        simp [ha]
      rw [if_neg Bool.false_ne_true, ih, hall]
      exact and_congr_left fun _ =>
        ⟨fun h => ⟨h, List.pairwise_singleton _ _, hlast⟩, And.left⟩

/-- Then they are the tokens of the lines. -/
theorem held_eq (hkept : lines.Pairwise fun a b => b.overwrites → a.given = [])
    (hfresh : (∀ a ∈ lines, ¬a.overwrites) → held = []) :
    lines.foldl heldStep held = lines.flatMap Assignment.given := by
  induction lines using List.reverseRecOn with
  | nil => exact hfresh (by simp)
  | append_singleton lines a ih =>
    obtain ⟨hkept, -, hlast⟩ := List.pairwise_append.mp hkept
    rw [List.foldl_concat, List.flatMap_append, List.flatMap_singleton, heldStep]
    congr 1
    split
    case isTrue ha =>
      refine (List.flatMap_eq_nil_iff.mpr fun b hb => ?_).symm
      exact hlast b hb a (List.mem_singleton_self a) ha
    case isFalse ha =>
      refine ih hkept fun hall => hfresh ?_
      rw [List.forall_mem_append]
      exact ⟨hall, by simpa using ha⟩

/-! ### Reading the lines -/

def systemRule : Rule := .varWith (str "PKG_DEPENDS_") .dependsSystem .sysname 12

/-- This rule is never reached, since the one before it takes the same lines. -/
def libcRule : Rule := .varWith (str "PKG_DEPENDS_") .dependsLibc .sysname 12

theorem find?_ne_libcRule : (rules nameU).find? (Rule.takes buf) ≠ some libcRule := by
  intro h
  have htakes : Rule.takes buf systemRule := (List.find?_some h : Rule.takes buf libcRule)
  have hsplit : rules nameU = (rules nameU).take 14 ++ systemRule :: (rules nameU).drop 15 := rfl
  rw [hsplit, List.find?_append, List.find?_cons_of_pos htakes, Option.or_eq_some_iff] at h
  rcases h with h | ⟨-, h⟩
  · have hmem := List.mem_of_find?_eq_some h
    simp [rules, libcRule] at hmem
  · exact absurd (Option.some.inj h) (by decide)

theorem vars_parse {x : Var} (h : rule.parse buf r = some r') (hx : x ∉ rule.sets) :
    r'.vars x = r.vars x := by
  cases rule with
  | var varname y appends =>
    have hx : x ≠ y := by simpa [Rule.sets] using hx
    simp only [Rule.parse, Reading.parseVar] at h
    split at h
    · split at h <;> cases h <;> exact Reading.set_vars_of_ne _ hx _
    · split at h <;> cases h
      exact Reading.set_vars_of_ne _ hx _
  | varWith varname y z varlen =>
    obtain ⟨hx, hz⟩ : x ≠ y ∧ x ≠ z := by simpa [Rule.sets] using hx
    simp only [Rule.parse, Reading.parseVarWith] at h
    split at h
    · cases h
    · split at h
      · split at h <;> cases h
        · exact (Reading.set_vars_of_ne _ hx _).trans (Reading.set_vars_of_ne _ hz _)
        · exact Reading.set_vars_of_ne _ hz _
      · cases h
        exact Reading.set_vars_of_ne _ hx _
  | varHash varname =>
    simp only [Rule.parse, Reading.parseVarHash] at h
    split at h
    · cases h
    · split at h <;> cases h <;> rfl

/-- The variables of the systems and the rules that set them. -/
theorem not_mem_sets (h : rule ∈ rules nameU) (hlibc : rule ≠ libcRule) :
    .dependsLibc ∉ rule.sets ∧
      (rule ≠ systemRule → .dependsSystem ∉ rule.sets ∧ .sysname ∉ rule.sets) := by
  have hfixed : ∀ rule ∈ fixedRules, rule ≠ libcRule → .dependsLibc ∉ rule.sets ∧
      (rule ≠ systemRule → .dependsSystem ∉ rule.sets ∧ .sysname ∉ rule.sets) := by decide
  simp only [rules, List.mem_cons] at h
  rcases h with h | rfl | rfl | h
  · exact hfixed rule (by simp [h, fixedRules, rules]) hlibc
  · simp [Rule.sets]
  · simp [Rule.sets]
  · refine hfixed rule ?_ hlibc
    simp only [fixedRules, rules, List.mem_append]
    exact .inr (by simpa using h)

/-- A line changes nothing, or what the first rule that takes it says. -/
theorem readLine_cases (dname buf : Bytes) (r : Reading) : readLine dname r buf = r ∨
    ∃ nameU rule, (rules nameU).find? (Rule.takes buf) = some rule ∧
      str "PKG" <+: buf ∧ rule.parse buf r = some (readLine dname r buf) := by
  unfold Pkgmaker.readLine
  split
  case isFalse => exact .inl rfl
  case isTrue hpkg =>
    rw [findSome?_parse]
    cases hfind : (rules (toupperstr ((r.vars .name).getD dname))).find? (Rule.takes buf) with
    | none => exact .inl rfl
    | some rule =>
      rw [Option.bind_some]
      cases hparse : rule.parse buf r with
      | none => exact .inl rfl
      | some r' => exact .inr ⟨_, rule, hfind, hpkg, hparse⟩

theorem readLine_dependsLibc (dname buf : Bytes) (r : Reading) :
    (readLine dname r buf).vars .dependsLibc = r.vars .dependsLibc := by
  rcases readLine_cases dname buf r with heq | ⟨nameU, rule, hfind, -, hparse⟩
  · rw [heq]
  · refine vars_parse hparse (not_mem_sets (List.mem_of_find?_eq_some hfind) ?_).1
    rintro rfl
    exact find?_ne_libcRule hfind

/-- A piece that is not read for a system leaves its dependencies and its name. -/
theorem readLine_system (h : reader buf ≠ some systemRule) (dname : Bytes) (r : Reading) :
    (readLine dname r buf).vars .dependsSystem = r.vars .dependsSystem ∧
      (readLine dname r buf).vars .sysname = r.vars .sysname := by
  rcases readLine_cases dname buf r with heq | ⟨nameU, rule, hfind, hpkg, hparse⟩
  · rw [heq]
    exact ⟨rfl, rfl⟩
  · have hlibc : rule ≠ libcRule := by
      rintro rfl
      exact find?_ne_libcRule hfind
    have hsystem : rule ≠ systemRule := by
      rintro rfl
      rcases find?_rules hfind with hrule | hrule | hrule
      · cases hrule
      · cases hrule
      · exact h (by rw [reader, if_pos hpkg, hrule])
    have hsets := (not_mem_sets (List.mem_of_find?_eq_some hfind) hlibc).2 hsystem
    exact ⟨vars_parse hparse hsets.1, vars_parse hparse hsets.2⟩

def Reading.system (r : Reading) : List Bytes :=
  tokens (str " ") ((r.vars .dependsSystem).getD [])

def nameStep (sysname : Option Bytes) (a : Assignment) : Option Bytes :=
  if a.appends then sysname else some a.system

theorem Clean.assign_system (h : Clean line a) : (systemRule.assign a r).system =
    heldStep r.system a ∧ (systemRule.assign a r).vars .sysname = nameStep (r.vars .sysname) a := by
  have hgiven : a.given = tokens (str " ") ((cut a.value).getD []) := h.tokens_eq
  have hne : Var.sysname ≠ .dependsSystem := by decide
  rw [heldStep, hgiven, Assignment.overwrites, nameStep]
  simp only [systemRule, Rule.assign, Reading.system]
  cases hop : a.appends with
  | true =>
    simp only [if_true, Reading.set_vars, Option.getD_some, tokens_append, Bool.not_true,
      Bool.false_and, Bool.false_eq_true, if_false]
    exact ⟨trivial, Reading.set_vars_of_ne _ hne _⟩
  | false =>
    have hcut := h.cut_eq
    cases hvalue : a.value.dropWhile (· = tab) with
    | nil =>
      rw [hvalue, if_pos rfl] at hcut
      rw [hcut]
      simp only [Bool.false_eq_true, if_false, Reading.set_vars]
      refine ⟨?_, rfl⟩
      rw [Reading.set_vars_of_ne _ hne.symm]
      exact (List.append_nil _).symm
    | cons c w =>
      rw [hvalue, if_neg (List.cons_ne_nil c w)] at hcut
      rw [hcut]
      simp only [Bool.false_eq_true, if_false, Reading.set_vars, Option.getD_some]
      refine ⟨rfl, ?_⟩
      rw [Reading.set_vars_of_ne _ hne, Reading.set_vars]
      rfl

def systemTexts (lines : List Bytes) : List Bytes :=
  lines.filter fun line => lineRule line = some systemRule

/-- The lines of the systems are read as they are written. -/
structure SystemReadable (p : Package) : Prop where
  pieces : (fileLines p.dir.makefile).filter (fun buf => reader buf = some systemRule) =
    (systemTexts p.lines).map (· ++ [newline])
  clean : ∀ line ∈ systemTexts p.lines, ∀ a ∈ assignment line, Clean line a
  /-- The buffer of `parse_var_with_system` is not overrun. -/
  room : ((p.vars .dependsSystem).getD []).length +
    ((systemTexts p.lines).map List.length).sum < maxLine

theorem foldl_system {ls pieces : List Bytes}
    (hclean : ∀ line ∈ ls, lineRule line = some systemRule ∧
      ∀ a ∈ assignment line, Clean line a)
    (hpieces : pieces.filter (fun buf => reader buf = some systemRule) =
      ls.map (· ++ [newline])) (dname : Bytes) (r : Reading) :
    (pieces.foldl (readLine dname) r).system =
        (ls.filterMap assignment).foldl heldStep r.system ∧
      (pieces.foldl (readLine dname) r).vars .sysname =
        (ls.filterMap assignment).foldl nameStep (r.vars .sysname) := by
  induction pieces generalizing ls r with
  | nil =>
    obtain rfl := List.map_eq_nil_iff.mp hpieces.symm
    exact ⟨rfl, rfl⟩
  | cons buf pieces ih =>
    rw [List.filter_cons] at hpieces
    rw [List.foldl_cons]
    split at hpieces
    case isTrue =>
      cases ls with
      | nil => cases hpieces
      | cons line ls =>
        obtain ⟨rfl, hrest⟩ := List.cons.inj hpieces
        obtain ⟨hrule, hall⟩ := hclean line List.mem_cons_self
        obtain ⟨a, ha, -⟩ := Option.bind_eq_some_iff.mp hrule
        have hline := hall a ha
        have hstep := hline.assign_system (r := r)
        rw [hline.readLine ha hrule fun _ _ _ h => (by cases h), List.filterMap_cons_some ha,
          List.foldl_cons, List.foldl_cons, ← hstep.1, ← hstep.2]
        exact ih (fun l hl => hclean l (List.mem_cons_of_mem _ hl)) hrest _
    case isFalse hother =>
      have hframe := readLine_system (by simpa using hother) dname r
      have hsystem : (readLine dname r buf).system = r.system := by
        rw [Reading.system, hframe.1, Reading.system]
      rw [← hsystem, ← hframe.2]
      exact ih hclean hpieces _

theorem lineRule_eq_systemRule : lineRule line = some systemRule ↔
    ∃ a, assignment line = some a ∧ str "PKG_DEPENDS_" <+: a.name := by
  rw [lineRule, Option.bind_eq_some_iff]
  refine exists_congr fun a => and_congr_right fun _ => ⟨fun h => ?_, fun h => ?_⟩
  · simpa [systemRule, Rule.names] using List.find?_some h
  · have hapart : ∀ rule ∈ fixedRules.take 12, rule.apart (str "PKG_DEPENDS_") := by decide
    exact find?_names 12 (by decide) (fun rule hrule => names_eq_false h (hapart rule hrule))
      (by simpa [systemRule, Rule.names] using h)

theorem filterMap_systemTexts (lines : List Bytes) : (systemTexts lines).filterMap assignment =
    (lines.filterMap assignment).filter fun a => str "PKG_DEPENDS_" <+: a.name := by
  induction lines with
  | nil => rfl
  | cons line lines ih =>
    rw [systemTexts, List.filter_cons]
    cases ha : assignment line with
    | none =>
      have hrule : ¬lineRule line = some systemRule := by
        rw [lineRule_eq_systemRule]
        rintro ⟨a, ha', -⟩
        cases ha.symm.trans ha'
      rw [if_neg (by simpa using hrule), List.filterMap_cons_none ha]
      exact ih
    | some a =>
      have hrule : lineRule line = some systemRule ↔ str "PKG_DEPENDS_" <+: a.name := by
        rw [lineRule_eq_systemRule, ha]
        exact ⟨fun ⟨b, hb, h⟩ => Option.some.inj hb ▸ h, fun h => ⟨a, rfl, h⟩⟩
      rw [List.filterMap_cons_some ha, List.filter_cons]
      by_cases hpre : str "PKG_DEPENDS_" <+: a.name
      · rw [if_pos (decide_eq_true (hrule.mpr hpre)), if_pos (decide_eq_true hpre),
          List.filterMap_cons_some ha]
        exact congrArg (a :: ·) ih
      · rw [if_neg (by simpa using mt hrule.mp hpre), if_neg (by simpa using hpre)]
        exact ih

theorem foldl_nameStep (lines : List Assignment) (sysname : Option Bytes) :
    lines.foldl nameStep sysname =
      (((lines.filter (!·.appends)).getLast?).map Assignment.system).or sysname := by
  induction lines using List.reverseRecOn with
  | nil => rfl
  | append_singleton lines a ih =>
    rw [List.foldl_concat, nameStep, List.filter_append]
    cases ha : a.appends with
    | true =>
      rw [if_pos rfl, List.filter_singleton, ha, ih]
      simp
    | false =>
      rw [if_neg Bool.false_ne_true, List.filter_singleton, ha]
      simp

namespace SystemReadable

theorem reading (h : SystemReadable p) (hmanual : p.dir.manual = false) :
    p.reading.system = p.systemLines.foldl heldStep
        (tokens (str " ") ((p.vars .dependsSystem).getD [])) ∧
      shown (p.reading.vars .sysname) = p.system := by
  have hclean : ∀ line ∈ systemTexts p.lines, lineRule line = some systemRule ∧
      ∀ a ∈ assignment line, Clean line a := fun line hline =>
    ⟨of_decide_eq_true (List.mem_filter.mp hline).2, h.clean line hline⟩
  have hrun := foldl_system hclean h.pieces p.dir.name ⟨p.vars, [], false⟩
  rw [filterMap_systemTexts, foldl_nameStep] at hrun
  have hreading : p.reading =
      { readMakefile p.vars p.dir with vars := (readMakefile p.vars p.dir).vars.useLibname } :=
    if_neg (by simp [hmanual])
  rw [hreading]
  refine ⟨Eq.trans ?_ hrun.1, congrArg shown (Eq.trans ?_ hrun.2)⟩
  · exact congrArg (fun value => tokens (str " ") (value.getD []))
      (Vars.useLibname_of_ne (by decide : Var.dependsSystem ≠ .name) _)
  · exact Vars.useLibname_of_ne (by decide) _

end SystemReadable

/-! ### All packages of a run -/

/-- Nothing is read for C libraries. -/
theorem reading_dependsLibc (h : p.vars .dependsLibc = none) :
    p.reading.vars .dependsLibc = none := by
  unfold Package.reading
  split
  case isTrue =>
    unfold readManual
    generalize p.nobinpkgs = nobinpkgs
    have hstart : (⟨p.vars, [], nobinpkgs⟩ : Reading).vars .dependsLibc = none := h
    generalize (⟨p.vars, [], nobinpkgs⟩ : Reading) = r at hstart
    induction fileLines p.dir.makefile generalizing r with
    | nil => exact hstart
    | cons buf bufs ih =>
      rw [List.foldl_cons]
      apply ih
      cases hparse : r.parseVar buf (str "PKG_SECTION") .section false with
      | none => exact hstart
      | some r' =>
        have hrule : Rule.parse buf r (.var (str "PKG_SECTION") .section false) = some r' := hparse
        exact (vars_parse hrule (by decide)).trans hstart
  case isFalse =>
    apply (Vars.useLibname_of_ne (by decide) _).trans
    unfold readMakefile
    have hstart : (⟨p.vars, [], false⟩ : Reading).vars .dependsLibc = none := h
    generalize (⟨p.vars, [], false⟩ : Reading) = r at hstart
    induction fileLines p.dir.makefile generalizing r with
    | nil => exact hstart
    | cons buf bufs ih =>
      rw [List.foldl_cons]
      exact ih _ ((readLine_dependsLibc _ _ _).trans hstart)

theorem varsAfter_dependsLibc (h : p.vars .dependsLibc = none) :
    p.varsAfter .dependsLibc = none := by
  have hreading := reading_dependsLibc h
  unfold Package.varsAfter Vars.clear
  split
  · exact hreading
  · split
    · exact (if_neg (by decide)).trans hreading
    · exact (if_neg (by decide)).trans (if_pos (by decide))

theorem visits_dependsLibc {dirs : List Dir} {vars : Vars} {nobinpkgs : Bool}
    (h : vars .dependsLibc = none) (hp : p ∈ visits dirs vars nobinpkgs) :
    p.vars .dependsLibc = none := by
  induction dirs generalizing vars nobinpkgs with
  | nil => cases hp
  | cons dir dirs ih =>
    rcases List.mem_cons.mp hp with rfl | hp
    · exact h
    · exact ih (varsAfter_dependsLibc (p := ⟨dir, vars, nobinpkgs⟩) h) hp

/-! ### What the files have -/

/-- Only the first package gets them. -/
theorem selects_configVars (pkgmap : StrMap) (v : Vars) (ts : List Bytes) :
    (configVars pkgmap v ts).flatMap (fun f => systemSelects f.2) =
      if ts = [] then [] else systemSelects v := by
  have hcleared (v : Vars) (ts : List Bytes) (hsystem : v .dependsSystem = none)
      (hlibc : v .dependsLibc = none) :
      (configVars pkgmap v ts).flatMap (fun f => systemSelects f.2) = [] := by
    induction ts generalizing v with
    | nil => rfl
    | cons token ts ih =>
      rw [configVars, List.flatMap_cons, ih _ (if_pos (by decide)) (if_pos (by decide)),
        List.append_nil]
      simp only [systemSelects, tokenLines]
      have hkeep (x : Var) (hx : x ≠ .descr) (descr : Option Bytes) :
          Function.update v .descr descr x = v x := Function.update_of_ne hx _ _
      rw [hkeep .dependsSystem (by decide), hkeep .dependsLibc (by decide), hsystem, hlibc]
      rfl
  cases ts with
  | nil => rfl
  | cons token ts =>
    rw [configVars, List.flatMap_cons, if_neg (List.cons_ne_nil _ _),
      hcleared _ _ (if_pos (by decide)) (if_pos (by decide)), List.append_nil]
    simp only [systemSelects]
    rw [Function.update_of_ne (by decide), Function.update_of_ne (by decide),
      Function.update_of_ne (by decide)]

/-- A line for a system, which is no C library. -/
def plainSelect (system token : Bytes) : Bytes :=
  str "\tselect ADK_PACKAGE_" ++ toupperstr token ++ str " if ADK_TARGET_SYSTEM_" ++ system ++
    [newline]

theorem selectsPrinted_eq (hlibc : p.vars .dependsLibc = none) : p.selectsPrinted =
    if p.tokens = [] then []
    else p.reading.system.map (plainSelect (shown (p.reading.vars .sysname))) := by
  have hnone := reading_dependsLibc hlibc
  rw [Package.selectsPrinted, selects_configVars]
  split
  case isTrue => rfl
  case isFalse =>
    rw [systemSelects, hnone]
    exact List.append_nil _

theorem toupperstr_space {token : Bytes} (h : chr ' ' ∉ token) : chr ' ' ∉ toupperstr token := by
  intro hmem
  obtain ⟨c, hc, hup⟩ := List.mem_map.mp hmem
  have hspace : (if c = chr '+' then chr 'X' else if c = chr '-' ∨ c = chr '!' then chr '_'
      else toupper c) = chr ' ' → c = chr ' ' :=
    (by decide +kernel : ∀ i : Fin 256, (if UInt8.ofFin i = chr '+' then chr 'X'
      else if UInt8.ofFin i = chr '-' ∨ UInt8.ofFin i = chr '!' then chr '_'
      else toupper (UInt8.ofFin i)) = chr ' ' → UInt8.ofFin i = chr ' ') c.toFin
  exact h (hspace hup ▸ hc)

/-- The lines tell the systems from each other, and from the C libraries. -/
theorem system_of_systemSelect {s t token token' : Bytes} {u v : Bytes}
    (htoken : token ∈ tokens (str " ") u) (htoken' : token' ∈ tokens (str " ") v)
    (h : systemSelect s token = plainSelect t token') : s = t ∧ ¬libcName s := by
  have hfree {token u : Bytes} (h : token ∈ tokens (str " ") u) :
      toupperstr token ≠ [] ∧ ∀ c ∈ toupperstr token, c ∉ str " " := by
    have hspace : chr ' ' ∉ token := fun hc => not_mem_of_mem_tokens h _ hc (by decide)
    refine ⟨by simpa [toupperstr] using ne_nil_of_mem_tokens h, fun c hc hin => ?_⟩
    have hc' : c = chr ' ' := List.mem_singleton.mp hin
    exact toupperstr_space hspace (hc' ▸ hc)
  obtain ⟨hne, hchars⟩ := hfree htoken
  obtain ⟨hne', hchars'⟩ := hfree htoken'
  have hright : plainSelect t token' = str "\tselect ADK_PACKAGE_" ++ (toupperstr token' ++
      chr ' ' :: (str "if ADK_TARGET_SYSTEM_" ++ t ++ [newline])) := by
    simp [plainSelect, str]
  have hleft (w : Bytes) : str "\tselect ADK_PACKAGE_" ++ toupperstr token ++ chr ' ' :: w ++ s ++
      [newline] = str "\tselect ADK_PACKAGE_" ++ (toupperstr token ++
        chr ' ' :: (w ++ s ++ [newline])) := by simp
  have hrest {w : Bytes} (h : str "\tselect ADK_PACKAGE_" ++ toupperstr token ++
      chr ' ' :: w ++ s ++ [newline] = plainSelect t token') : w ++ s ++ [newline] =
        str "if ADK_TARGET_SYSTEM_" ++ t ++ [newline] := by
    rw [hleft, hright, List.append_cancel_left_eq] at h
    have htok := congrArg (strtok (str " ")) h
    rw [(strtok_of_not_mem hne hchars (by decide : chr ' ' ∈ str " ") _).1,
      (strtok_of_not_mem hne' hchars' (by decide : chr ' ' ∈ str " ") _).1] at htok
    exact (Prod.mk.inj (Option.some.inj htok)).2
  unfold systemSelect at h
  split at h
  case isTrue =>
    have hw : str " if ADK_TARGET_LIB_" = chr ' ' :: str "if ADK_TARGET_LIB_" := rfl
    rw [hw] at h
    have heq := hrest h
    simp [str, chr] at heq
  case isFalse hlibc =>
    have hw : str " if ADK_TARGET_SYSTEM_" = chr ' ' :: str "if ADK_TARGET_SYSTEM_" := rfl
    rw [hw] at h
    have heq := hrest h
    rw [List.append_assoc, List.append_assoc, List.append_cancel_left_eq,
      List.append_cancel_right_eq] at heq
    exact ⟨heq, hlibc⟩

/-! ### When the dependencies are right -/

theorem length_selectsGiven (p : Package) :
    p.selectsGiven.length = (p.systemLines.flatMap Assignment.given).length := by
  rw [Package.selectsGiven, List.length_flatMap, List.length_flatMap]
  simp only [List.length_map]

/-- For one system the lines are printed as they are given. -/
theorem OneSystem.selects_eq (h : OneSystem p) :
    (p.systemLines.flatMap Assignment.given).map (plainSelect p.system) = p.selectsGiven := by
  rw [List.map_flatMap, Package.selectsGiven]
  apply List.flatMap_congr
  intro a ha
  by_cases hnil : a.given = []
  · rw [hnil]
    rfl
  · obtain ⟨hsystem, hlibc⟩ := h.same a ha hnil
    apply List.map_congr_left
    intro token _
    rw [systemSelect, if_neg hlibc, hsystem]
    rfl

def firstPackage (makefile : Bytes) : Package := ⟨⟨str "a", makefile, false⟩, fun _ => none, false⟩

def onePackage (makefile : Bytes) : Tree where
  sectionList := []
  dirs := [(firstPackage makefile).dir]
  nodup := List.nodup_singleton _

end OpenADK.Pkgmaker
