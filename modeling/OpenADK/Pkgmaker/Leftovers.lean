import OpenADK.Pkgmaker.Assignments
import OpenADK.Pkgmaker.Config

/-!
# What the packages before a package leave

The variables are not local to a package. A Makefile settles a variable when what it holds
afterwards does not depend on what was left in it; the files of the package are the same then.
-/

namespace OpenADK.Pkgmaker
open CString

/-- The variables whose value is known after a line, if those that satisfy `known` are known
before. With `+=` a variable is appended to, unless the rule takes nothing over. -/
def Rule.settle (buf : Bytes) (known : Var → Bool) : Rule → Var → Bool
  | .var varname x appends =>
    if (strstr (snprintf (varname ++ str ":=")) buf).isSome ∨ appends = false then
      Function.update known x true
    else known
  | .varWith varname x y _ =>
    if (strstr (str ":=") buf).isSome then
      let known := Function.update known y true
      match (strstr varname buf).bind fun string => (keyValue (str ":=") string).2 with
      | some _ => Function.update known x true
      | none => known
    else known
  | .varHash _ => known

/-- The line may be for `PKG_CFLINE_` or `PKG_DFLT_` with the name of the package. -/
def Named (buf : Bytes) : Prop :=
  strstr (str "PKG_CFLINE_") buf ≠ none ∨ strstr (str "PKG_DFLT_") buf ≠ none

instance (buf : Bytes) : Decidable (Named buf) := inferInstanceAs (Decidable (_ ∨ _))

/-- The variables whose value is known after some lines. There is no result if a line depends on
a name that is not known. -/
def settled (dname : Bytes) : List Bytes → Reading → (Var → Bool) → Option (Var → Bool)
  | [], _, known => some known
  | buf :: bufs, r, known =>
    if str "PKG" <+: buf then
      if known .name = false ∧ Named buf then none
      else
        let rule := (rules (toupperstr ((r.vars .name).getD dname))).find? (Rule.takes buf)
        settled dname bufs (readLine dname r buf) ((rule.map (Rule.settle buf known)).getD known)
    else settled dname bufs r known

/-- The variables that the files of a package are made of. The section is not in them, and a name
is printed only beside what it belongs to. -/
def Vars.consults (v : Vars) : Var → Bool
  | .section => false
  | .libname => (v .opts).isSome
  | .sysname => (v .dependsSystem).isSome || (v .dependsLibc).isSome
  | .pkgname => (v .flavours).isSome || (v .flavoursString).isSome || (v .choices).isSome
  | _ => true

/-- The Makefile settles all that its files are made of, if the variables that satisfy `known` are
known before. Of a manually maintained package nothing is written, and without packages there are
no variables in the file. -/
def Package.Settles (p : Package) (known : Var → Bool) : Prop :=
  p.dir.manual = true ∨
    ∃ after ∈ settled p.dir.name (fileLines p.dir.makefile) ⟨p.vars, [], false⟩ known,
      (readMakefile p.vars p.dir).nobinpkgs = true ∨
        ∀ x, (readMakefile p.vars p.dir).vars.consults x = true → after x = true

def allVars : List Var :=
  [.name, .section, .descr, .url, .depends, .kdepends, .needs, .dependsSystem, .dependsLibc,
    .opts, .libname, .flavours, .flavoursString, .choices, .subpkgs, .archDepends,
    .systemDepends, .hostDepends, .libcDepends, .dflt, .cfline, .bb, .pkgname, .sysname]

instance {P : Var → Prop} [DecidablePred P] : Decidable (∀ x, P x) :=
  decidable_of_iff (∀ x ∈ allVars, P x)
    ⟨fun h x => h x (by cases x <;> decide), fun h x _ => h x⟩

instance (p : Package) (known : Var → Bool) : Decidable (p.Settles known) :=
  inferInstanceAs (Decidable (_ ∨ _))

/-! ### Reading -/

/-- The readings differ at most in the variables that are not known. -/
structure SameOn (known : Var → Bool) (r r' : Reading) : Prop where
  pkgmap : r.pkgmap = r'.pkgmap
  nobinpkgs : r.nobinpkgs = r'.nobinpkgs
  vars : ∀ x, known x = true → r.vars x = r'.vars x

section
variable {known : Var → Bool} {r r' : Reading} {buf dname : Bytes} {rule : Rule}

theorem SameOn.set (h : SameOn known r r') (x : Var) (value : Option Bytes) :
    SameOn (Function.update known x true) (r.set x value) (r'.set x value) := by
  refine ⟨h.pkgmap, h.nobinpkgs, fun y hy => ?_⟩
  by_cases hx : y = x
  · subst hx
    rw [Reading.set_vars, Reading.set_vars]
  · rw [Function.update_of_ne hx] at hy
    rw [r.set_vars_of_ne hx, r'.set_vars_of_ne hx]
    exact h.vars y hy

/-- Appending to a variable that is not known leaves it so. -/
theorem SameOn.append (h : SameOn known r r') (x : Var) (value : Option Bytes) :
    SameOn known (r.set x (some (Reading.append (r.vars x) value)))
      (r'.set x (some (Reading.append (r'.vars x) value))) := by
  refine ⟨h.pkgmap, h.nobinpkgs, fun y hy => ?_⟩
  by_cases hx : y = x
  · subst hx
    rw [Reading.set_vars, Reading.set_vars, h.vars y hy]
  · rw [r.set_vars_of_ne hx, r'.set_vars_of_ne hx]
    exact h.vars y hy

theorem SameOn.setNobin (h : SameOn known r r') :
    SameOn known { r with nobinpkgs := true } { r' with nobinpkgs := true } :=
  ⟨h.pkgmap, rfl, h.vars⟩

theorem SameOn.parse (h : SameOn known r r') (rule : Rule) :
    Option.Rel (SameOn (rule.settle buf known)) (rule.parse buf r) (rule.parse buf r') := by
  cases rule with
  | var varname x appends =>
    simp only [Rule.parse, Reading.parseVar, Rule.settle]
    cases strstr (snprintf (varname ++ str ":=")) buf with
    | some string =>
      rw [if_pos (.inl rfl)]
      dsimp only
      split
      · exact .some (h.set x _)
      · exact .some (h.set x none).setNobin
    | none =>
      cases strstr (snprintf (varname ++ str "+=")) buf with
      | none => exact .none
      | some string =>
        cases appends with
        | false =>
          rw [if_pos (.inr rfl)]
          exact .some (h.set x _)
        | true =>
          rw [if_neg (by simp)]
          exact .some (h.append x _)
  | varWith varname x y varlen =>
    simp only [Rule.parse, Reading.parseVarWith, Rule.settle]
    cases strstr varname buf with
    | none => exact .none
    | some string =>
      dsimp only [Option.bind_some]
      by_cases hop : (strstr (str ":=") buf).isSome = true
      · rw [if_pos hop, if_pos hop, if_pos hop]
        cases (keyValue (str ":=") string).2 with
        | none => exact .some (h.set y _)
        | some value => exact .some ((h.set y _).set x _)
      · rw [if_neg hop, if_neg hop, if_neg hop]
        exact .some (h.append x _)
  | varHash varname =>
    simp only [Rule.parse, Reading.parseVarHash, Rule.settle, h.pkgmap]
    split
    · exact .none
    · split
      · exact .some ⟨rfl, h.nobinpkgs, h.vars⟩
      · exact .some h

/-- The same rule reads the line. -/
theorem SameOn.readLine (h : SameOn known r r') (hpkg : str "PKG" <+: buf)
    (hname : ¬(known .name = false ∧ Named buf)) :
    SameOn ((((rules (toupperstr ((r.vars .name).getD dname))).find? (Rule.takes buf)).map
      (Rule.settle buf known)).getD known) (readLine dname r buf) (readLine dname r' buf) := by
  have hrule : (rules (toupperstr ((r'.vars .name).getD dname))).find? (Rule.takes buf) =
      (rules (toupperstr ((r.vars .name).getD dname))).find? (Rule.takes buf) := by
    by_cases hknown : known .name = true
    · rw [h.vars .name hknown]
    · have hnamed : ¬Named buf := fun hnamed => hname ⟨by simpa using hknown, hnamed⟩
      obtain ⟨hcfline, hdflt⟩ := not_or.mp hnamed
      rw [find?_rules_eq _ (not_not.mp hcfline) (not_not.mp hdflt),
        find?_rules_eq _ (not_not.mp hcfline) (not_not.mp hdflt)]
  rw [Pkgmaker.readLine, Pkgmaker.readLine, if_pos hpkg, if_pos hpkg, findSome?_parse,
    findSome?_parse, hrule]
  cases hfind : (rules (toupperstr ((r.vars .name).getD dname))).find? (Rule.takes buf) with
  | none => exact h
  | some rule =>
    have hrel := @SameOn.parse known r r' buf h rule
    have htakes : (rule.parse buf r).isSome = true := parse_isSome.trans (List.find?_some hfind)
    rw [Option.bind_some, Option.bind_some, Option.map_some, Option.getD_some]
    generalize rule.parse buf r = o at hrel htakes ⊢
    generalize rule.parse buf r' = o' at hrel ⊢
    cases hrel with
    | none => cases htakes
    | some hs => exact hs

/-- What is known after the lines is the same. -/
theorem SameOn.foldl {bufs : List Bytes} {after : Var → Bool} (h : SameOn known r r')
    (hafter : after ∈ settled dname bufs r known) :
    SameOn after (bufs.foldl (Pkgmaker.readLine dname) r)
      (bufs.foldl (Pkgmaker.readLine dname) r') := by
  induction bufs generalizing r r' known with
  | nil =>
    cases hafter
    exact h
  | cons buf bufs ih =>
    rw [settled] at hafter
    split at hafter
    case isTrue hpkg =>
      split at hafter
      case isTrue => cases hafter
      case isFalse hname => exact ih (h.readLine hpkg hname) hafter
    case isFalse hpkg =>
      have hskip (r : Reading) : Pkgmaker.readLine dname r buf = r := if_neg hpkg
      rw [List.foldl_cons, List.foldl_cons, hskip, hskip]
      exact ih h hafter

end

/-! ### Writing -/

/-- The variables that matter for the files of a package are the same. -/
def Vars.SameFor (v v' : Vars) : Prop := ∀ x, v.consults x = true → v x = v' x

section
variable {v v' : Vars} {x : Var} {xs : List Var} {value : Option Bytes} {pkgmap : StrMap}
  {dname token : Bytes}

/-- A variable that is printed, unless it is nothing without another one. -/
def Var.Plain (x : Var) : Prop := x ∉ [.section, .libname, .sysname, .pkgname]

instance (x : Var) : Decidable x.Plain := inferInstanceAs (Decidable (_ ∉ _))

theorem Vars.consults_of_plain (hx : x.Plain) (v : Vars) : v.consults x = true := by
  cases x <;> first | rfl | exact absurd hx (by decide)

theorem Vars.SameFor.eq (h : v.SameFor v') (x : Var) (hx : x.Plain) : v x = v' x :=
  h x (v.consults_of_plain hx)

def deciding : List Var :=
  [.opts, .dependsSystem, .dependsLibc, .flavours, .flavoursString, .choices]

theorem Vars.consults_update (hx : x ∉ deciding) (v : Vars) (value : Option Bytes) :
    Vars.consults (Function.update v x value) = v.consults := by
  have hother (y : Var) (hy : y ∈ deciding) : Function.update v x value y = v y :=
    Function.update_of_ne (fun heq : y = x => hx (heq ▸ hy)) _ _
  funext y
  cases y <;> simp only [Vars.consults, hother .opts (by decide),
    hother .dependsSystem (by decide), hother .dependsLibc (by decide),
    hother .flavours (by decide), hother .flavoursString (by decide),
    hother .choices (by decide)]

theorem Vars.SameFor.update (h : v.SameFor v') (hx : x ∉ deciding) (value : Option Bytes) :
    Vars.SameFor (Function.update v x value) (Function.update v' x value) := by
  intro y hy
  rw [Vars.consults_update hx] at hy
  by_cases heq : y = x
  · subst heq
    rw [Function.update_self, Function.update_self]
  · rw [Function.update_of_ne heq, Function.update_of_ne heq]
    exact h y hy

theorem Vars.SameFor.updateSection (h : v.SameFor v') (value value' : Option Bytes) :
    Vars.SameFor (Function.update v .section value) (Function.update v' .section value') := by
  intro y hy
  rw [Vars.consults_update (by decide)] at hy
  have heq : y ≠ .section := by
    rintro rfl
    cases hy
  rw [Function.update_of_ne heq, Function.update_of_ne heq]
  exact h y hy

/-- What is left for the packages after the first one. -/
theorem Vars.SameFor.clear (h : v.SameFor v') :
    Vars.SameFor (v.clear resetInLoop) (v'.clear resetInLoop) := by
  intro y hy
  have hplain : y.Plain := by
    cases y <;> first | decide | cases hy
  rw [Vars.clear, Vars.clear, h.eq y hplain]

theorem Vars.SameFor.useLibname (h : v.SameFor v') : v.useLibname.SameFor v'.useLibname := by
  unfold Vars.useLibname
  rw [← h.eq .opts (by decide)]
  cases hopts : v .opts with
  | none =>
    cases v .libname <;> cases v' .libname <;> exact h
  | some opts =>
    have hlibname : v .libname = v' .libname := h .libname (by rw [Vars.consults, hopts]; rfl)
    rw [← hlibname]
    cases v .libname with
    | none => exact h
    | some libname =>
      dsimp only
      split
      · exact h.update (by decide) _
      · exact h

theorem headLines_congr (h : v.SameFor v') : headLines v token = headLines v' token := by
  simp only [headLines, h.eq .opts (by decide), h.eq .bb (by decide), h.eq .descr (by decide),
    h.eq .cfline (by decide)]

theorem dependsLines_congr (h : v.SameFor v') : dependsLines v = dependsLines v' := by
  have hsysname : v .dependsSystem = none ∧ v .dependsLibc = none ∨ v .sysname = v' .sysname := by
    by_cases hnone : v .dependsSystem = none ∧ v .dependsLibc = none
    · exact .inl hnone
    · refine .inr (h .sysname ?_)
      rw [Vars.consults, ← Bool.not_eq_false]
      simpa using hnone
  simp only [dependsLines, systemSelects, ← h.eq .systemDepends (by decide),
    ← h.eq .hostDepends (by decide), ← h.eq .libcDepends (by decide),
    ← h.eq .archDepends (by decide), ← h.eq .needs (by decide), ← h.eq .depends (by decide),
    ← h.eq .kdepends (by decide), ← h.eq .dependsSystem (by decide),
    ← h.eq .dependsLibc (by decide)]
  rcases hsysname with ⟨hsystem, hlibc⟩ | hsysname
  · rw [hsystem, hlibc]
    rfl
  · rw [hsysname]

theorem tailLines_congr (h : v.SameFor v') :
    tailLines dname v token = tailLines dname v' token := by
  simp only [tailLines, h.eq .bb (by decide), h.eq .dflt (by decide), h.eq .descr (by decide),
    h.eq .url (by decide)]

/-- The file of a package is made of what is consulted. -/
theorem configLines_congr (h : v.SameFor v') :
    configLines pkgmap dname v token = configLines pkgmap dname v' token := by
  have hpkgname : v .flavours = none ∧ v .flavoursString = none ∧ v .choices = none ∨
      v .pkgname = v' .pkgname := by
    by_cases hnone : v .flavours = none ∧ v .flavoursString = none ∧ v .choices = none
    · exact .inl hnone
    · refine .inr (h .pkgname ?_)
      rw [Vars.consults, ← Bool.not_eq_false]
      simpa [and_assoc] using hnone
  simp only [configLines, headLines_congr h, dependsLines_congr h, tailLines_congr h,
    ← h.eq .flavours (by decide), ← h.eq .flavoursString (by decide), ← h.eq .choices (by decide)]
  rcases hpkgname with ⟨hflavours, hstring, hchoices⟩ | hpkgname
  · rw [hflavours, hstring, hchoices]
    rfl
  · rw [hpkgname]

end

end OpenADK.Pkgmaker
