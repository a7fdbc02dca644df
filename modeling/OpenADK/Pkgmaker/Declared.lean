import OpenADK.Pkgmaker.Assignments

/-!
# What is held in the end

The dependency variables, what is under their keys of the map, and the package that flavours and
choices are declared for, when the lines of a Makefile have been read.
-/

namespace OpenADK.Pkgmaker
open CString

/-- The package for which something is declared with `:=`. -/
def packageStep (old : Option Bytes) (line : Bytes) : Option Bytes :=
  match assignment line with
  | none => old
  | some a => if a.appends then old else ((declares a.name).map Prod.snd).or old

/-- The value of the variable of a rule. An empty value does not replace what was declared for a
package. -/
def Rule.valueStep (a : Assignment) (old : Option Bytes) (rule : Rule) : Option Bytes :=
  if a.appends then some (Reading.append old (cut a.value))
  else
    match rule with
    | .var _ _ _ => cut a.value
    | _ => (cut a.value).or old

def valueStep (x : Var) (old : Option Bytes) (line : Bytes) : Option Bytes :=
  match assignment line, lineRule line with
  | some a, some rule => if rule.target = [x] then rule.valueStep a old else old
  | _, _ => old

def keyStep (k : Bytes) (old : Option Bytes) (line : Bytes) : Option Bytes :=
  match assignment line with
  | none => old
  | some a => if a.name = k then (cut a.value).or old else old

def Cell.step : Cell → Option Bytes → Bytes → Option Bytes
  | .var .pkgname => packageStep
  | .var x => valueStep x
  | .key k => keyStep k

theorem Cell.step_var {x : Var} (hpkg : x ≠ .pkgname) : Cell.step (.var x) = valueStep x := by
  cases x with
  | pkgname => exact absurd rfl hpkg
  | _ => rfl

def Cell.written (line : Bytes) : Cell → Bool
  | .var x => (lineRule line).any (x ∈ ·.sets)
  | .key k => (assignment line).any (·.name = k)

section
variable {line name : Bytes} {a : Assignment} {rule : Rule} {r : Reading} {x : Var} {c : Cell}
variable {lines ls pieces : List Bytes} {old : Option Bytes}

/-! ### What an assignment leaves -/

theorem assign_vars {x : Var} (h : x ∉ rule.sets) : (rule.assign a r).vars x = r.vars x := by
  cases rule with
  | var varname y appends =>
    have hx : x ≠ y := by simpa [Rule.sets] using h
    simp only [Rule.assign]
    split
    · exact Reading.set_vars_of_ne _ hx _
    · split <;> exact Reading.set_vars_of_ne _ hx _
  | varWith varname y z varlen =>
    obtain ⟨hx, hz⟩ : x ≠ y ∧ x ≠ z := by simpa [Rule.sets] using h
    simp only [Rule.assign]
    split
    · exact Reading.set_vars_of_ne _ hx _
    · split
      · exact (Reading.set_vars_of_ne _ hx _).trans (Reading.set_vars_of_ne _ hz _)
      · exact Reading.set_vars_of_ne _ hz _
  | varHash varname =>
    simp only [Rule.assign]
    split <;> rfl

theorem assign_pkgmap (h : a.name ≠ name) :
    (rule.assign a r).pkgmap.lookup name = r.pkgmap.lookup name := by
  cases rule with
  | var varname x appends => simp only [Rule.assign]; split <;> [rfl; (split <;> rfl)]
  | varWith varname x y varlen => simp only [Rule.assign]; split <;> [rfl; (split <;> rfl)]
  | varHash varname =>
    simp only [Rule.assign]
    split
    · rw [StrMap.lookup_put, if_neg (Ne.symm h)]
    · rfl

theorem assign_pkgname {d : Bytes × Bytes}
    (hrule : fixedRules.find? (Rule.names a.name) = some rule) (hd : declares a.name = some d)
    (hop : a.appends = false) :
    (rule.assign a r).vars .pkgname = some d.2 := by
  obtain ⟨varname, x, hmem, hname, hfind⟩ := declares_cases hd
  obtain rfl := Option.some.inj (hrule.symm.trans hfind)
  have hx : Var.pkgname ≠ x :=
    (by decide : ∀ p ∈ declareRules, Var.pkgname ≠ p.2.1) _ hmem
  have hdrop : a.name.drop varname.length = d.2 := by rw [hname, List.drop_left]
  simp only [Rule.assign, hop, hdrop]
  cases cut a.value with
  | none => exact Reading.set_vars r .pkgname (some d.2)
  | some value =>
    exact (Reading.set_vars_of_ne _ hx _).trans (Reading.set_vars r .pkgname (some d.2))

theorem vars_pkgname_assign (hmem : rule ∈ dependRules) (ha : assignment line = some a)
    (hrule : lineRule line = some rule) :
    (rule.assign a r).vars .pkgname = packageStep (r.vars .pkgname) line := by
  have hfind : fixedRules.find? (Rule.names a.name) = some rule := by
    rwa [lineRule, ha] at hrule
  rw [packageStep, ha]
  dsimp only
  cases hd : declares a.name with
  | none =>
    have hkeep : (rule.assign a r).vars .pkgname = r.vars .pkgname := by
      apply assign_vars
      cases rule with
      | var varname y appends =>
        exact (by decide : ∀ rule ∈ dependRules, rule.target = rule.sets →
          Var.pkgname ∉ rule.sets) _ hmem rfl
      | varWith varname y z varlen =>
        obtain ⟨d, hd'⟩ := declares_of_names hmem
          (by simpa [Rule.names] using List.find?_some hfind)
        cases hd.symm.trans hd'
      | varHash varname => exact List.not_mem_nil
    rw [hkeep, Option.map_none, Option.none_or, ite_self]
  | some d =>
    cases hop : a.appends with
    | false => exact assign_pkgname hfind hd hop
    | true =>
      obtain ⟨varname, y, hdecl, -, hfind'⟩ := declares_cases hd
      obtain rfl := Option.some.inj (hfind.symm.trans hfind')
      have hy : Var.pkgname ≠ y :=
        (by decide : ∀ p ∈ declareRules, Var.pkgname ≠ p.2.1) _ hdecl
      simp only [Rule.assign, hop, if_true]
      exact Reading.set_vars_of_ne _ hy _

theorem vars_assign (hmem : rule ∈ dependRules) (hx : x ∈ dependVars) (hpkg : x ≠ .pkgname)
    (ha : assignment line = some a) (hrule : lineRule line = some rule) :
    (rule.assign a r).vars x = valueStep x (r.vars x) line := by
  rw [valueStep, ha, hrule]
  dsimp only
  by_cases htarget : rule.target = [x]
  · rw [if_pos htarget]
    cases rule with
    | var varname y appends =>
      obtain rfl : y = x := List.singleton_injective htarget
      cases hop : a.appends with
      | true => simp [Rule.assign, Rule.valueStep, hop]
      | false =>
        simp only [Rule.assign, Rule.valueStep, hop, Bool.false_eq_true, if_false]
        cases cut a.value with
        | none => exact Reading.set_vars r y none
        | some value => exact Reading.set_vars r y (some value)
    | varWith varname y z varlen =>
      obtain rfl : y = x := List.singleton_injective htarget
      have hnodup := (by decide : ∀ rule ∈ dependRules, rule.sets.Nodup) _ hmem
      have hz : y ≠ z := by simpa [Rule.sets] using hnodup
      cases hop : a.appends with
      | true => simp [Rule.assign, Rule.valueStep, hop]
      | false =>
        simp only [Rule.assign, Rule.valueStep, hop, Bool.false_eq_true, if_false]
        cases cut a.value with
        | none => exact Reading.set_vars_of_ne r hz _
        | some value => exact Reading.set_vars _ y (some value)
    | varHash varname => cases htarget
  · rw [if_neg htarget]
    have hsets : ∀ rule ∈ dependRules, ∀ x ∈ dependVars, x ≠ .pkgname → rule.target ≠ [x] →
        x ∉ rule.sets := by
      decide
    exact assign_vars (hsets rule hmem x hx hpkg htarget)

theorem lookup_assign {k : Bytes} (hk : Cell.depends (.key k)) (hmem : rule ∈ dependRules)
    (ha : assignment line = some a) (hrule : lineRule line = some rule) :
    (rule.assign a r).pkgmap.lookup k = keyStep k (r.pkgmap.lookup k) line := by
  rw [keyStep, ha]
  dsimp only
  split
  case isFalse hne => exact assign_pkgmap hne
  case isTrue heq =>
    -- it is the rule of the key that reads the line
    obtain ⟨n, hn, hpre⟩ : ∃ n ∈ dependKeys, n <+: k := by simpa [Cell.depends] using hk
    obtain ⟨key, rfl⟩ := hpre
    have hfind := find?_names_key hn key
    rw [lineRule, ha, Option.bind_some, heq, hfind] at hrule
    obtain rfl := Option.some.inj hrule
    simp only [Rule.assign]
    cases cut a.value with
    | none => rfl
    | some value => rw [StrMap.lookup_put, if_pos heq.symm, Option.some_or]

theorem Cell.get_assign (hc : c.depends) (hmem : rule ∈ dependRules)
    (ha : assignment line = some a) (hrule : lineRule line = some rule) :
    c.get (rule.assign a r) = c.step (c.get r) line := by
  cases c with
  | key k => exact lookup_assign hc hmem ha hrule
  | var x =>
    have hx : x ∈ dependVars := by simpa [Cell.depends] using hc
    by_cases hpkg : x = .pkgname
    · subst hpkg
      exact vars_pkgname_assign hmem ha hrule
    · have hstep : Cell.step (.var x) = valueStep x := by
        cases x <;> first | rfl | exact absurd rfl hpkg
      rw [hstep]
      exact vars_assign hmem hx hpkg ha hrule

/-! ### Reading the lines -/

def Tidy (ls : List Bytes) : Prop :=
  ∀ line ∈ ls, ∃ a rule, assignment line = some a ∧ Clean line a ∧
    lineRule line = some rule ∧ rule ∈ dependRules

theorem tidy_of_clean (h : ∀ line ∈ dependLines lines, ∀ a ∈ assignment line, Clean line a) :
    Tidy (dependLines lines) := by
  intro line hline
  have hdepend : isDepend (lineRule line) := (List.mem_filter.mp hline).2
  cases ha : assignment line with
  | none => simp [lineRule, ha, isDepend] at hdepend
  | some a =>
    obtain ⟨rule, hrule, hmem⟩ := (Option.any_eq_true _ _).mp hdepend
    exact ⟨a, rule, rfl, h line hline a ha, hrule, by simpa using hmem⟩

/-- The dependency rules alone write into the cells of the dependency variables. -/
theorem mem_dependRules_of_mem_sets (hx : x ∈ dependVars) (hmem : rule ∈ fixedRules)
    (h : x ∈ rule.sets) : rule ∈ dependRules :=
  (by decide : ∀ rule ∈ fixedRules, ∀ x ∈ dependVars, x ∈ rule.sets → rule ∈ dependRules) rule hmem
    x hx h

theorem isDepend_of_written (hc : c.depends) (h : c.written line) : isDepend (lineRule line) := by
  cases c with
  | var x =>
    have hx : x ∈ dependVars := by simpa [Cell.depends] using hc
    obtain ⟨rule, hrule, hmem⟩ := (Option.any_eq_true _ _).mp h
    have hfixed : rule ∈ fixedRules := by
      rw [lineRule, Option.bind_eq_some_iff] at hrule
      obtain ⟨a, -, hfind⟩ := hrule
      exact List.mem_of_find?_eq_some hfind
    rw [hrule, isDepend, Option.any_some, decide_eq_true_eq]
    exact mem_dependRules_of_mem_sets hx hfixed (by simpa using hmem)
  | key k =>
    obtain ⟨n, hn, key, rfl⟩ : ∃ n ∈ dependKeys, n <+: k := by simpa [Cell.depends] using hc
    obtain ⟨a, ha, hname⟩ := (Option.any_eq_true _ _).mp h
    have hname : a.name = n ++ key := by simpa using hname
    rw [lineRule, ha, Option.bind_some, hname, find?_names_key hn, isDepend, Option.any_some,
      decide_eq_true_eq]
    exact (by decide : ∀ n ∈ dependKeys, .varHash n ∈ dependRules) n hn

theorem isDepend_of_read (hx : x ∈ dependVars) {buf : Bytes} (h : Cell.read (.var x) buf) :
    isDepend (reader buf) := by
  obtain ⟨rule, hrule, hwrites⟩ := (Option.any_eq_true _ _).mp h
  have hfixed : rule ∈ fixedRules := by
    unfold reader at hrule
    split at hrule
    · exact List.mem_of_find?_eq_some hrule
    · cases hrule
  rw [hrule, isDepend, Option.any_some, decide_eq_true_eq]
  exact mem_dependRules_of_mem_sets hx hfixed (by simpa [Rule.writes] using hwrites)

/-- Other lines do not count. -/
theorem Cell.step_of_not_written (h : c.written line = false) : c.step old line = old := by
  cases c with
  | key k =>
    change keyStep k old line = old
    unfold keyStep
    split
    · rfl
    next a ha => exact if_neg (by simpa [Cell.written, ha] using h)
  | var x =>
    by_cases hpkg : x = .pkgname
    case pos =>
      subst hpkg
      change packageStep old line = old
      unfold packageStep
      split
      · rfl
      next a ha =>
        cases hd : declares a.name with
        | none => rw [Option.map_none, Option.none_or, ite_self]
        | some d =>
          obtain ⟨varname, y, -, -, hfind⟩ := declares_cases hd
          simp [Cell.written, lineRule, ha, hfind, Rule.sets] at h
    case neg =>
      rw [Cell.step_var hpkg]
      unfold valueStep
      split
      · next a rule ha hrule =>
        refine if_neg fun htarget => ?_
        have hmem : x ∈ rule.sets := by
          cases rule <;> simp_all [Rule.target, Rule.sets]
        rw [Cell.written, hrule, Option.any_some] at h
        simp [hmem] at h
      · rfl

theorem Cell.foldl_filter {p : Bytes → Bool} (hp : ∀ line, c.written line → p line)
    (lines : List Bytes) (old : Option Bytes) :
    (lines.filter p).foldl c.step old = lines.foldl c.step old := by
  induction lines generalizing old with
  | nil => rfl
  | cons line lines ih =>
    rw [List.filter_cons]
    split
    · rw [List.foldl_cons]
      exact ih _
    next hother =>
      have hskip : c.written line = false :=
        Bool.eq_false_of_not_eq_true fun h => hother (hp line h)
      rw [List.foldl_cons, Cell.step_of_not_written hskip]
      exact ih _

/-- A cell after the pieces that are read into it, which are clean lines. -/
theorem Cell.get_foldl {p : Bytes → Bool} (hc : c.depends) (hp : ∀ buf, c.read buf → p buf)
    (htidy : Tidy ls) (hpieces : pieces.filter p = ls.map (· ++ [newline])) (dname : Bytes) :
    c.get (pieces.foldl (readLine dname) r) = ls.foldl c.step (c.get r) := by
  induction pieces generalizing ls r with
  | nil =>
    obtain rfl := List.map_eq_nil_iff.mp hpieces.symm
    rfl
  | cons buf pieces ih =>
    rw [List.filter_cons] at hpieces
    rw [List.foldl_cons]
    split at hpieces
    case isTrue =>
      cases ls with
      | nil => cases hpieces
      | cons line ls =>
        obtain ⟨rfl, hrest⟩ := List.cons.inj hpieces
        obtain ⟨a, rule, ha, hclean, hrule, hmem⟩ := htidy line List.mem_cons_self
        rw [hclean.readLine ha hrule fun _ _ _ _ => hmem, List.foldl_cons,
          ← Cell.get_assign hc hmem ha hrule]
        exact ih (fun l hl => htidy l (List.mem_cons_of_mem _ hl)) hrest
    case isFalse hother =>
      have hskip : c.read buf = false := Bool.eq_false_of_not_eq_true fun h => hother (hp buf h)
      rw [ih htidy hpieces, Cell.get_readLine (by rintro rfl; cases hc) (by rintro rfl; cases hc)
        hskip]

end

/-- The lines of the dependency variables are clean, and their rules read nothing else. -/
structure Plain (p : Package) : Prop where
  generated : p.dir.manual = false
  pieces : (fileLines p.dir.makefile).filter (fun buf => isDepend (reader buf)) =
    (dependLines p.lines).map (· ++ [newline])
  tidy : Tidy (dependLines p.lines)

namespace Plain
variable {p : Package} {x : Var}

theorem vars_reading (h : Plain p) (hx : x ≠ .name) :
    p.reading.vars x = (readMakefile p.vars p.dir).vars x := by
  have hreading : p.reading =
      { readMakefile p.vars p.dir with vars := (readMakefile p.vars p.dir).vars.useLibname } :=
    if_neg (by simp [h.generated])
  rw [hreading]
  exact Vars.useLibname_of_ne hx _

theorem get_reading (h : Plain p) (hx : x ∈ dependVars) :
    p.reading.vars x = p.lines.foldl (Cell.step (.var x)) (p.vars x) := by
  have hdepends : Cell.depends (.var x) := by simpa [Cell.depends] using hx
  have hname : x ≠ .name := fun heq => absurd (heq ▸ hx) (by decide)
  rw [h.vars_reading hname, ← Cell.foldl_filter fun line => isDepend_of_written hdepends]
  exact Cell.get_foldl hdepends (fun buf => isDepend_of_read hx) h.tidy h.pieces p.dir.name

theorem pkgname_reading (h : Plain p) :
    p.reading.vars .pkgname = p.lines.foldl packageStep (p.vars .pkgname) :=
  h.get_reading (by decide)

theorem value_reading (h : Plain p) (hx : x ∈ dependVars) (hpkg : x ≠ .pkgname) :
    p.reading.vars x = p.lines.foldl (valueStep x) (p.vars x) :=
  Cell.step_var hpkg ▸ h.get_reading hx

end Plain

end OpenADK.Pkgmaker
