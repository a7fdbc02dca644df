import OpenADK.Pkgmaker.Config
import OpenADK.Pkgmaker.Declared

/-!
# No dependency is lost

The tokens of the dependency variables of a Makefile become lines of the `Config.in` files when the
lines that hold them are read as they are written.
-/

namespace OpenADK.Pkgmaker
open CString

def Package.named (p : Package) : List Bytes := CString.tokens (str " ") (p.packages.getD [])

/-- The lines of the file of a package, if there is one. -/
def Package.printed (p : Package) (token : Bytes) : List Bytes := (p.file token).getD []

/-- Each token of a dependency variable has its line in the file of its symbol. The dependencies
of the Makefile, its flavours and its choices belong to the first package. -/
structure NoTokenLost (p : Package) : Prop where
  depends : ∀ token ∈ given (str "PKG_DEPENDS") p.lines, ∀ first ∈ p.named.head?,
    selectLine token ∈ p.printed first
  selects : ∀ subpkg ∈ given (str "PKG_SUBPKGS") p.lines,
    ∀ token ∈ given (str "PKGSS_" ++ subpkg) p.lines,
      selectLine token ∈ p.printed (tolowerstr subpkg)
  needs : ∀ subpkg ∈ given (str "PKG_SUBPKGS") p.lines,
    ∀ token ∈ given (str "PKGSN_" ++ subpkg) p.lines,
      dependsLine token ∈ p.printed (tolowerstr subpkg)
  declared : ∀ name, ∀ d ∈ declares name, ∀ flavour ∈ given name p.lines,
    ∀ first ∈ p.named.head?, symbolLine d.2 flavour ∈ p.printed first ∧
      ∀ token ∈ given (d.1 ++ flavour) p.lines, selectLine token ∈ p.printed first

/-! ### The lines that count -/

/-- The lines from the last one of a kind on, all of them if there is none. -/
def sinceLast (p : Bytes → Bool) : List Bytes → List Bytes
  | [] => []
  | line :: lines => if lines.any p then sinceLast p lines else line :: lines

def opens (name line : Bytes) : Bool :=
  (assignment line).any fun a => a.name = name ∧ a.appends = false

def replaces (name line : Bytes) : Bool :=
  (assignment line).any fun a => a.name ≠ name ∧ a.appends = false ∧ (cut a.value).isSome

def namesPackage (line : Bytes) : Bool :=
  (assignment line).any fun a => a.appends = false ∧ (declares a.name).isSome

/-- The cell that the lines of a variable are read into. -/
def cellOf (name : Bytes) : Cell :=
  match (fixedRules.find? (Rule.names name)).map Rule.target with
  | some [x] => .var x
  | _ => .key name

/-- The lines that give a variable its tokens, and those that are read into the same cell after
the variable has been begun anew. -/
def linesOf (name : Bytes) (lines : List Bytes) : List Bytes :=
  (sinceLast (opens name) lines).filter fun line => (cellOf name).written line

/-- The lines that say which package flavours and choices are declared for. -/
def packageLines (lines : List Bytes) : List Bytes :=
  (sinceLast namesPackage lines).filter fun line => Cell.written line (.var .pkgname)

section
variable {line buf name nameU : Bytes} {a : Assignment} {rule rule' : Rule} {r r' : Reading}
variable {ts ts' lines ls pieces : List Bytes} {c : Cell} {old value : Option Bytes}

theorem assignStep_of_opens (h : opens name line) (ts ts' : List Bytes) :
    assignStep name ts line = assignStep name ts' line := by
  obtain ⟨a, ha, hopens⟩ := (Option.any_eq_true _ _).mp h
  obtain ⟨hname, hop⟩ : a.name = name ∧ a.appends = false := by simpa using hopens
  simp only [assignStep, ha, hname, hop, if_true, Bool.false_eq_true, if_false]

theorem foldl_of_opens (h : lines.any (opens name)) (ts ts' : List Bytes) :
    lines.foldl (assignStep name) ts = lines.foldl (assignStep name) ts' := by
  induction lines generalizing ts ts' with
  | nil => cases h
  | cons line lines ih =>
    rw [List.foldl_cons, List.foldl_cons]
    by_cases hlines : lines.any (opens name)
    · exact ih hlines _ _
    · have hline : opens name line := by simpa [hlines] using h
      rw [assignStep_of_opens hline ts ts']

/-- Only the lines that count give tokens. -/
theorem given_sinceLast (name : Bytes) (lines : List Bytes) :
    given name (sinceLast (opens name) lines) = given name lines := by
  induction lines with
  | nil => rfl
  | cons line lines ih =>
    unfold sinceLast
    split
    case isTrue hany =>
      rw [ih]
      exact foldl_of_opens hany _ _
    case isFalse => rfl

theorem assignStep_of_not_written (h : ∀ a ∈ assignment line, a.name ≠ name) :
    assignStep name ts line = ts := by
  unfold assignStep
  split
  · rfl
  next a ha => rw [if_neg (h a ha)]


/-! ### What the lines give is held -/

theorem Clean.cut_eq (h : Clean line a) :
    cut a.value = if a.value.dropWhile (· = tab) = [] then none
      else some (a.value.dropWhile (· = tab)) :=
  cut_of_plain h.plain.1 h.plain.2

/-- The blanks before the value do not matter. -/
theorem Clean.tokens_eq (h : Clean line a) :
    tokens (str " ") (a.value.dropWhile (· ∈ blanks)) =
      tokens (str " ") ((cut a.value).getD []) := by
  have hcut : (cut a.value).getD [] = a.value.dropWhile (· = tab) := by
    rw [h.cut_eq]
    split
    case isTrue hnil => exact hnil.symm
    case isFalse => rfl
  have hsplit := List.takeWhile_append_dropWhile (p := (· = tab)) (l := a.value)
  have htabs : ∀ c ∈ a.value.takeWhile (· = tab), c ∈ blanks := fun c hc => by
    have hc : c = tab := by simpa using List.mem_takeWhile_imp hc
    exact hc ▸ by decide
  rw [hcut, ← hsplit, List.dropWhile_append_of_pos fun c hc => by simpa using htabs c hc, hsplit]
  generalize hw : a.value.dropWhile (· = tab) = w
  have hspaces : ∀ c ∈ w.takeWhile (· ∈ blanks), c ∈ str " " := fun c hc => by
    have hin : c = chr ' ' ∨ c = tab := by
      simpa [blanks] using List.mem_takeWhile_imp hc
    rcases hin with rfl | rfl
    · decide
    · exact absurd (List.takeWhile_subset _ hc) (hw ▸ h.plain.2)
  conv_rhs => rw [← List.takeWhile_append_dropWhile (p := (· ∈ blanks)) (l := w)]
  rw [tokens_append_left hspaces]

theorem tokens_append (pvalue value : Option Bytes) :
    tokens (str " ") (Reading.append pvalue value) =
      tokens (str " ") (pvalue.getD []) ++ tokens (str " ") (value.getD []) := by
  have hsep : Reading.append pvalue value = pvalue.getD [] ++ chr ' ' :: value.getD [] := by
    rw [Reading.append, List.append_assoc]
    rfl
  rw [hsep, tokens_append_cons (by decide)]

/-- A variable that is given tokens has a line. -/
theorem exists_line_of_given {token : Bytes} (h : token ∈ given name lines) :
    ∃ line ∈ lines, ∃ a ∈ assignment line, a.name = name := by
  by_contra hno
  have hskip : ∀ line ∈ lines, assignStep name [] line = [] := by
    intro line hline
    unfold assignStep
    split
    · rfl
    next a ha => rw [if_neg fun heq => hno ⟨line, hline, a, ha, heq⟩]
  have hnil : given name lines = [] := by
    unfold given
    clear h hno
    induction lines with
    | nil => rfl
    | cons line lines ih =>
      rw [List.foldl_cons, hskip line List.mem_cons_self]
      exact ih fun l hl => hskip l (List.mem_cons_of_mem _ hl)
  rw [hnil] at h
  cases h

/-- What is held for a variable: its tokens, and what can be got from the map. -/
structure Cell.Holds (c : Cell) (ts : List Bytes) (value : Option Bytes) : Prop where
  all : ts ⊆ tokens (str " ") (value.getD [])
  fits : ts ≠ [] → ∀ k, c = .key k → ∀ v ∈ value, v.length < maxValue

theorem Cell.holds_nil (c : Cell) (value : Option Bytes) : c.Holds [] value :=
  ⟨List.nil_subset _, fun hne => absurd rfl hne⟩

theorem cellOf_cases (hmem : rule ∈ dependRules)
    (hname : fixedRules.find? (Rule.names name) = some rule) :
    (∃ x ∈ dependVars, x ≠ .pkgname ∧ rule.target = [x] ∧ cellOf name = .var x) ∨
      ∃ n ∈ dependKeys, n <+: name ∧ rule = .varHash n ∧ cellOf name = .key name := by
  have hvars : ∀ rule ∈ dependRules, ∀ x ∈ rule.target, x ∈ dependVars ∧ x ≠ .pkgname := by
    decide
  have hkeys : ∀ n, .varHash n ∈ dependRules → n ∈ dependKeys := by
    simp [dependRules, dependKeys]
  cases rule with
  | var n x appends =>
    obtain ⟨hx, hpkg⟩ := hvars _ hmem x (List.mem_singleton_self x)
    exact .inl ⟨x, hx, hpkg, rfl, by rw [cellOf, hname]; rfl⟩
  | varWith n x y varlen =>
    obtain ⟨hx, hpkg⟩ := hvars _ hmem x (List.mem_singleton_self x)
    exact .inl ⟨x, hx, hpkg, rfl, by rw [cellOf, hname]; rfl⟩
  | varHash n =>
    exact .inr ⟨n, hkeys n hmem, by simpa [Rule.names] using List.find?_some hname, rfl,
      by rw [cellOf, hname]; rfl⟩

theorem cellOf_depends (hmem : rule ∈ dependRules)
    (hname : fixedRules.find? (Rule.names name) = some rule) : (cellOf name).depends := by
  rcases cellOf_cases hmem hname with ⟨x, hx, -, -, hcell⟩ | ⟨n, hn, hpre, -, hcell⟩
  · rw [hcell]
    simpa [Cell.depends] using hx
  · rw [hcell]
    exact List.any_eq_true.mpr ⟨n, hn, by simpa using hpre⟩

/-- A line that gives tokens to a variable is written for its cell. -/
theorem written_of_name (hmem : rule ∈ dependRules)
    (hname : fixedRules.find? (Rule.names name) = some rule) (ha : assignment line = some a)
    (heq : a.name = name) : (cellOf name).written line := by
  rcases cellOf_cases hmem hname with ⟨x, -, -, ht, hcell⟩ | ⟨n, -, -, -, hcell⟩
  · have hx : x ∈ rule.sets := by
      cases rule with
      | var n y appends =>
        obtain rfl : y = x := List.singleton_injective ht
        exact List.mem_cons_self
      | varWith n y z varlen =>
        obtain rfl : y = x := List.singleton_injective ht
        exact List.mem_cons_self
      | varHash n => cases ht
    rw [hcell, Cell.written, lineRule, ha, Option.bind_some, heq, hname, Option.any_some]
    exact decide_eq_true hx
  · rw [hcell, Cell.written, ha, Option.any_some]
    exact decide_eq_true heq

theorem Cell.Holds.step (hmem : rule ∈ dependRules)
    (hname : fixedRules.find? (Rule.names name) = some rule) (ha : assignment line = some a)
    (hc : Clean line a) (hrule : lineRule line = some rule') (hmem' : rule' ∈ dependRules)
    (hwritten : (cellOf name).written line) (hnot : replaces name line = false)
    (h : (cellOf name).Holds ts old) :
    (cellOf name).Holds (assignStep name ts line) ((cellOf name).step old line) := by
  have hstep : assignStep name ts line = if a.name = name then
      (if a.appends then ts else []) ++ tokens (str " ") ((cut a.value).getD []) else ts := by
    rw [assignStep, ha, ← hc.tokens_eq]
  have hfind : fixedRules.find? (Rule.names a.name) = some rule' := by
    rwa [lineRule, ha] at hrule
  rcases cellOf_cases hmem hname with ⟨x, hx, hpkg, ht, hcell⟩ | ⟨n, -, -, rfl, hcell⟩
  · rw [hcell] at h hwritten ⊢
    have hsets : x ∈ rule'.sets := by simpa [Cell.written, hrule] using hwritten
    obtain rfl : rule' = rule :=
      (by decide : ∀ rule ∈ dependRules, ∀ rule' ∈ dependRules, ∀ x ∈ rule.target, x ∈ rule'.sets →
        rule' = rule) rule hmem rule' hmem' x (ht ▸ List.mem_singleton_self x) hsets
    refine ⟨?_, fun _ k hk => by cases hk⟩
    rw [Cell.step_var hpkg, valueStep, ha, hrule, hstep]
    dsimp only
    rw [if_pos ht]
    unfold Rule.valueStep
    cases hop : a.appends with
    | true =>
      -- the tokens of `+=` come after those there are
      rw [if_pos rfl, if_pos rfl, Option.getD_some, tokens_append]
      split
      · exact List.append_subset.mpr ⟨List.subset_append_of_subset_left _ h.all,
          List.subset_append_right _ _⟩
      · exact List.subset_append_of_subset_left _ h.all
    | false =>
      rw [if_neg Bool.false_ne_true, if_neg Bool.false_ne_true, List.nil_append]
      by_cases heq : a.name = name
      · rw [if_pos heq]
        cases hcut : cut a.value with
        | none => exact List.nil_subset _
        | some value => cases rule' <;> exact List.Subset.refl _
      · have hcut : cut a.value = none := by simpa [replaces, ha, heq, hop] using hnot
        rw [if_neg heq, hcut]
        cases rule' with
        | var n y appends =>
          have hn : name = n := by simpa [Rule.names] using List.find?_some hname
          have hn' : a.name = n := by simpa [Rule.names] using List.find?_some hfind
          exact absurd (hn'.trans hn.symm) heq
        | varWith n y z varlen => exact h.all
        | varHash n => cases ht
  · rw [hcell] at h hwritten ⊢
    have heq : a.name = name := by simpa [Cell.written, ha] using hwritten
    obtain rfl := Option.some.inj (hfind.symm.trans (heq ▸ hname))
    obtain ⟨hop, hlen⟩ := hc.hash _ hrule rfl
    have hkey : Cell.step (.key name) old line = (cut a.value).or old := by
      rw [Cell.step, keyStep, ha]
      exact if_pos heq
    rw [hstep, if_pos heq, hop, if_neg Bool.false_ne_true, List.nil_append, hkey]
    cases hcut : cut a.value with
    | none => exact Cell.holds_nil _ _
    | some value =>
      refine ⟨List.Subset.refl _, fun _ k _ v hv => ?_⟩
      rw [hc.cut_eq] at hcut
      split at hcut <;> cases hcut
      cases hv
      exact hlen

/-- What has been given since the variable was last taken for another one is held. -/
theorem Cell.Holds.foldl (hmem : rule ∈ dependRules)
    (hname : fixedRules.find? (Rule.names name) = some rule) (htidy : Tidy ls)
    (hwritten : ∀ line ∈ ls, (cellOf name).written line)
    (hkept : ∀ after ∈ ls.tails, ∀ line ∈ after.head?, replaces name line →
      ts' ⊆ given name after.tail)
    (hall : ts' ⊆ ls.foldl (assignStep name) ts) (h : (cellOf name).Holds ts old) :
    (cellOf name).Holds ts' (ls.foldl (cellOf name).step old) := by
  induction ls generalizing ts old with
  | nil => exact ⟨List.Subset.trans hall h.all, fun hne => h.fits fun hts =>
      hne (List.subset_nil.mp (hts ▸ hall))⟩
  | cons line ls ih =>
    have htidy' : Tidy ls := fun l hl => htidy l (List.mem_cons_of_mem _ hl)
    have hwritten' := fun l hl => hwritten l (List.mem_cons_of_mem line hl)
    have hkept' : ∀ after ∈ ls.tails, ∀ line ∈ after.head?, replaces name line →
        ts' ⊆ given name after.tail := fun after hafter =>
      hkept after (by rw [List.tails_cons]; exact .tail _ hafter)
    cases hnot : replaces name line with
    | true =>
      exact ih htidy' hwritten' hkept' (hkept (line :: ls) (by simp) line rfl hnot)
        (Cell.holds_nil _ _)
    | false =>
      obtain ⟨a, rule', ha, hclean, hrule, hmem'⟩ := htidy line List.mem_cons_self
      exact ih htidy' hwritten' hkept' hall
        (h.step hmem hname ha hclean hrule hmem' (hwritten line List.mem_cons_self) hnot)

theorem given_eq (hmem : rule ∈ dependRules)
    (hname : fixedRules.find? (Rule.names name) = some rule) (lines : List Bytes) :
    given name lines = (linesOf name lines).foldl (assignStep name) [] := by
  rw [← given_sinceLast, given, linesOf]
  generalize sinceLast (opens name) lines = lines
  generalize ([] : List Bytes) = ts
  induction lines generalizing ts with
  | nil => rfl
  | cons line lines ih =>
    rw [List.foldl_cons, List.filter_cons]
    split
    case isTrue => exact ih _
    case isFalse hother =>
      rw [assignStep_of_not_written fun a ha heq => hother (written_of_name hmem hname ha heq)]
      exact ih _

theorem tidy_of_written (hc : c.depends) (hwritten : ∀ line ∈ ls, c.written line)
    (hclean : ∀ line ∈ ls, ∀ a ∈ assignment line, Clean line a) : Tidy ls := by
  intro line hline
  obtain ⟨rule, hrule, hmem⟩ :=
    (Option.any_eq_true _ _).mp (isDepend_of_written hc (hwritten line hline))
  obtain ⟨a, ha, -⟩ := Option.bind_eq_some_iff.mp hrule
  exact ⟨a, rule, ha, hclean line hline a ha, hrule, by simpa using hmem⟩

theorem packageStep_eq (old : Option Bytes) (line : Bytes) :
    packageStep old line = (packageStep none line).or old := by
  unfold packageStep
  split
  · rfl
  · split
    · rfl
    · rw [Option.or_none]

theorem foldl_packageStep (ls : List Bytes) (old : Option Bytes) :
    ls.foldl packageStep old = (ls.foldl packageStep none).or old := by
  induction ls generalizing old with
  | nil => rfl
  | cons line ls ih =>
    rw [List.foldl_cons, List.foldl_cons, ih, ih (packageStep none line), packageStep_eq old,
      Option.or_assoc]

/-! ### Packages without binary output -/

def Rule.empties (buf : Bytes) : Rule → Bool
  | .var varname _ _ => (strstr (snprintf (varname ++ str ":=")) buf).any fun string =>
      (keyValue (str ":=") string).2 = none
  | .varWith _ _ _ _ => false
  | .varHash _ => false

theorem nobinpkgs_parse (h : rule.parse buf r = some r') :
    r'.nobinpkgs = (r.nobinpkgs || rule.empties buf) := by
  cases rule with
  | var varname x appends =>
    simp only [Rule.parse, Reading.parseVar] at h
    split at h
    next string hstr =>
      split at h
      next hvalue => cases h; simp [Rule.empties, hstr, hvalue, Reading.set]
      next hvalue => cases h; simp [Rule.empties, hstr, hvalue]
    next hnone => split at h <;> cases h; simp [Rule.empties, hnone, Reading.set]
  | varWith varname x y varlen =>
    rw [Rule.empties, Bool.or_false]
    simp only [Rule.parse, Reading.parseVarWith] at h
    split at h
    · cases h
    · split at h
      · split at h <;> cases h <;> rfl
      · cases h; rfl
  | varHash varname =>
    rw [Rule.empties, Bool.or_false]
    simp only [Rule.parse, Reading.parseVarHash] at h
    split at h
    · cases h
    · split at h <;> cases h <;> rfl

def nameRule : Rule := .var (str "PKG_NAME") .name false

theorem vars_name_parse (h : nameRule.parse buf r = some r') (r₀ : Reading) :
    (nameRule.parse buf r₀).map (fun r => r.vars .name) = some (r'.vars .name) := by
  simp only [nameRule, Rule.parse, Reading.parseVar, Bool.false_eq_true, if_false] at h ⊢
  split at h
  · split at h <;> cases h <;> simp [Reading.set]
  · split at h <;> cases h
    simp [Reading.set]

/-- The name is what it was, or what a piece makes it. -/
theorem vars_name_readLine (dname : Bytes) (r₀ : Reading) :
    (readLine dname r buf).vars .name = r.vars .name ∨ (nameRule.parse buf r₀).map
      (fun r => r.vars .name) = some ((readLine dname r buf).vars .name) := by
  cases hread : Cell.read (.var .name) buf with
  | false => exact .inl (Cell.get_readLine (c := .var .name) (by simp) (by simp) hread dname)
  | true =>
    have hsets : ∀ rule ∈ fixedRules, .name ∈ rule.sets → rule = nameRule := by decide
    obtain ⟨rule, hreader, hwrites⟩ := (Option.any_eq_true _ _).mp hread
    unfold reader at hreader
    split at hreader
    case isFalse => cases hreader
    case isTrue hpkg =>
      obtain rfl := hsets rule (List.mem_of_find?_eq_some hreader)
        (by simpa [Rule.writes] using hwrites)
      have htakes := List.find?_some hreader
      obtain ⟨r', hparse⟩ := Option.isSome_iff_exists.mp ((parse_isSome (r := r)).trans htakes)
      have hline : readLine dname r buf = r' := by
        rw [Pkgmaker.readLine, if_pos hpkg, rules, List.findSome?_cons, ← nameRule, hparse]
        rfl
      exact .inr (hline ▸ vars_name_parse hparse r₀)

/-- A package has binary output when nothing is empty in any of its pieces, whatever name it has
had so far. -/
theorem nobinpkgs_foldl {names : List (Option Bytes)} {dname : Bytes}
    (hset : ∀ buf ∈ pieces, ∀ n ∈ (nameRule.parse buf ⟨fun _ => none, [], false⟩).map
      (fun r => r.vars .name), n ∈ names)
    (h : ∀ buf ∈ pieces, ∀ n ∈ names,
      ∀ rule ∈ (rules (toupperstr (n.getD dname))).find? (Rule.takes buf), rule.empties buf = false)
    (hr : r.vars .name ∈ names) :
    (pieces.foldl (readLine dname) r).nobinpkgs = r.nobinpkgs := by
  induction pieces generalizing r with
  | nil => rfl
  | cons buf pieces ih =>
    have hname : (readLine dname r buf).vars .name ∈ names := by
      rcases vars_name_readLine (r := r) dname ⟨fun _ => none, [], false⟩ with heq | heq
      · rwa [heq]
      · exact hset buf List.mem_cons_self _ heq
    rw [List.foldl_cons, ih (fun b hb => hset b (List.mem_cons_of_mem _ hb))
      (fun b hb => h b (List.mem_cons_of_mem _ hb)) hname]
    unfold Pkgmaker.readLine
    split
    case isFalse => rfl
    case isTrue =>
      rw [findSome?_parse]
      cases hfind : (rules (toupperstr ((r.vars .name).getD dname))).find? (Rule.takes buf) with
      | none => rfl
      | some rule =>
        have hempties := h buf List.mem_cons_self _ hr rule hfind
        rw [Option.bind_some]
        cases hparse : rule.parse buf r with
        | none => rfl
        | some r' => rw [Option.getD_some, nobinpkgs_parse hparse, hempties, Bool.or_false]

/-! ### Writing the files -/

variable {pkgmap : StrMap} {key token : Bytes} {v : Vars} {p : Package}

theorem mem_mapLines {line : Bytes → Bytes}
    (h : token ∈ tokens (str " ") ((pkgmap.lookup key).getD []))
    (hfits : ∀ value ∈ pkgmap.lookup key, value.length < maxValue) :
    line token ∈ mapLines line pkgmap key := by
  have hget : pkgmap.get key maxValue = pkgmap.lookup key := by
    unfold StrMap.get
    cases hlookup : pkgmap.lookup key with
    | none => rfl
    | some value => rw [Option.filter_some, if_pos (by simpa using hfits value hlookup)]
  rw [mapLines, tokenLines, hget]
  exact List.mem_map_of_mem h

theorem map_fst_configFiles (pkgmap : StrMap) (dname : Bytes) (v : Vars) (ts : List Bytes) :
    (configFiles pkgmap dname v ts).map Prod.fst = ts := by
  induction ts generalizing v with
  | nil => rfl
  | cons token ts ih => exact congrArg (token :: ·) (ih _)

theorem of_mem_configFiles {dname : Bytes} {file : Bytes × List Bytes}
    (h : file ∈ configFiles pkgmap dname v ts) :
    ∃ v', file.2 = configLines pkgmap dname v' file.1 := by
  induction ts generalizing v with
  | nil => cases h
  | cons token ts ih =>
    rcases List.mem_cons.mp h with rfl | h
    · exact ⟨_, rfl⟩
    · exact ih h

/-- What has been reset for a package is reset for those behind it. -/
theorem of_mem_configFiles_reset {dname : Bytes} {file : Bytes × List Bytes}
    (h : file ∈ configFiles pkgmap dname v ts) (hv : ∀ x ∈ resetInLoop, v x = none) :
    ∃ v', file.2 = configLines pkgmap dname v' file.1 ∧ ∀ x ∈ resetInLoop, v' x = none := by
  induction ts generalizing v with
  | nil => cases h
  | cons token ts ih =>
    have hdescr : Var.descr ∉ resetInLoop := by decide
    rcases List.mem_cons.mp h with rfl | h
    · refine ⟨_, rfl, fun x hx => ?_⟩
      have hne : x ≠ Var.descr := fun heq => hdescr (heq ▸ hx)
      rw [Function.update_of_ne hne]
      exact hv x hx
    · exact ih h fun x hx => if_pos hx

namespace Package

/-- A subpackage is listed under its name in small letters. -/
theorem mem_named {subpkg : Bytes}
    (h : subpkg ∈ CString.tokens (str " ") ((p.reading.vars .subpkgs).getD [])) :
    tolowerstr subpkg ∈ p.named := by
  rw [named, packages]
  cases hvalue : p.reading.vars .subpkgs with
  | none =>
    rw [hvalue] at h
    cases h
  | some value =>
    have hspace (c : UInt8) :
        tolower (if c = chr '_' then chr '-' else c) ∈ str " " ↔ c ∈ str " " :=
      (by decide +kernel : ∀ i : Fin 256, tolower (if UInt8.ofFin i = chr '_' then chr '-'
        else UInt8.ofFin i) ∈ str " " ↔ UInt8.ofFin i ∈ str " ") c.toFin
    rw [hvalue] at h
    rw [Option.map_some, Option.some_or, Option.getD_some, tolowerstr, tokens_map hspace]
    exact List.mem_map_of_mem h

/-- A package that is listed has a file. -/
theorem printed_eq (h : token ∈ p.tokens) :
    ∃ v, p.printed token = configLines p.reading.pkgmap p.dir.name v token := by
  cases hfile : p.file token with
  | none =>
    rw [Package.file, List.lookup_eq_none_iff] at hfile
    rw [← map_fst_configFiles p.reading.pkgmap p.dir.name p.reading.vars p.tokens] at h
    obtain ⟨file, hmem, rfl⟩ := List.mem_map.mp h
    exact absurd (hfile file (List.mem_reverse.mpr hmem)) (by simp)
  | some ls =>
    rw [Package.printed, hfile]
    rw [Package.file] at hfile
    obtain ⟨before, after, heq, -⟩ := List.lookup_eq_some_iff.mp hfile
    have hmem : (token, ls) ∈ p.files := List.mem_reverse.mp (by rw [heq]; simp)
    exact of_mem_configFiles hmem

/-- A package that is listed behind the first one has nothing of what the Makefile declares. -/
theorem printed_rest {first : Bytes} {rest : List Bytes} (h : p.tokens = first :: rest)
    (hmem : token ∈ rest) :
    ∃ v, p.printed token = configLines p.reading.pkgmap p.dir.name v token ∧
      ∀ x ∈ resetInLoop, v x = none := by
  have hsplit : ∃ v : Vars, (∀ x ∈ resetInLoop, v x = none) ∧
      p.files = (p.files.head?.toList) ++ configFiles p.reading.pkgmap p.dir.name v rest := by
    refine ⟨Vars.clear (Function.update p.reading.vars .descr ((p.reading.pkgmap.get
      (str "PKGSD_" ++ toupperstr first) maxValue).or (p.reading.vars .descr))) resetInLoop,
      fun x hx => if_pos hx, ?_⟩
    rw [Package.files, h, configFiles_cons]
    rfl
  obtain ⟨v, hv, hfiles⟩ := hsplit
  rw [Package.printed, Package.file, hfiles, List.reverse_append, List.lookup_append]
  cases hlookup : (configFiles p.reading.pkgmap p.dir.name v rest).reverse.lookup token with
  | none =>
    rw [List.lookup_eq_none_iff] at hlookup
    rw [← map_fst_configFiles p.reading.pkgmap p.dir.name v rest] at hmem
    obtain ⟨file, hfile, rfl⟩ := List.mem_map.mp hmem
    exact absurd (hlookup file (List.mem_reverse.mpr hfile)) (by simp)
  | some ls =>
    obtain ⟨before, after, heq, -⟩ := List.lookup_eq_some_iff.mp hlookup
    have hfile : (token, ls) ∈ configFiles p.reading.pkgmap p.dir.name v rest :=
      List.mem_reverse.mp (by rw [heq]; simp)
    exact of_mem_configFiles_reset hfile hv

/-- The first package, if it is not listed again, has what the Makefile has. -/
theorem printed_first {rest : List Bytes} (h : p.tokens = token :: rest) (hnot : token ∉ rest) :
    ∃ v, p.printed token = configLines p.reading.pkgmap p.dir.name v token ∧
      ∀ x ≠ Var.descr, v x = p.reading.vars x := by
  have hprinted : p.printed token = configLines p.reading.pkgmap p.dir.name
      (Function.update p.reading.vars .descr ((p.reading.pkgmap.get
        (str "PKGSD_" ++ toupperstr token) maxValue).or (p.reading.vars .descr))) token := by
    rw [Package.printed, Package.file, Package.files, h, configFiles_cons, List.reverse_cons,
      List.lookup_append, List.lookup_eq_none_iff.mpr fun file hfile => ?_]
    · rw [Option.none_or, List.lookup_cons_self, Option.getD_some]
    · have hmem := List.mem_map_of_mem (f := Prod.fst) (List.mem_reverse.mp hfile)
      rw [map_fst_configFiles] at hmem
      simpa using fun heq : token = file.1 => hnot (heq ▸ hmem)
  exact ⟨_, hprinted, fun x hx => Function.update_of_ne hx _ _⟩

end Package

/-! ### The entries of a file -/

/-- A line that begins in another way begins no entry. -/
theorem entry_ne {sym line : Bytes} (h : line.take 3 ≠ str "con") :
    str "config " ++ sym ++ [newline] ≠ line := by
  rintro rfl
  exact h rfl

theorem entry_not_mem_tokenLines {sym : Bytes} {line : Bytes → Bytes} {value : Option Bytes}
    (h : ∀ val, (line val).take 3 ≠ str "con") :
    str "config " ++ sym ++ [newline] ∉ tokenLines line value := by
  intro hmem
  obtain ⟨val, -, heq⟩ := List.mem_map.mp hmem
  exact entry_ne (h val) heq.symm

theorem entry_not_mem_targetLine {sym negated plain : Bytes} {value : Option Bytes} :
    str "config " ++ sym ++ [newline] ∉ targetLine negated plain value := by
  intro h
  cases value with
  | none => cases h
  | some value =>
    have hdepends : str "\tde" ≠ str "con" := by decide
    exact absurd (List.mem_singleton.mp h) (entry_ne hdepends)

theorem entry_not_mem_needsLines {sym : Bytes} {value : Option Bytes} :
    str "config " ++ sym ++ [newline] ∉ needsLines value := by
  have hneeds : ∀ need ∈ needLines, ∀ line ∈ need.2, line.take 3 ≠ str "con" := by
    decide +kernel
  intro h
  obtain ⟨token, -, h⟩ := List.mem_flatMap.mp h
  obtain ⟨need, hneed, h⟩ := List.mem_flatMap.mp h
  split at h
  · exact entry_ne (hneeds need hneed _ h) rfl
  · cases h

theorem entry_of_mem_headLines {sym : Bytes}
    (h : str "config " ++ sym ++ [newline] ∈ headLines v token) :
    sym = str "ADK_PACKAGE_" ++ toupperstr token := by
  have hcom : str "com" ≠ str "con" := by decide
  have hdep : str "dep" ≠ str "con" := by decide
  have hprompt : str "\tpr" ≠ str "con" := by decide
  have hhidden : str "\t#p" ≠ str "con" := by decide
  unfold headLines at h
  simp only [List.mem_append, List.mem_cons, List.not_mem_nil, or_false] at h
  rcases h with (h | h | h | h) | h
  · split at h
    · simp only [List.mem_cons, List.not_mem_nil, or_false] at h
      rcases h with h | h | h
      · exact absurd h (entry_ne hcom)
      · exact absurd h (entry_ne hdep)
      · exact absurd h (entry_ne (by decide))
    · cases h
  · have hentry : str "config ADK_PACKAGE_" ++ toupperstr token =
        str "config " ++ (str "ADK_PACKAGE_" ++ toupperstr token) := rfl
    rw [hentry] at h
    exact List.append_cancel_left (List.append_cancel_right h)
  · split at h
    · exact absurd h (entry_ne hhidden)
    · exact absurd h (entry_ne hprompt)
  · exact absurd h (entry_ne (by decide))
  · obtain ⟨val, -, heq⟩ := List.mem_map.mp h
    have htab : (chr '\t') ≠ chr 'c' := by decide
    exact absurd (congrArg List.head? heq) fun hhead => htab (Option.some.inj hhead)

theorem entry_not_mem_dependsLines {sym : Bytes} :
    str "config " ++ sym ++ [newline] ∉ dependsLines v := by
  have hselect : str "\tse" ≠ str "con" := by decide
  unfold dependsLines systemSelects
  simp only [List.mem_append, not_or]
  exact ⟨⟨⟨⟨⟨⟨⟨entry_not_mem_targetLine, entry_not_mem_targetLine⟩, entry_not_mem_targetLine⟩,
    entry_not_mem_targetLine⟩, entry_not_mem_needsLines⟩,
    entry_not_mem_tokenLines fun _ => hselect⟩, entry_not_mem_tokenLines fun _ => hselect⟩,
    entry_not_mem_tokenLines fun _ => hselect, entry_not_mem_tokenLines fun _ => hselect⟩

theorem entry_of_mem_tailLines {sym dname : Bytes}
    (h : str "config " ++ sym ++ [newline] ∈ tailLines dname v token) :
    sym = str "ADK_PACKAGE_" ++ toupperstr token ++ str "_DBG" := by
  have hde : str "\tde" ≠ str "con" := by decide
  have hse : str "\tse" ≠ str "con" := by decide
  have htext : str "\t  " ≠ str "con" := by decide
  unfold tailLines at h
  simp only [List.mem_append, List.mem_cons, List.not_mem_nil, or_false] at h
  rcases h with ((h | h) | h) | h
  · split at h
    · exact absurd (List.mem_singleton.mp h) (entry_ne hde)
    · cases h
  · rcases h with h | h | h | h | h
    · exact absurd h (entry_ne hse)
    · exact absurd h (entry_ne hde)
    · exact absurd h (entry_ne (by decide))
    · exact absurd h (entry_ne htext)
    · exact absurd h (entry_ne (by decide))
  · obtain ⟨val, -, heq⟩ := List.mem_map.mp h
    exact absurd heq.symm (entry_ne htext)
  · rcases h with h | h | h | h | h | h | h | h | h
    · exact absurd h (entry_ne (by decide))
    · have hentry : str "config ADK_PACKAGE_" ++ toupperstr token ++ str "_DBG\n" =
          str "config " ++ (str "ADK_PACKAGE_" ++ toupperstr token ++ str "_DBG") ++ [newline] := by
        simp only [List.append_assoc]
        rfl
      rw [hentry] at h
      exact List.append_cancel_left (List.append_cancel_right h)
    · exact absurd h (entry_ne (by decide))
    · exact absurd h (entry_ne (by decide))
    · exact absurd h (entry_ne (by decide))
    · exact absurd h (entry_ne hde)
    · exact absurd h (entry_ne (by decide))
    · exact absurd h (entry_ne (by decide))
    · exact absurd h (entry_ne (by decide))

/-- The entries of a package without flavours and choices. -/
theorem entry_of_mem_configLines {sym dname : Bytes}
    (h : str "config " ++ sym ++ [newline] ∈ configLines pkgmap dname v token)
    (hnone : ∀ x ∈ resetInLoop, v x = none) :
    sym = str "ADK_PACKAGE_" ++ toupperstr token ∨
      sym = str "ADK_PACKAGE_" ++ toupperstr token ++ str "_DBG" := by
  have hde : str "\tde" ≠ str "con" := by decide
  have hse : str "\tse" ≠ str "con" := by decide
  unfold configLines at h
  simp only [hnone .flavours (by decide), hnone .flavoursString (by decide),
    hnone .choices (by decide), choicesLines, Option.getD_none, List.mem_append] at h
  rcases h with (((((((h | h) | h) | h) | h) | h) | h) | h) | h
  · exact .inl (entry_of_mem_headLines h)
  · exact absurd h (entry_not_mem_tokenLines fun _ => hde)
  · exact absurd h (entry_not_mem_tokenLines fun _ => hse)
  · exact absurd h (entry_not_mem_tokenLines fun _ => hse)
  · exact absurd h entry_not_mem_dependsLines
  · exact .inr (entry_of_mem_tailLines h)
  · cases h
  · cases h
  · cases h

/-- What a package has in its file in any case. -/
theorem entry_mem_configLines {sym dname : Bytes}
    (h : sym = str "ADK_PACKAGE_" ++ toupperstr token ∨
      sym = str "ADK_PACKAGE_" ++ toupperstr token ++ str "_DBG") :
    str "config " ++ sym ++ [newline] ∈ configLines pkgmap dname v token := by
  rcases h with rfl | rfl
  · have hhead : str "config " ++ (str "ADK_PACKAGE_" ++ toupperstr token) ++ [newline] ∈
        headLines v token := by
      simp only [headLines, List.mem_append, List.mem_cons]
      exact .inl (.inr (.inl rfl))
    simp only [configLines, List.mem_append, hhead, true_or]
  · have hline : str "config ADK_PACKAGE_" ++ toupperstr token ++ str "_DBG\n" =
        str "config " ++ (str "ADK_PACKAGE_" ++ toupperstr token ++ str "_DBG") ++ [newline] := by
      simp only [List.append_assoc]
      rfl
    have htail : str "config " ++ (str "ADK_PACKAGE_" ++ toupperstr token ++ str "_DBG") ++
        [newline] ∈ tailLines dname v token := by
      simp only [tailLines, ← hline, List.mem_append, List.mem_cons]
      exact .inr (.inr (.inl trivial))
    simp only [configLines, List.mem_append, htail, true_or, or_true]

/-- What is declared has its entry. -/
theorem mem_declared {dname varname fam flavour : Bytes} {x : Var}
    (hdecl : (varname, x, fam) ∈ declareRules)
    (h : flavour ∈ tokens (str " ") ((v x).getD [])) (line : Bytes)
    (hline : line = symbolLine (shown (v .pkgname)) flavour ∨
      line ∈ mapLines selectLine pkgmap (fam ++ flavour)) :
    line ∈ configLines pkgmap dname v token := by
  simp only [declareRules, List.mem_cons, Prod.mk.injEq, List.not_mem_nil, or_false] at hdecl
  rcases hdecl with ⟨-, rfl, rfl⟩ | ⟨-, rfl, rfl⟩ | ⟨-, rfl, rfl⟩
  · have hentry : line ∈ flavourStringLines pkgmap (shown (v .pkgname)) flavour := by
      rcases hline with rfl | hline
      · simp [flavourStringLines]
      · simp only [flavourStringLines, List.mem_append, hline, true_or, or_true]
    have hmem := List.mem_flatMap.mpr ⟨flavour, h, hentry⟩
    simp only [configLines, List.mem_append, hmem, true_or, or_true]
  · have hentry : line ∈ flavourLines pkgmap (shown (v .pkgname)) flavour := by
      rcases hline with rfl | hline
      · simp [flavourLines]
      · simp only [flavourLines, List.mem_append, hline, true_or, or_true]
    have hmem := List.mem_flatMap.mpr ⟨flavour, h, hentry⟩
    simp only [configLines, List.mem_append, hmem, true_or, or_true]
  · have hentry : line ∈ choiceLines pkgmap (shown (v .pkgname)) flavour := by
      rcases hline with rfl | hline
      · simp [choiceLines]
      · simp only [choiceLines, List.mem_append, hline, or_true]
    have hmem : line ∈ choicesLines pkgmap (shown (v .pkgname)) (v .choices) := by
      cases hchoices : v .choices with
      | none =>
        rw [hchoices] at h
        cases h
      | some value =>
        rw [hchoices, Option.getD_some] at h
        have hmem := List.mem_flatMap.mpr ⟨flavour, h, hentry⟩
        simp only [choicesLines, List.mem_append, hmem, true_or, or_true]
    simp only [configLines, List.mem_append, hmem, or_true]

end

/-! ### When no token is lost -/

def maxLine : ℕ := 4096

def declaring (lines : List Bytes) : List Bytes :=
  ((lines.filterMap assignment).map Assignment.name).filter fun name => (declares name).isSome

def ofFirst (lines : List Bytes) : List Bytes :=
  str "PKG_DEPENDS" :: (declaring lines).flatMap fun name =>
    name :: (given name lines).map (((declares name).elim [] Prod.fst) ++ ·)

def ofSubpkgs (lines : List Bytes) : List Bytes :=
  (given (str "PKG_SUBPKGS") lines).flatMap fun subpkg =>
    [str "PKGSS_" ++ subpkg, str "PKGSN_" ++ subpkg]

namespace Package
variable (p : Package)

/-- The variables with tokens that have to be in a file of the package. -/
def asked : List Bytes :=
  ((if p.named = [] then [] else ofFirst p.lines) ++ ofSubpkgs p.lines).filter
    fun name => given name p.lines ≠ []

/-- The names that the package can have had when a piece is read. -/
def names : List (Option Bytes) :=
  p.vars .name :: (fileLines p.dir.makefile).filterMap fun buf =>
    (nameRule.parse buf ⟨fun _ => none, [], false⟩).map fun r => r.vars .name

def Binary : Prop :=
  ∀ buf ∈ fileLines p.dir.makefile, ∀ n ∈ p.names,
    ∀ rule ∈ (rules (toupperstr (n.getD p.dir.name))).find? (Rule.takes buf),
      rule.empties buf = false

/-- The buffer of `parse_var` is not overrun. -/
def Room : Cell → Prop
  | .var x => ∀ before ∈ p.lines.inits,
      ((before.foldl (Cell.step (.var x)) (p.vars x)).getD []).length < maxLine
  | .key _ => True

/-- The lines are the last ones that are read into the cell, and are read as they are written. -/
structure ReadsLast (c : Cell) (ls : List Bytes) : Prop where
  pieces : ls.map (· ++ [newline]) <:+ (fileLines p.dir.makefile).filter c.read
  clean : ∀ line ∈ ls, ∀ a ∈ assignment line, Clean line a

/-- The tokens of a variable reach its cell, and are not lost from it. -/
structure Passes (name : Bytes) : Prop where
  reads : p.ReadsLast (cellOf name) (linesOf name p.lines)
  kept : ∀ after ∈ (linesOf name p.lines).tails, ∀ line ∈ after.head?, replaces name line →
    given name p.lines ⊆ given name after.tail
  room : p.Room (cellOf name)

/-- The last line that says for which package something is declared names this one. -/
structure DeclaresFor (pkg : Bytes) : Prop where
  reads : p.ReadsLast (.var .pkgname) (packageLines p.lines)
  last : (packageLines p.lines).foldl packageStep none = some pkg

instance : Decidable p.Binary :=
  inferInstanceAs (Decidable (∀ buf ∈ fileLines p.dir.makefile, ∀ n ∈ p.names,
    ∀ rule ∈ (rules (toupperstr (n.getD p.dir.name))).find? (Rule.takes buf),
      rule.empties buf = false))

instance (c : Cell) : Decidable (p.Room c) :=
  match c with
  | .var x => inferInstanceAs (Decidable (∀ before ∈ p.lines.inits,
      ((before.foldl (Cell.step (.var x)) (p.vars x)).getD []).length < maxLine))
  | .key _ => isTrue trivial

instance (c : Cell) (ls : List Bytes) : Decidable (p.ReadsLast c ls) :=
  decidable_of_iff
    (ls.map (· ++ [newline]) <:+ (fileLines p.dir.makefile).filter c.read ∧
      ∀ line ∈ ls, ∀ a ∈ assignment line, Clean line a)
    ⟨fun ⟨h1, h2⟩ => ⟨h1, h2⟩, fun h => ⟨h.pieces, h.clean⟩⟩

instance (name : Bytes) : Decidable (p.Passes name) :=
  decidable_of_iff
    (p.ReadsLast (cellOf name) (linesOf name p.lines) ∧
      (∀ after ∈ (linesOf name p.lines).tails, ∀ line ∈ after.head?, replaces name line →
        given name p.lines ⊆ given name after.tail) ∧ p.Room (cellOf name))
    ⟨fun ⟨h1, h2, h3⟩ => ⟨h1, h2, h3⟩, fun h => ⟨h.reads, h.kept, h.room⟩⟩

instance (pkg : Bytes) : Decidable (p.DeclaresFor pkg) :=
  decidable_of_iff
    (p.ReadsLast (.var .pkgname) (packageLines p.lines) ∧
      (packageLines p.lines).foldl packageStep none = some pkg)
    ⟨fun ⟨h1, h2⟩ => ⟨h1, h2⟩, fun h => ⟨h.reads, h.last⟩⟩

end Package

/-- The Makefile of a package is read as it is written, as far as there are tokens. -/
structure Readable (p : Package) : Prop where
  generated : p.asked ≠ [] → p.dir.manual = false
  binary : p.asked ≠ [] → p.Binary
  passes : ∀ name ∈ p.asked, p.Passes name
  subpkgs : (∃ name ∈ ofSubpkgs p.lines, given name p.lines ≠ []) → p.Passes (str "PKG_SUBPKGS")
  package : ∀ name ∈ p.asked, ∀ d ∈ declares name, p.DeclaresFor d.2
  names : ∀ subpkg ∈ given (str "PKG_SUBPKGS") p.lines,
    given (str "PKGSS_" ++ subpkg) p.lines ≠ [] ∨ given (str "PKGSN_" ++ subpkg) p.lines ≠ [] →
      toupperstr (tolowerstr subpkg) = subpkg
  once : ∀ first ∈ p.named.head?, (∃ name ∈ ofFirst p.lines, given name p.lines ≠ []) →
    first ∉ p.named.tail
  /-- The buffer for the keys is not overrun. -/
  keys : (∀ token ∈ p.named, token.length + 6 < maxVar) ∧
    ∀ name ∈ p.asked, ∀ d ∈ declares name, ∀ flavour ∈ given name p.lines,
      flavour.length + 6 < maxVar

namespace Package
variable {p : Package} {rule : Rule} {name : Bytes} {c : Cell} {ls : List Bytes}

theorem ReadsLast.get (h : p.ReadsLast c ls) (hc : c.depends)
    (hwritten : ∀ line ∈ ls, c.written line) :
    ∃ old, c.get (readMakefile p.vars p.dir) = ls.foldl c.step old := by
  obtain ⟨pre, hpre⟩ := h.pieces
  obtain ⟨before, after, hsplit, -, hafter⟩ := List.filter_eq_append_iff.mp hpre.symm
  refine ⟨c.get (before.foldl (readLine p.dir.name) ⟨p.vars, [], false⟩), ?_⟩
  rw [readMakefile, hsplit, List.foldl_append]
  exact Cell.get_foldl hc (fun _ hbuf => hbuf) (tidy_of_written hc hwritten h.clean) hafter _

theorem reading_eq (hman : p.dir.manual = false) : p.reading =
    { readMakefile p.vars p.dir with vars := (readMakefile p.vars p.dir).vars.useLibname } :=
  if_neg (by simp [hman])

theorem get_reading (hman : p.dir.manual = false) (hc : c.depends) :
    c.get p.reading = c.get (readMakefile p.vars p.dir) := by
  rw [reading_eq hman]
  cases c with
  | key k => rfl
  | var x =>
    have hx : x ∈ dependVars := by simpa [Cell.depends] using hc
    have hname : x ≠ .name := fun heq => absurd (heq ▸ hx) (by decide)
    exact Vars.useLibname_of_ne hname _

/-- What the lines give is held when the Makefile is read. -/
theorem Passes.holds (h : p.Passes name) (hman : p.dir.manual = false) (hmem : rule ∈ dependRules)
    (hname : fixedRules.find? (Rule.names name) = some rule) :
    (cellOf name).Holds (given name p.lines) ((cellOf name).get p.reading) := by
  have hc := cellOf_depends hmem hname
  have hwritten : ∀ line ∈ linesOf name p.lines, (cellOf name).written line :=
    fun line hline => (List.mem_filter.mp hline).2
  obtain ⟨old, hget⟩ := h.reads.get hc hwritten
  rw [get_reading hman hc, hget]
  have hall : given name p.lines ⊆ (linesOf name p.lines).foldl (assignStep name) [] :=
    given_eq hmem hname p.lines ▸ List.Subset.refl _
  exact Cell.Holds.foldl hmem hname (tidy_of_written hc hwritten h.reads.clean) hwritten h.kept
    hall (Cell.holds_nil _ _)

theorem DeclaresFor.pkgname {pkg : Bytes} (h : p.DeclaresFor pkg) (hman : p.dir.manual = false) :
    p.reading.vars .pkgname = some pkg := by
  obtain ⟨old, hget⟩ := h.reads.get (by decide) fun line hline => (List.mem_filter.mp hline).2
  have hreading := get_reading (c := .var .pkgname) hman (by decide)
  refine (hreading.trans hget).trans ?_
  have hlast := foldl_packageStep (packageLines p.lines) old
  rwa [h.last, Option.some_or] at hlast

end Package

namespace Readable
variable {p : Package} {name token : Bytes}

/-- A variable that is the only one of its rule. -/
theorem holds_var {varname : Bytes} {x : Var} (hpass : p.Passes varname)
    (hman : p.dir.manual = false) (hmem : .var varname x true ∈ dependRules)
    (hname : fixedRules.find? (Rule.names varname) = some (.var varname x true)) :
    given varname p.lines ⊆ tokens (str " ") ((p.reading.vars x).getD []) := by
  have hholds := hpass.holds hman hmem hname
  have hcell : cellOf varname = .var x := by rw [cellOf, hname]; rfl
  rw [hcell] at hholds
  exact hholds.all

/-- The dependencies of a line of the map are printed. -/
theorem mem_mapLines {fam : Bytes} (hfam : fam ∈ dependKeys) {key : Bytes} (line : Bytes → Bytes)
    (hpass : p.Passes (fam ++ key)) (hman : p.dir.manual = false)
    (htoken : token ∈ given (fam ++ key) p.lines) :
    line token ∈ mapLines line p.reading.pkgmap (fam ++ key) := by
  have hname := find?_names_key hfam key
  have hholds := hpass.holds hman
    ((by decide : ∀ fam ∈ dependKeys, .varHash fam ∈ dependRules) fam hfam) hname
  have hcell : cellOf (fam ++ key) = .key (fam ++ key) := by rw [cellOf, hname]; rfl
  rw [hcell] at hholds
  exact Pkgmaker.mem_mapLines (hholds.all htoken)
    (hholds.fits (List.ne_nil_of_mem htoken) _ rfl)

theorem tokens_eq (h : Readable p) (hne : p.asked ≠ []) : p.tokens = p.named := by
  have hman := h.generated hne
  have hnobin : p.reading.nobinpkgs = false := by
    rw [Package.reading_eq hman]
    have hset : ∀ buf ∈ fileLines p.dir.makefile, ∀ n ∈
        (nameRule.parse buf ⟨fun _ => none, [], false⟩).map (fun r => r.vars .name), n ∈ p.names :=
      fun buf hbuf n hn => List.mem_cons_of_mem _ (List.mem_filterMap.mpr ⟨buf, hbuf, hn⟩)
    exact nobinpkgs_foldl hset (h.binary hne) List.mem_cons_self
  rw [Package.tokens, if_neg (by simp [hman, hnobin])]
  rfl

/-! The variables that are asked for. -/

theorem mem_asked_of_first {first : Bytes} (hfirst : first ∈ p.named.head?)
    (hname : name ∈ ofFirst p.lines) (htoken : token ∈ given name p.lines) : name ∈ p.asked := by
  have hnamed : p.named ≠ [] := by
    rintro hnil
    rw [hnil] at hfirst
    cases hfirst
  refine List.mem_filter.mpr ⟨List.mem_append_left _ ?_, by simpa using List.ne_nil_of_mem htoken⟩
  rwa [if_neg hnamed]

theorem mem_asked_of_subpkgs (hname : name ∈ ofSubpkgs p.lines)
    (htoken : token ∈ given name p.lines) : name ∈ p.asked :=
  List.mem_filter.mpr ⟨List.mem_append_right _ hname, by simpa using List.ne_nil_of_mem htoken⟩

theorem mem_ofSubpkgs {fam subpkg : Bytes} {lines : List Bytes}
    (hfam : fam ∈ [str "PKGSS_", str "PKGSN_"]) (h : subpkg ∈ given (str "PKG_SUBPKGS") lines) :
    fam ++ subpkg ∈ ofSubpkgs lines := by
  refine List.mem_flatMap.mpr ⟨subpkg, h, ?_⟩
  have hcases : fam = str "PKGSS_" ∨ fam = str "PKGSN_" := by simpa using hfam
  rcases hcases with rfl | rfl
  · exact List.mem_cons_self
  · exact List.mem_cons_of_mem _ List.mem_cons_self

theorem mem_declaring {d : Bytes × Bytes} {lines : List Bytes} (hd : declares name = some d)
    (htoken : token ∈ given name lines) : name ∈ declaring lines := by
  obtain ⟨line, hline, a, ha, rfl⟩ := exists_line_of_given htoken
  refine List.mem_filter.mpr ⟨List.mem_map_of_mem (List.mem_filterMap.mpr ⟨line, hline, ha⟩), ?_⟩
  rw [hd]
  rfl

theorem mem_ofFirst {d : Bytes × Bytes} {lines : List Bytes} (hd : declares name = some d)
    (htoken : token ∈ given name lines) :
    name ∈ ofFirst lines ∧ d.1 ++ token ∈ ofFirst lines := by
  have hname := mem_declaring hd htoken
  refine ⟨List.mem_cons_of_mem _ (List.mem_flatMap.mpr ⟨name, hname, List.mem_cons_self⟩),
    List.mem_cons_of_mem _ (List.mem_flatMap.mpr ⟨name, hname, List.mem_cons_of_mem _ ?_⟩)⟩
  rw [hd]
  exact List.mem_map_of_mem htoken

/-! What is printed. -/

/-- A subpackage of the Makefile has a file, which has the dependencies of its key. -/
theorem of_subpkg {fam subpkg : Bytes} (h : Readable p) (hfam : fam ∈ [str "PKGSS_", str "PKGSN_"])
    (hsubpkg : subpkg ∈ given (str "PKG_SUBPKGS") p.lines)
    (htoken : token ∈ given (fam ++ subpkg) p.lines) (line : Bytes → Bytes) :
    (∃ v, p.printed (tolowerstr subpkg) =
      configLines p.reading.pkgmap p.dir.name v (tolowerstr subpkg)) ∧
      line token ∈ mapLines line p.reading.pkgmap (fam ++ toupperstr (tolowerstr subpkg)) := by
  have hof := mem_ofSubpkgs hfam hsubpkg
  have hasked := mem_asked_of_subpkgs hof htoken
  have hman := h.generated (List.ne_nil_of_mem hasked)
  have hgiven := List.ne_nil_of_mem htoken
  have hname : toupperstr (tolowerstr subpkg) = subpkg := by
    have hcases : fam = str "PKGSS_" ∨ fam = str "PKGSN_" := by simpa using hfam
    rcases hcases with rfl | rfl
    · exact h.names subpkg hsubpkg (.inl hgiven)
    · exact h.names subpkg hsubpkg (.inr hgiven)
  have hkeys : ∀ fam ∈ [str "PKGSS_", str "PKGSN_"], fam ∈ dependKeys := by decide
  constructor
  · have hpass := h.subpkgs ⟨_, hof, hgiven⟩
    have hheld := holds_var hpass hman (x := .subpkgs) (by decide) (by decide) hsubpkg
    exact Package.printed_eq (h.tokens_eq (List.ne_nil_of_mem hasked) ▸ Package.mem_named hheld)
  · rw [hname]
    exact mem_mapLines (hkeys fam hfam) line (h.passes _ hasked) hman htoken

/-- What the first package has. -/
theorem first (h : Readable p) {first : Bytes} (hfirst : first ∈ p.named.head?)
    (hname : name ∈ ofFirst p.lines) (htoken : token ∈ given name p.lines) :
    ∃ v, p.printed first = configLines p.reading.pkgmap p.dir.name v first ∧
      ∀ x ≠ Var.descr, v x = p.reading.vars x := by
  obtain ⟨rest, hnamed⟩ := List.head?_eq_some_iff.mp hfirst
  have hne := List.ne_nil_of_mem (mem_asked_of_first hfirst hname htoken)
  have honce := h.once first hfirst ⟨name, hname, List.ne_nil_of_mem htoken⟩
  rw [hnamed] at honce
  exact Package.printed_first ((h.tokens_eq hne).trans hnamed) honce

/-- The declared flavours and choices, and the package they are for. -/
theorem of_given {d : Bytes × Bytes} {flavour : Bytes} (h : Readable p) (hasked : name ∈ p.asked)
    (hd : declares name = some d) (hflavour : flavour ∈ given name p.lines) :
    ∃ varname x, (varname, x, d.1) ∈ declareRules ∧
      flavour ∈ tokens (str " ") ((p.reading.vars x).getD []) ∧
      p.reading.vars .pkgname = some d.2 := by
  have hman := h.generated (List.ne_nil_of_mem hasked)
  obtain ⟨varname, x, hdecl, -, hfind⟩ := declares_cases hd
  have hholds := (h.passes name hasked).holds hman (mem_dependRules hdecl) hfind
  have hcell : cellOf name = .var x := by rw [cellOf, hfind]; rfl
  rw [hcell] at hholds
  exact ⟨varname, x, hdecl, hholds.all hflavour, (h.package name hasked d hd).pkgname hman⟩

end Readable

/-- A package with a dependency, a subpackage with another one, and a flavour. -/
def withFlavour : Package where
  dir := ⟨str "a", str "PKG_SUBPKGS:=A\nPKG_DEPENDS+=b\nPKGSS_A:=c\n" ++
    str "PKG_FLAVOURS_A:=F\nPKGFS_F:=d\n", false⟩
  vars := fun _ => none
  nobinpkgs := false

theorem withFlavour_readable : Readable withFlavour where
  generated := fun _ => rfl
  binary := fun _ => by decide +kernel
  passes := by decide +kernel
  subpkgs := fun _ => by decide +kernel
  package := by decide +kernel
  names := by decide +kernel
  once := by decide +kernel
  keys := by decide +kernel

/-- The value has no room in the buffer that it is read back into. -/
def withLongValue : Package where
  dir := ⟨str "a", str "PKG_SUBPKGS:=A\nPKGSS_A:=" ++ List.replicate 168 (chr 'b') ++ [newline],
    false⟩
  vars := fun _ => none
  nobinpkgs := false

end OpenADK.Pkgmaker
