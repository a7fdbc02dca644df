import OpenADK.Pkgmaker.Menus
import Mathlib.Data.FinEnum

/-!
# The assignments of a Makefile

What the lines of a Makefile say about its dependency variables, and what the rules that read them
do. A line that is clean is read as the assignment it is.
-/

namespace OpenADK.Pkgmaker
open CString

deriving instance DecidableEq for Rule

/-! ### What a Makefile says -/

def tab : UInt8 := 9
def blanks : Bytes := [chr ' ', tab]

/-- `NAME:=value` or `NAME+=value`. -/
structure Assignment where
  name : Bytes
  appends : Bool
  value : Bytes

/-- The assignment of a line. Blanks around the name do not belong to it. -/
def assignment (line : Bytes) : Option Assignment :=
  let rest := line.dropWhile (· ∉ str ":+=")
  match tokens blanks (line.takeWhile (· ∉ str ":+=")) with
  | [name] =>
    if str ":=" <+: rest then some ⟨name, false, rest.drop 2⟩
    else if str "+=" <+: rest then some ⟨name, true, rest.drop 2⟩
    else none
  | _ => none

def Package.lines (p : Package) : List Bytes := p.dir.makefile.splitOn newline

def assignStep (name : Bytes) (given : List Bytes) (line : Bytes) : List Bytes :=
  match assignment line with
  | none => given
  | some a =>
    if a.name = name then
      (if a.appends then given else []) ++ tokens (str " ") (a.value.dropWhile (· ∈ blanks))
    else given

def given (name : Bytes) (lines : List Bytes) : List Bytes := lines.foldl (assignStep name) []

/-- For a variable that declares flavours or choices: the variables with the dependencies of
these, and the package. -/
def declares (name : Bytes) : Option (Bytes × Bytes) :=
  if str "PKG_FLAVOURS_STRING_" <+: name then some (str "PKGFS_", name.drop 20)
  else if str "PKG_FLAVOURS_" <+: name then some (str "PKGFS_", name.drop 13)
  else if str "PKG_CHOICES_" <+: name then some (str "PKGCS_", name.drop 12)
  else none

/-! ### Which rule reads a line -/

def Rule.names (name : Bytes) : Rule → Bool
  | .var varname _ _ => name = varname
  | .varWith varname _ _ _ => varname <+: name
  | .varHash varname => varname <+: name

def Rule.takes (buf : Bytes) : Rule → Bool
  | .var varname _ _ => (strstr (snprintf (varname ++ str ":=")) buf).isSome ||
      (strstr (snprintf (varname ++ str "+=")) buf).isSome
  | .varWith varname _ _ _ => (strstr varname buf).isSome
  | .varHash varname => (strstr varname buf).isSome

/-- The rules that do not look at the name of the package. -/
def fixedRules : List Rule := (rules []).take 1 ++ (rules []).drop 3

/-- The rules for the dependencies and for what they belong to. -/
def dependRules : List Rule :=
  [.var (str "PKG_DEPENDS") .depends true, .var (str "PKG_SUBPKGS") .subpkgs true,
    .varWith (str "PKG_FLAVOURS_STRING_") .flavoursString .pkgname 20,
    .varWith (str "PKG_FLAVOURS_") .flavours .pkgname 13,
    .varWith (str "PKG_CHOICES_") .choices .pkgname 12,
    .varHash (str "PKGFS_"), .varHash (str "PKGCS_"), .varHash (str "PKGSS_"),
    .varHash (str "PKGSN_")]

def reader (buf : Bytes) : Option Rule :=
  if str "PKG" <+: buf then fixedRules.find? (Rule.takes buf) else none

def lineRule (line : Bytes) : Option Rule :=
  (assignment line).bind fun a => fixedRules.find? (Rule.names a.name)

/-- The variable that is read; a line of the map has none. -/
def Rule.target : Rule → List Var
  | .var _ x _ => [x]
  | .varWith _ x _ _ => [x]
  | .varHash _ => []

def isDepend (rule : Option Rule) : Bool := rule.any (· ∈ dependRules)

def dependLines (lines : List Bytes) : List Bytes := lines.filter fun l => isDepend (lineRule l)

/-- A line is read as it is written: by its own rule, and up to its end. -/
structure Clean (line : Bytes) (a : Assignment) : Prop where
  written : line = a.name ++ (str (if a.appends then "+=" else ":=") ++ a.value)
  alone : reader (line ++ [newline]) = lineRule line
  others : strstr (str "PKG_CFLINE_") (line ++ [newline]) = none ∧
    strstr (str "PKG_DFLT_") (line ++ [newline]) = none
  plain : chr '=' ∉ a.value ∧ tab ∉ a.value.dropWhile (· = tab)
  /-- A value of the map is not appended to, and has to fit into a buffer. -/
  hash : ∀ rule ∈ lineRule line, rule.target = [] →
    a.appends = false ∧ (a.value.dropWhile (· = tab)).length < maxValue

instance (line : Bytes) (a : Assignment) : Decidable (Clean line a) :=
  decidable_of_iff
    (line = a.name ++ (str (if a.appends then "+=" else ":=") ++ a.value) ∧
      reader (line ++ [newline]) = lineRule line ∧
      (strstr (str "PKG_CFLINE_") (line ++ [newline]) = none ∧
        strstr (str "PKG_DFLT_") (line ++ [newline]) = none) ∧
      (chr '=' ∉ a.value ∧ tab ∉ a.value.dropWhile (· = tab)) ∧
      ∀ rule ∈ lineRule line, rule.target = [] →
        a.appends = false ∧ (a.value.dropWhile (· = tab)).length < maxValue)
    ⟨fun ⟨h1, h2, h3, h4, h5⟩ => ⟨h1, h2, h3, h4, h5⟩,
      fun h => ⟨h.written, h.alone, h.others, h.plain, h.hash⟩⟩

/-! ### Reading a clean line -/

section
variable {line buf name nameU : Bytes} {a : Assignment} {rule rule' : Rule} {r r' : Reading}

def cut (value : Bytes) : Option Bytes := (strtok (str "=\t") value).map Prod.fst

/-- A value without an inner tab and without `=` is read whole. -/
theorem cut_of_plain {value : Bytes} (heq : chr '=' ∉ value)
    (htab : tab ∉ value.dropWhile (· = tab)) :
    cut value = if value.dropWhile (· = tab) = [] then none
      else some (value.dropWhile (· = tab)) := by
  have hsplit := List.takeWhile_append_dropWhile (p := (· = tab)) (l := value)
  have htabs : ∀ c ∈ value.takeWhile (· = tab), c ∈ str "=\t" := fun c hc => by
    have hc : c = tab := by simpa using List.mem_takeWhile_imp hc
    exact hc ▸ by decide
  have hfree : ∀ c ∈ value.dropWhile (· = tab), c ∉ str "=\t" := fun c hc hin => by
    have hin : c ∈ [chr '=', tab] := (by decide : str "=\t" ⊆ [chr '=', tab]) hin
    have hin : c = chr '=' ∨ c = tab := by simpa using hin
    rcases hin with rfl | rfl
    · exact heq ((List.dropWhile_suffix _).subset hc)
    · exact htab hc
  rw [cut, ← hsplit, strtok_append_left htabs]
  rw [hsplit]
  split
  case isTrue hnil => rw [hnil]; rfl
  case isFalse hne => rw [(strtok_of_not_mem hne hfree (by decide : tab ∈ str "=\t") []).2]; rfl

/-- Without a tab only spaces are between the tokens. -/
theorem tokens_blanks {s : Bytes} (h : tab ∉ s) : tokens blanks s = tokens (str " ") s := by
  let f : UInt8 → UInt8 := fun c => if c = tab then chr ' ' else c
  have hfix : ∀ u : Bytes, tab ∉ u → u.map f = u := fun u hu => by
    refine (List.map_congr_left fun c hc => ?_).trans (List.map_id u)
    have hne : c ≠ tab := fun heq => hu (heq ▸ hc)
    exact if_neg hne
  have hmap : tokens (str " ") (s.map f) = (tokens blanks s).map (List.map f) := by
    refine tokens_map (fun c => ?_) s
    have hspace : str " " = [chr ' '] := rfl
    rw [hspace, blanks, List.mem_singleton, List.mem_cons, List.mem_singleton]
    by_cases hc : c = tab
    · simp [f, hc]
    · simp [f, hc]
  rw [hfix s h] at hmap
  rw [hmap]
  refine ((List.map_congr_left fun tok htok => ?_).trans (List.map_id _)).symm
  exact hfix tok fun htab => h (subset_of_mem_tokens htok htab)

theorem name_of_assignment (h : assignment line = some a) :
    a.name ≠ [] ∧ ∀ c ∈ a.name, c ∉ str ":+=" := by
  unfold assignment at h
  dsimp only at h
  split at h
  case h_2 => cases h
  case h_1 name htok =>
    have hmem : name ∈ tokens blanks (line.takeWhile (· ∉ str ":+=")) := by
      rw [htok]
      exact List.mem_singleton_self name
    have hname : name ≠ [] ∧ ∀ c ∈ name, c ∉ str ":+=" :=
      ⟨ne_nil_of_mem_tokens hmem, fun c hc => by
        simpa using List.mem_takeWhile_imp (subset_of_mem_tokens hmem hc)⟩
    split at h
    · cases h
      exact hname
    · split at h <;> cases h
      exact hname

theorem keyValue_eq {delims value : Bytes} {c : UInt8} (hne : name ≠ [])
    (hname : ∀ b ∈ name, b ∉ delims) (hc : c ∈ delims) :
    keyValue delims (name ++ c :: chr '=' :: value ++ [newline]) = (name, cut value) := by
  have hskip : strtok (str "=\t") ([chr '='] ++ value) = strtok (str "=\t") value :=
    strtok_append_left (by decide +kernel) value
  rw [keyValue, List.dropLast_concat, (strtok_of_not_mem hne hname hc _).1]
  exact congrArg (Prod.mk name) (congrArg (Option.map Prod.fst) hskip)

/-- What a rule does with an assignment of its variable. -/
def Rule.assign (a : Assignment) (r : Reading) : Rule → Reading
  | .var _ x _ =>
    if a.appends then r.set x (some (Reading.append (r.vars x) (cut a.value)))
    else match cut a.value with
      | some value => r.set x (some value)
      | none => { r.set x none with nobinpkgs := true }
  | .varWith _ x y varlen =>
    if a.appends then r.set x (some (Reading.append (r.vars x) (cut a.value)))
    else
      let r := r.set y (some (a.name.drop varlen))
      match cut a.value with
      | some value => r.set x (some value)
      | none => r
  | .varHash _ =>
    match cut a.value with
    | some value => { r with pkgmap := r.pkgmap.put a.name value }
    | none => r

/-- The dependency variables are short, and may be appended to. -/
theorem of_mem_dependRules {varname : Bytes} {x : Var} {appends : Bool}
    (h : Rule.var varname x appends ∈ dependRules) :
    appends = true ∧ (∀ op ∈ [str ":=", str "+="], snprintf (varname ++ op) = varname ++ op) := by
  simp only [dependRules, List.mem_cons, Rule.var.injEq, reduceCtorEq, List.not_mem_nil,
    or_false] at h
  obtain ⟨rfl, -, rfl⟩ | ⟨rfl, -, rfl⟩ := h <;> exact ⟨rfl, by decide⟩

theorem Clean.parse (h : Clean line a) (ha : assignment line = some a)
    (hvar : ∀ varname x appends, rule = .var varname x appends → rule ∈ dependRules)
    (hnames : rule.names a.name)
    (hhash : ∀ varname, rule = .varHash varname → a.appends = false) :
    rule.parse (line ++ [newline]) r = some (rule.assign a r) := by
  obtain ⟨hne, hchars⟩ := name_of_assignment ha
  have hcolon : ∀ c ∈ a.name, c ∉ str ":=" := fun c hc hin =>
    hchars c hc ((by decide : str ":=" ⊆ str ":+=") hin)
  have hplus : ∀ c ∈ a.name, c ∉ str "+=" := fun c hc hin =>
    hchars c hc ((by decide : str "+=" ⊆ str ":+=") hin)
  have hset (hop : a.appends = false) :
      line ++ [newline] = a.name ++ chr ':' :: chr '=' :: a.value ++ [newline] := by
    rw [h.written, hop]
    rfl
  have happend (hop : a.appends = true) :
      line ++ [newline] = a.name ++ chr '+' :: chr '=' :: a.value ++ [newline] := by
    rw [h.written, hop]
    rfl
  have hkset (hop : a.appends = false) :
      keyValue (str ":=") (line ++ [newline]) = (a.name, cut a.value) := by
    rw [hset hop]
    exact keyValue_eq hne hcolon (by decide)
  have hkappend (hop : a.appends = true) :
      keyValue (str "+=") (line ++ [newline]) = (a.name, cut a.value) := by
    rw [happend hop]
    exact keyValue_eq hne hplus (by decide)
  -- an appended line holds no `:=`
  have hnone (hop : a.appends = true) (n : Bytes) :
      strstr (n ++ str ":=") (line ++ [newline]) = none := by
    have hname : chr '=' ∉ a.name := fun hin => hchars _ hin (by decide)
    have hvalue : chr '=' ∉ a.value ++ [newline] := by
      rw [List.mem_append, not_or]
      exact ⟨h.plain.1, by decide⟩
    rw [happend hop, List.append_assoc]
    exact strstr_eq_none hname hvalue (by decide) (by decide)
  cases rule with
  | var varname x appends =>
    obtain ⟨rfl, hshort⟩ := of_mem_dependRules (hvar _ _ _ rfl)
    obtain rfl : a.name = varname := by simpa [Rule.names] using hnames
    simp only [Rule.parse, Reading.parseVar, Rule.assign, hshort _ List.mem_cons_self,
      hshort _ (List.mem_cons_of_mem _ List.mem_cons_self)]
    cases hop : a.appends with
    | false =>
      have hfound : strstr (a.name ++ str ":=") (line ++ [newline]) = some (line ++ [newline]) := by
        refine strstr_of_prefix ⟨a.value ++ [newline], ?_⟩
        rw [hset hop]
        simp [str]
      simp only [hfound, hkset hop]
      cases cut a.value <;> rfl
    | true =>
      have hfound : strstr (a.name ++ str "+=") (line ++ [newline]) = some (line ++ [newline]) := by
        refine strstr_of_prefix ⟨a.value ++ [newline], ?_⟩
        rw [happend hop]
        simp [str]
      simp only [hnone hop, hfound, hkappend hop]
      rfl
  | varWith varname x y varlen =>
    have hpre : varname <+: line ++ [newline] := by
      have hname : varname <+: a.name := by simpa [Rule.names] using hnames
      rw [h.written, List.append_assoc]
      exact hname.trans (List.prefix_append _ _)
    simp only [Rule.parse, Reading.parseVarWith, Rule.assign, strstr_of_prefix hpre]
    cases hop : a.appends with
    | false =>
      have hsome : (strstr (str ":=") (line ++ [newline])).isSome := by
        rw [hset hop, List.append_assoc]
        exact isSome_strstr _ ⟨a.value ++ [newline], rfl⟩
      simp only [hsome, hkset hop, if_true]
      cases cut a.value <;> rfl
    | true =>
      have hfail := hnone hop []
      rw [List.nil_append] at hfail
      simp only [hfail, hkappend hop]
      rfl
  | varHash varname =>
    have hop := hhash varname rfl
    have hpre : varname <+: line ++ [newline] := by
      have hname : varname <+: a.name := by simpa [Rule.names] using hnames
      rw [h.written, List.append_assoc]
      exact hname.trans (List.prefix_append _ _)
    simp only [Rule.parse, Reading.parseVarHash, Rule.assign, strstr_of_prefix hpre, hkset hop]
    cases cut a.value <;> rfl

/-! ### The rule that is used -/

theorem parse_isSome : (rule.parse buf r).isSome = rule.takes buf := by
  cases rule with
  | var varname x appends =>
    simp only [Rule.parse, Reading.parseVar, Rule.takes]
    cases strstr (snprintf (varname ++ str ":=")) buf with
    | none => cases strstr (snprintf (varname ++ str "+=")) buf <;> rfl
    | some string => cases h : (keyValue (str ":=") string).2 <;> simp [h]
  | varWith varname x y varlen =>
    simp only [Rule.parse, Reading.parseVarWith, Rule.takes]
    cases strstr varname buf with
    | none => rfl
    | some string =>
      cases (strstr (str ":=") buf).isSome with
      | false => rfl
      | true => cases h : (keyValue (str ":=") string).2 <;> simp [h]
  | varHash varname =>
    simp only [Rule.parse, Reading.parseVarHash, Rule.takes]
    cases strstr varname buf with
    | none => rfl
    | some string => cases h : (keyValue (str ":=") string).2 <;> simp [h]

theorem findSome?_parse (rs : List Rule) :
    rs.findSome? (Rule.parse buf r) = (rs.find? (Rule.takes buf)).bind (Rule.parse buf r) := by
  induction rs with
  | nil => rfl
  | cons rule rs ih =>
    rw [List.findSome?_cons, List.find?_cons, ← parse_isSome (r := r)]
    cases h : rule.parse buf r with
    | none => exact ih
    | some r' => exact h.symm

/-- The two rules with the name of the package are tried after the first one. -/
theorem rules_eq (nameU : Bytes) : rules nameU = fixedRules.take 1 ++
    .var (snprintf (str "PKG_CFLINE_" ++ nameU)) .cfline true ::
      .var (snprintf (str "PKG_DFLT_" ++ nameU)) .dflt false :: fixedRules.drop 1 := rfl

theorem find?_rules (h : (rules nameU).find? (Rule.takes buf) = some rule) :
    rule = .var (snprintf (str "PKG_CFLINE_" ++ nameU)) .cfline true ∨
      rule = .var (snprintf (str "PKG_DFLT_" ++ nameU)) .dflt false ∨
      fixedRules.find? (Rule.takes buf) = some rule := by
  rw [rules_eq, List.find?_append] at h
  rw [← List.take_append_drop 1 fixedRules, List.find?_append]
  cases hfirst : (fixedRules.take 1).find? (Rule.takes buf) with
  | some rule' => exact .inr (.inr (by rwa [hfirst] at h))
  | none =>
    rw [hfirst, Option.none_or, List.find?_cons] at h
    split at h
    · exact .inl (Option.some.inj h).symm
    · rw [List.find?_cons] at h
      split at h
      · exact .inr (.inl (Option.some.inj h).symm)
      · exact .inr (.inr h)

/-- A long name is cut, but not the beginning. -/
theorem snprintf_append {n : Bytes} (h : n.length ≤ 63) (nameU op : Bytes) :
    ∃ rest, snprintf (snprintf (n ++ nameU) ++ op) = n ++ rest := by
  refine ⟨(nameU.take (63 - n.length) ++ op).take (63 - n.length), ?_⟩
  change ((n ++ nameU).take 63 ++ op).take 63 = _
  rw [@List.take_append _ n nameU, List.take_of_length_le h, List.append_assoc,
    @List.take_append _ n, List.take_of_length_le h]

theorem takes_eq_false {n : Bytes} {x : Var} {appends : Bool} (hlen : n.length ≤ 63)
    (h : strstr n buf = none) :
    Rule.takes buf (.var (snprintf (n ++ nameU)) x appends) = false := by
  obtain ⟨u, hu⟩ := snprintf_append hlen nameU (str ":=")
  obtain ⟨w, hw⟩ := snprintf_append hlen nameU (str "+=")
  rw [Rule.takes, hu, hw, strstr_append_eq_none h, strstr_append_eq_none h]
  rfl

/-- On other lines the name of the package does not matter. -/
theorem find?_rules_eq (nameU : Bytes) (hcfline : strstr (str "PKG_CFLINE_") buf = none)
    (hdflt : strstr (str "PKG_DFLT_") buf = none) :
    (rules nameU).find? (Rule.takes buf) = fixedRules.find? (Rule.takes buf) := by
  rw [rules_eq, List.find?_append,
    List.find?_cons_of_neg (by rw [takes_eq_false (by decide) hcfline]; exact Bool.false_ne_true),
    List.find?_cons_of_neg (by rw [takes_eq_false (by decide) hdflt]; exact Bool.false_ne_true),
    ← List.find?_append, List.take_append_drop]

theorem Clean.readLine (h : Clean line a) (ha : assignment line = some a)
    (hrule : lineRule line = some rule)
    (hvar : ∀ varname x appends, rule = .var varname x appends → rule ∈ dependRules)
    (dname : Bytes) : readLine dname r (line ++ [newline]) = rule.assign a r := by
  have hread : reader (line ++ [newline]) = some rule := h.alone.trans hrule
  have hnames : fixedRules.find? (Rule.names a.name) = some rule := by
    rwa [lineRule, ha] at hrule
  unfold reader at hread
  split at hread
  case isFalse => cases hread
  case isTrue hpkg =>
    rw [Pkgmaker.readLine, if_pos hpkg, findSome?_parse,
      (find?_rules_eq _ h.others.1 h.others.2).trans hread, Option.bind_some,
      h.parse ha hvar (List.find?_some hnames) fun varname hvar =>
        (h.hash rule hrule (hvar ▸ rfl)).1]
    rfl

/-! ### The map -/

theorem lookup_map_put (map : StrMap) (key value k : Bytes) :
    (map.map fun p => if p.1 = key then (key, value) else p).lookup k =
      if k = key ∧ key ∈ map.map Prod.fst then some value else map.lookup k := by
  induction map with
  | nil => simp
  | cons p map ih =>
    obtain ⟨key', value'⟩ := p
    simp only [List.map_cons, List.mem_cons, List.lookup_cons]
    by_cases hkey : key' = key
    · subst hkey
      rw [if_pos rfl, List.lookup_cons, ih]
      by_cases hk : k = key'
      · simp [hk]
      · simp [hk, beq_eq_false_iff_ne.mpr hk]
    · rw [if_neg hkey, List.lookup_cons, ih]
      by_cases hk : k = key'
      · simp [hk, hkey]
      · rw [beq_eq_false_iff_ne.mpr hk]
        simp only [Ne.symm hkey, false_or]

theorem StrMap.lookup_put (map : StrMap) (key value k : Bytes) :
    (map.put key value).lookup k = if k = key then some value else map.lookup k := by
  unfold StrMap.put
  split
  case isTrue hmem => rw [lookup_map_put]; simp only [hmem, and_true]
  case isFalse hmem =>
    rw [List.lookup_append, List.lookup_cons]
    by_cases hk : k = key
    · subst hk
      have hnone : map.lookup k = none := by
        rw [List.lookup_eq_none_iff]
        exact fun p hp => by
          simpa using fun heq : k = p.1 => hmem (heq ▸ List.mem_map_of_mem hp)
      simp [hnone]
    · simp [hk, beq_eq_false_iff_ne.mpr hk]

/-! ### What a piece writes -/

/-- What the lines of a variable are read into: a variable, or what is under a key of the map. -/
inductive Cell
  | var (x : Var)
  | key (k : Bytes)

def Cell.get (r : Reading) : Cell → Option Bytes
  | .var x => r.vars x
  | .key k => r.pkgmap.lookup k

def Rule.sets : Rule → List Var
  | .var _ x _ => [x]
  | .varWith _ x y _ => [x, y]
  | .varHash _ => []

/-- A rule that reads a piece may write into a cell. -/
def Rule.writes (buf : Bytes) : Cell → Rule → Bool
  | .var x, rule => x ∈ rule.sets
  | .key k, .varHash n => (strstr n buf).any fun string => (keyValue (str ":=") string).1 = k
  | .key _, _ => false

def Cell.read (c : Cell) (buf : Bytes) : Bool := (reader buf).any (Rule.writes buf c)

theorem Cell.get_parse {c : Cell} (h : rule.writes buf c = false)
    (hs : rule.parse buf r = some r') : c.get r' = c.get r := by
  cases c with
  | var z =>
    have hz : z ∉ rule.sets := by simpa [Rule.writes] using h
    change r'.vars z = r.vars z
    cases rule with
    | var varname x appends =>
      have hx : z ≠ x := by simpa [Rule.sets] using hz
      simp only [Rule.parse, Reading.parseVar] at hs
      split at hs
      · split at hs <;> cases hs <;> exact Reading.set_vars_of_ne _ hx _
      · split at hs <;> cases hs
        exact Reading.set_vars_of_ne _ hx _
    | varWith varname x y varlen =>
      obtain ⟨hx, hy⟩ : z ≠ x ∧ z ≠ y := by simpa [Rule.sets] using hz
      simp only [Rule.parse, Reading.parseVarWith] at hs
      split at hs
      · cases hs
      · split at hs
        · split at hs <;> cases hs
          · exact (Reading.set_vars_of_ne _ hx _).trans (Reading.set_vars_of_ne _ hy _)
          · exact Reading.set_vars_of_ne _ hy _
        · cases hs
          exact Reading.set_vars_of_ne _ hx _
    | varHash n =>
      simp only [Rule.parse, Reading.parseVarHash] at hs
      split at hs
      · cases hs
      · split at hs <;> cases hs <;> rfl
  | key k =>
    change r'.pkgmap.lookup k = r.pkgmap.lookup k
    cases rule with
    | var varname x appends =>
      simp only [Rule.parse, Reading.parseVar] at hs
      split at hs
      · split at hs <;> cases hs <;> rfl
      · split at hs <;> cases hs
        rfl
    | varWith varname x y varlen =>
      simp only [Rule.parse, Reading.parseVarWith] at hs
      split at hs
      · cases hs
      · split at hs
        · split at hs <;> cases hs <;> rfl
        · cases hs
          rfl
    | varHash n =>
      simp only [Rule.parse, Reading.parseVarHash] at hs
      split at hs
      · cases hs
      next string hstr =>
        have hkey : (keyValue (str ":=") string).1 ≠ k := by
          simpa [Rule.writes, hstr] using h
        split at hs <;> cases hs
        · rw [StrMap.lookup_put, if_neg hkey.symm]
        · rfl

/-- A piece that is not read into a cell leaves it. -/
theorem Cell.get_readLine {c : Cell} (hcfline : c ≠ .var .cfline) (hdflt : c ≠ .var .dflt)
    (h : c.read buf = false) (dname : Bytes) : c.get (readLine dname r buf) = c.get r := by
  have hone {x : Var} (hx : c ≠ .var x) (varname : Bytes) (appends : Bool) :
      (Rule.var varname x appends).writes buf c = false := by
    cases c with
    | var z => simpa [Rule.writes, Rule.sets] using fun heq : z = x => hx (heq ▸ rfl)
    | key k => rfl
  unfold Pkgmaker.readLine
  split
  case isFalse => rfl
  case isTrue hpkg =>
    rw [findSome?_parse]
    cases hfind : (rules (toupperstr ((r.vars .name).getD dname))).find? (Rule.takes buf) with
    | none => rfl
    | some rule =>
      have hwrites : rule.writes buf c = false := by
        rcases find?_rules hfind with rfl | rfl | hfixed
        · exact hone hcfline _ _
        · exact hone hdflt _ _
        · rwa [Cell.read, reader, if_pos hpkg, hfixed, Option.any_some] at h
      rw [Option.bind_some]
      cases hparse : rule.parse buf r with
      | none => rfl
      | some r' => exact Cell.get_parse hwrites hparse

/-! ### The dependency variables -/

def dependVars : List Var := [.depends, .subpkgs, .flavoursString, .flavours, .choices, .pkgname]

def dependKeys : List Bytes := [str "PKGFS_", str "PKGCS_", str "PKGSS_", str "PKGSN_"]

/-- The cells of the dependency variables. -/
def Cell.depends : Cell → Bool
  | .var x => x ∈ dependVars
  | .key k => dependKeys.any (· <+: k)

/-! ### The rule of a variable -/

/-- The names of a rule do not begin with this. -/
def Rule.apart (n : Bytes) : Rule → Bool
  | .var varname _ _ => ¬n <+: varname
  | .varWith varname _ _ _ => ¬(n <+: varname ∨ varname <+: n)
  | .varHash varname => ¬(n <+: varname ∨ varname <+: n)

theorem names_eq_false {n : Bytes} (h : n <+: name) (hapart : rule.apart n) :
    rule.names name = false := by
  cases rule with
  | var varname x appends =>
    have hn : ¬n <+: varname := by simpa [Rule.apart] using hapart
    simpa [Rule.names] using fun heq : name = varname => hn (heq ▸ h)
  | varWith varname x y varlen =>
    obtain ⟨h1, h2⟩ : ¬n <+: varname ∧ ¬varname <+: n := by simpa [Rule.apart] using hapart
    simpa [Rule.names] using fun hpre : varname <+: name =>
      (List.prefix_or_prefix_of_prefix h hpre).elim h1 h2
  | varHash varname =>
    obtain ⟨h1, h2⟩ : ¬n <+: varname ∧ ¬varname <+: n := by simpa [Rule.apart] using hapart
    simpa [Rule.names] using fun hpre : varname <+: name =>
      (List.prefix_or_prefix_of_prefix h hpre).elim h1 h2

theorem find?_names (i : ℕ) (hrule : fixedRules[i]? = some rule)
    (hbefore : ∀ rule ∈ fixedRules.take i, rule.names name = false) (h : rule.names name) :
    fixedRules.find? (Rule.names name) = some rule := by
  obtain ⟨hi, heq⟩ := List.getElem?_eq_some_iff.mp hrule
  rw [← List.take_append_drop i fixedRules, List.find?_append,
    List.find?_eq_none.mpr fun r hr => by rw [hbefore r hr]; decide,
    List.drop_eq_getElem_cons hi, heq, List.find?_cons_of_pos h]
  rfl

/-- The rule of a variable of the map. -/
theorem find?_names_key {n : Bytes} (hn : n ∈ dependKeys) (key : Bytes) :
    fixedRules.find? (Rule.names (n ++ key)) = some (.varHash n) := by
  have hindex : ∀ n ∈ dependKeys, fixedRules[fixedRules.idxOf (.varHash n)]? = some (.varHash n) ∧
      ∀ rule ∈ fixedRules.take (fixedRules.idxOf (.varHash n)), rule.apart n := by decide
  obtain ⟨hrule, hapart⟩ := hindex n hn
  exact find?_names _ hrule (fun rule hmem => names_eq_false (List.prefix_append n key)
    (hapart rule hmem)) (by simp [Rule.names])

/-- The rules for what a package declares, and the dependencies of it. -/
def declareRules : List (Bytes × Var × Bytes) :=
  [(str "PKG_FLAVOURS_STRING_", .flavoursString, str "PKGFS_"),
    (str "PKG_FLAVOURS_", .flavours, str "PKGFS_"), (str "PKG_CHOICES_", .choices, str "PKGCS_")]

theorem declares_cases {d : Bytes × Bytes} (h : declares name = some d) :
    ∃ varname x, (varname, x, d.1) ∈ declareRules ∧ name = varname ++ d.2 ∧
      fixedRules.find? (Rule.names name) = some (.varWith varname x .pkgname varname.length) := by
  have hafter {n : Bytes} (hn : n <+: name) : name = n ++ name.drop n.length :=
    (List.prefix_iff_eq_append.mp hn).symm
  have hapart : (∀ rule ∈ fixedRules.take 16, rule.apart (str "PKG_FLAVOURS_STRING_")) ∧
      (∀ rule ∈ fixedRules.take 16, rule.apart (str "PKG_FLAVOURS_")) ∧
      (∀ rule ∈ fixedRules.take 22, rule.apart (str "PKG_CHOICES_")) := by decide
  unfold declares at h
  split at h
  case isTrue hpre =>
    cases h
    exact ⟨_, _, List.mem_cons_self, hafter hpre, find?_names 16 (by decide)
      (fun rule hrule => names_eq_false hpre (hapart.1 rule hrule))
      (by simpa [Rule.names] using hpre)⟩
  case isFalse hstring =>
    split at h
    case isTrue hpre =>
      cases h
      refine ⟨_, _, List.mem_cons_of_mem _ List.mem_cons_self, hafter hpre,
        find?_names 17 (by decide) (fun rule hrule => ?_) (by simpa [Rule.names] using hpre)⟩
      -- the rule for string flavours comes before
      have htake : fixedRules.take 17 = fixedRules.take 16 ++
          [.varWith (str "PKG_FLAVOURS_STRING_") .flavoursString .pkgname 20] := by decide
      rw [htake, List.mem_append, List.mem_singleton] at hrule
      rcases hrule with hrule | rfl
      · exact names_eq_false hpre (hapart.2.1 rule hrule)
      · simpa [Rule.names] using hstring
    case isFalse =>
      split at h
      case isTrue hpre =>
        cases h
        exact ⟨_, _, List.mem_cons_of_mem _ (List.mem_cons_of_mem _ List.mem_cons_self),
          hafter hpre, find?_names 22 (by decide)
          (fun rule hrule => names_eq_false hpre (hapart.2.2 rule hrule))
          (by simpa [Rule.names] using hpre)⟩
      case isFalse => cases h

theorem mem_dependRules {varname fam : Bytes} {x : Var} (h : (varname, x, fam) ∈ declareRules) :
    .varWith varname x .pkgname varname.length ∈ dependRules :=
  (by decide : ∀ p ∈ declareRules, .varWith p.1 p.2.1 .pkgname p.1.length ∈ dependRules) _ h

/-- A rule with a package reads the variables that declare something for it. -/
theorem declares_of_names {varname : Bytes} {x y : Var} {varlen : ℕ}
    (hmem : .varWith varname x y varlen ∈ dependRules) (h : varname <+: name) :
    ∃ d, declares name = some d := by
  have hcases : varname = str "PKG_FLAVOURS_STRING_" ∨ varname = str "PKG_FLAVOURS_" ∨
      varname = str "PKG_CHOICES_" := by
    simp only [dependRules, List.mem_cons, Rule.varWith.injEq, reduceCtorEq, List.not_mem_nil,
      or_false, false_or] at hmem
    exact hmem.imp And.left (Or.imp And.left And.left)
  unfold declares
  split
  case isTrue => exact ⟨_, rfl⟩
  case isFalse hstring =>
    split
    case isTrue => exact ⟨_, rfl⟩
    case isFalse hflavours =>
      rcases hcases with rfl | rfl | rfl
      · exact absurd h hstring
      · exact absurd h hflavours
      · exact ⟨_, if_pos h⟩

end

end OpenADK.Pkgmaker
