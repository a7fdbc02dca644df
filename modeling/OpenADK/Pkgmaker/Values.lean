import OpenADK.Pkgmaker.Depends

/-!
# The values of a Makefile

`parse_var` and `parse_var_hash` look for the value of a line behind its `=` and its tabs. A value
that holds one of these itself is cut, and an empty one is none at all.
-/

namespace OpenADK.Pkgmaker
open CString

/-! ### Lines as they are documented -/

/-- A line `NAME:=` with tabs and a value. -/
structure DocLine where
  name : Bytes
  tabs : ℕ
  value : Bytes
  named : name ≠ []
  plain : ∀ c ∈ name, c ∉ str ":=\n"
  oneLine : newline ∉ value
  behind : value.head? ≠ some tab

namespace DocLine
variable (l : DocLine)

def front : Bytes := l.name ++ (str ":=" ++ List.replicate l.tabs tab)

def text : Bytes := l.front ++ l.value

def piece : Bytes := ((fileLines (l.text ++ [newline])).head?).getD []

/-- `parse_var` records the value; `NULL` is an empty one. -/
def RecordsVar : Prop :=
  ∀ r x appends, ∃ r', Reading.parseVar r l.piece l.name x appends = some r' ∧
    (r'.vars x).getD [] = l.value

/-- `parse_var_hash`, called for the names that begin with `n`, records the value. -/
def RecordsHash (n : Bytes) : Prop :=
  ∀ r, ∃ r', Reading.parseVarHash r l.piece n = some r' ∧
    (r'.pkgmap.lookup l.name).getD [] = l.value

/-- The value holds no `=` and no tab, and the line fits into the buffer. -/
def Plain : Prop := chr '=' ∉ l.value ∧ tab ∉ l.value ∧ l.text.length ≤ maxPath - 2

instance : Decidable l.Plain := inferInstanceAs (Decidable (_ ∧ _))

end DocLine

/-! ### What is found in the piece -/

namespace DocLine
variable {l : DocLine} {n : Bytes}

theorem piece_eq (l : DocLine) : l.piece = (l.text ++ [newline]).take (maxPath - 1) := by
  have hfree : newline ∉ l.text := by
    have hname : newline ∉ l.name := fun h => l.plain _ h (by decide)
    have hop : newline ∉ str ":=" := by decide
    have htabs : newline ∉ List.replicate l.tabs tab := fun h =>
      absurd (List.eq_of_mem_replicate h) (by decide)
    simp only [text, front, List.mem_append, not_or]
    exact ⟨⟨hname, hop, htabs⟩, l.oneLine⟩
  have hhead := head?_readFrom (Nat.zero_le (maxPath - 2)) (List.concat_ne_nil newline l.text)
    (by rwa [List.dropLast_concat])
  rw [piece, fileLines, readLines, hhead]
  rfl

theorem dropLast_piece (l : DocLine) : l.piece.dropLast = l.text.take (maxPath - 2) := by
  rw [piece_eq, List.dropLast_take_eq_take_dropLast, List.dropLast_concat]
  rfl

def visible (l : DocLine) : Bytes := l.value.take (maxPath - 2 - l.front.length)

theorem keyValue_piece (l : DocLine) :
    keyValue (str ":=") l.piece = (l.name.take (maxPath - 2), cut l.visible) := by
  have hchars : ∀ c ∈ l.name, c ∉ str ":=" := fun c hc hin =>
    l.plain c hc ((by decide : str ":=" ⊆ str ":=\n") hin)
  have htext : l.text = l.name ++ chr ':' :: (chr '=' :: List.replicate l.tabs tab ++ l.value) := by
    simp [text, front, str]
  have hfront : l.front.length = l.name.length + (l.tabs + 2) := by
    simp [front, str]
  rw [keyValue, dropLast_piece, visible, hfront, htext]
  generalize maxPath - 2 = m
  by_cases hm : l.name.length < m
  · -- the name and its colon are in the piece
    have hrest : m - l.name.length = (m - l.name.length - 1) + 1 := by omega
    have hfree : ∀ c ∈ chr '=' :: List.replicate l.tabs tab, c ∈ str "=\t" := fun c hc => by
      rcases List.mem_cons.mp hc with rfl | hc
      · decide
      · exact List.eq_of_mem_replicate hc ▸ by decide
    have hlen : (chr '=' :: List.replicate l.tabs tab).length = l.tabs + 1 := by simp
    rw [List.take_append, List.take_of_length_le hm.le, hrest, List.take_succ_cons,
      (strtok_of_not_mem l.named hchars (by decide : chr ':' ∈ str ":=") _).1, List.take_append,
      hlen]
    dsimp only
    rw [strtok_append_left fun c hc => hfree c (List.mem_of_mem_take hc), cut]
    have hindex : m - l.name.length - 1 - (l.tabs + 1) = m - (l.name.length + (l.tabs + 2)) := by
      omega
    rw [hindex]
  · have hzero : m - (l.name.length + (l.tabs + 2)) = 0 := by omega
    rw [List.take_append_of_le_length (by omega), hzero, List.take_zero]
    have hcut : cut [] = none := rfl
    by_cases hnil : l.name.take m = []
    · rw [hnil, hcut]
      rfl
    · have hname := (strtok_of_not_mem hnil (fun c hc => hchars c (List.mem_of_mem_take hc))
        (by decide : chr ':' ∈ str ":=") []).2
      rw [hname, hcut]
      rfl

theorem cut_visible : (cut l.visible).getD [] = l.value ↔ l.value = [] ∨ l.Plain := by
  have hlen : l.text.length = l.front.length + l.value.length := List.length_append
  by_cases hnil : l.value = []
  · have hcut : cut [] = none := rfl
    rw [visible, hnil, List.take_nil, hcut]
    exact iff_of_true rfl (.inl rfl)
  · have hpos := List.length_pos_of_ne_nil hnil
    constructor
    · intro h
      cases hcall : strtok (str "=\t") l.visible with
      | none =>
        rw [cut, hcall] at h
        exact absurd h.symm hnil
      | some p =>
        obtain ⟨tok, rest⟩ := p
        rw [cut, hcall] at h
        obtain rfl : tok = l.value := h
        have hfree := (of_strtok hcall).1
        have hle := (length_of_strtok hcall).2
        rw [visible, List.length_take] at hle
        refine .inr ⟨fun hin => hfree _ hin (by decide), fun hin => hfree _ hin (by decide), ?_⟩
        omega
    · rintro (h | ⟨heq, htab, hfits⟩)
      · exact absurd h hnil
      · have hwhole : l.visible = l.value := List.take_of_length_le (by omega)
        have hfree : ∀ c ∈ l.value, c ∉ str "=\t" := fun c hc hin => by
          have hin : c ∈ [chr '=', tab] := (by decide : str "=\t" ⊆ [chr '=', tab]) hin
          rcases List.mem_cons.mp hin with rfl | hin
          · exact heq hc
          · exact htab (List.mem_singleton.mp hin ▸ hc)
        rw [hwhole, cut, (strtok_of_not_mem hnil hfree (by decide : tab ∈ str "=\t") []).2]
        rfl

/-- If anything of the value is in the piece, all of the name is. -/
theorem key_of_visible {value : Bytes} (h : cut l.visible = some value) :
    l.name.take (maxPath - 2) = l.name := by
  have hfront : l.front.length = l.name.length + (l.tabs + 2) := by
    simp [front, str]
  refine List.take_of_length_le (by_contra fun hlong => ?_)
  have hnil : l.visible = [] := by
    rw [visible, Nat.sub_eq_zero_of_le (by omega), List.take_zero]
  rw [hnil] at h
  cases h

theorem ne_nil_of_cut {value s : Bytes} (h : cut s = some value) : value ≠ [] := by
  obtain ⟨⟨tok, rest⟩, hcall, rfl⟩ := Option.map_eq_some_iff.mp h
  exact (length_of_strtok hcall).1

theorem prefix_piece {n : Bytes} (hn : n <+: l.front) (hlen : n.length ≤ maxPath - 1) :
    n <+: l.piece := by
  rw [piece_eq, List.prefix_take_iff]
  exact ⟨hn.trans ((List.prefix_append _ _).trans (List.prefix_append _ _)), hlen⟩

/-- A value is recorded by `parse_var` if it is plain. -/
theorem recordsVar_iff : l.RecordsVar ↔ l.value = [] ∨ l.Plain := by
  have hfound : strstr (snprintf (l.name ++ str ":=")) l.piece = some l.piece := by
    refine strstr_of_prefix (prefix_piece ?_ ?_)
    · apply (List.take_prefix _ _).trans
      rw [front, ← List.append_assoc]
      exact List.prefix_append _ _
    · rw [snprintf, List.length_take]
      exact (Nat.min_le_left _ _).trans (by decide)
  have hparse (r : Reading) (x : Var) (appends : Bool) :
      ∃ r', r.parseVar l.piece l.name x appends = some r' ∧
        (r'.vars x).getD [] = (cut l.visible).getD [] := by
    simp only [Reading.parseVar, hfound, keyValue_piece]
    cases cut l.visible with
    | none => exact ⟨_, rfl, by rw [Reading.set_vars]⟩
    | some value => exact ⟨_, rfl, by rw [Reading.set_vars]⟩
  rw [← cut_visible]
  constructor
  · intro h
    obtain ⟨r₁, h₁, hvalue⟩ := h ⟨fun _ => none, [], false⟩ .name false
    obtain ⟨r₂, h₂, heq⟩ := hparse ⟨fun _ => none, [], false⟩ .name false
    cases h₁.symm.trans h₂
    exact heq.symm.trans hvalue
  · intro h r x appends
    obtain ⟨r', hr, heq⟩ := hparse r x appends
    exact ⟨r', hr, heq.trans h⟩

/-- A value is recorded by `parse_var_hash` if it is plain and not empty. -/
theorem recordsHash_iff (hn : n <+: l.name) (hlen : n.length ≤ maxPath - 1) :
    l.RecordsHash n ↔ l.value ≠ [] ∧ l.Plain := by
  have hfound : strstr n l.piece = some l.piece :=
    strstr_of_prefix (prefix_piece (hn.trans (List.prefix_append _ _)) hlen)
  have hkept (r : Reading) (hcut : cut l.visible = none) :
      r.parseVarHash l.piece n = some r := by
    simp only [Reading.parseVarHash, hfound, keyValue_piece, hcut]
  have hput (r : Reading) {value : Bytes} (hcut : cut l.visible = some value) :
      r.parseVarHash l.piece n =
        some { r with pkgmap := r.pkgmap.put (l.name.take (maxPath - 2)) value } := by
    simp only [Reading.parseVarHash, hfound, keyValue_piece, hcut]
  constructor
  · intro h
    have hne : cut l.visible ≠ none := by
      intro hnone
      -- what the map has before is left
      obtain ⟨r₁, h₁, hempty⟩ := h ⟨fun _ => none, [], false⟩
      obtain ⟨r₂, h₂, hold⟩ := h ⟨fun _ => none, [(l.name, [tab])], false⟩
      rw [hkept _ hnone] at h₁ h₂
      cases h₁
      cases h₂
      rw [← hempty, List.lookup_cons_self] at hold
      cases hold
    obtain ⟨value, hvalue⟩ := Option.ne_none_iff_exists'.mp hne
    obtain ⟨r', hr, heq⟩ := h ⟨fun _ => none, [], false⟩
    rw [hput _ hvalue, key_of_visible hvalue] at hr
    cases hr
    rw [StrMap.lookup_put, if_pos rfl, Option.getD_some] at heq
    subst heq
    have hvne := ne_nil_of_cut hvalue
    have hcases := cut_visible.mp (congrArg (·.getD []) hvalue)
    exact ⟨hvne, hcases.resolve_left hvne⟩
  · rintro ⟨hne, hplain⟩ r
    have hget := cut_visible.mpr (.inr hplain)
    cases hvalue : cut l.visible with
    | none =>
      rw [hvalue] at hget
      exact absurd hget.symm hne
    | some value =>
      rw [hvalue, Option.getD_some] at hget
      refine ⟨_, by rw [hput _ hvalue, key_of_visible hvalue], ?_⟩
      rw [StrMap.lookup_put, if_pos rfl, Option.getD_some, hget]

end DocLine

/-! ### Packages without binary output -/

/-- `PKG_SUBPKGS` after one more line. -/
def subpkgsStep (value : Option Bytes) (line : Bytes) : Option Bytes :=
  if str "PKG_SUBPKGS:=" <+: line then some ((line.drop 13).dropWhile (· = tab))
  else if str "PKG_SUBPKGS+=" <+: line then
    some (Reading.append value (some ((line.drop 13).dropWhile (· = tab))))
  else value

/-- The value of `PKG_SUBPKGS`, if there is one. -/
def subpkgsValue (makefile : Bytes) : Option Bytes :=
  (makefile.splitOn newline).foldl subpkgsStep none

/-- The package is treated as having no binary packages if and only if `PKG_SUBPKGS` is empty. -/
def NobinRight (vars : Vars) (dir : Dir) : Prop :=
  (readMakefile vars dir).nobinpkgs = true ↔ subpkgsValue dir.makefile = some []

/-- The rule that reads the piece finds no value in it. -/
def emptied (dname : Bytes) (r : Reading) (buf : Bytes) : Bool :=
  str "PKG" <+: buf && ((rules (toupperstr ((r.vars .name).getD dname))).find?
    (Rule.takes buf)).any (Rule.empties buf)

section
variable {dname buf t : Bytes} {r : Reading} {pieces lines : List Bytes}

theorem nobinpkgs_readLine (dname : Bytes) (r : Reading) (buf : Bytes) :
    (readLine dname r buf).nobinpkgs = (r.nobinpkgs || emptied dname r buf) := by
  unfold Pkgmaker.readLine emptied
  by_cases hpkg : str "PKG" <+: buf
  · rw [if_pos hpkg, decide_eq_true hpkg, Bool.true_and, findSome?_parse]
    cases hfind : (rules (toupperstr ((r.vars .name).getD dname))).find? (Rule.takes buf) with
    | none => exact (Bool.or_false _).symm
    | some rule =>
      have htakes := List.find?_some hfind
      rw [← parse_isSome (r := r)] at htakes
      obtain ⟨r', hparse⟩ := Option.isSome_iff_exists.mp htakes
      rw [Option.bind_some, hparse]
      exact nobinpkgs_parse hparse
  · rw [if_neg hpkg, decide_eq_false hpkg, Bool.false_and, Bool.or_false]

/-- The flag is set by the lines that are emptied, and by nothing else. -/
theorem nobinpkgs_run (dname : Bytes) (pieces : List Bytes) (r : Reading) :
    (pieces.foldl (readLine dname) r).nobinpkgs = true ↔ r.nobinpkgs = true ∨
      ∃ before buf after, pieces = before ++ buf :: after ∧
        emptied dname (before.foldl (readLine dname) r) buf = true := by
  induction pieces using List.reverseRecOn with
  | nil => simp
  | append_singleton pieces buf ih =>
    rw [List.foldl_concat, nobinpkgs_readLine, Bool.or_eq_true, ih, or_assoc]
    refine or_congr_right ⟨?_, ?_⟩
    · rintro (⟨before, b, after, rfl, h⟩ | h)
      · exact ⟨before, b, after ++ [buf], by simp, h⟩
      · exact ⟨pieces, buf, [], rfl, h⟩
    · rintro ⟨before, b, after, heq, h⟩
      rcases List.eq_nil_or_concat after with rfl | ⟨after, c, rfl⟩
      · obtain ⟨rfl, hb⟩ := List.append_inj' heq rfl
        obtain rfl := (List.cons.inj hb).1
        exact .inr h
      · refine .inl ⟨before, b, after, ?_, h⟩
        rw [List.concat_eq_append, ← List.cons_append, ← List.append_assoc] at heq
        exact (List.append_inj' heq rfl).1

theorem exists_line_of_subpkgs {value : Option Bytes}
    (h : lines.foldl subpkgsStep value = some []) : value = some [] ∨
      ∃ w, str "PKG_SUBPKGS:=" ++ w ∈ lines ∧ ∀ c ∈ w, c = tab := by
  induction lines using List.reverseRecOn with
  | nil => exact .inl h
  | append_singleton lines line ih =>
    rw [List.foldl_concat, subpkgsStep] at h
    split at h
    case isTrue hpre =>
      obtain ⟨w, rfl⟩ := hpre
      refine .inr ⟨w, List.mem_append_right _ (List.mem_singleton_self _), fun c hc => ?_⟩
      have hnil := List.dropWhile_eq_nil_iff.mp (Option.some.inj h)
      simpa using hnil c hc
    case isFalse =>
      split at h
      case isTrue =>
        -- what is appended comes after a space
        have hmem : chr ' ' ∈ Reading.append (lines.foldl subpkgsStep value)
            (some ((line.drop 13).dropWhile (· = tab))) :=
          List.mem_append_left _ (List.mem_append_right _ List.mem_cons_self)
        rw [Option.some.inj h] at hmem
        cases hmem
      case isFalse =>
        rcases ih h with hvalue | ⟨w, hw, htabs⟩
        · exact .inl hvalue
        · exact .inr ⟨w, List.mem_append_left _ hw, htabs⟩

def Rule.needles : Rule → List Bytes
  | .var varname _ _ => [snprintf (varname ++ str ":="), snprintf (varname ++ str "+=")]
  | .varWith varname _ _ _ => [varname]
  | .varHash varname => [varname]

theorem takes_eq_false_of_needles {rule : Rule}
    (h : ∀ needle ∈ rule.needles, strstr needle buf = none) : rule.takes buf = false := by
  cases rule with
  | var varname x appends =>
    rw [Rule.takes, h _ List.mem_cons_self, h _ (List.mem_cons_of_mem _ List.mem_cons_self)]
    rfl
  | varWith varname x y varlen =>
    rw [Rule.takes, h _ List.mem_cons_self]
    rfl
  | varHash varname =>
    rw [Rule.takes, h _ List.mem_cons_self]
    rfl

/-- An empty `PKG_SUBPKGS` is read by its own rule. -/
theorem emptied_subpkgs (ht : ∀ c ∈ t, c = tab ∨ c = newline) (hlast : ∀ c ∈ t.dropLast, c = tab)
    (dname : Bytes) (r : Reading) : emptied dname r (str "PKG_SUBPKGS:=" ++ t) = true := by
  have hapart {needle : Bytes} (htab : tab ∉ needle) (hnl : newline ∉ needle)
      (h : strstr needle (str "PKG_SUBPKGS:=") = none) :
      strstr needle (str "PKG_SUBPKGS:=" ++ t) = none := by
    refine strstr_append_right_eq_none (fun c hc hin => ?_) h
    rcases ht c hc with rfl | rfl
    · exact htab hin
    · exact hnl hin
  have hneedles : ∀ rule ∈ fixedRules.take 25, ∀ needle ∈ rule.needles, tab ∉ needle ∧
      newline ∉ needle ∧ strstr needle (str "PKG_SUBPKGS:=") = none := by decide +kernel
  have hfound : strstr (snprintf (str "PKG_SUBPKGS" ++ str ":=")) (str "PKG_SUBPKGS:=" ++ t) =
      some (str "PKG_SUBPKGS:=" ++ t) := strstr_of_prefix ⟨t, rfl⟩
  have hsplit : fixedRules = fixedRules.take 25 ++
      .var (str "PKG_SUBPKGS") .subpkgs true :: fixedRules.drop 26 := rfl
  have hfixed : fixedRules.find? (Rule.takes (str "PKG_SUBPKGS:=" ++ t)) =
      some (.var (str "PKG_SUBPKGS") .subpkgs true) := by
    rw [hsplit, List.find?_append, List.find?_eq_none.mpr fun rule hrule => ?_, Option.none_or,
      List.find?_cons_of_pos (by rw [Rule.takes, hfound]; rfl)]
    rw [takes_eq_false_of_needles fun needle hneedle => ?_]
    · exact Bool.false_ne_true
    · obtain ⟨htab, hnl, h⟩ := hneedles rule hrule needle hneedle
      exact hapart htab hnl h
  have hvalue : (keyValue (str ":=") (str "PKG_SUBPKGS:=" ++ t)).2 = none := by
    by_cases hnil : t = []
    · subst hnil
      decide +kernel
    · have htext : str "PKG_SUBPKGS:=" ++ t.dropLast =
          str "PKG_SUBPKGS" ++ chr ':' :: (chr '=' :: t.dropLast) := rfl
      have hdelims : ∀ c ∈ chr '=' :: t.dropLast, c ∈ str "=\t" := fun c hc => by
        rcases List.mem_cons.mp hc with rfl | hc
        · decide
        · exact hlast c hc ▸ by decide
      have hnone : strtok (str "=\t") (chr '=' :: t.dropLast) = none := by
        rw [← List.append_nil (chr '=' :: t.dropLast), strtok_append_left hdelims]
        rfl
      rw [keyValue, List.dropLast_append_of_ne_nil hnil, htext,
        (strtok_of_not_mem (by decide) (by decide +kernel) (by decide : chr ':' ∈ str ":=") _).1]
      dsimp only
      rw [hnone]
      rfl
  rw [emptied, find?_rules_eq _ (hapart (by decide) (by decide) (by decide +kernel))
    (hapart (by decide) (by decide) (by decide +kernel)), hfixed, Option.any_some, Rule.empties,
    hfound, Option.any_some, hvalue]
  have hpkg : str "PKG" <+: str "PKG_SUBPKGS:=" ++ t := ⟨str "_SUBPKGS:=" ++ t, rfl⟩
  rw [decide_eq_true hpkg]
  rfl

/-- The pieces of an empty `PKG_SUBPKGS` line are emptied whatever has been read before. -/
theorem nobinpkgs_of_subpkgs {makefile : Bytes} (h : subpkgsValue makefile = some [])
    (dname : Bytes) (r : Reading) :
    ((fileLines makefile).foldl (readLine dname) r).nobinpkgs = true := by
  rcases exists_line_of_subpkgs h with hnone | ⟨w, hw, htabs⟩
  · cases hnone
  obtain ⟨buf, hbuf, hcases⟩ := exists_piece_of_mem_splitOn (n := maxPath - 2) hw
    (List.append_ne_nil_of_left_ne_nil (by decide) w)
  have hlong : (str "PKG_SUBPKGS:=").length ≤ maxPath - 2 + 1 := by decide
  have hpiece : ∃ t, buf = str "PKG_SUBPKGS:=" ++ t ∧ (∀ c ∈ t, c = tab ∨ c = newline) ∧
      ∀ c ∈ t.dropLast, c = tab := by
    rcases hcases with rfl | rfl
    · refine ⟨(w ++ [newline]).take (maxPath - 2 + 1 - 13), ?_, fun c hc => ?_, fun c hc => ?_⟩
      · rw [List.append_assoc, List.take_append, List.take_of_length_le hlong]
        rfl
      · rcases List.mem_append.mp (List.mem_of_mem_take hc) with hc | hc
        · exact .inl (htabs c hc)
        · exact .inr (List.mem_singleton.mp hc)
      · rw [List.dropLast_take_eq_take_dropLast, List.dropLast_concat] at hc
        exact htabs c (List.mem_of_mem_take hc)
    · refine ⟨w.take (maxPath - 2 + 1 - 13), ?_, fun c hc => ?_, fun c hc => ?_⟩
      · rw [List.take_append, List.take_of_length_le hlong]
        rfl
      · exact .inl (htabs c (List.mem_of_mem_take hc))
      · exact htabs c (List.mem_of_mem_take (List.mem_of_mem_dropLast hc))
  obtain ⟨t, rfl, ht, hlast⟩ := hpiece
  obtain ⟨before, after, heq⟩ := List.append_of_mem hbuf
  rw [nobinpkgs_run]
  exact .inr ⟨before, _, after, heq, emptied_subpkgs ht hlast dname _⟩

/-- The flag is right when the subpackages are empty, or no variable is. -/
theorem nobinRight_iff (vars : Vars) (dir : Dir) : NobinRight vars dir ↔
    subpkgsValue dir.makefile = some [] ∨
      ∀ before buf after, fileLines dir.makefile = before ++ buf :: after →
        emptied dir.name (before.foldl (readLine dir.name) ⟨vars, [], false⟩) buf = false := by
  have hrun := nobinpkgs_run dir.name (fileLines dir.makefile) ⟨vars, [], false⟩
  rw [NobinRight, readMakefile]
  constructor
  · intro h
    by_contra hbad
    obtain ⟨hvalue, hall⟩ := not_or.mp hbad
    push Not at hall
    obtain ⟨before, buf, after, heq, hempty⟩ := hall
    exact hvalue (h.mp (hrun.mpr (.inr ⟨before, buf, after, heq, by simpa using hempty⟩)))
  · rintro (hvalue | hall)
    · exact iff_of_true (nobinpkgs_of_subpkgs hvalue _ _) hvalue
    · refine ⟨fun h => ?_, fun h => nobinpkgs_of_subpkgs h _ _⟩
      rcases hrun.mp h with h | ⟨before, buf, after, heq, h⟩
      · cases h
      · rw [hall before buf after heq] at h
        cases h

end

/-- When the value of a documented line is recorded, and when the flag of a Makefile is right. -/
theorem values_iff (l : DocLine) (vars : Vars) (dir : Dir) :
    (l.RecordsVar ↔ l.value = [] ∨ l.Plain) ∧
    (∀ n, .varHash n ∈ fixedRules → n <+: l.name →
      (l.RecordsHash n ↔ l.value ≠ [] ∧ l.Plain)) ∧
    (NobinRight vars dir ↔ subpkgsValue dir.makefile = some [] ∨
      ∀ before buf after, fileLines dir.makefile = before ++ buf :: after →
        emptied dir.name (before.foldl (readLine dir.name) ⟨vars, [], false⟩) buf = false) := by
  refine ⟨DocLine.recordsVar_iff, fun n hmem hn => ?_, nobinRight_iff vars dir⟩
  have hlen : ∀ rule ∈ fixedRules, ∀ needle ∈ rule.needles, needle.length ≤ maxPath - 1 := by
    decide +kernel
  exact DocLine.recordsHash_iff hn (hlen _ hmem n (List.mem_singleton_self n))

/-- `PKGFD_SSL:=` with a tab and a description. -/
def flavourLine : DocLine where
  name := str "PKGFD_SSL"
  tabs := 1
  value := str "enable SSL"
  named := by decide
  plain := by decide +kernel
  oneLine := by decide +kernel
  behind := by decide

theorem recordsHash_flavourLine : flavourLine.RecordsHash (str "PKGFD_") :=
  ((values_iff flavourLine (fun _ => none) ⟨str "a", [], false⟩).2.1 (str "PKGFD_")
    (by decide +kernel) (by decide +kernel)).mpr (by decide +kernel)

/-- A value with a `=`. -/
def urlLine : DocLine where
  name := str "PKG_URL"
  tabs := 2
  value := str "a:b/?p=c"
  named := by decide
  plain := by decide +kernel
  oneLine := by decide +kernel
  behind := by decide

/-- The value of `PKG_URL` is cut, and an empty `PKG_DEPENDS` leaves no binary package. -/
theorem not_recordsVar_urlLine : ¬urlLine.RecordsVar ∧
    ¬NobinRight (fun _ => none) ⟨str "a", str "PKG_NAME:=\ta\nPKG_DEPENDS:=\t\n", false⟩ := by
  refine ⟨fun h => absurd (DocLine.recordsVar_iff.mp h) (by decide +kernel), ?_⟩
  unfold NobinRight
  decide +kernel

end OpenADK.Pkgmaker
