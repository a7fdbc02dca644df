import OpenADK.Library.FileOps
import OpenADK.Pkgmaker.Expressions

/-!
# Runs in one working directory

What `pkgmaker` writes, file by file. A run that ends with `fatal_error` leaves the temporary files
of the sections, and the next run appends to them.
-/

namespace OpenADK.Pkgmaker
open CString FileOps

/-! ### Files -/

inductive File
  /-- `package/Config.in.auto.<name>` -/
  | auto (name : Bytes)
  /-- `package/pkglist.d/sectionlst.<hash>` -/
  | sectionlst (hash : ℤ)
  /-- `package/pkglist.d/sectionlst.<hash>.sorted` -/
  | sorted (hash : ℤ)
  /-- `package/pkgconfigs.d/<pkg>/Config.in` -/
  | config (pkg : Bytes)
  /-- `package/pkgconfigs.d/<pkg>/Config.in.<subpkg>` -/
  | configOf (pkg subpkg : Bytes)
  deriving DecidableEq

abbrev Files := File → Option Bytes

def clean : Files := fun _ => none

/-- How a run ends. Following a null pointer is not survived, but is no `fatal_error`. -/
inductive Outcome
  | done | fatal | crashed
  deriving DecidableEq

/-! ### The packages -/

def gccDev : File := .configOf (str "gcc") (str "dev")

/-- What `Config.in.dev` begins with. -/
def devHeader : List Bytes :=
  [(str "GLIBC", str "glibc-dev............", str "glibc", str "GNU C"),
    (str "UCLIBC_NG", str "uclibc-ng-dev........", str "uclibc-ng", str "C"),
    (str "MUSL", str "musl-dev.............", str "musl", str "C")].flatMap
  fun (symbol, pseudoName, libname, language) =>
    [str "config ADK_PACKAGE_" ++ symbol ++ str "_DEV\n",
      str "\tprompt \"" ++ pseudoName ++ str " development files for " ++ libname ++ str "\"\n",
      str "\tboolean\n", str "\tdefault n\n",
      str "\tdepends on ADK_TARGET_LIB_" ++ symbol ++ [newline],
      str "\thelp\n", str "\t  " ++ language ++ str " library header files.\n", [newline]]

/-- The line for a package in `Config.in.auto.global`. -/
def sourceLine (dname : Bytes) : Bytes :=
  str "source \"package/pkgconfigs.d/" ++ dname ++ str "/Config.in\"\n"

/-- The master `Config.in` file of a package. Without a name there is none. -/
def compileLines (dname : Bytes) (r : Reading) : Option (List Bytes) :=
  let depends : Option (List Bytes) :=
    if r.nobinpkgs then some []
    else
      match r.vars .subpkgs with
      | some pkgs =>
        let ts := tokens (str " ") pkgs
        some [str "\tdepends on ADK_PACKAGE_" ++ shown ts.head? ++
          (ts.tail.flatMap fun token => str " || ADK_PACKAGE_" ++ token) ++ [newline]]
      | none => (r.vars .name).map fun name =>
          [str "\tdepends on ADK_PACKAGE_" ++ toupperstr name ++ [newline]]
  depends.map fun depends =>
    [str "config ADK_COMPILE_" ++ toupperstr dname ++ [newline], str "\tboolean\n"] ++ depends ++
      [str "\tdefault n\n"]

/-- A package with development files appends to `Config.in.dev`. -/
def devOps (v : Vars) : Option (List (Op File UInt8)) :=
  match (v .opts).bind fun opts => strstr (str "dev") opts with
  | none => some []
  | some _ => ((v .libname).or (v .name)).map fun libname =>
      [.append gccDev (devLines libname (v .archDepends)).flatten]

/-- The files of the packages of a Makefile, until the section of one is not found. -/
def listOps (sectionmap pkgmap : StrMap) (dname : Bytes) :
    Vars → List Bytes → Outcome × List (Op File UInt8)
  | _, [] => (.done, [])
  | v, token :: rest =>
    let pkgSection := (pkgmap.get (sectionKey token) maxValue).or (v .section)
    let descr := (pkgmap.get (str "PKGSD_" ++ toupperstr token) maxValue).or (v .descr)
    let v : Vars := Function.update (Function.update v .section pkgSection) .descr descr
    match pkgSection.bind fun key => sectionmap.get key maxValue with
    | none => (.fatal, [])
    | some hvalue =>
      let ops := [.append (.sectionlst (hashStr hvalue)) (token ++ str " |" ++ dname ++ [newline]),
        .write (.configOf dname token) (configLines pkgmap dname v token).flatten]
      match devOps v with
      | none => (.crashed, ops)
      | some dev =>
        let more := listOps sectionmap pkgmap dname (v.clear resetInLoop) rest
        (more.1, ops ++ dev ++ more.2)

def Package.ops (sectionmap : StrMap) (p : Package) : Outcome × List (Op File UInt8) :=
  let r := p.reading
  if p.dir.manual then
    match (r.vars .section).bind fun key => sectionmap.get key maxValue with
    | none => (.fatal, [])
    | some hvalue =>
      (.done, [.append (.sectionlst (hashStr hvalue)) (p.dir.name ++ str "@" ++ [newline])])
  else
    match compileLines p.dir.name r with
    | none => (.crashed, [])
    | some ls =>
      let ops := [.append (.auto (str "global")) (sourceLine p.dir.name),
        .write (.config p.dir.name) ls.flatten]
      let more := listOps sectionmap r.pkgmap p.dir.name r.vars p.tokens
      (more.1, ops ++ more.2)

/-- Goes through the directories, until a package is not survived. -/
def scanOps (sectionmap : StrMap) : List Dir → Vars → Bool → Outcome × List (Op File UInt8)
  | [], _, _ => (.done, [])
  | dir :: dirs, vars, nobinpkgs =>
    let p : Package := ⟨dir, vars, nobinpkgs⟩
    let first := p.ops sectionmap
    if first.1 = .done then
      let more := scanOps sectionmap dirs p.varsAfter p.reading.nobinpkgs
      (more.1, first.2 ++ more.2)
    else first

/-! ### The menus -/

def menuName (key : Bytes) : Bytes :=
  let subsect := (strtok (str "/") key).bind fun (_, rest) => strtok (str "/") rest
  shown ((strtok (str "/") key).map Prod.fst) ++ str "." ++ shown (subsect.map Prod.fst)

def Source.text : Source → Bytes
  | .manual pkg => str "source \"package/" ++ pkg ++ str "/Config.in.manual\"\n"
  | .generated pkg subpkg =>
    str "source \"package/pkgconfigs.d/" ++ shown pkg ++ str "/Config.in." ++ subpkg ++ str "\"\n"

def menuText (value : Bytes) (sources : List Source) : Bytes :=
  str "menu \"" ++ value.dropLast ++ str "\"\n" ++ sources.flatMap Source.text ++ str "endmenu\n\n"

/-- `iter` for all sections. The sorted file is not truncated, and its section file is removed. -/
def iterFiles : StrMap → Files → Option Files
  | [], files => some files
  | (key, value) :: sections, files =>
    let config := File.auto (menuName key)
    let hash := hashStr value
    let files := step files (.append config [])
    match files (.sectionlst hash) with
    | none => iterFiles sections files
    | some infile =>
      let out := sortfile infile ++ ((files (.sorted hash)).getD []).drop (sortfile infile).length
      let files := Function.update (Function.update files (.sorted hash) (some out))
        (.sectionlst hash) none
      match (fileLines out).mapM readSource with
      | none => none
      | some sources => iterFiles sections (step files (.append config (menuText value sources)))

/-! ### A run -/

/-- `rm package/Config.in.auto.*` -/
def removeAuto (files : Files) : Files
  | .auto _ => none
  | f => files f

def removeSections (files : Files) : Files
  | .sectionlst _ => none
  | .sorted _ => none
  | f => files f

def startOps : List (Op File UInt8) :=
  [.write (.auto (str "global")) [], .write gccDev devHeader.flatten]

def gccMenu : Op File UInt8 :=
  .append (.configOf (str "gcc") (str "gcc")) (str "menu \"Development packages\"\n" ++
    str "depends on ADK_PACKAGE_GCC\n" ++
    str "source \"package/pkgconfigs.d/gcc/Config.in.dev\"\n" ++ str "endmenu\n")

namespace Tree
variable (t : Tree)

def scanned : Outcome × List (Op File UInt8) :=
  scanOps t.sectionmap t.visible (fun _ => none) false

def afterScan (files : Files) : Files := run (removeAuto files) (startOps ++ t.scanned.2)

/-- A run of `pkgmaker`: how it ends, and the files it leaves. -/
def pkgmaker (files : Files) : Outcome × Files :=
  let files := t.afterScan files
  match t.scanned.1 with
  | .done =>
    match iterFiles t.sectionmap (step files gccMenu) with
    | none => (.crashed, files)
    | some files => (.done, removeSections files)
  | outcome => (outcome, files)

/-- The files of the menus, and those of the packages of the tree. -/
def Owns (f : File) : Prop :=
  (∃ name, f = .auto name) ∨ ∃ p ∈ visits t.visible (fun _ => none) false, p.dir.manual = false ∧
    (f = .config p.dir.name ∨ ∃ token ∈ p.tokens, f = .configOf p.dir.name token)

end Tree

/-! ### What the operations are about -/

variable {sectionmap pkgmap : StrMap} {dname : Bytes} {v : Vars} {p : Package} {f : File}
  {op : Op File UInt8} {ops : List (Op File UInt8)} {files files' : Files}

/-- The temporary files are only appended to, line by line, and nothing is sorted yet. -/
def Tame : Op File UInt8 → Prop
  | .append (.sectionlst _) c => ∃ u, c = u ++ [newline]
  | op => ∀ hash, op.file ≠ .sectionlst hash ∧ op.file ≠ .sorted hash

theorem tame_of_configOf {pkg subpkg : Bytes} (h : op.file = .configOf pkg subpkg) : Tame op := by
  have hne : ∀ hash, op.file ≠ .sectionlst hash ∧ op.file ≠ .sorted hash := fun hash => by
    rw [h]
    exact ⟨File.noConfusion, File.noConfusion⟩
  unfold Tame
  split
  · cases h
  · exact hne

inductive Writes (dname : Bytes) (ts : List Bytes) : Op File UInt8 → Prop
  | list (hash : ℤ) (u : Bytes) : Writes dname ts (.append (.sectionlst hash) (u ++ [newline]))
  | source (c : Bytes) : Writes dname ts (.append (.auto (str "global")) c)
  | config (c : Bytes) : Writes dname ts (.write (.config dname) c)
  | package (token c : Bytes) (h : token ∈ ts) : Writes dname ts (.write (.configOf dname token) c)
  | dev (c : Bytes) : Writes dname ts (.append gccDev c)

theorem Writes.mono {ts ts' : List Bytes} (h : Writes dname ts op) (hts : ts ⊆ ts') :
    Writes dname ts' op := by
  cases h with
  | list hash u => exact .list hash u
  | source c => exact .source c
  | config c => exact .config c
  | package token c htoken => exact .package token c (hts htoken)
  | dev c => exact .dev c

theorem Writes.tame {ts : List Bytes} (h : Writes dname ts op) : Tame op := by
  cases h with
  | list hash u => exact ⟨u, rfl⟩
  | source c => exact fun hash => ⟨File.noConfusion, File.noConfusion⟩
  | config c => exact fun hash => ⟨File.noConfusion, File.noConfusion⟩
  | package token c _ => exact tame_of_configOf rfl
  | dev c => exact tame_of_configOf rfl

theorem writes_devOps {dev : List (Op File UInt8)} (h : devOps v = some dev) (ts : List Bytes) :
    ∀ op ∈ dev, Writes dname ts op := by
  intro op hop
  unfold devOps at h
  split at h
  · cases h
    cases hop
  · obtain ⟨libname, -, rfl⟩ := Option.map_eq_some_iff.mp h
    obtain rfl := List.mem_singleton.mp hop
    exact .dev _

theorem writes_listOps (sectionmap pkgmap : StrMap) (dname : Bytes) (v : Vars) (ts : List Bytes) :
    ∀ op ∈ (listOps sectionmap pkgmap dname v ts).2, Writes dname ts op := by
  induction ts generalizing v with
  | nil => exact fun op hop => by cases hop
  | cons token ts ih =>
    intro op hop
    rw [listOps] at hop
    dsimp only at hop
    split at hop
    case h_1 => cases hop
    case h_2 hvalue _ =>
      have hfirst (text : Bytes) : ∀ op ∈ [Op.append (.sectionlst (hashStr hvalue))
          (token ++ str " |" ++ dname ++ [newline]), .write (.configOf dname token) text],
          Writes dname (token :: ts) op := by
        intro op hop
        rcases List.mem_cons.mp hop with rfl | hop
        · exact .list _ _
        · obtain rfl := List.mem_singleton.mp hop
          exact .package _ _ List.mem_cons_self
      split at hop
      case h_1 => exact hfirst _ op hop
      case h_2 dev hdev =>
        rcases List.mem_append.mp hop with hop | hop
        · rcases List.mem_append.mp hop with hop | hop
          · exact hfirst _ op hop
          · exact writes_devOps hdev _ op hop
        · exact (ih _ op hop).mono (List.subset_cons_self _ _)

theorem writes_ops (sectionmap : StrMap) (p : Package) :
    ∀ op ∈ (p.ops sectionmap).2, Writes p.dir.name p.tokens op := by
  intro op hop
  unfold Package.ops at hop
  dsimp only at hop
  split at hop
  case isTrue =>
    split at hop
    · cases hop
    · obtain rfl := List.mem_singleton.mp hop
      exact .list _ _
  case isFalse =>
    split at hop
    · cases hop
    · rcases List.mem_append.mp hop with hop | hop
      · rcases List.mem_cons.mp hop with rfl | hop
        · exact .source _
        · obtain rfl := List.mem_singleton.mp hop
          exact .config _
      · exact writes_listOps _ _ _ _ _ op hop

theorem writes_scanOps (sectionmap : StrMap) (dirs : List Dir) (vars : Vars) (nobinpkgs : Bool) :
    ∀ op ∈ (scanOps sectionmap dirs vars nobinpkgs).2,
      ∃ p ∈ visits dirs vars nobinpkgs, Writes p.dir.name p.tokens op := by
  induction dirs generalizing vars nobinpkgs with
  | nil => exact fun op hop => by cases hop
  | cons dir dirs ih =>
    intro op hop
    rw [scanOps] at hop
    dsimp only at hop
    split at hop
    · rcases List.mem_append.mp hop with hop | hop
      · exact ⟨_, List.mem_cons_self, writes_ops _ _ op hop⟩
      · obtain ⟨p, hp, hwrites⟩ := ih _ _ op hop
        exact ⟨p, List.mem_cons_of_mem _ hp, hwrites⟩
    · exact ⟨_, List.mem_cons_self, writes_ops _ _ op hop⟩

theorem tame_startOps : ∀ op ∈ startOps, Tame op := by
  intro op hop
  rcases List.mem_cons.mp hop with rfl | hop
  · exact fun hash => ⟨File.noConfusion, File.noConfusion⟩
  · obtain rfl := List.mem_singleton.mp hop
    exact tame_of_configOf rfl

namespace Tree
variable {t t₁ t₂ : Tree}

theorem tame (t : Tree) : ∀ op ∈ startOps ++ t.scanned.2, Tame op := by
  intro op hop
  rcases List.mem_append.mp hop with hop | hop
  · exact tame_startOps op hop
  · obtain ⟨p, -, hwrites⟩ := writes_scanOps _ _ _ _ op hop
    exact hwrites.tame

theorem afterScan_sorted (t : Tree) (files : Files) (hash : ℤ) :
    t.afterScan files (.sorted hash) = files (.sorted hash) := by
  refine (run_of_ne fun op hop => ?_).trans rfl
  have htame := t.tame op hop
  unfold Tame at htame
  split at htame
  · exact File.noConfusion
  · exact (htame hash).2

def entriesOf (t : Tree) (hash : ℤ) : List Bytes :=
  appended (.sectionlst hash) (startOps ++ t.scanned.2)

theorem afterScan_sectionlst (t : Tree) (files : Files) (hash : ℤ) :
    t.afterScan files (.sectionlst hash) = if t.entriesOf hash = [] then files (.sectionlst hash)
      else some ((files (.sectionlst hash)).getD [] ++ (t.entriesOf hash).flatten) := by
  refine (run_of_appends fun c hc => ?_).trans rfl
  exact (t.tame _ hc hash).1 rfl

end Tree

theorem Tree.line_of_entriesOf {t : Tree} {hash : ℤ} {c : Bytes} (h : c ∈ t.entriesOf hash) :
    ∃ u, c = u ++ [newline] := t.tame _ (of_mem_appended h)

namespace Tree
variable {t : Tree}

theorem entriesOf_ends {hash : ℤ} (h : t.entriesOf hash ≠ []) :
    ∃ u, (t.entriesOf hash).flatten = u ++ [newline] := by
  rcases List.eq_nil_or_concat (t.entriesOf hash) with hnil | ⟨before, last, heq⟩
  · exact absurd hnil h
  · rw [List.concat_eq_append] at heq
    have hlast : last ∈ t.entriesOf hash := by
      rw [heq]
      exact List.mem_append_right _ (List.mem_singleton_self _)
    obtain ⟨u, rfl⟩ := line_of_entriesOf hlast
    refine ⟨before.flatten ++ u, ?_⟩
    rw [heq, List.flatten_append, List.flatten_singleton, List.append_assoc]

end Tree

/-! ### The menus of a run -/

/-- The lines that the entries add to a section file. -/
def entryLines (entries : List Entry) (hash : ℤ) : List Bytes :=
  (entries.filter fun e => e.hash = hash).map Entry.line

theorem entryLines_cons (h : ℤ) (line : Bytes) (entries : List Entry) (hash : ℤ) :
    entryLines (⟨h, line⟩ :: entries) hash =
      (if h = hash then [line] else []) ++ entryLines entries hash := by
  rw [entryLines, List.filter_cons]
  by_cases hhash : h = hash
  · rw [if_pos (by simpa using hhash), if_pos hhash]
    rfl
  · rw [if_neg (by simpa using hhash), if_neg hhash]
    rfl

theorem appended_cons (h : ℤ) (line : Bytes) (ops : List (Op File UInt8)) (hash : ℤ) :
    appended (.sectionlst hash) (.append (.sectionlst h) line :: ops) =
      (if h = hash then [line] else []) ++ appended (.sectionlst hash) ops := by
  rw [appended]
  by_cases hhash : h = hash
  · rw [if_pos (congrArg File.sectionlst hhash), if_pos hhash]
    rfl
  · rw [if_neg fun hf => hhash (File.sectionlst.inj hf), if_neg hhash]
    rfl

theorem entryLines_append (entries entries' : List Entry) (hash : ℤ) :
    entryLines (entries ++ entries') hash =
      entryLines entries hash ++ entryLines entries' hash := by
  rw [entryLines, List.filter_append, List.map_append]
  rfl

theorem flatten_entryLines (entries : List Entry) (hash : ℤ) :
    (entryLines entries hash).flatten = sectionFiles entries hash := List.flatMap_def.symm

theorem appended_devOps {dev : List (Op File UInt8)} (h : devOps v = some dev) (hash : ℤ) :
    appended (.sectionlst hash) dev = [] := by
  unfold devOps at h
  split at h
  · cases h
    rfl
  · obtain ⟨libname, -, rfl⟩ := Option.map_eq_some_iff.mp h
    exact if_neg File.noConfusion

def Vars.forToken (pkgmap : StrMap) (v : Vars) (token : Bytes) : Vars :=
  Function.update
    (Function.update v .section ((pkgmap.get (sectionKey token) maxValue).or (v .section)))
    .descr ((pkgmap.get (str "PKGSD_" ++ toupperstr token) maxValue).or (v .descr))

/-- What is written for the first package, and that the others are written after it. -/
theorem of_listOps_cons {token : Bytes} {ts : List Bytes}
    (h : (listOps sectionmap pkgmap dname v (token :: ts)).1 = .done) :
    ∃ hvalue dev, (((pkgmap.get (sectionKey token) maxValue).or (v .section)).bind
        fun key => sectionmap.get key maxValue) = some hvalue ∧
      devOps (v.forToken pkgmap token) = some dev ∧
      (listOps sectionmap pkgmap dname ((v.forToken pkgmap token).clear resetInLoop) ts).1 =
        .done ∧
      (listOps sectionmap pkgmap dname v (token :: ts)).2 =
        [.append (.sectionlst (hashStr hvalue)) (token ++ str " |" ++ dname ++ [newline]),
          .write (.configOf dname token)
            (configLines pkgmap dname (v.forToken pkgmap token) token).flatten] ++ dev ++
          (listOps sectionmap pkgmap dname ((v.forToken pkgmap token).clear resetInLoop) ts).2 := by
  rw [listOps] at h
  dsimp only at h
  split at h
  case h_1 => cases h
  case h_2 hvalue hfound =>
    split at h
    case h_1 => cases h
    case h_2 dev hdev =>
      refine ⟨hvalue, dev, hfound, hdev, h, ?_⟩
      rw [listOps]
      dsimp only
      rw [hfound]
      dsimp only
      rw [hdev]
      rfl

/-- The packages of a Makefile are listed as they are written. -/
theorem listTokens_of_listOps {ts : List Bytes}
    (h : (listOps sectionmap pkgmap dname v ts).1 = .done) :
    ∃ entries, listTokens sectionmap pkgmap dname (v .section) ts = some entries ∧
      ∀ hash, appended (.sectionlst hash) (listOps sectionmap pkgmap dname v ts).2 =
        entryLines entries hash := by
  induction ts generalizing v with
  | nil => exact ⟨[], rfl, fun hash => rfl⟩
  | cons token ts ih =>
    obtain ⟨hvalue, dev, hfound, hdev, hrest, heq⟩ := of_listOps_cons h
    obtain ⟨entries, hlist, happended⟩ := ih hrest
    have hsection : (v.forToken pkgmap token).clear resetInLoop .section =
        (pkgmap.get (sectionKey token) maxValue).or (v .section) := by
      rw [Vars.clear, if_neg (by decide), Vars.forToken, Function.update_of_ne (by decide),
        Function.update_self]
    rw [hsection] at hlist
    rw [listTokens]
    rw [hfound]
    dsimp only
    rw [hlist, Option.map_some]
    refine ⟨_, rfl, fun hash => ?_⟩
    rw [heq, appended_append, appended_append, happended, appended_devOps hdev, List.append_nil,
      appended_cons, entryLines_cons, List.append_assoc]
    rfl

/-- What is written for a directory that is not maintained by hand. -/
theorem of_ops (h : (p.ops sectionmap).1 = .done) (hmanual : p.dir.manual = false) :
    ∃ ls, compileLines p.dir.name p.reading = some ls ∧
      (listOps sectionmap p.reading.pkgmap p.dir.name p.reading.vars p.tokens).1 = .done ∧
      (p.ops sectionmap).2 = [.append (.auto (str "global")) (sourceLine p.dir.name),
          .write (.config p.dir.name) ls.flatten] ++
        (listOps sectionmap p.reading.pkgmap p.dir.name p.reading.vars p.tokens).2 := by
  have hnot : ¬p.dir.manual = true := by simp [hmanual]
  unfold Package.ops at h ⊢
  dsimp only at h ⊢
  rw [if_neg hnot] at h ⊢
  split at h
  case h_1 => cases h
  case h_2 ls hls => exact ⟨ls, hls, h, rfl⟩

/-- Of a package that is maintained by hand only the section is noted. -/
theorem of_ops_manual (h : (p.ops sectionmap).1 = .done) (hmanual : p.dir.manual = true) :
    ∃ hvalue, ((p.reading.vars .section).bind fun key => sectionmap.get key maxValue) =
        some hvalue ∧
      (p.ops sectionmap).2 =
        [.append (.sectionlst (hashStr hvalue)) (p.dir.name ++ str "@" ++ [newline])] := by
  unfold Package.ops at h ⊢
  dsimp only at h ⊢
  rw [if_pos hmanual] at h ⊢
  split at h
  case h_1 => cases h
  case h_2 hvalue hfound => exact ⟨hvalue, hfound, rfl⟩

theorem entries_of_ops (h : (p.ops sectionmap).1 = .done) :
    ∃ entries, p.entries sectionmap = some entries ∧
      ∀ hash, appended (.sectionlst hash) (p.ops sectionmap).2 = entryLines entries hash := by
  unfold Package.entries
  dsimp only
  cases hmanual : p.dir.manual with
  | true =>
    obtain ⟨hvalue, hfound, hops⟩ := of_ops_manual h hmanual
    rw [if_pos rfl, hfound, Option.map_some, hops]
    refine ⟨_, rfl, fun hash => ?_⟩
    rw [appended_cons, entryLines_cons]
    rfl
  | false =>
    obtain ⟨ls, hls, hlist, hops⟩ := of_ops h hmanual
    obtain ⟨entries, hlist, happended⟩ := listTokens_of_listOps hlist
    have hall (hash : ℤ) : appended (.sectionlst hash) (p.ops sectionmap).2 =
        entryLines entries hash := by
      rw [hops, appended_append, happended, appended, if_neg File.noConfusion]
      rfl
    rw [if_neg Bool.false_ne_true]
    split
    case isTrue hnobin =>
      have htokens : p.tokens = [] := if_pos (.inr hnobin)
      rw [htokens] at hlist
      cases hlist
      exact ⟨[], rfl, hall⟩
    case isFalse hnobin =>
      have hpackages : p.packages ≠ none := by
        intro hnone
        obtain ⟨hsubpkgs, hname⟩ := Option.or_eq_none_iff.mp hnone
        rw [compileLines, if_neg hnobin, Option.map_eq_none_iff.mp hsubpkgs, hname] at hls
        cases hls
      rw [if_neg hpackages, hlist]
      exact ⟨entries, rfl, hall⟩

/-- A run that comes to the end has listed what the scan of the directories lists. -/
theorem scan_of_scanOps {dirs : List Dir} {vars : Vars} {nobinpkgs : Bool}
    (h : (scanOps sectionmap dirs vars nobinpkgs).1 = .done) :
    ∃ entries, scan sectionmap dirs vars nobinpkgs = some (visits dirs vars nobinpkgs, entries) ∧
      ∀ hash, appended (.sectionlst hash) (scanOps sectionmap dirs vars nobinpkgs).2 =
        entryLines entries hash := by
  induction dirs generalizing vars nobinpkgs with
  | nil => exact ⟨[], rfl, fun hash => rfl⟩
  | cons dir dirs ih =>
    rw [scanOps] at h ⊢
    rw [scan, visits]
    dsimp only at h ⊢
    split at h
    case isTrue hfirst =>
      obtain ⟨entries, hentries, happended⟩ := entries_of_ops hfirst
      obtain ⟨rest, hrest, happended'⟩ := ih h
      rw [hentries, if_pos hfirst]
      dsimp only
      rw [hrest, Option.map_some]
      refine ⟨_, rfl, fun hash => ?_⟩
      rw [appended_append, happended, happended', entryLines_append]
    case isFalse hfirst => exact absurd h hfirst

def Menu.text (m : Menu) : Bytes :=
  str "menu \"" ++ m.title ++ str "\"\n" ++ m.sources.flatMap Source.text ++ str "endmenu\n\n"

/-- What the menus add to the file with this name. -/
def menuTexts (menus : List Menu) (name : Bytes) : Bytes :=
  (menus.filter fun m => menuName m.key = name).flatMap Menu.text

theorem getD_append (files : Files) (g f : File) (c : Bytes) :
    (step files (.append g c) f).getD [] = (files f).getD [] ++ if g = f then c else [] := by
  by_cases hg : g = f
  · subst hg
    rw [if_pos rfl, step, Op.file, Function.update_self, Option.getD_some, Op.content]
  · rw [if_neg hg, step_of_ne (.append g c) hg, List.append_nil]

/-- The menus of the sections, printed into their files. -/
theorem iter_of_iterFiles {sections : StrMap} {out : Files}
    (hsorted : ∀ hash, files (.sectionlst hash) ≠ none → files (.sorted hash) = none)
    (hfull : ∀ hash, files (.sectionlst hash) ≠ some [])
    (h : iterFiles sections files = some out) :
    ∃ menus, iter sections (fun hash => (files (.sectionlst hash)).getD []) = some menus ∧
      ∀ name, (out (.auto name)).getD [] =
        (files (.auto name)).getD [] ++ menuTexts menus name := by
  induction sections generalizing files with
  | nil =>
    cases h
    exact ⟨[], rfl, fun name => (List.append_nil _).symm⟩
  | cons section' sections ih =>
    obtain ⟨key, value⟩ := section'
    rw [iterFiles] at h
    dsimp only at h
    generalize hfirst : step files (.append (.auto (menuName key)) []) = first at h
    have hother (f : File) (hf : File.auto (menuName key) ≠ f) : first f = files f := by
      rw [← hfirst]
      exact step_of_ne _ hf
    have hauto (name : Bytes) : (first (.auto name)).getD [] = (files (.auto name)).getD [] := by
      rw [← hfirst, getD_append]
      split <;> exact List.append_nil _
    rw [hother _ File.noConfusion] at h
    split at h
    case h_1 hnone =>
      have hlist (hash : ℤ) : first (.sectionlst hash) = files (.sectionlst hash) :=
        hother _ File.noConfusion
      obtain ⟨menus, hmenus, htexts⟩ := ih (fun hash hne => by
        rw [hother _ File.noConfusion] at hne ⊢
        exact hsorted hash hne) (fun hash => by
        rw [hlist]
        exact hfull hash) h
      simp only [hlist] at hmenus
      rw [iter]
      rw [hnone, Option.getD_none, if_pos rfl]
      exact ⟨menus, hmenus, fun name => by rw [htexts, hauto]⟩
    case h_2 infile hinfile =>
      have hnone := hsorted (hashStr value) (by rw [hinfile]; exact Option.some_ne_none _)
      have hne : infile ≠ [] := fun hnil => hfull _ (hnil ▸ hinfile)
      rw [hother _ File.noConfusion, hnone, Option.getD_none, List.drop_nil, List.append_nil] at h
      split at h
      case h_1 => cases h
      case h_2 sources hsources =>
        generalize hlast : Function.update (Function.update first (.sorted (hashStr value))
          (some (sortfile infile))) (.sectionlst (hashStr value)) none = last at h
        have hkeep (f : File) (hlst : f ≠ .sectionlst (hashStr value))
            (hsort : f ≠ .sorted (hashStr value)) : last f = first f := by
          rw [← hlast, Function.update_of_ne hlst, Function.update_of_ne hsort]
        -- the section file is gone, and the others are as they were
        have hlist (hash : ℤ) : step last (.append (.auto (menuName key)) (menuText value sources))
            (.sectionlst hash) =
              if hash = hashStr value then none else files (.sectionlst hash) := by
          rw [step_of_ne (.append _ _) File.noConfusion]
          split
          case isTrue heq => rw [heq, ← hlast, Function.update_self]
          case isFalse heq =>
            rw [hkeep _ (fun hf => heq (File.sectionlst.inj hf)) File.noConfusion,
              hother _ File.noConfusion]
        obtain ⟨menus, hmenus, htexts⟩ := ih (fun hash hne => by
          rw [hlist] at hne
          split at hne
          case isTrue => exact absurd rfl hne
          case isFalse heq =>
            rw [step_of_ne (.append _ _) File.noConfusion, hkeep _ File.noConfusion
              (fun hf => heq (File.sorted.inj hf)), hother _ File.noConfusion]
            exact hsorted hash hne) (fun hash => by
          rw [hlist]
          split
          · exact (Option.some_ne_none _).symm
          · exact hfull hash) h
        have hentries : (fun hash => (step last (.append (.auto (menuName key))
            (menuText value sources)) (.sectionlst hash)).getD []) =
              Function.update (fun hash => (files (.sectionlst hash)).getD []) (hashStr value)
                [] := by
          funext hash
          rw [hlist]
          by_cases heq : hash = hashStr value
          · rw [if_pos heq, heq, Function.update_self]
            rfl
          · rw [if_neg heq, Function.update_of_ne heq]
        rw [hentries] at hmenus
        rw [iter]
        rw [hinfile, Option.getD_some, if_neg hne, hsources]
        dsimp only
        rw [hmenus, Option.map_some]
        refine ⟨_, rfl, fun name => ?_⟩
        rw [htexts, getD_append, hkeep _ File.noConfusion File.noConfusion, hauto, menuTexts,
          menuTexts, List.filter_cons, List.append_assoc]
        have hname : File.auto (menuName key) = .auto name ↔ menuName key = name :=
          ⟨File.auto.inj, fun h => h ▸ rfl⟩
        by_cases hkey : menuName key = name
        · rw [if_pos (hname.mpr hkey), if_pos (by simpa using hkey)]
          rfl
        · rw [if_neg (mt hname.mp hkey), if_neg (by simpa using hkey)]
          rfl

namespace Tree
variable {t : Tree}

theorem pkgmaker_fatal (h : (t.pkgmaker files).1 = .fatal) :
    (t.pkgmaker files).2 = t.afterScan files := by
  unfold pkgmaker at h ⊢
  dsimp only at h ⊢
  split at h
  · split at h <;> cases h
  · rfl

theorem pkgmaker_done (h : (t.pkgmaker files).1 = .done) : t.scanned.1 = .done ∧
    ∃ out, iterFiles t.sectionmap (step (t.afterScan files) gccMenu) = some out ∧
      (t.pkgmaker files).2 = removeSections out := by
  unfold pkgmaker at h ⊢
  dsimp only at h ⊢
  split at h
  case h_1 hdone =>
    split at h
    case h_1 => cases h
    case h_2 out hout => exact ⟨hdone, out, hout, rfl⟩
  case h_2 hne => exact absurd h hne

theorem done_of_iterFiles {out : Files} (hdone : t.scanned.1 = .done)
    (h : iterFiles t.sectionmap (step (t.afterScan files) gccMenu) = some out) :
    t.pkgmaker files = (.done, removeSections out) := by
  unfold pkgmaker
  rw [hdone]
  dsimp only
  rw [h]

/-- A section file is never empty. -/
theorem afterScan_ne_nil {hash : ℤ} (h : files (.sectionlst hash) ≠ some []) :
    t.afterScan files (.sectionlst hash) ≠ some [] := by
  rw [afterScan_sectionlst]
  split
  case isTrue => exact h
  case isFalse hne =>
    obtain ⟨u, hu⟩ := entriesOf_ends hne
    intro hnil
    have hflat := (List.append_eq_nil_iff.mp (Option.some.inj hnil)).2
    rw [hu] at hflat
    exact List.concat_ne_nil newline u hflat

/-- The menu of the gcc package is no file of the sections. -/
theorem step_gccMenu (hf : ∀ pkg subpkg, f ≠ .configOf pkg subpkg) (files : Files) :
    step files gccMenu f = files f := step_of_ne _ fun heq => hf _ _ heq.symm

/-- A run in a clean checkout prints the menus of the packages that it has listed. -/
theorem menus_of_pkgmaker (h : (t.pkgmaker clean).1 = .done) :
    ∃ menus, OpenADK.Pkgmaker.pkgmaker t =
        some (visits t.visible (fun _ => none) false, menus) ∧
      ∀ name, ((t.pkgmaker clean).2 (.auto name)).getD [] =
        (t.afterScan clean (.auto name)).getD [] ++ menuTexts menus name := by
  obtain ⟨hdone, out, hout, hfiles⟩ := pkgmaker_done h
  obtain ⟨entries, hscan, hentries⟩ := scan_of_scanOps hdone
  have hlist (hash : ℤ) : step (t.afterScan clean) gccMenu (.sectionlst hash) =
      t.afterScan clean (.sectionlst hash) := step_gccMenu (fun _ _ => File.noConfusion) _
  have hsorted (hash : ℤ) : step (t.afterScan clean) gccMenu (.sorted hash) = none := by
    rw [step_gccMenu fun _ _ => File.noConfusion, afterScan_sorted]
    rfl
  obtain ⟨menus, hmenus, htexts⟩ := iter_of_iterFiles (fun hash _ => hsorted hash)
    (fun hash => by
      rw [hlist]
      exact afterScan_ne_nil (Option.some_ne_none _).symm) hout
  have hfound : (fun hash => (step (t.afterScan clean) gccMenu (.sectionlst hash)).getD []) =
      sectionFiles entries := by
    funext hash
    have hof : t.entriesOf hash = entryLines entries hash := by
      rw [entriesOf, appended_append, ← hentries]
      rfl
    rw [hlist, afterScan_sectionlst, hof, ← flatten_entryLines]
    split
    case isTrue hnil => rw [hnil]; rfl
    case isFalse => rfl
  rw [hfound] at hmenus
  refine ⟨menus, ?_, fun name => ?_⟩
  · rw [OpenADK.Pkgmaker.pkgmaker, hscan]
    dsimp only
    rw [hmenus]
    rfl
  · rw [hfiles]
    apply (htexts name).trans
    rw [step_gccMenu fun _ _ => File.noConfusion]

end Tree

/-! ### The menu files of a run -/

/-- The packages of a Makefile are written to their own files and to the section files. -/
theorem auto_of_listOps {ts : List Bytes}
    (h : (listOps sectionmap pkgmap dname v ts).1 = .done) (name : Bytes) :
    appended (.auto name) (listOps sectionmap pkgmap dname v ts).2 = [] := by
  induction ts generalizing v with
  | nil => rfl
  | cons token ts ih =>
    obtain ⟨hvalue, dev, -, hdev, hrest, heq⟩ := of_listOps_cons h
    have hnone : appended (.auto name) dev = [] := by
      unfold devOps at hdev
      split at hdev
      · cases hdev
        rfl
      · obtain ⟨libname, -, rfl⟩ := Option.map_eq_some_iff.mp hdev
        exact if_neg File.noConfusion
    rw [heq, appended_append, appended_append, hnone, ih hrest, List.append_nil, List.append_nil,
      appended, if_neg File.noConfusion]
    rfl

/-- A package is sourced from `Config.in.auto.global` unless it is maintained by hand. -/
theorem auto_of_ops (h : (p.ops sectionmap).1 = .done) :
    appended (.auto (str "global")) (p.ops sectionmap).2 =
      if p.dir.manual then [] else [sourceLine p.dir.name] := by
  cases hmanual : p.dir.manual with
  | true =>
    obtain ⟨hvalue, -, hops⟩ := of_ops_manual h hmanual
    rw [hops]
    exact if_neg File.noConfusion
  | false =>
    obtain ⟨ls, -, hlist, hops⟩ := of_ops h hmanual
    rw [hops, appended_append, auto_of_listOps hlist, List.append_nil, appended, if_pos rfl]
    rfl

/-- The lines of `Config.in.auto.global` for the packages. -/
def globalLines (packages : List Package) : List Bytes :=
  (packages.filter fun p => !p.dir.manual).map fun p => sourceLine p.dir.name

theorem auto_of_scanOps {dirs : List Dir} {vars : Vars} {nobinpkgs : Bool}
    (h : (scanOps sectionmap dirs vars nobinpkgs).1 = .done) :
    appended (.auto (str "global")) (scanOps sectionmap dirs vars nobinpkgs).2 =
      globalLines (visits dirs vars nobinpkgs) := by
  induction dirs generalizing vars nobinpkgs with
  | nil => rfl
  | cons dir dirs ih =>
    rw [scanOps] at h ⊢
    rw [visits, globalLines, List.filter_cons]
    dsimp only at h ⊢
    split at h
    case isTrue hfirst =>
      rw [if_pos hfirst, appended_append, auto_of_ops hfirst, ih h]
      cases hmanual : dir.manual with
      | true => simp [globalLines]
      | false => simp [globalLines]
    case isFalse hfirst => exact absurd h hfirst

namespace Tree
variable {t : Tree}

theorem getD_afterScan_auto (hdone : t.scanned.1 = .done) (name : Bytes) :
    (t.afterScan files (.auto name)).getD [] =
      if name = str "global" then
        (globalLines (visits t.visible (fun _ => none) false)).flatten
      else [] := by
  have hwrites (c : Bytes) : .write (.auto name) c ∉ t.scanned.2 := by
    intro hop
    obtain ⟨p, -, h⟩ := writes_scanOps _ _ _ _ _ hop
    cases h
  have hstart : step (run (removeAuto files) [.write (.auto (str "global")) []])
      (.write gccDev devHeader.flatten) (.auto name) =
        run (removeAuto files) [.write (.auto (str "global")) []] (.auto name) :=
    step_of_ne _ File.noConfusion
  rw [afterScan, run_append, run_of_appends hwrites]
  have hbegin : (run (removeAuto files) startOps (.auto name)).getD [] = [] := by
    by_cases hname : name = str "global"
    · rw [hname]
      exact congrArg (·.getD []) (hname ▸ hstart)
    · refine congrArg (·.getD []) (hstart.trans (step_of_ne _ fun h => ?_))
      exact hname (File.auto.inj h).symm
  by_cases hname : name = str "global"
  · subst hname
    rw [if_pos rfl, scanned, auto_of_scanOps hdone]
    split
    case isTrue hnil => rw [hbegin, hnil]; rfl
    case isFalse => rw [hbegin]; rfl
  · rw [if_neg hname]
    have hnone : appended (.auto name) t.scanned.2 = [] := by
      refine List.eq_nil_iff_forall_not_mem.mpr fun c hc => ?_
      obtain ⟨p, -, h⟩ := writes_scanOps _ _ _ _ _ (of_mem_appended hc)
      cases h
      exact hname rfl
    rw [if_pos hnone, hbegin]

/-- The names of the files for the sections have a dot. -/
theorem menuTexts_global (menus : List Menu) : menuTexts menus (str "global") = [] := by
  have hname (key : Bytes) : menuName key ≠ str "global" := by
    intro h
    have hdot : chr '.' ∈ menuName key := by simp [menuName, str, chr]
    rw [h] at hdot
    revert hdot
    decide
  rw [menuTexts, List.filter_eq_nil_iff.mpr fun m _ => by simpa using hname m.key]
  rfl

/-- What a run in a clean checkout that comes to the end leaves in the files `Config.in.auto.*`:
the packages in the order of the scan, and the menus of the packages that it has listed. -/
theorem autoFiles_of_pkgmaker (h : (t.pkgmaker clean).1 = .done) :
    ∃ menus, OpenADK.Pkgmaker.pkgmaker t =
        some (visits t.visible (fun _ => none) false, menus) ∧
      ∀ name, ((t.pkgmaker clean).2 (.auto name)).getD [] =
        if name = str "global" then
          (globalLines (visits t.visible (fun _ => none) false)).flatten
        else menuTexts menus name := by
  obtain ⟨menus, hmenus, hfiles⟩ := menus_of_pkgmaker h
  refine ⟨menus, hmenus, fun name => ?_⟩
  rw [hfiles, getD_afterScan_auto (pkgmaker_done h).1]
  by_cases hname : name = str "global"
  · rw [if_pos hname, if_pos hname, hname, menuTexts_global, List.append_nil]
  · rw [if_neg hname, if_neg hname, List.nil_append]

end Tree

/-- A package whose Makefile names a section, and one that is maintained by hand. -/
def twoPackages : Tree where
  sectionList := str "net/misc\tNet\n"
  dirs := [⟨str "b", str "PKG_NAME:=b\nPKG_SECTION:=net/misc\n", false⟩,
    ⟨str "c", str "PKG_SECTION:=net/misc\n", true⟩]
  nodup := by decide

theorem autoFiles_of_pkgmaker_twoPackages :
    ∃ menus, pkgmaker twoPackages =
        some (visits twoPackages.visible (fun _ => none) false, menus) ∧
      ((twoPackages.pkgmaker clean).2 (.auto (str "global"))).getD [] = sourceLine (str "b") := by
  obtain ⟨menus, hmenus, hfiles⟩ :=
    Tree.autoFiles_of_pkgmaker (t := twoPackages) (by decide +kernel)
  exact ⟨menus, hmenus, (hfiles _).trans ((if_pos rfl).trans (by decide +kernel))⟩

end OpenADK.Pkgmaker
