import OpenADK.Pkgmaker.Makefile
import Mathlib.Data.List.Sort

/-!
# Section menus

Each package and subpackage is listed in a temporary file of its section, whose name is made of
the sum of the characters of the description of the section. At the end the sections are
enumerated, and each one takes the file with its sum into its menu.
-/

namespace OpenADK.Pkgmaker
open CString

/-- A `char` is signed. -/
def hashStr (string : Bytes) : ℤ := (string.map fun c => c.toInt8.toInt).sum

/-- Reads `section.lst`. The description keeps its newline. -/
def readSections (file : Bytes) : StrMap :=
  (fileLines file).foldl (fun map tbuf =>
    match strtok (str "\t") tbuf with
    | none => map
    | some (key, rest) =>
      match strtok (str "\t") rest with
      | none => map
      | some (value, _) => map.put key value) []

/-! ### Listing the packages -/

/-- A line in the temporary file of the sections with this sum. -/
structure Entry where
  hash : ℤ
  line : Bytes

/-- A package when its turn comes: the directory, and what the packages before have left. -/
structure Package where
  dir : Dir
  vars : Vars
  nobinpkgs : Bool

/-- `PKG_LIBNAME` is used instead of `PKG_NAME`, but only for `!libmix`. -/
def Vars.useLibname (v : Vars) : Vars :=
  match v .libname, v .opts with
  | some libname, some opts =>
    if strstr (str "libmix") opts = none then Function.update v .name (some libname) else v
  | _, _ => v

theorem Vars.useLibname_of_ne {x : Var} (h : x ≠ .name) (v : Vars) : v.useLibname x = v x := by
  unfold Vars.useLibname
  cases v .libname with
  | none => rfl
  | some libname =>
    cases v .opts with
    | none => rfl
    | some opts =>
      dsimp only
      split
      · exact Function.update_of_ne h _ _
      · rfl

def resetInLoop : List Var :=
  [.cfline, .needs, .depends, .kdepends, .dependsSystem, .dependsLibc, .dflt, .flavours,
    .flavoursString, .choices, .opts]

def resetAfter : List Var :=
  [.name, .libname, .descr, .section, .url, .depends, .kdepends, .flavours, .flavoursString,
    .choices, .subpkgs, .archDepends, .systemDepends, .hostDepends, .libcDepends, .dflt, .cfline,
    .bb]

/-- The key of the section of a subpackage. -/
def sectionKey (token : Bytes) : Bytes := str "PKGSC_" ++ toupperstr token

/-- Lists the packages of a Makefile. `pkg_section` is not set back for the next one. -/
def listTokens (sectionmap pkgmap : StrMap) (dname : Bytes) :
    Option Bytes → List Bytes → Option (List Entry)
  | _, [] => some []
  | pkgSection, token :: rest =>
    let pkgSection := (pkgmap.get (sectionKey token) maxValue).or pkgSection
    match pkgSection.bind fun key => sectionmap.get key maxValue with
    | none => none
    | some hvalue =>
      (listTokens sectionmap pkgmap dname pkgSection rest).map
        (⟨hashStr hvalue, token ++ str " |" ++ dname ++ [newline]⟩ :: ·)

namespace Package
variable (p : Package)

def reading : Reading :=
  if p.dir.manual then readManual p.vars p.nobinpkgs p.dir
  else
    let r := readMakefile p.vars p.dir
    { r with vars := r.vars.useLibname }

/-- `packages`; there must be a name. -/
def packages : Option Bytes :=
  ((p.reading.vars .subpkgs).map tolowerstr).or (p.reading.vars .name)

def tokens : List Bytes :=
  if p.dir.manual ∨ p.reading.nobinpkgs then [] else CString.tokens (str " ") (p.packages.getD [])

def entries (sectionmap : StrMap) : Option (List Entry) :=
  let r := p.reading
  if p.dir.manual then
    ((r.vars .section).bind fun key => sectionmap.get key maxValue).map fun hvalue =>
      [⟨hashStr hvalue, p.dir.name ++ str "@" ++ [newline]⟩]
  else if r.nobinpkgs then some []
  else if p.packages = none then none
  else listTokens sectionmap r.pkgmap p.dir.name (r.vars .section) p.tokens

/-- The variables for the next package. Two of the ways to go on with it leave them as they
are. -/
def varsAfter : Vars :=
  let v := p.reading.vars
  if p.dir.manual ∨ p.reading.nobinpkgs then v
  else if p.tokens = [] then v.clear resetAfter
  else (v.clear resetInLoop).clear resetAfter

end Package

/-- Goes through the directories. A run that ends early has no result. -/
def scan (sectionmap : StrMap) :
    List Dir → Vars → Bool → Option (List Package × List Entry)
  | [], _, _ => some ([], [])
  | dir :: dirs, vars, nobinpkgs =>
    let p : Package := ⟨dir, vars, nobinpkgs⟩
    match p.entries sectionmap with
    | none => none
    | some entries =>
      (scan sectionmap dirs p.varsAfter p.reading.nobinpkgs).map fun (packages, rest) =>
        (p :: packages, entries ++ rest)

/-- The packages as their turn comes. A run that ends early comes to the first of them. -/
def visits : List Dir → Vars → Bool → List Package
  | [], _, _ => []
  | dir :: dirs, vars, nobinpkgs =>
    let p : Package := ⟨dir, vars, nobinpkgs⟩
    p :: visits dirs p.varsAfter p.reading.nobinpkgs

/-! ### Writing the menus -/

/-- A file that is sourced: `package/<pkg>/Config.in.manual`, or
`package/pkgconfigs.d/<pkg>/Config.in.<subpkg>`. -/
inductive Source
  | manual (pkg : Bytes)
  | generated (pkg : Option Bytes) (subpkg : Bytes)
  deriving DecidableEq

/-- Reads a line of a section file back; an empty one is not survived. -/
def readSource (buf : Bytes) : Option Source :=
  let buf := buf.dropLast
  if buf.getLast? = some (chr '@') then some (.manual buf.dropLast)
  else
    match strtok (str "|") buf with
    | none => none
    | some (subpkg, rest) =>
      some (.generated ((strtok (str "|") rest).map Prod.fst) subpkg.dropLast)

/-- `cmpfn` of `sortfile`, as an order: the common part without the newline decides first. -/
def lineLe (a b : Bytes) : Bool :=
  let size := min a.length b.length - 1
  if a.take size = b.take size then a.length ≤ b.length
  else decide (a.take size < b.take size)

def sortfile (file : Bytes) : Bytes :=
  ((readLines newline file.length file).insertionSort fun a b => lineLe a b).flatten

/-- A menu in `Config.in.auto.<section>.<subsection>`, where the key is
`<section>/<subsection>`. -/
structure Menu where
  key : Bytes
  title : Bytes
  sources : List Source

/-- Enumerates the sections. A section file is removed once it is used, to avoid duplicate
section entries. -/
def iter : StrMap → (ℤ → Bytes) → Option (List Menu)
  | [], _ => some []
  | (key, value) :: sections, files =>
    let infile := files (hashStr value)
    if infile = [] then iter sections files
    else
      match (fileLines (sortfile infile)).mapM readSource with
      | none => none
      | some sources =>
        (iter sections (Function.update files (hashStr value) [])).map
          (⟨key, value.dropLast, sources⟩ :: ·)

def sectionFiles (entries : List Entry) (hash : ℤ) : Bytes :=
  (entries.filter fun e => e.hash = hash).flatMap Entry.line

/-- What `pkgmaker` runs on. The directories are in the order in which `readdir` returns them. -/
structure Tree where
  sectionList : Bytes
  dirs : List Dir
  nodup : (dirs.map Dir.name).Nodup

def Tree.sectionmap (t : Tree) : StrMap := readSections t.sectionList

def Tree.visible (t : Tree) : List Dir :=
  t.dirs.filter fun dir => match dir.name with
    | [] => false
    | c :: _ => chr '.' < c

/-- A successful run: the packages in their order, and the menus. -/
def pkgmaker (t : Tree) : Option (List Package × List Menu) :=
  match scan t.sectionmap t.visible (fun _ => none) false with
  | none => none
  | some (packages, entries) =>
    (iter t.sectionmap (sectionFiles entries)).map fun menus => (packages, menus)

end OpenADK.Pkgmaker
