import OpenADK.Library.CString
import Mathlib.Logic.Function.Basic
import Mathlib.Data.Nat.Notation

/-!
# Reading a package Makefile

`pkgmaker` tries its variables on each line of a Makefile in a fixed order. The variables are not
local to a package; what is left in them is seen by the next one.
-/

namespace OpenADK.Pkgmaker
open CString

abbrev Bytes := List UInt8

scoped instance : LawfulBEq Bytes := inferInstance

def chr (c : Char) : UInt8 := UInt8.ofNat c.toNat
def str (s : String) : Bytes := s.toList.map chr

def newline : UInt8 := 10

def toupper (c : UInt8) : UInt8 := if 97 ≤ c ∧ c ≤ 122 then c - 32 else c
def tolower (c : UInt8) : UInt8 := if 65 ≤ c ∧ c ≤ 90 then c + 32 else c

def tolowerstr (string : Bytes) : Bytes :=
  string.map fun c => tolower (if c = chr '_' then chr '-' else c)

/-- The negation is removed for package host depends. -/
def toupperstr (string : Bytes) : Bytes :=
  string.map fun c =>
    if c = chr '+' then chr 'X'
    else if c = chr '-' ∨ c = chr '!' then chr '_'
    else toupper c

/-- A string map. Its hash function is constant, so that all pairs are in one bucket in the order
in which they were put. -/
abbrev StrMap := List (Bytes × Bytes)

def StrMap.put (map : StrMap) (key value : Bytes) : StrMap :=
  if key ∈ map.map Prod.fst then map.map fun p => if p.1 = key then (key, value) else p
  else map ++ [(key, value)]

/-- Nothing is found when the value does not fit into the buffer. -/
def StrMap.get (map : StrMap) (key : Bytes) (size : ℕ) : Option Bytes :=
  (map.lookup key).filter fun value => value.length < size

/-! ### Variables -/

inductive Var
  | name | section | descr | url | depends | kdepends | needs | dependsSystem | dependsLibc
  | opts | libname | flavours | flavoursString | choices | subpkgs
  | archDepends | systemDepends | hostDepends | libcDepends | dflt | cfline | bb
  | pkgname | sysname
  deriving DecidableEq

abbrev Vars := Var → Option Bytes

def Vars.clear (v : Vars) (xs : List Var) : Vars := fun x => if x ∈ xs then none else v x

structure Reading where
  vars : Vars
  pkgmap : StrMap
  nobinpkgs : Bool

def maxVar : ℕ := 64
def maxPath : ℕ := 320
def maxValue : ℕ := 168

/-- `snprintf` into a buffer of `MAXVAR` bytes. -/
def snprintf (s : Bytes) : Bytes := s.take (maxVar - 1)

/-- The key and the value of a line without its last character. -/
def keyValue (delims string : Bytes) : Bytes × Option Bytes :=
  match strtok delims string.dropLast with
  | none => ([], none)
  | some (key, rest) => (key, (strtok (str "=\t") rest).map Prod.fst)

namespace Reading
variable (r : Reading) (buf varname : Bytes) (x y : Var)

def set (value : Option Bytes) : Reading := { r with vars := Function.update r.vars x value }

@[simp] theorem set_vars (value : Option Bytes) : (r.set x value).vars x = value := by
  simp only [set, Function.update_self]

theorem set_vars_of_ne {x y : Var} (h : y ≠ x) (value : Option Bytes) :
    (r.set x value).vars y = r.vars y := by
  simp only [set, Function.update_of_ne h]

/-- The value of `+=` after the one there is. -/
def append (pvalue value : Option Bytes) : Bytes := pvalue.getD [] ++ str " " ++ value.getD []

/-- `parse_var`; `pvalue` is `NULL` unless the variable is to be appended to. -/
def parseVar (appends : Bool) : Option Reading :=
  let pvalue := if appends then r.vars x else none
  match strstr (snprintf (varname ++ str ":=")) buf with
  | some string =>
    match (keyValue (str ":=") string).2 with
    | some value => some (r.set x (some value))
    | none => some { r.set x none with nobinpkgs := true }
  | none =>
    match strstr (snprintf (varname ++ str "+=")) buf with
    | some string => some (r.set x (some (append pvalue (keyValue (str "+=") string).2)))
    | none => none

/-- `parse_var_with_system` and `parse_var_with_pkg`, which remember in `y` what follows the
name of the variable. -/
def parseVarWith (varlen : ℕ) : Option Reading :=
  match strstr varname buf with
  | none => none
  | some string =>
    if (strstr (str ":=") buf).isSome then
      let (key, value) := keyValue (str ":=") string
      let r := r.set y (some (key.drop varlen))
      match value with
      | some value => some (r.set x (some value))
      | none => some r
    else some (r.set x (some (append (r.vars x) (keyValue (str "+=") string).2)))

def parseVarHash : Option Reading :=
  match strstr varname buf with
  | none => none
  | some string =>
    let (key, value) := keyValue (str ":=") string
    match value with
    | some value => some { r with pkgmap := r.pkgmap.put key value }
    | none => some r

end Reading

inductive Rule
  | var (varname : Bytes) (x : Var) (appends : Bool)
  | varWith (varname : Bytes) (x y : Var) (varlen : ℕ)
  | varHash (varname : Bytes)

def Rule.parse (buf : Bytes) (r : Reading) : Rule → Option Reading
  | .var varname x appends => r.parseVar buf varname x appends
  | .varWith varname x y varlen => r.parseVarWith buf varname x y varlen
  | .varHash varname => r.parseVarHash buf varname

/-- The rules in their order, for the name of the package so far. -/
def rules (nameU : Bytes) : List Rule :=
  [.var (str "PKG_NAME") .name false,
    .var (snprintf (str "PKG_CFLINE_" ++ nameU)) .cfline true,
    .var (snprintf (str "PKG_DFLT_" ++ nameU)) .dflt false,
    .var (str "PKG_LIBC_DEPENDS") .libcDepends false,
    .var (str "PKG_HOST_DEPENDS") .hostDepends false,
    .var (str "PKG_ARCH_DEPENDS") .archDepends false,
    .var (str "PKG_SYSTEM_DEPENDS") .systemDepends false,
    .var (str "PKG_DESCR") .descr false,
    .var (str "PKG_SECTION") .section false,
    .var (str "PKG_URL") .url false,
    .var (str "PKG_BB") .bb false,
    .var (str "PKG_DEPENDS") .depends true,
    .var (str "PKG_KDEPENDS") .kdepends true,
    .var (str "PKG_NEEDS") .needs true,
    .varWith (str "PKG_DEPENDS_") .dependsSystem .sysname 12,
    .varWith (str "PKG_DEPENDS_") .dependsLibc .sysname 12,
    .var (str "PKG_LIBNAME") .libname true,
    .var (str "PKG_OPTS") .opts true,
    .varWith (str "PKG_FLAVOURS_STRING_") .flavoursString .pkgname 20,
    .varWith (str "PKG_FLAVOURS_") .flavours .pkgname 13,
    .varHash (str "PKGFD_"),
    .varHash (str "PKGFX_"),
    .varHash (str "PKGFS_"),
    .varHash (str "PKGFC_"),
    .varWith (str "PKG_CHOICES_") .choices .pkgname 12,
    .varHash (str "PKGCD_"),
    .varHash (str "PKGCS_"),
    .var (str "PKG_SUBPKGS") .subpkgs true,
    .varHash (str "PKGSD_"),
    .varHash (str "PKGSS_"),
    .varHash (str "PKGSC_"),
    .varHash (str "PKGSK_"),
    .varHash (str "PKGSN_")]

/-- A directory of `package/` with a Makefile that can be opened. -/
structure Dir where
  name : Bytes
  makefile : Bytes
  /-- There is a `Config.in.manual`. -/
  manual : Bool

/-- The lines of a file, as far as they fit into a buffer of `MAXPATH` bytes. -/
def fileLines (file : Bytes) : List Bytes := readLines newline (maxPath - 2) file

/-- Only variables prefixed with `PKG` are read. -/
def readLine (dname : Bytes) (r : Reading) (buf : Bytes) : Reading :=
  if str "PKG" <+: buf then
    ((rules (toupperstr ((r.vars .name).getD dname))).findSome? (Rule.parse buf r)).getD r
  else r

def readMakefile (vars : Vars) (dir : Dir) : Reading :=
  (fileLines dir.makefile).foldl (readLine dir.name) ⟨vars, [], false⟩

/-- Of a manually maintained package only the section is read. -/
def readManual (vars : Vars) (nobinpkgs : Bool) (dir : Dir) : Reading :=
  (fileLines dir.makefile).foldl
    (fun r buf => (r.parseVar buf (str "PKG_SECTION") .section false).getD r)
    ⟨vars, [], nobinpkgs⟩

end OpenADK.Pkgmaker
