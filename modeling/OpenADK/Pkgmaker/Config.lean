import OpenADK.Pkgmaker.Menus

/-!
# Writing the `Config.in` files of a package

For each package of a Makefile `pkgmaker` writes a file `Config.in.<package>`. What the first
package has printed of the variables of the Makefile is gone for the packages after it.
-/

namespace OpenADK.Pkgmaker
open CString

/-- How `printf` shows a string. -/
def shown (s : Option Bytes) : Bytes := s.getD (str "(null)")

def selectLine (val : Bytes) : Bytes := str "\tselect ADK_PACKAGE_" ++ toupperstr val ++ [newline]
def dependsLine (val : Bytes) : Bytes :=
  str "\tdepends on ADK_PACKAGE_" ++ toupperstr val ++ [newline]

def tokenLines (line : Bytes → Bytes) (value : Option Bytes) : List Bytes :=
  (tokens (str " ") (value.getD [])).map line

/-- One line for each token of what the map holds for a key, if it fits into the buffer. -/
def mapLines (line : Bytes → Bytes) (pkgmap : StrMap) (key : Bytes) : List Bytes :=
  tokenLines line (pkgmap.get key maxValue)

/-- A system, host, libc or architecture dependency, with the prefixes of a token that is negated
and of one that is not. -/
def targetLine (negated plain : Bytes) : Option Bytes → List Bytes
  | none => []
  | some value =>
    [str "\tdepends on " ++
      ((tokens (str " ") value).foldl (fun (line, sp) token =>
        if str "!" <+: token then (line ++ sp ++ negated ++ toupperstr token, str " && ")
        else (line ++ sp ++ plain ++ toupperstr token, str " || ")) ([], [])).1 ++ [newline]]

/-- What the tokens of `PKG_NEEDS` begin with, and what is printed for them. -/
def needLines : List (Bytes × List Bytes) :=
  [(str "c++", [str "\tselect ADK_TOOLCHAIN_WITH_CXX\n", str "\tselect ADK_PACKAGE_LIBSTDCXX\n"]),
    (str "iconv", [str "\tselect ADK_TARGET_LIBC_WITH_LIBICONV if " ++
      str "ADK_TARGET_LIB_UCLIBC_NG && !ADK_PACKAGE_LIBICONV\n"]),
    (str "intl", [str "\tselect ADK_TARGET_LIBC_WITH_LIBINTL if ADK_TARGET_LIB_UCLIBC_NG\n"]),
    (str "locale", [str "\tselect ADK_TARGET_LIBC_WITH_LOCALE if ADK_TARGET_LIB_UCLIBC_NG\n"]),
    (str "threads", [str "\tselect ADK_TARGET_LIB_WITH_THREADS\n"]),
    (str "data", [str "\tselect ADK_RUNTIME_DATA_PARTITION\n"]),
    (str "mmu", [str "\tdepends on ADK_TARGET_WITH_MMU\n"])]

def needsLines (value : Option Bytes) : List Bytes :=
  (tokens (str " ") (value.getD [])).flatMap fun token =>
    needLines.flatMap fun need => if need.1 <+: token then need.2 else []

def pseudoName (token : Bytes) : Bytes := token ++ List.replicate (23 - token.length) (chr '.')

def optionLine (before after : Bytes) (value : Option Bytes) : List Bytes :=
  match value with
  | none => []
  | some value => if value = [] then [] else [before ++ value ++ after]

/-- The line that begins the entry of a flavour or of a choice. -/
def symbolLine (pkgname token : Bytes) : Bytes :=
  str "config ADK_PACKAGE_" ++ pkgname ++ str "_" ++ toupperstr token ++ [newline]

def flavourLines (pkgmap : StrMap) (pkgname token : Bytes) : List Bytes :=
  let descr := (pkgmap.get (str "PKGFD_" ++ token) maxValue).getD []
  let dflt := (pkgmap.get (str "PKGFX_" ++ token) maxValue).getD []
  [[newline], symbolLine pkgname token,
    str "\tdefault " ++ (if dflt = [] then str "n" else dflt) ++ [newline]] ++
  optionLine (str "\t") [newline] (pkgmap.get (str "PKGFC_" ++ token) maxValue) ++
  [str "\tboolean \"" ++ descr ++ str "\"\n",
    str "\tdepends on ADK_PACKAGE_" ++ pkgname ++ [newline]] ++
  mapLines selectLine pkgmap (str "PKGFS_" ++ token) ++
  [str "\thelp\n", str "\t  " ++ descr ++ [newline]]

def flavourStringLines (pkgmap : StrMap) (pkgname token : Bytes) : List Bytes :=
  let descr := (pkgmap.get (str "PKGFD_" ++ token) maxValue).getD []
  [[newline], symbolLine pkgname token] ++
  optionLine (str "\tdefault \"") (str "\"\n") (pkgmap.get (str "PKGFX_" ++ token) maxValue) ++
  optionLine (str "\t") [newline] (pkgmap.get (str "PKGFC_" ++ token) maxValue) ++
  [str "\tstring \"" ++ descr ++ str "\"\n",
    str "\tdepends on ADK_PACKAGE_" ++ pkgname ++ [newline]] ++
  mapLines selectLine pkgmap (str "PKGFS_" ++ token) ++
  [str "\thelp\n", str "\t  " ++ descr ++ [newline]]

def choiceLines (pkgmap : StrMap) (pkgname token : Bytes) : List Bytes :=
  [symbolLine pkgname token,
    str "\tbool \"" ++ (pkgmap.get (str "PKGCD_" ++ token) maxValue).getD [] ++ str "\"\n"] ++
  mapLines selectLine pkgmap (str "PKGCS_" ++ token)

def choicesLines (pkgmap : StrMap) (pkgname : Bytes) : Option Bytes → List Bytes
  | none => []
  | some value =>
    [[newline], str "choice\n", str "prompt \"Package flavour choice\"\n",
      str "depends on ADK_PACKAGE_" ++ pkgname ++ [newline], [newline]] ++
    (tokens (str " ") value).flatMap (choiceLines pkgmap pkgname) ++
    [[newline], str "endchoice\n"]

def headLines (v : Vars) (token : Bytes) : List Bytes :=
  let hidden := ((v .opts).bind fun opts => strstr (str "devonly") opts).isSome
  (if (v .bb).isSome then
    [str "comment \"" ++ token ++ str "... " ++ shown (v .descr) ++
        str " (provided by busybox)\"\n",
      str "depends on ADK_PACKAGE_BUSYBOX_HIDE\n", [newline]]
  else []) ++
  [str "config ADK_PACKAGE_" ++ toupperstr token ++ [newline],
    (if hidden then str "\t#prompt \"" else str "\tprompt \"") ++ pseudoName token ++ str ". " ++
      shown (v .descr) ++ str "\"\n",
    str "\tbool\n"] ++
  (tokens (str "@") ((v .cfline).getD [])).map fun cftoken => str "\t" ++ cftoken ++ [newline]

def systemLines : Option Bytes → List Bytes :=
  targetLine (str "!ADK_TARGET_SYSTEM") (str "ADK_TARGET_SYSTEM_")

def hostLines : Option Bytes → List Bytes := targetLine (str "!ADK_HOST") (str "ADK_HOST_")

def libcLines : Option Bytes → List Bytes :=
  targetLine (str "!ADK_TARGET_LIB_") (str "ADK_TARGET_LIB_")

def archLines : Option Bytes → List Bytes :=
  targetLine (str "!ADK_TARGET_ARCH") (str "ADK_TARGET_ARCH_")

/-- The lines for the dependencies of a system and of a C library. -/
def systemSelects (v : Vars) : List Bytes :=
  let sysname := shown (v .sysname)
  tokenLines (fun token => str "\tselect ADK_PACKAGE_" ++ toupperstr token ++
    str " if ADK_TARGET_SYSTEM_" ++ sysname ++ [newline]) (v .dependsSystem) ++
  tokenLines (fun token => str "\tselect ADK_PACKAGE_" ++ toupperstr token ++
    str " if ADK_TARGET_LIB_" ++ sysname ++ [newline]) (v .dependsLibc)

def dependsLines (v : Vars) : List Bytes :=
  systemLines (v .systemDepends) ++ hostLines (v .hostDepends) ++ libcLines (v .libcDepends) ++
  archLines (v .archDepends) ++
  needsLines (v .needs) ++
  tokenLines selectLine (v .depends) ++
  tokenLines (fun token => str "\tselect ADK_LINUX_KERNEL_" ++ toupperstr token ++
    str " m if ADK_TARGET_OS_LINUX\n") (v .kdepends) ++
  systemSelects v

def tailLines (dname : Bytes) (v : Vars) (token : Bytes) : List Bytes :=
  (if (v .bb).isSome then [str "\tdepends on !ADK_PACKAGE_BUSYBOX_HIDE\n"] else []) ++
  [str "\tselect ADK_COMPILE_" ++ toupperstr dname ++ [newline],
    str "\tdefault " ++ (v .dflt).getD (str "n") ++ [newline],
    str "\thelp\n", str "\t  " ++ shown (v .descr) ++ [newline], [newline]] ++
  ((v .url).toList.map fun url => str "\t  WWW: " ++ url ++ [newline]) ++
  [[newline], str "config ADK_PACKAGE_" ++ toupperstr token ++ str "_DBG\n",
    str "\tbool \"add debug symbols package\"\n",
    str "\tdepends on ADK_PACKAGE_GDB && ADK_BUILD_WITH_DEBUG\n", str "\tdepends on ADK_DEBUG\n",
    str "\tdepends on ADK_PACKAGE_" ++ toupperstr token ++ [newline], str "\tdefault n\n",
    str "\thelp\n", [newline]]

def configLines (pkgmap : StrMap) (dname : Bytes) (v : Vars) (token : Bytes) : List Bytes :=
  let pkgname := shown (v .pkgname)
  headLines v token ++
  mapLines dependsLine pkgmap (str "PKGSN_" ++ toupperstr token) ++
  mapLines selectLine pkgmap (str "PKGSS_" ++ toupperstr token) ++
  mapLines (fun val => str "\tselect ADK_KERNEL_" ++ toupperstr val ++ [newline]) pkgmap
    (str "PKGSK_" ++ toupperstr token) ++
  dependsLines v ++
  tailLines dname v token ++
  (tokens (str " ") ((v .flavours).getD [])).flatMap (flavourLines pkgmap pkgname) ++
  (tokens (str " ") ((v .flavoursString).getD [])).flatMap (flavourStringLines pkgmap pkgname) ++
  choicesLines pkgmap pkgname (v .choices)

/-- The variables that each file of a package is written from. `PKGSD_` replaces the description
also for the packages after it. -/
def configVars (pkgmap : StrMap) : Vars → List Bytes → List (Bytes × Vars)
  | _, [] => []
  | v, token :: rest =>
    let descr := (pkgmap.get (str "PKGSD_" ++ toupperstr token) maxValue).or (v .descr)
    let v : Vars := Function.update v .descr descr
    (token, v) :: configVars pkgmap (v.clear resetInLoop) rest

def configFiles (pkgmap : StrMap) (dname : Bytes) (v : Vars) (ts : List Bytes) :
    List (Bytes × List Bytes) :=
  (configVars pkgmap v ts).map fun (token, v) => (token, configLines pkgmap dname v token)

theorem configFiles_cons (pkgmap : StrMap) (dname : Bytes) (v : Vars) (token : Bytes)
    (rest : List Bytes) :
    let descr := (pkgmap.get (str "PKGSD_" ++ toupperstr token) maxValue).or (v .descr)
    let v' : Vars := Function.update v .descr descr
    configFiles pkgmap dname v (token :: rest) = (token, configLines pkgmap dname v' token) ::
      configFiles pkgmap dname (v'.clear resetInLoop) rest := rfl

/-- The files that are written for a package, each as its lines. -/
def Package.files (p : Package) : List (Bytes × List Bytes) :=
  configFiles p.reading.pkgmap p.dir.name p.reading.vars p.tokens

/-- What is in `Config.in.<token>` at the end. A file that is written twice is created anew. -/
def Package.file (p : Package) (token : Bytes) : Option (List Bytes) :=
  p.files.reverse.lookup token

end OpenADK.Pkgmaker
