import OpenADK.Kconfig.WriteSession

/-!
# The files of the build

`conf_write_autoconf` compares the values with those of the `auto.conf` that it wrote before,
touches a file below `include/config` for every symbol that has changed, and writes `auto.conf`,
`tristate.conf` and `autoconf.h` anew. The build depends on the files that are touched.

The slot `S_DEF_AUTO` of the symbols is kept as a state whose user's values it is, since
`conf_read_simple` reads both slots with the same loop.
-/

namespace OpenADK.Kconfig
open Tristate
variable {ι : Type} [DecidableEq ι] (G : SymbolTable ι)

/-! ### The printers -/

/-- `tolower` in the C locale. -/
def toLower (c : Char) : Char := if 'A' ≤ c ∧ c ≤ 'Z' then Char.ofNat (c.toNat + 32) else c

/-- `toupper` in the C locale. -/
def toUpper (c : Char) : Char := if 'a' ≤ c ∧ c ≤ 'z' then Char.ofNat (c.toNat - 32) else c

/-- The path of the file of a symbol below `include/config`. -/
def touchPath (name : Text) : Text :=
  (name.map fun c => if toLower c = '_' then '/' else toLower c) ++ ['.', 'h']

/-- Whether `kconfig_print_symbol` prints the comment that the symbol is not set. -/
def isUnset (type : SymType) (value : Text) : Bool :=
  (type = .boolean || type = .tristate) && value.head? = some 'n'

/-- The line of an item in `auto.conf`, where symbols that are not set are left out. -/
def printAuto : Item ι → Text
  | .title _ => []
  | .symbol s value =>
    if isUnset (G.type s) value then [] else printItem G (.symbol s value)

/-- `tristate_print_symbol`. -/
def printTristate : Item ι → Text
  | .title _ => []
  | .symbol s value =>
    match G.type s, value with
    | .tristate, c :: _ =>
      if c = 'n' then [] else (G.symbol s).name.getD [] ++ ['=', toUpper c, '\n']
    | _, _ => []

/-- `#define ` -/
def hashDefine : Text := ['#', 'd', 'e', 'f', 'i', 'n', 'e', ' ']

/-- `header_print_symbol`. -/
def printHeader : Item ι → Text
  | .title _ => []
  | .symbol s value =>
    let name := (G.symbol s).name.getD []
    match G.type s with
    | .boolean | .tristate =>
      match value with
      | 'n' :: _ => []
      | 'm' :: _ => hashDefine ++ name ++ ['_', 'M', 'O', 'D', 'U', 'L', 'E', ' ', '1', '\n']
      | _ => hashDefine ++ name ++ [' ', '1', '\n']
    | .hex =>
      let prefixed := if hasHexPrefix value then value else '0' :: 'x' :: value
      hashDefine ++ name ++ ' ' :: prefixed ++ ['\n']
    | .string => hashDefine ++ name ++ ' ' :: '"' :: escape value ++ ['"', '\n']
    | .int => hashDefine ++ name ++ ' ' :: value ++ ['\n']
    | _ => []

/-! ### `conf_split_config` -/

/-- A line that names no symbol, or one that has a type and that no choice hides from `sym_find`. -/
def knownLine (line : Text) : Bool :=
  match parseLine line with
  | .ignored => true
  | .unset name | .assign name _ =>
    match symFind G name with
    | none => false
    | some s => G.type s ≠ .unknown && !G.isChoice s

/-- `conf_read_simple (name, S_DEF_AUTO)`, with what is in `auto.conf`. Nothing is returned when
`sym_lookup` would create a symbol, when a symbol would get a type, and when a name is that of a
choice, which `sym_lookup` passes over; of other names `sym_find` finds the same symbol. -/
def readAuto (old : Option Text) (σ auto : State ι) : Option (State ι × State ι) :=
  match old with
  | none => some (σ, auto)
  | some contents =>
    if (confLines contents).all (knownLine G) then
      some (symCalcValue G G.modulesSym (clearValid G.allSymbols σ),
        (loadFile G contents auto).state)
    else none

/-- Whether a symbol has changed since `auto.conf` was written. -/
def changed (s : ι) (σ auto : State ι) : Bool :=
  if (σ.sym s).flagWrite then
    if (auto.sym s).flagDefUser then
      match G.type s with
      | .boolean | .tristate => (σ.sym s).curr.tri ≠ (auto.sym s).defUser.tri
      | .string | .hex | .int => (σ.sym s).curr.val.text ≠ (auto.sym s).defUser.val.text
      | _ => true
    else
      match G.type s with
      | .boolean | .tristate => (σ.sym s).curr.tri ≠ .no
      | _ => true
  else (auto.sym s).flagDefUser

/-- Whether `conf_split_config` touches the file of the symbol. -/
def touches (s : ι) (σ auto : State ι) : Bool :=
  !(G.symbol s).flagAuto && (G.symbol s).name.isSome && changed G s σ auto

/-- The loop of `conf_split_config`: whether a file could not be created, the symbols whose files
were touched and the state. -/
def splitLoop (create : Text → Bool) (auto : State ι) :
    List ι → State ι → Bool × List ι × State ι
  | [], σ => (false, [], σ)
  | s :: syms, σ =>
    let σ := symCalcValue G s σ
    if touches G s σ auto then
      if create (touchPath ((G.symbol s).name.getD [])) then
        let rest := splitLoop create auto syms σ
        (rest.1, s :: rest.2.1, rest.2.2)
      else (true, [], σ)
    else splitLoop create auto syms σ

/-- How the file system answers `conf_write_autoconf`. -/
structure AutoAnswers where
  chdir : Bool := true
  /-- Whether the file with the path can be created, with the directories that are missing. -/
  create : Text → Bool := fun _ => true
  chdirBack : Bool := true
  openTmp : Bool := true
  renameHeader : Bool := true
  renameTristate : Bool := true
  renameAuto : Bool := true

structure AutoFiles (ι : Type) where
  touched : List ι := []
  header : Option Text := none
  tristate : Option Text := none
  autoConf : Option Text := none

/-- The loop of `conf_write_autoconf`: the symbols that are written. -/
def autoLoop : List ι → State ι → List (Item ι) × State ι
  | [], σ => ([], σ)
  | s :: syms, σ =>
    let σ := symCalcValue G s σ
    if (σ.sym s).flagWrite ∧ (G.symbol s).name.isSome then
      let here := confWriteSymbol G s σ
      let rest := autoLoop syms here.2
      (here.1 ++ rest.1, rest.2)
    else autoLoop syms σ

/-- The comment of `header_print_comment`. -/
def headerComment (value : Text) : Text :=
  ['/', '*', '\n'] ++ (value.splitOn '\n').flatMap (fun line =>
    ' ' :: '*' :: (if line = [] then [] else ' ' :: line) ++ ['\n']) ++ [' ', '*', '/', '\n']

/-- `conf_write_heading` with the printer of the header. -/
def headerHeading (root : RootMenu ι) : Text :=
  headerComment (('\n' :: generatedNotice ++ '\n' :: root.prompt ++ ['\n']).take 255)

/-- `conf_write_autoconf`: whether it returns 1, what it has done and the state with the slot
`S_DEF_AUTO`. -/
def confWriteAutoconf (root : RootMenu ι) (answers : AutoAnswers) (old : Option Text)
    (σ auto : State ι) : Option (Bool × AutoFiles ι × State ι × State ι) :=
  (readAuto G old (symClearAllValid G σ) auto).map fun (σ, auto) =>
    if !answers.chdir then (true, {}, σ, auto)
    else
      let split := splitLoop G answers.create auto G.allSymbols σ
      let files : AutoFiles ι := { touched := split.2.1 }
      if split.1 || !answers.chdirBack || !answers.openTmp then (true, files, split.2.2, auto)
      else
        let items := autoLoop G G.allSymbols split.2.2
        if !answers.renameHeader then (true, files, items.2, auto)
        else
          let files := { files with
            header := some (headerHeading root ++ items.1.flatMap (printHeader G)) }
          if !answers.renameTristate then (true, files, items.2, auto)
          else
            let files := { files with
              tristate := some (confHeading root ++ items.1.flatMap (printTristate G)) }
            if !answers.renameAuto then (true, files, items.2, auto)
            else
              (false, { files with
                autoConf := some (confHeading root ++ items.1.flatMap (printAuto G)) },
                items.2, auto)

/-! ### The loops -/

namespace SymbolTable

/-- The text of a symbol in `auto.conf`, if there is one. -/
def autoValue (σ : State ι) (s : ι) : Option Text :=
  let value := (symGetStringValue G (symCalcValue G) s σ).1
  if ((σ.sym s).flagWrite ∧ (G.symbol s).name.isSome) ∧ (G.type s ≠ .other ∧ G.type s ≠ .unknown) ∧
      isUnset (G.type s) value = false then some value
  else none

/-- The items of `auto.conf`. -/
def autoItems (σ : State ι) : List (Item ι) :=
  G.symbolHash.filterMap fun s => (G.autoValue σ s).map (.symbol s)

/-- What is asked of a tree whose `auto.conf` is read again: the prompt can stand in a comment, the
choices have no names, and every symbol that can be written is told by its name. -/
structure Rereadable (root : RootMenu ι) : Prop where
  prompt : IsRemark root.prompt
  nodup : G.symbolHash.Nodup
  choices : ∀ c, G.isChoice c → (G.symbol c).name = none
  names : ∀ s ∈ G.symbolHash, (G.symbol s).name.isSome → G.type s ≠ .unknown →
    ∃ name, (G.symbol s).name = some name ∧ IsWord name ∧ symFind G name = some s

def ValidValues (σ : State ι) : Prop :=
  ∀ s ∈ G.symbolHash, (G.symbol s).name.isSome → G.type s ≠ .unknown → (σ.sym s).flagWrite →
    G.ValidValue s σ

def autoItem (σ : State ι) (s : ι) : List (Item ι) :=
  if (σ.sym s).flagWrite ∧ (G.symbol s).name.isSome then (confWriteSymbol G s σ).1 else []

end SymbolTable

open SymbolTable

section
variable {G} {σ τ auto : State ι} {s : ι} {syms : List ι}

theorem symGetStringValue_state (hm : (σ.sym G.modulesSym).flagValid) :
    (symGetStringValue G (symCalcValue G) s σ).2 = σ := by
  unfold symGetStringValue
  split
  · split
    · rfl
    · rfl
    · exact symCalcValue_of_valid hm
  · split
    · rfl
    · rfl
    · exact symCalcValue_of_valid hm
  · rfl

theorem confWriteSymbol_state (hm : (σ.sym G.modulesSym).flagValid) :
    (confWriteSymbol G s σ).2 = σ := by
  rcases confWriteSymbol_cases (G := G) s σ with h | ⟨-, h⟩
  · rw [h]
  · rw [h]
    exact symGetStringValue_state hm

/-- When everything has been evaluated the loop only looks. -/
theorem autoLoop_eq (hm : (σ.sym G.modulesSym).flagValid)
    (hvalid : ∀ s ∈ syms, (σ.sym s).flagValid) :
    autoLoop G syms σ = (syms.flatMap (G.autoItem σ), σ) := by
  induction syms with
  | nil => rfl
  | cons s syms ih =>
    have hrest := ih fun t ht => hvalid t (List.mem_cons_of_mem _ ht)
    have hs : symCalcValue G s σ = σ := symCalcValue_of_valid (hvalid s List.mem_cons_self)
    unfold autoLoop
    simp only [hs, confWriteSymbol_state hm, hrest, List.flatMap_cons]
    unfold SymbolTable.autoItem
    split
    · rfl
    · rw [List.nil_append]

omit [DecidableEq ι] in
/-- What is compared of a symbol. -/
theorem touches_congr (hs : (τ.sym s).flagWrite = (σ.sym s).flagWrite)
    (hcurr : (τ.sym s).curr = (σ.sym s).curr) : touches G s τ auto = touches G s σ auto := by
  unfold touches changed
  rw [hs, hcurr]

/-- What a symbol is compared with when it is evaluated is what it has in the end. -/
theorem touches_symCalcList (hquiet : G.Quiet σ) (hclosed : ClosedBut G [] σ)
    (hs : (σ.sym s).flagValid) : touches G s (symCalcList G syms σ) auto = touches G s σ auto := by
  have hmark : MarkIs G s (σ.sym s).flagWrite σ :=
    ⟨hquiet, ⟨hs, fun c hc hm => hclosed c hc s hm List.not_mem_nil hs⟩, rfl⟩
  exact touches_congr ((markIs_invariant G s _).symCalcList hmark).flagWrite
    ((kept_symCalcList syms).curr s hs)

theorem splitLoop_eq (hG : G.Finalized) (hmodules : G.isChoice G.modulesSym = false)
    (hconsults : ∀ s, G.Consults s) {create : Text → Bool} (hquiet : G.Quiet σ)
    (hclosed : ClosedBut G [] σ) (hok : (splitLoop G create auto syms σ).1 = false) :
    (splitLoop G create auto syms σ).2.1 =
        syms.filter (fun s => touches G s (symCalcList G syms σ) auto) ∧
      (splitLoop G create auto syms σ).2.2 = symCalcList G syms σ := by
  induction syms generalizing σ with
  | nil => exact ⟨rfl, rfl⟩
  | cons s syms ih =>
    have hquiet1 : G.Quiet (symCalcValue G s σ) := (quiet_invariant G).symCalcValue hquiet
    have hclosed1 : ClosedBut G [] (symCalcValue G s σ) :=
      hclosed.symCalcValue hG hmodules hconsults
    have hlist : symCalcList G (s :: syms) σ = symCalcList G syms (symCalcValue G s σ) := rfl
    have hvalid : ((symCalcValue G s σ).sym s).flagValid := valid_symCalcValue
    have hsame : touches G s (symCalcList G syms (symCalcValue G s σ)) auto =
        touches G s (symCalcValue G s σ) auto := touches_symCalcList hquiet1 hclosed1 hvalid
    rw [hlist, List.filter_cons, hsame]
    unfold splitLoop at hok ⊢
    simp only at hok ⊢
    split at hok
    · next htouch =>
      split at hok
      · next hcreate =>
        obtain ⟨hlist, hstate⟩ := ih hquiet1 hclosed1 hok
        rw [if_pos htouch, if_pos hcreate, if_pos htouch]
        exact ⟨congrArg (s :: ·) hlist, hstate⟩
      · cases hok
    · next htouch =>
      obtain ⟨hlist, hstate⟩ := ih hquiet1 hclosed1 hok
      rw [if_neg htouch, if_neg htouch]
      exact ⟨hlist, hstate⟩

/-! ### A run -/

theorem valid_symCalcList (hs : s ∈ syms) : ((symCalcList G syms σ).sym s).flagValid := by
  induction syms generalizing σ with
  | nil => cases hs
  | cons t syms ih =>
    rcases List.mem_cons.mp hs with rfl | hs
    · exact (kept_symCalcList syms).valid s valid_symCalcValue
    · exact ih hs

theorem quiet_closed_readAuto (hG : G.Finalized) (hmodules : G.isChoice G.modulesSym = false)
    (hconsults : ∀ s, G.Consults s) {old : Option Text} {auto' : State ι}
    (hσ : G.Quiet σ ∧ ClosedBut G [] σ) (h : readAuto G old σ auto = some (τ, auto')) :
    G.Quiet τ ∧ ClosedBut G [] τ := by
  have hI := quiet_closed_session hG hmodules hconsults
  unfold readAuto at h
  split at h
  · cases h
    exact hσ
  · split at h
    · cases h
      exact hI.evaluates _ _ (hI.clear _ hσ)
    · cases h

/-- What a run that succeeds has done. -/
theorem of_confWriteAutoconf (hG : G.Finalized) (hmodules : G.isChoice G.modulesSym = false)
    (hconsults : ∀ s, G.Consults s) {root : RootMenu ι} (hσ : G.WritingReachable root σ)
    {answers : AutoAnswers} {old : Option Text} {files : AutoFiles ι} {auto' : State ι}
    (h : confWriteAutoconf G root answers old σ auto = some (false, files, τ, auto')) :
    (∃ σ', readAuto G old (symClearAllValid G σ) auto = some (σ', auto')) ∧
      (∀ s ∈ G.symbolHash, (τ.sym s).flagValid) ∧ (τ.sym G.modulesSym).flagValid ∧
      files.touched = G.symbolHash.filter (fun s => touches G s τ auto') ∧
      files.autoConf = some (confHeading root ++
        (G.symbolHash.flatMap (G.autoItem τ)).flatMap (printAuto G)) := by
  have hI := quiet_closed_session hG hmodules hconsults
  have hclear := hI.symClearAllValid (hI.writingReachable hG (quiet_closed_initial hG) hσ)
  unfold confWriteAutoconf at h
  rw [Option.map_eq_some_iff] at h
  obtain ⟨⟨σ', auto1⟩, hread, h⟩ := h
  obtain ⟨hquiet, hclosed⟩ := quiet_closed_readAuto hG hmodules hconsults hclear hread
  simp only at h
  split at h
  · cases h
  split at h
  · cases h
  next hsplit =>
  simp only [Bool.or_eq_true, not_or, Bool.not_eq_true] at hsplit
  obtain ⟨htouched, hstate⟩ := splitLoop_eq hG hmodules hconsults hquiet hclosed hsplit.1.1
  rw [hG.allSymbols] at h htouched hstate
  rw [hstate] at h
  have hvalid : ∀ s ∈ G.symbolHash, ((symCalcList G G.symbolHash σ').sym s).flagValid :=
    fun s hs => valid_symCalcList hs
  have hm : ((symCalcList G G.symbolHash σ').sym G.modulesSym).flagValid := by
    rcases hG.modules with hm | hm
    · rw [hm]
      exact (kept_symCalcList G.symbolHash).valid _ hquiet.const.1
    · exact hvalid _ hm
  rw [autoLoop_eq hm hvalid] at h
  split at h
  · cases h
  split at h
  · cases h
  split at h
  · cases h
  cases h
  exact ⟨⟨σ', hread⟩, hvalid, hm, htouched, rfl⟩

/-! ### Reading `auto.conf` again -/

theorem confWriteSymbol_eq_nil (h : ¬(G.type s ≠ .other ∧ G.type s ≠ .unknown)) :
    (confWriteSymbol G s σ).1 = [] := by
  unfold confWriteSymbol
  split
  · rfl
  · rfl
  · next hother hunknown => exact absurd ⟨hother, hunknown⟩ h

theorem flatMap_printAuto (σ : State ι) (syms : List ι) :
    (syms.flatMap (G.autoItem σ)).flatMap (printAuto G) =
      (syms.filterMap fun s => (G.autoValue σ s).map (.symbol s)).flatMap (printItem G) := by
  induction syms with
  | nil => rfl
  | cons s syms ih =>
    have hs : (G.autoItem σ s).flatMap (printAuto G) =
        ((G.autoValue σ s).map (Item.symbol s)).toList.flatMap (printItem G) := by
      unfold SymbolTable.autoItem SymbolTable.autoValue
      by_cases hw : (σ.sym s).flagWrite ∧ (G.symbol s).name.isSome
      · by_cases ht : G.type s ≠ .other ∧ G.type s ≠ .unknown
        · rw [if_pos hw, confWriteSymbol_eq ht, List.flatMap_singleton, printAuto]
          cases hu : isUnset (G.type s) (symGetStringValue G (symCalcValue G) s σ).1 with
          | true =>
            simp only
            rw [if_pos trivial, if_neg fun h => Bool.noConfusion (hu.symm.trans h.2.2)]
            rfl
          | false =>
            simp only
            rw [if_neg Bool.false_ne_true, if_pos ⟨hw, ht, hu⟩]
            exact (List.flatMap_singleton _ _).symm
        · rw [if_pos hw, confWriteSymbol_eq_nil ht]
          simp [ht]
      · rw [if_neg hw]
        simp [hw]
    rw [List.flatMap_cons, List.flatMap_append, ih, hs, List.filterMap_cons]
    cases G.autoValue σ s with
    | none => rfl
    | some value =>
      rw [Option.map_some, Option.toList_some, List.flatMap_singleton, List.flatMap_cons]

omit [DecidableEq ι] in
theorem itemSyms_filterMap (value : ι → Option Text) (syms : List ι) :
    itemSyms (syms.filterMap fun s => (value s).map (.symbol s)) =
      syms.filter fun s => (value s).isSome := by
  induction syms with
  | nil => rfl
  | cons s syms ih =>
    rw [List.filterMap_cons, List.filter_cons]
    cases hv : value s with
    | none => simpa [hv] using ih
    | some v =>
      simp only [Option.map_some, Option.isSome_some, if_true]
      exact congrArg (s :: ·) ih

section
variable {root : RootMenu ι} (hroot : G.Rereadable root) (hvalues : G.ValidValues τ)
variable (hvalid : ∀ s ∈ G.symbolHash, (τ.sym s).flagValid) (hm : (τ.sym G.modulesSym).flagValid)
include hroot hvalues hvalid hm

theorem readable_autoItems (item : Item ι) (hitem : item ∈ G.autoItems τ) : G.Readable τ item := by
  obtain ⟨s, hs, hitem⟩ := List.mem_filterMap.mp hitem
  rw [Option.map_eq_some_iff] at hitem
  obtain ⟨value, hvalue, rfl⟩ := hitem
  unfold SymbolTable.autoValue at hvalue
  simp only at hvalue
  split at hvalue
  · next h =>
    obtain ⟨⟨hwrite, hnamed⟩, htype, -⟩ := h
    cases hvalue
    obtain ⟨name, hname, hword, hfind⟩ := hroot.names s hs hnamed htype.2
    have hchoice : G.isChoice s = false := by
      by_contra hc
      rw [hroot.choices s (Bool.eq_true_of_not_eq_false hc)] at hname
      cases hname
    have hshows : G.Shows s (symGetStringValue G (symCalcValue G) s τ).1 τ := by
      have h := shows_symGetStringValue (G := G) htype (hvalid s hs)
      rwa [symGetStringValue_state hm] at h
    exact hshows.readable hname hword hfind hchoice (hvalues s hs hnamed htype.2 hwrite)
  · cases hvalue

/-- The slot that `auto.conf` is read into has the values it was written with. -/
theorem restored_autoItems (hG : G.Finalized) (auto : State ι) :
    G.Restored τ auto (itemSyms (G.autoItems τ))
      (loadFile G (confText G root (G.autoItems τ)) auto) := by
  refine loadFile_confText hG hroot.prompt (readable_autoItems hroot hvalues hvalid hm) ?_ auto
  unfold autoItems
  rw [itemSyms_filterMap]
  exact hroot.nodup.filter _

end

/-! ### What is touched -/

omit [DecidableEq ι] in
theorem tristateText_injective {t u : Tristate} (h : tristateText t = tristateText u) : t = u := by
  cases t <;> cases u <;> first | rfl | cases h

omit [DecidableEq ι] in
theorem isUnset_tristateText {type : SymType} (h : type = .boolean ∨ type = .tristate)
    (t : Tristate) : isUnset type (tristateText t) = decide (t = .no) := by
  rcases h with rfl | rfl <;> cases t <;> rfl

theorem symGetStringValue_tri (htype : G.type s = .boolean ∨ G.type s = .tristate)
    (hvalid : G.ValidValue s σ) :
    (symGetStringValue G (symCalcValue G) s σ).1 = tristateText (σ.sym s).curr.tri := by
  unfold SymbolTable.ValidValue at hvalid
  unfold symGetStringValue
  rcases htype with htype | htype
  · rw [htype] at hvalid ⊢
    cases htri : (σ.sym s).curr.tri with
    | no | yes => rfl
    | mod => exact absurd htri hvalid
  · rw [htype] at hvalid ⊢
    cases htri : (σ.sym s).curr.tri with
    | no | yes => rfl
    | mod => exact if_neg (hvalid htri)

/-- The text of a boolean or tristate symbol in `auto.conf`. -/
theorem autoValue_tri (hnamed : (G.symbol s).name.isSome)
    (htype : G.type s = .boolean ∨ G.type s = .tristate)
    (hvalid : (σ.sym s).flagWrite → G.ValidValue s σ) :
    G.autoValue σ s = if (σ.sym s).flagWrite ∧ (σ.sym s).curr.tri ≠ .no
      then some (tristateText (σ.sym s).curr.tri) else none := by
  have hother : G.type s ≠ .other ∧ G.type s ≠ .unknown := by
    rcases htype with h | h <;> rw [h] <;> decide
  unfold SymbolTable.autoValue
  cases hw : (σ.sym s).flagWrite with
  | false => simp
  | true =>
    simp only [symGetStringValue_tri htype (hvalid hw), isUnset_tristateText htype, hnamed, hother,
      decide_eq_false_iff_not, true_and, ne_eq, not_false_eq_true, and_self]

/-- The text of another symbol in `auto.conf`. -/
theorem autoValue_text (hnamed : (G.symbol s).name.isSome)
    (htype : G.type s = .int ∨ G.type s = .hex ∨ G.type s = .string) :
    G.autoValue σ s = if (σ.sym s).flagWrite then some (σ.sym s).curr.val.text else none := by
  have hstring : (symGetStringValue G (symCalcValue G) s σ).1 = (σ.sym s).curr.val.text := by
    unfold symGetStringValue
    rcases htype with h | h | h <;> rw [h]
  have hunset (value : Text) : isUnset (G.type s) value = false := by
    rcases htype with h | h | h <;> rw [h] <;> rfl
  have hother : G.type s ≠ .other ∧ G.type s ≠ .unknown := by
    rcases htype with h | h | h <;> rw [h] <;> decide
  unfold SymbolTable.autoValue
  simp only [hstring, hunset, hnamed, hother, ne_eq, not_false_eq_true, and_self, and_true]

theorem mem_itemSyms_autoItems (hs : s ∈ G.symbolHash) :
    s ∈ itemSyms (G.autoItems σ) ↔ (G.autoValue σ s).isSome := by
  unfold SymbolTable.autoItems
  rw [itemSyms_filterMap, List.mem_filter]
  exact and_iff_right hs

omit [DecidableEq ι] in
theorem changed_tri {a b : Bool} {t u d : Tristate} {x y : Option Text}
    (hx : x = if a = true ∧ t ≠ .no then some (tristateText t) else none)
    (hy : y = if b = true ∧ u ≠ .no then some (tristateText u) else none)
    (hd : x.isSome → d = t) :
    (if b = true then (if x.isSome = true then decide (u ≠ d) else decide (u ≠ .no)) else x.isSome)
      = true ↔ x ≠ y := by
  by_cases hxs : a = true ∧ t ≠ .no
  · rw [if_pos hxs] at hx
    have hdt := hd (by rw [hx]; rfl)
    subst hx hdt
    rw [hy]
    cases b with
    | false => simp
    | true =>
      by_cases hu : u = .no
      · simp [hu, Ne.symm hxs.2]
      · have hiff : some (tristateText d) ≠ some (tristateText u) ↔ u ≠ d :=
          not_congr ⟨fun h => (tristateText_injective (Option.some.inj h)).symm, fun h => h ▸ rfl⟩
        rw [if_pos rfl, if_pos Option.isSome_some, if_pos ⟨rfl, hu⟩, hiff]
        simp
  · rw [if_neg hxs] at hx
    subst hx
    rw [hy]
    cases b <;> simp

omit [DecidableEq ι] in
theorem changed_text {a b : Bool} {v w e : Text} {x y : Option Text}
    (hx : x = if a = true then some v else none) (hy : y = if b = true then some w else none)
    (hd : x.isSome → e = v) :
    (if b = true then (if x.isSome = true then decide (w ≠ e) else true) else x.isSome) = true ↔
      x ≠ y := by
  cases a with
  | true =>
    have hde := hd (by rw [hx]; rfl)
    subst hx hy hde
    cases b with
    | false => simp
    | true =>
      have hiff : some e ≠ some w ↔ w ≠ e :=
        not_congr ⟨fun h => (Option.some.inj h).symm, fun h => h ▸ rfl⟩
      rw [if_pos rfl, if_pos rfl, if_pos rfl, hiff]
      simp
  | false =>
    subst hx hy
    cases b <;> simp

/-- The file of a symbol is touched when its text in `auto.conf` changes. -/
theorem touches_iff {ρ : Reading ι} (hs : s ∈ G.symbolHash) (hnamed : (G.symbol s).name.isSome)
    (hauto : (G.symbol s).flagAuto = false) (hchoice : G.isChoice s = false)
    (htype : G.type s ≠ .other ∧ G.type s ≠ .unknown)
    (hσ : (σ.sym s).flagWrite → G.ValidValue s σ) (hτ : (τ.sym s).flagWrite → G.ValidValue s τ)
    (hread : G.Restored σ auto (itemSyms (G.autoItems σ)) ρ) :
    touches G s τ ρ.state = true ↔ G.autoValue σ s ≠ G.autoValue τ s := by
  have hmem := mem_itemSyms_autoItems (σ := σ) hs
  have hslot : (ρ.state.sym s).flagDefUser = (G.autoValue σ s).isSome := by
    cases hv : (G.autoValue σ s).isSome with
    | true => exact (hread.stored s (hmem.mpr hv)).1
    | false => exact (hread.others s hs (fun h => Bool.false_ne_true (hv ▸ hmem.mp h)) hchoice).1
  have hstored := fun h => (hread.stored s (hmem.mpr h)).2
  unfold touches changed
  rw [hauto, hnamed, hslot]
  by_cases htri : G.type s = .boolean ∨ G.type s = .tristate
  · have hd : (G.autoValue σ s).isSome → (ρ.state.sym s).defUser.tri = (σ.sym s).curr.tri := by
      intro h
      have h := hstored h
      rcases htri with ht | ht <;> rw [ht] at h <;> exact h
    have hchanged := changed_tri (autoValue_tri hnamed htri hσ) (autoValue_tri hnamed htri hτ) hd
    rw [← hchanged]
    rcases htri with ht | ht <;> (rw [ht]; rfl)
  · have htext : G.type s = .int ∨ G.type s = .hex ∨ G.type s = .string := by
      cases ht : G.type s <;> simp [ht] at htri htype ⊢
    have hd : (G.autoValue σ s).isSome → (ρ.state.sym s).defUser.val.text =
        (σ.sym s).curr.val.text := by
      intro h
      have h := hstored h
      rcases htext with ht | ht | ht <;> (rw [ht] at h; rw [h]; rfl)
    have hchanged := changed_text (autoValue_text (σ := σ) hnamed htext)
      (autoValue_text (σ := τ) hnamed htext) hd
    rw [← hchanged]
    rcases htext with ht | ht | ht <;> (rw [ht]; rfl)

/-! ### Two runs -/

omit [DecidableEq ι] in
theorem all_known_of_ignored {text rest : Text} (h : Ignored text)
    (hrest : (confLines rest).all (knownLine G) = true) :
    (confLines (text ++ rest)).all (knownLine G) = true := by
  obtain ⟨lines, heq, hlines⟩ := h.lines rest
  rw [heq, List.all_append, Bool.and_eq_true, hrest, List.all_eq_true]
  refine ⟨fun line hline => ?_, rfl⟩
  rw [knownLine, hlines line hline]

/-- Every line of `auto.conf` names a symbol that is known. -/
theorem all_known_items {items : List (Item ι)} (hitems : ∀ item ∈ items, G.Readable τ item)
    (htype : ∀ s value, .symbol s value ∈ items → G.type s ≠ .unknown) :
    (confLines (items.flatMap (printItem G))).all (knownLine G) = true := by
  induction items with
  | nil => rfl
  | cons item items ih =>
    have hrest := ih (fun i hi => hitems i (List.mem_cons_of_mem _ hi))
      fun s value hs => htype s value (List.mem_cons_of_mem _ hs)
    have hitem := hitems item List.mem_cons_self
    rw [List.flatMap_cons]
    cases item with
    | title text => exact all_known_of_ignored (ignored_title hitem) hrest
    | symbol s value =>
      obtain ⟨name, -, hword, hfind, hchoice, hprints⟩ := hitem
      have hs := htype s value List.mem_cons_self
      rw [(hprints.readLine hword hfind).1, List.all_cons, Bool.and_eq_true]
      refine ⟨?_, hrest⟩
      unfold knownLine
      split
      · rfl
      · next n hline =>
        rw [hprints.name_eq hword (.inl hline), hfind]
        simp [hs, hchoice]
      · next n v hline =>
        rw [hprints.name_eq hword (.inr ⟨v, hline⟩), hfind]
        simp [hs, hchoice]

theorem type_of_mem_autoItems {value : Text} (h : .symbol s value ∈ G.autoItems τ) :
    G.type s ≠ .unknown := by
  obtain ⟨t, -, ht⟩ := List.mem_filterMap.mp h
  rw [Option.map_eq_some_iff] at ht
  obtain ⟨v, hv, heq⟩ := ht
  cases heq
  unfold SymbolTable.autoValue at hv
  simp only at hv
  split at hv
  · next hc => exact hc.2.1.2
  · cases hv

/-- A run that fails leaves `auto.conf` as it is. -/
theorem autoConf_eq_none {root : RootMenu ι} {answers : AutoAnswers} {old : Option Text}
    {files : AutoFiles ι} {auto' : State ι}
    (h : confWriteAutoconf G root answers old σ auto = some (true, files, τ, auto')) :
    files.autoConf = none := by
  unfold confWriteAutoconf at h
  rw [Option.map_eq_some_iff] at h
  obtain ⟨⟨σ', auto1⟩, -, h⟩ := h
  simp only at h
  split at h
  · cases h
    rfl
  split at h
  · cases h
    rfl
  split at h
  · cases h
    rfl
  split at h
  · cases h
    rfl
  split at h
  · cases h
    rfl
  · cases h

/-- When `auto.conf` is the file of an earlier run, a run that succeeds touches the files of the
symbols whose text in `auto.conf` changes, and no others; a run that fails does not replace
`auto.conf`, so that the next one compares with the same file. -/
theorem confWriteAutoconf_touched (hG : G.Finalized) (hmodules : G.isChoice G.modulesSym = false)
    (hconsults : ∀ s, G.Consults s) {root : RootMenu ι} (hroot : G.Rereadable root)
    {σ₁ σ₂ τ₁ auto₁ auto₁' auto₂ : State ι} {answers₁ : AutoAnswers} {old : Option Text}
    {files₁ : AutoFiles ι} (hσ₁ : G.WritingReachable root σ₁)
    (h₁ : confWriteAutoconf G root answers₁ old σ₁ auto₁ = some (false, files₁, τ₁, auto₁'))
    (hvalues₁ : G.ValidValues τ₁) (hσ₂ : G.WritingReachable root σ₂) (answers₂ : AutoAnswers) :
    ∃ failed files₂ τ₂ auto₂',
      confWriteAutoconf G root answers₂ files₁.autoConf σ₂ auto₂ =
        some (failed, files₂, τ₂, auto₂') ∧
      (failed = true → files₂.autoConf = none) ∧
      (failed = false → G.ValidValues τ₂ → ∀ s ∈ G.symbolHash, (G.symbol s).name.isSome →
        (G.symbol s).flagAuto = false → G.isChoice s = false → G.type s ≠ .unknown →
        (s ∈ files₂.touched ↔ G.autoValue τ₁ s ≠ G.autoValue τ₂ s)) := by
  obtain ⟨-, hvalid₁, hm₁, -, hconf⟩ := of_confWriteAutoconf hG hmodules hconsults hσ₁ h₁
  have htext : files₁.autoConf = some (confText G root (G.autoItems τ₁)) := by
    rw [hconf, flatMap_printAuto]
    rfl
  have hread := restored_autoItems hroot hvalues₁ hvalid₁ hm₁ hG auto₂
  have hknown : (confLines (confText G root (G.autoItems τ₁))).all (knownLine G) = true :=
    all_known_of_ignored (ignored_confHeading root hroot.prompt)
      (all_known_items (readable_autoItems hroot hvalues₁ hvalid₁ hm₁)
        fun s value hs => type_of_mem_autoItems hs)
  have hslot (σ : State ι) : readAuto G files₁.autoConf σ auto₂ =
      some (symCalcValue G G.modulesSym (clearValid G.allSymbols σ),
        (loadFile G (confText G root (G.autoItems τ₁)) auto₂).state) := by
    rw [htext, readAuto]
    exact if_pos hknown
  obtain ⟨⟨failed, files₂, τ₂, auto₂'⟩, hrun⟩ : ∃ out,
      confWriteAutoconf G root answers₂ files₁.autoConf σ₂ auto₂ = some out := by
    unfold confWriteAutoconf
    rw [hslot]
    exact ⟨_, rfl⟩
  refine ⟨failed, files₂, τ₂, auto₂', hrun, fun h => ?_, fun h hvalues₂ s hs hnamed hauto hchoice
    htype => ?_⟩
  · subst h
    exact autoConf_eq_none hrun
  · subst h
    obtain ⟨⟨σ', hread₂⟩, -, -, htouched, -⟩ := of_confWriteAutoconf hG hmodules hconsults hσ₂ hrun
    rw [hslot] at hread₂
    have hauto' := (Prod.ext_iff.mp (Option.some.inj hread₂)).2
    simp only at hauto'
    rw [htouched, List.mem_filter, ← hauto']
    exact (and_iff_right hs).trans (touches_iff hs hnamed hauto hchoice ⟨hG.type_ne_other s, htype⟩
      (hvalues₁ s hs hnamed htype) (hvalues₂ s hs hnamed htype) hread)

end

namespace SelectedMember
open Name SymbolTable

theorem rereadable : (table true).Rereadable root where
  prompt := ⟨by decide, by decide⟩
  nodup := by decide
  choices s hc := by
    cases s with
    | c => rfl
    | y | m | n | x | a | b => exact absurd hc (by decide)
  names s hs hnamed _ := by
    cases s with
    | x => exact ⟨['X'], rfl, isWord_of_all (by decide) rfl, rfl⟩
    | a => exact ⟨['A'], rfl, isWord_of_all (by decide) rfl, rfl⟩
    | b => exact ⟨['B'], rfl, isWord_of_all (by decide) rfl, rfl⟩
    | c => cases hnamed
    | y | m | n => exact absurd hs (by decide)

/-- The run of `conf_write_autoconf` after the first configuration. -/
def firstRun : Option (Bool × AutoFiles Name × State Name × State Name) :=
  confWriteAutoconf (table true) root {} none edited (table true).initial

theorem confWriteAutoconf_touched_edited : ∃ files₁ τ₁ auto₁,
    firstRun = some (false, files₁, τ₁, auto₁) ∧ ∃ failed files₂ τ₂ auto₂,
      confWriteAutoconf (table true) root {} files₁.autoConf (table true).initial
        (table true).initial = some (failed, files₂, τ₂, auto₂) ∧
      (failed = true → files₂.autoConf = none) ∧
      (failed = false → (table true).ValidValues τ₂ → ∀ s ∈ (table true).symbolHash,
        ((table true).symbol s).name.isSome → ((table true).symbol s).flagAuto = false →
        (table true).isChoice s = false → (table true).type s ≠ .unknown →
        (s ∈ files₂.touched ↔
          (table true).autoValue τ₁ s ≠ (table true).autoValue τ₂ s)) := by
  have hrun : firstRun.isSome := by decide +kernel
  obtain ⟨⟨failed, files₁, τ₁, auto₁⟩, h₁⟩ := Option.isSome_iff_exists.mp hrun
  have hok : firstRun.all (fun out => !out.1) = true := by decide +kernel
  have hmod : firstRun.all (fun out => (table true).symbolHash.all fun s =>
      (out.2.2.1.sym s).curr.tri ≠ .mod) = true := by decide +kernel
  rw [h₁] at hok hmod
  simp only [Option.all_some, Bool.not_eq_true', List.all_eq_true, decide_eq_true_eq] at hok hmod
  subst hok
  have hvalues : (table true).ValidValues τ₁ := by
    intro s hs hnamed _ _
    have htri := hmod s hs
    cases s with
    | x | a | b => exact htri
    | c => cases hnamed
    | y | m | n => exact absurd hs (by decide)
  exact ⟨files₁, τ₁, auto₁, h₁, confWriteAutoconf_touched (finalized true) rfl consults rereadable
    writingReachable_edited h₁ hvalues .refl {}⟩

end SelectedMember
end OpenADK.Kconfig
