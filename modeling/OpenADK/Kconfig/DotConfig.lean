import OpenADK.Library.Lines
import OpenADK.Kconfig.WriteSession
import OpenADK.Depmaker.CompileRule
import OpenADK.Pkgrebuild.Rebuild

/-!
# What other tools see of the configuration

`depmaker` and `pkgrebuild` scan `.config` for lines that begin with a name and `=`. In a file
that `conf_write` has written these are the lines of the symbols that are not `n`.
-/

namespace OpenADK.DotConfig
open CString Kconfig Kconfig.SymbolTable
open Pkgmaker (Bytes chr str newline)
open Depmaker (Current currentStep checkSymbol maxLine systemSymbol useSymbol textLines)

/-! ### Bytes -/

def bytes (text : Text) : Bytes := text.map chr

def Narrow (text : Text) : Prop := ∀ c ∈ text, c.toNat < 256

theorem chr_inj {c d : Char} (hc : c.toNat < 256) (hd : d.toNat < 256) (h : chr c = chr d) :
    c = d := by
  have hnat : c.toNat % 256 = d.toNat % 256 := by
    have := congrArg UInt8.toNat h
    simpa [chr] using this
  rw [Nat.mod_eq_of_lt hc, Nat.mod_eq_of_lt hd] at hnat
  exact Char.toNat_inj.mp hnat

theorem mem_bytes {c : Char} {text : Text} (hc : c.toNat < 256) (h : Narrow text) :
    chr c ∈ bytes text ↔ c ∈ text := by
  constructor
  · intro hmem
    obtain ⟨d, hd, heq⟩ := List.mem_map.mp hmem
    rwa [← chr_inj (h d hd) hc heq]
  · exact fun hmem => List.mem_map_of_mem hmem

theorem narrow_of_all {text : Text} (h : text.all fun c => c.toNat < 256) : Narrow text :=
  fun c hc => of_decide_eq_true (List.all_eq_true.mp h c hc)

theorem narrow_of_isWord {name : Text} (h : IsWord name) : Narrow name := by
  have hle {c d : Char} (hd : d.toNat < 256) (hcd : c ≤ d) : c.toNat < 256 :=
    lt_of_le_of_lt (Char.le_def.mp hcd) hd
  intro c hc
  have hword := h.2 c hc
  simp only [isWordChar, isDigit, Bool.or_eq_true, Bool.and_eq_true, decide_eq_true_eq] at hword
  rcases hword with (((((⟨-, h⟩ | ⟨-, h⟩) | ⟨-, h⟩) | rfl) | rfl) | rfl) | rfl
  · exact hle (by decide) h
  · exact hle (by decide) h
  · exact hle (by decide) h
  all_goals decide

theorem bytes_unlines (lines : List Text) :
    bytes (unlines '\n' lines) = unlines newline (lines.map bytes) := by
  unfold unlines bytes
  rw [List.map_flatMap, List.flatMap_map]
  exact List.flatMap_congr fun line _ => List.map_append

theorem bytes_append_cons (name value : Text) (c : Char) :
    bytes (name ++ c :: value) = bytes name ++ chr c :: bytes value := by
  simp [bytes]

theorem Narrow.of_mem {lines : List Text} (h : Narrow (unlines '\n' lines)) {line : Text}
    (hline : line ∈ lines) : Narrow line := fun c hc =>
  h c (List.mem_flatMap.mpr ⟨line, hline, List.mem_append_left _ hc⟩)

theorem newline_not_mem_bytes {lines : List Text} (hone : ∀ line ∈ lines, '\n' ∉ line)
    (hnarrow : Narrow (unlines '\n' lines)) : ∀ line ∈ lines.map bytes, newline ∉ line := by
  intro line hline hmem
  obtain ⟨l, hl, rfl⟩ := List.mem_map.mp hline
  exact hone l hl ((mem_bytes (c := '\n') (by decide) (hnarrow.of_mem hl)).mp hmem)

/-- A comment does not begin with a name and `=`. -/
theorem bytes_ne_of_comment {line : Text} {key value : Bytes} (h : line.head? = some '#')
    (hhash : key.head? ≠ some (chr '#')) : bytes line ≠ key ++ chr '=' :: value := by
  intro heq
  have hhead : (bytes line).head? = some (chr '#') := by simp [bytes, h]
  rw [heq] at hhead
  cases key with
  | nil => exact absurd (Option.some.inj hhead) (by decide)
  | cons c key => exact hhash hhead

/-- What is found at the start of a piece that `fgets` reads is at the start of the line. -/
theorem eq_append_of_isPrefix {key line : Bytes} (h : key ++ str "=" <+: line ++ [newline]) :
    ∃ value, line = key ++ chr '=' :: value := by
  obtain ⟨rest, hrest⟩ := h
  rcases List.eq_nil_or_concat rest with rfl | ⟨value, c, rfl⟩
  · rw [List.append_nil] at hrest
    exact absurd (List.append_inj_right' hrest rfl) (by decide)
  · rw [List.concat_eq_append, ← List.append_assoc] at hrest
    exact ⟨value, by simpa [str] using (List.append_inj_left' hrest rfl).symm⟩

/-- `check_symbol` on lines that fit into its buffer. -/
theorem checkSymbol_unlines {key : Bytes} {lines : List Bytes}
    (h : ∀ line ∈ lines, Fits newline (maxLine - 2) line) :
    checkSymbol (unlines newline lines) key ↔
      ∃ line ∈ lines, ∃ value, line = key ++ chr '=' :: value := by
  rw [checkSymbol, Depmaker.fileLines, readLines_unlines h]
  simp only [List.any_map, List.any_eq_true, Function.comp, decide_eq_true_eq]
  refine exists_congr fun line => and_congr_right fun _ => ⟨eq_append_of_isPrefix, ?_⟩
  rintro ⟨value, rfl⟩
  exact ⟨value ++ [newline], by simp [str]⟩

/-! ### The lines that set symbols -/

/-- The text consists of lines, and apart from comments and empty lines each of them sets one of
`names`, and each of `names` is set. -/
def Sets (text : Text) (names : Text → Prop) : Prop :=
  ∃ lines, text = unlines '\n' lines ∧ (∀ line ∈ lines, '\n' ∉ line) ∧
    (∀ line ∈ lines, line = [] ∨ line.head? = some '#' ∨
      ∃ name value, names name ∧ line = name ++ '=' :: value) ∧
    ∀ name, names name → ∃ value, name ++ '=' :: value ∈ lines

theorem Sets.nil : Sets [] fun _ => False :=
  ⟨[], rfl, fun _ h => absurd h List.not_mem_nil, fun _ h => absurd h List.not_mem_nil,
    fun _ h => h.elim⟩

theorem Sets.append {text text' : Text} {names names' : Text → Prop} (h : Sets text names)
    (h' : Sets text' names') : Sets (text ++ text') fun name => names name ∨ names' name := by
  obtain ⟨lines, rfl, hone, hset, hall⟩ := h
  obtain ⟨lines', rfl, hone', hset', hall'⟩ := h'
  refine ⟨lines ++ lines', List.flatMap_append.symm, List.forall_mem_append.mpr ⟨hone, hone'⟩,
    List.forall_mem_append.mpr ⟨fun line hline => ?_, fun line hline => ?_⟩, ?_⟩
  · exact (hset line hline).imp_right <| Or.imp_right fun ⟨name, value, hname, heq⟩ =>
      ⟨name, value, .inl hname, heq⟩
  · exact (hset' line hline).imp_right <| Or.imp_right fun ⟨name, value, hname, heq⟩ =>
      ⟨name, value, .inr hname, heq⟩
  · rintro name (hname | hname)
    · obtain ⟨value, hvalue⟩ := hall name hname
      exact ⟨value, List.mem_append_left _ hvalue⟩
    · obtain ⟨value, hvalue⟩ := hall' name hname
      exact ⟨value, List.mem_append_right _ hvalue⟩

theorem Sets.congr {text : Text} {names names' : Text → Prop} (h : Sets text names)
    (hnames : ∀ name, names name ↔ names' name) : Sets text names' :=
  (funext fun name => propext (hnames name)) ▸ h

theorem Sets.flatMap {α : Type} {f : α → Text} {names : α → Text → Prop} {l : List α}
    (h : ∀ a ∈ l, Sets (f a) (names a)) :
    Sets (l.flatMap f) fun name => ∃ a ∈ l, names a name := by
  induction l with
  | nil => exact Sets.nil.congr fun name => by simp
  | cons a l ih =>
    have hall := (h a List.mem_cons_self).append (ih fun b hb => h b (List.mem_cons_of_mem _ hb))
    rw [List.flatMap_cons]
    exact hall.congr fun name => by simp

/-- A comment, or an empty line. -/
theorem Sets.comment {line : Text} (hone : '\n' ∉ line)
    (h : line = [] ∨ line.head? = some '#') : Sets (line ++ ['\n']) fun _ => False := by
  refine ⟨[line], by simp [unlines], by simpa using hone, fun l hl => ?_, fun _ h => h.elim⟩
  rw [List.mem_singleton.mp hl]
  exact h.imp_right .inl

theorem Sets.assign {name value : Text} (hname : '\n' ∉ name) (hvalue : '\n' ∉ value) :
    Sets (name ++ '=' :: value ++ ['\n']) fun n => n = name := by
  refine ⟨[name ++ '=' :: value], by simp [unlines], ?_, fun l hl => ?_, ?_⟩
  · simp [hname, hvalue]
  · exact .inr (.inr ⟨name, value, rfl, List.mem_singleton.mp hl⟩)
  · rintro n rfl
    exact ⟨value, List.mem_singleton_self _⟩

/-- A scan for `NAME=` finds the names that the text sets. -/
theorem Sets.mem_splitOn_iff {text : Text} {names : Text → Prop} {key : Bytes}
    (h : Sets text names) (hnarrow : Narrow text) (hwords : ∀ name, names name → IsWord name)
    (heq : chr '=' ∉ key) (hhash : key.head? ≠ some (chr '#')) :
    (∃ line ∈ (bytes text).splitOn newline, ∃ value, line = key ++ chr '=' :: value) ↔
      ∃ name, names name ∧ bytes name = key := by
  obtain ⟨lines, rfl, hone, hset, hall⟩ := h
  rw [bytes_unlines, splitOn_unlines (newline_not_mem_bytes hone hnarrow)]
  constructor
  · rintro ⟨line, hline, value, rfl⟩
    rcases List.mem_append.mp hline with hline | hline
    · obtain ⟨l, hl, hbytes⟩ := List.mem_map.mp hline
      rcases hset l hl with rfl | hcomment | ⟨name, v, hname, rfl⟩
      · exact absurd hbytes.symm (by simp [bytes])
      · exact absurd hbytes (bytes_ne_of_comment hcomment hhash)
      · have hword : '=' ∉ name := fun hmem => absurd ((hwords name hname).2 _ hmem) (by decide)
        have hname' : Narrow name := fun c hc => hnarrow.of_mem hl c (List.mem_append_left _ hc)
        have hfree : chr '=' ∉ bytes name := fun hmem =>
          hword ((mem_bytes (by decide) hname').mp hmem)
        rw [bytes_append_cons] at hbytes
        exact ⟨name, hname, eq_of_append_cons hfree heq hbytes⟩
    · exact absurd (List.mem_singleton.mp hline) (by simp)
  · rintro ⟨name, hname, rfl⟩
    obtain ⟨value, hvalue⟩ := hall name hname
    exact ⟨_, List.mem_append_left _ (List.mem_map_of_mem hvalue), _, bytes_append_cons _ _ _⟩

/-! ### What a Makefile asks for -/

section
variable {set : Bytes → Prop} {config : Bytes} {c : Current} {line d : Bytes}
variable {lines : List Bytes} {a : Pkgmaker.Assignment}

/-- The dependencies of this line are built before the package when the symbols `set` are set. -/
def Asks (set : Bytes → Prop) (c : Current) (a : Pkgmaker.Assignment) : Prop :=
  a.name = str "PKG_BUILDDEP" ∨
    (str "PKG_BUILDDEP_" <+: a.name ∧ a.appends = false ∧
      set (systemSymbol (a.name.drop 13))) ∨
    ∃ k ∈ Depmaker.kinds, (Depmaker.Block.use k).name <+: a.name ∧
      set (useSymbol k (c k) (a.name.drop 6 ++ if a.appends then str "+" else []))

/-- The packages that flavours and choices are declared for are names without `=`. -/
def Plain (c : Current) : Prop := ∀ k, chr '=' ∉ Pkgmaker.shown (c k)

theorem plain_none : Plain fun _ => none := fun _ =>
  (by decide : chr '=' ∉ Pkgmaker.shown none)

theorem Plain.step (h : Plain c) (line : Bytes) :
    Plain fun k => currentStep k (c k) line := by
  intro k
  dsimp only
  unfold currentStep
  split
  · exact h k
  · next a ha =>
    split
    · intro hmem
      exact (Pkgmaker.name_of_assignment ha).2 _ (List.mem_of_mem_drop hmem) (by decide)
    · exact h k

theorem Plain.foldl (h : Plain c) (lines : List Bytes) :
    Plain fun k => lines.foldl (currentStep k) (c k) := by
  induction lines generalizing c with
  | nil => exact h
  | cons line lines ih => exact ih (h.step line)

/-- The lines that ask are the same when the same symbols are set. -/
theorem requires_iff (hset : ∀ key, chr '=' ∉ key → key.head? ≠ some (chr '#') →
      (checkSymbol config key ↔ set key)) (hc : Plain c)
    (ha : Pkgmaker.assignment line = some a) : Depmaker.Requires config c a ↔ Asks set c a := by
  have hname (n : ℕ) : chr '=' ∉ a.name.drop n := fun hmem =>
    (Pkgmaker.name_of_assignment ha).2 _ (List.mem_of_mem_drop hmem) (by decide)
  have hsystem := hset (systemSymbol (a.name.drop 13)) (by
    rw [systemSymbol, List.mem_append, not_or]
    exact ⟨by split <;> decide, hname 13⟩) (by
    rw [systemSymbol]
    split <;> exact fun h => absurd (Option.some.inj h) (by decide))
  have hkey : chr '=' ∉ a.name.drop 6 ++ if a.appends then str "+" else [] := by
    rw [List.mem_append, not_or]
    exact ⟨hname 6, by split <;> decide⟩
  have huse (k : Depmaker.Kind) := hset
    (useSymbol k (c k) (a.name.drop 6 ++ if a.appends then str "+" else [])) (by
    cases k with
    | subpkg =>
      rw [useSymbol, List.mem_append, not_or]
      exact ⟨by decide, hkey⟩
    | flavour | choice =>
      simp only [useSymbol, List.mem_append, not_or] at hkey ⊢
      exact ⟨⟨⟨by decide, hc _⟩, by decide⟩, hkey⟩) (by
    cases k <;> exact fun h => absurd (Option.some.inj h) (by decide))
  simp only [Depmaker.Requires, Asks, hsystem, huse]

theorem mem_compileDeps : d ∈ Depmaker.compileDeps config c lines ↔
    ∃ before line after, lines = before ++ line :: after ∧
      d ∈ Depmaker.lineDeps config (fun k => before.foldl (currentStep k) (c k)) line := by
  induction lines generalizing c with
  | nil => simp [Depmaker.compileDeps]
  | cons line lines ih =>
    rw [Depmaker.compileDeps, List.mem_append, ih]
    constructor
    · rintro (h | ⟨before, l, after, rfl, h⟩)
      · exact ⟨[], line, lines, rfl, h⟩
      · exact ⟨line :: before, l, after, rfl, h⟩
    · rintro ⟨before, l, after, heq, h⟩
      cases before with
      | nil =>
        obtain ⟨rfl, rfl⟩ := List.cons.inj heq
        exact .inl h
      | cons b before =>
        obtain ⟨rfl, rfl⟩ := List.cons.inj heq
        exact .inr ⟨before, l, after, rfl, h⟩

end

variable {ι : Type} [DecidableEq ι] {G : SymbolTable ι} {root : RootMenu ι} {σ τ : State ι} {s : ι}

/-! ### The file -/

/-- The symbol is not `n`. -/
def Enabled (G : SymbolTable ι) (σ : State ι) (s : ι) : Prop :=
  G.type s = .boolean ∨ G.type s = .tristate → (σ.sym s).curr.tri ≠ .no

/-- What `conf_write` writes to `.config`. -/
def dotConfig (G : SymbolTable ι) (root : RootMenu ι) (σ : State ι) : Bytes :=
  bytes (confText G root (confWrite G root .written σ).2.1)

/-- A symbol with this name is written to `.config`, and it is not `n`. -/
def SetIn (G : SymbolTable ι) (root : RootMenu ι) (σ : State ι) (key : Bytes) : Prop :=
  ∃ s ∈ itemSyms (confWrite G root .written σ).2.1, (G.symbol s).name.map bytes = some key ∧
    Enabled G (confWrite G root .written σ).2.2 s

theorem sets_printComment (text : Text) : Sets (printComment text) fun _ => False := by
  have hline : ∀ line ∈ text.splitOn '\n', Sets (printCommentLine line) fun _ => False := by
    intro line hline
    refine .comment ?_ (.inr rfl)
    have hone := not_mem_of_mem_splitOn hline
    split <;> simp [hone]
  exact (Sets.flatMap hline).congr fun name => by simp

theorem sets_title {title : Text} (h : '\n' ∉ title) :
    Sets (['\n', '#', '\n', '#', ' '] ++ title ++ ['\n', '#', '\n']) fun _ => False := by
  have htext : ['\n', '#', '\n', '#', ' '] ++ title ++ ['\n', '#', '\n'] =
      ([] ++ ['\n']) ++
        ((['#'] ++ ['\n']) ++ (('#' :: ' ' :: title ++ ['\n']) ++ (['#'] ++ ['\n']))) := by
    simp
  have hone : '\n' ∉ '#' :: ' ' :: title := by simp [h]
  rw [htext]
  exact ((Sets.comment (by decide) (.inl rfl)).append ((Sets.comment (by decide) (.inr rfl)).append
    ((Sets.comment hone (.inr rfl)).append (.comment (by decide) (.inr rfl))))).congr fun name => by
      simp

/-- A session that can be saved: its values can be read back, and its file consists of bytes. -/
structure Saves (G : SymbolTable ι) (root : RootMenu ι) (σ : State ι) : Prop where
  reachable : G.WritingReachable root σ
  valid : ∀ s ∈ itemSyms (confWrite G root .written σ).2.1,
    G.ValidValue s (confWrite G root .written σ).2.2
  narrow : Narrow (confText G root (confWrite G root .written σ).2.1)

/-- A symbol sets its name when it is not `n`. -/
theorem sets_symbol {value name : Text} (hshows : G.Shows s value τ) (hword : IsWord name)
    (hname : (G.symbol s).name = some name)
    (h : G.Prints name s τ (printItem G (.symbol s value))) :
    Sets (printItem G (.symbol s value)) fun n => n = name ∧ Enabled G τ s := by
  have hnl : '\n' ∉ name := fun hmem => absurd (hword.2 _ hmem) (by decide)
  obtain ⟨hline, htype, htri⟩ | ⟨v, f, hline, hv, -, -, -⟩ := h
  · have hone : '\n' ∉ '#' :: ' ' :: (name ++ ' ' :: isNotSet) := by
      simp only [List.mem_cons, List.mem_append, not_or]
      exact ⟨by decide, by decide, hnl, by decide, by decide⟩
    rw [hline]
    exact (Sets.comment hone (.inr rfl)).congr fun n =>
      iff_of_false id fun h => h.2 htype htri
  · have henabled : Enabled G τ s := fun htype htri => by
      have hvalue : value = ['n'] := by
        rw [hshows.value, stringIn]
        rcases htype with htype | htype <;> simp only [htype, envOf, htri]
      have hstring : G.type s ≠ .string := by rcases htype with htype | htype <;> simp [htype]
      rw [hvalue, printItem, if_neg hstring, printSymbol, if_pos ⟨htype, rfl⟩] at hline
      obtain ⟨c, cs, rfl⟩ := List.exists_cons_of_ne_nil hword.1
      have hhash : c = '#' := (List.cons.inj hline).1.symm
      exact absurd (hword.2 c List.mem_cons_self) (by rw [hhash]; decide)
    rw [hline]
    exact (Sets.assign hnl hv).congr fun n => (and_iff_left henabled).symm

/-- The file sets the names of the symbols that are written and not `n`. -/
theorem sets_confText {items : List (Item ι)}
    (htitles : ∀ text, .title text ∈ items → '\n' ∉ text)
    (hsymbols : ∀ s value, .symbol s value ∈ items → G.Shows s value τ ∧ ∃ name, IsWord name ∧
      (G.symbol s).name = some name ∧ G.Prints name s τ (printItem G (.symbol s value))) :
    Sets (confText G root items) fun name => ∃ s ∈ itemSyms items,
      (G.symbol s).name = some name ∧ Enabled G τ s := by
  have hitem : ∀ item ∈ items, Sets (printItem G item) fun name => ∃ s, itemSym item = some s ∧
      (G.symbol s).name = some name ∧ Enabled G τ s := by
    intro item hitem
    cases item with
    | title text => exact (sets_title (htitles text hitem)).congr fun name => by simp [itemSym]
    | symbol s value =>
      obtain ⟨hshows, name, hword, hname, hprints⟩ := hsymbols s value hitem
      refine (sets_symbol hshows hword hname hprints).congr fun n => ?_
      simp [itemSym, hname, eq_comm]
  rw [confText, confHeading]
  refine ((sets_printComment _).append (Sets.flatMap hitem)).congr fun name => ?_
  rw [false_or]
  constructor
  · rintro ⟨item, hitem, s, hs, hname, henabled⟩
    exact ⟨s, List.mem_filterMap.mpr ⟨item, hitem, hs⟩, hname, henabled⟩
  · rintro ⟨s, hs, hname, henabled⟩
    obtain ⟨item, hitem, hs⟩ := List.mem_filterMap.mp hs
    exact ⟨item, hitem, s, hs, hname, henabled⟩

section
variable (hG : G.Finalized) (hmodules : G.isChoice G.modulesSym = false)
variable (hconsults : ∀ s, G.Consults s) (hroot : G.Tellable root)
include hG hmodules hconsults hroot

theorem Saves.sets (h : Saves G root σ) :
    Sets (confText G root (confWrite G root .written σ).2.1) fun name =>
      ∃ s ∈ itemSyms (confWrite G root .written σ).2.1,
        (G.symbol s).name = some name ∧ Enabled G (confWrite G root .written σ).2.2 s := by
  have hread := readable_confWrite hG hmodules hconsults hroot h.reachable h.valid
  refine sets_confText (fun text htext => ?_) fun s value hs => ?_
  · exact IsRemark.one (hread _ htext)
  · obtain ⟨name, hname, hword, -, -, hprints⟩ := hread _ hs
    exact ⟨shows_confWrite hG hmodules hconsults h.reachable hs, name, hword, hname, hprints⟩

theorem Saves.isWord (h : Saves G root σ) {name : Text}
    (hs : s ∈ itemSyms (confWrite G root .written σ).2.1) (hname : (G.symbol s).name = some name) :
    IsWord name := by
  have hwalk := walked hG hmodules hconsults root.list (h.reachable.pass hG hmodules hconsults)
  obtain ⟨name', hname', hword, -⟩ := hroot.names s (hwalk.among s hs)
  rwa [Option.some.inj (hname.symm.trans hname')]

/-- A scan of `.config` for a key finds the symbols that are not `n`. -/
theorem Saves.mem_splitOn_iff (h : Saves G root σ) {key : Bytes} (heq : chr '=' ∉ key)
    (hhash : key.head? ≠ some (chr '#')) :
    (∃ line ∈ (dotConfig G root σ).splitOn newline, ∃ value, line = key ++ chr '=' :: value) ↔
      SetIn G root σ key := by
  have hsets := h.sets hG hmodules hconsults hroot
  rw [dotConfig, hsets.mem_splitOn_iff h.narrow (fun name => ?_) heq hhash]
  · constructor
    · rintro ⟨name, ⟨s, hs, hname, henabled⟩, hkey⟩
      exact ⟨s, hs, by rw [hname, Option.map_some, hkey], henabled⟩
    · rintro ⟨s, hs, hname, henabled⟩
      obtain ⟨name, hname, hkey⟩ := Option.map_eq_some_iff.mp hname
      exact ⟨name, ⟨s, hs, hname, henabled⟩, hkey⟩
  · rintro ⟨s, hs, hname, -⟩
    exact h.isWord hG hmodules hconsults hroot hs hname

theorem Saves.not_mem_key (h : Saves G root σ) {key : Bytes} (hkey : SetIn G root σ key) :
    chr '=' ∉ key := by
  obtain ⟨s, hs, hmap, -⟩ := hkey
  obtain ⟨name, hname, rfl⟩ := Option.map_eq_some_iff.mp hmap
  have hword := h.isWord hG hmodules hconsults hroot hs hname
  intro hmem
  exact absurd (hword.2 _ ((mem_bytes (by decide) (narrow_of_isWord hword)).mp hmem)) (by decide)

/-! ### `depmaker` -/

/-- `check_symbol` finds the symbols that are not `n`, as long as the lines fit into its buffer. -/
theorem Saves.checkSymbol_iff (h : Saves G root σ) {key : Bytes} (heq : chr '=' ∉ key)
    (hhash : key.head? ≠ some (chr '#'))
    (hroom : ∀ line ∈ (dotConfig G root σ).splitOn newline, line.length ≤ maxLine - 2) :
    checkSymbol (dotConfig G root σ) key ↔ SetIn G root σ key := by
  rw [← h.mem_splitOn_iff hG hmodules hconsults hroot heq hhash]
  obtain ⟨lines, htext, hone, -, -⟩ := h.sets hG hmodules hconsults hroot
  have hnarrow := h.narrow
  rw [htext] at hnarrow
  have hone' := newline_not_mem_bytes hone hnarrow
  have hconfig : dotConfig G root σ = unlines newline (lines.map bytes) := by
    rw [dotConfig, htext, bytes_unlines]
  rw [hconfig, splitOn_unlines hone'] at hroom ⊢
  rw [checkSymbol_unlines fun line hline =>
    ⟨hone' line hline, hroom line (List.mem_append_left _ hline)⟩]
  simp

/-- `depmaker` prints the rule of a package with exactly the dependencies that the Makefile asks
for with the symbols that are not `n`. -/
theorem packageLines_dotConfig (h : Saves G root σ)
    (hroom : ∀ line ∈ (dotConfig G root σ).splitOn newline, line.length ≤ maxLine - 2)
    {name makefile : Bytes} (hread : Depmaker.ReadableMakefile (dotConfig G root σ) name makefile)
    {c : Current} (hc : Depmaker.Short c) :
    ∃ c' ds, Depmaker.packageLines (dotConfig G root σ) name makefile c =
        some (c', Depmaker.listLines name ++ Depmaker.compileRule name ds ++
          (Depmaker.hostRules (dotConfig G root σ) name makefile).getD []) ∧
      ∀ d, d ∈ ds ↔ ∃ before line after, textLines makefile = before ++ line :: after ∧
        ∃ a, Pkgmaker.assignment line = some a ∧ d ∈ tokens Pkgmaker.blanks a.value ∧
          Asks (SetIn G root σ) (fun k => before.foldl (currentStep k) none) a := by
  refine ⟨_, _, hread.packageLines_eq hc, fun d => ?_⟩
  rw [mem_compileDeps]
  refine exists_congr fun before => exists_congr fun line => exists_congr fun after =>
    and_congr_right fun _ => ?_
  have hplain := plain_none.foldl before
  rw [Depmaker.lineDeps]
  cases ha : Pkgmaker.assignment line with
  | none => simp
  | some a =>
    have hasks := requires_iff (fun key heq hhash =>
      h.checkSymbol_iff hG hmodules hconsults hroot heq hhash hroom) hplain ha
    simp only [Option.some.injEq, exists_eq_left']
    split
    · next hyes => exact (and_iff_left (hasks.mp hyes)).symm
    · next hno => exact iff_of_false List.not_mem_nil fun h => hno (hasks.mpr h.2)

/-! ### `pkgrebuild` -/

/-- The keys that `pkgrebuild` reads are the packages' symbols that are not `n`. -/
theorem hasKey_dotConfig (h : Saves G root σ) {key : Bytes} :
    Pkgrebuild.HasKey (dotConfig G root σ) key ↔
      str "ADK_PACKAGE" <+: key ∧ SetIn G root σ key := by
  have hhash (hkey : str "ADK_PACKAGE" <+: key) : key.head? ≠ some (chr '#') := by
    obtain ⟨rest, rfl⟩ := hkey
    exact fun h => absurd (Option.some.inj h) (by decide)
  constructor
  · rintro ⟨line, hline, hpkg, value, rfl, heq⟩
    have hkey : str "ADK_PACKAGE" <+: key := isPrefix_of_append_cons hpkg (by decide)
    exact ⟨hkey, (h.mem_splitOn_iff hG hmodules hconsults hroot heq (hhash hkey)).mp
      ⟨_, hline, value, rfl⟩⟩
  · rintro ⟨hkey, hset⟩
    have heq := h.not_mem_key hG hmodules hconsults hroot hset
    obtain ⟨line, hline, value, rfl⟩ :=
      (h.mem_splitOn_iff hG hmodules hconsults hroot heq (hhash hkey)).mpr hset
    exact ⟨_, hline, hkey.trans (List.prefix_append _ _), value, rfl, heq⟩

/-- Two configurations are saved. Then `pkgrebuild` marks exactly the packages that own a symbol
that is `n` in only one of them. -/
theorem rebuilds_iff (h : Saves G root σ) (h' : Saves G root τ) {tree : List Pkgmaker.Dir}
    (hread : Pkgrebuild.Readable tree (dotConfig G root σ) (dotConfig G root τ)) {dname : Bytes}
    (hdir : ∃ dir ∈ tree, dir.name = dname) :
    str ".rebuild." ++ dname ∈ Pkgrebuild.main tree (dotConfig G root σ) (dotConfig G root τ) ↔
      ∃ pairs, Pkgrebuild.owners none (Pkgrebuild.lines tree) = some pairs ∧
        ∃ key, str "ADK_PACKAGE" <+: key ∧ ¬(SetIn G root σ key ↔ SetIn G root τ key) ∧
          pairs.reverse.lookup key = some dname := by
  rw [Pkgrebuild.mem_main_iff hread hdir, Pkgrebuild.Owns]
  have honly (key : Bytes) :
      Pkgrebuild.OnlyInOne (dotConfig G root σ) (dotConfig G root τ) key ↔
        str "ADK_PACKAGE" <+: key ∧ ¬(SetIn G root σ key ↔ SetIn G root τ key) := by
    rw [Pkgrebuild.OnlyInOne, hasKey_dotConfig hG hmodules hconsults hroot h,
      hasKey_dotConfig hG hmodules hconsults hroot h']
    tauto
  simp only [honly, and_assoc]

end

namespace Samples

inductive Name
  | y | m | n | f
  deriving DecidableEq

open Name

instance : Fintype Name := ⟨{y, m, n, f}, by intro s; cases s <;> decide⟩

def flavour : Text := "ADK_PACKAGE_A_F".toList

/-- `bool "f"` -/
def table : SymbolTable Name where
  symbolYes := y
  symbolMod := m
  symbolNo := n
  symbolHash := [f]
  modulesSym := n
  symbol
    | y => { name := some ['y'], type := .unknown, flagConst := true }
    | m => { name := some ['m'], type := .unknown, flagConst := true }
    | n => { name := some ['n'], type := .unknown, flagConst := true }
    | f =>
      { name := some flavour
        type := .boolean
        prop :=
          [{ type := .symbol, expr := .expr (.symbol f), menu := some 1 },
            { type := .prompt, text := some ['f'], menu := some 1 }]
        flagOptional := true }

def menus : RootMenu Name where
  prompt := ['t']
  list := .menu { sym := some f } .null .null

/-- The option is set in a file, and then by the user. -/
def enabled : State Name :=
  (confRead table (.opened (flavour ++ ['=', 'y', '\n'])) table.initial).2

def disabled : State Name := (symSetTristateValue table f .no enabled).2

theorem finalized : table.Finalized := by decide

theorem consults (s : Name) : table.Consults s := by
  intro hs
  cases s <;> cases hs

theorem tellable : table.Tellable menus where
  prompt := ⟨by decide, by decide⟩
  titles text h := by simp [SymbolTable.titles, menus] at h
  names s hs := by
    cases s with
    | f => exact ⟨flavour, rfl, isWord_of_all (by decide) (by decide), by decide⟩
    | y | m | n => exact absurd hs (by decide)

theorem validValue {σ : State Name} (hsyms : itemSyms (confWrite table menus .written σ).2.1 = [f])
    (htri : ((confWrite table menus .written σ).2.2.sym f).curr.tri ≠ .mod) :
    ∀ s ∈ itemSyms (confWrite table menus .written σ).2.1,
      table.ValidValue s (confWrite table menus .written σ).2.2 := by
  intro s hs
  rw [hsyms] at hs
  obtain rfl := List.mem_singleton.mp hs
  exact htri

theorem saves_enabled : Saves table menus enabled where
  reachable := .single (.step (.read (.opened _)))
  valid := validValue (by decide +kernel) (by decide +kernel)
  narrow := narrow_of_all (by decide +kernel)

theorem saves_disabled : Saves table menus disabled where
  reachable := saves_enabled.reachable.tail (.step (.setTristate .no (by decide)))
  valid := validValue (by decide +kernel) (by decide +kernel)
  narrow := narrow_of_all (by decide +kernel)

theorem setIn_enabled : SetIn table menus enabled (str "ADK_PACKAGE_A_F") := by
  unfold SetIn Enabled
  decide +kernel

theorem not_setIn_disabled : ¬SetIn table menus disabled (str "ADK_PACKAGE_A_F") := by
  unfold SetIn Enabled
  decide +kernel

def makefile : Bytes := str "PKG_NAME:=a\nPKG_SUBPKGS:=A\nPKG_FLAVOURS_A:=F\nPKGFB_F:=c\n"

theorem readableMakefile :
    Depmaker.ReadableMakefile (dotConfig table menus enabled) (str "a") makefile :=
  ⟨by decide +kernel, by decide +kernel, by decide +kernel, by decide +kernel⟩

/-- `c` is built before `a` with this flavour. -/
theorem packageLines_dotConfig_flavour :
    ∃ c' ds, Depmaker.packageLines (dotConfig table menus enabled) (str "a") makefile
        (fun _ => none) = some (c', Depmaker.listLines (str "a") ++
          Depmaker.compileRule (str "a") ds ++
          (Depmaker.hostRules (dotConfig table menus enabled) (str "a") makefile).getD []) ∧
      str "c" ∈ ds := by
  obtain ⟨c', ds, hlines, hds⟩ := packageLines_dotConfig finalized rfl consults tellable
    saves_enabled (by decide +kernel) readableMakefile
    fun _ => (by decide : (Pkgmaker.shown none).length ≤ 500)
  refine ⟨c', ds, hlines, (hds _).mpr ?_⟩
  refine ⟨[str "PKG_NAME:=a", str "PKG_SUBPKGS:=A", str "PKG_FLAVOURS_A:=F"], str "PKGFB_F:=c", [],
    by decide +kernel, ⟨str "PKGFB_F", false, str "c"⟩, by decide +kernel, by decide +kernel,
    .inr (.inr ⟨.flavour, by decide, by decide, ?_⟩)⟩
  exact setIn_enabled

def dir : Pkgmaker.Dir := ⟨str "a", makefile, false⟩

theorem readable :
    Pkgrebuild.Readable [dir] (dotConfig table menus enabled) (dotConfig table menus disabled) where
  whole := by decide +kernel
  legible := by decide +kernel
  room := by decide +kernel
  configold := by
    unfold Pkgrebuild.ReadableConfig
    decide +kernel
  config := by
    unfold Pkgrebuild.ReadableConfig
    decide +kernel

/-- The package is built again without this flavour. -/
theorem rebuilds_iff_flavour :
    str ".rebuild." ++ str "a" ∈ Pkgrebuild.main [dir] (dotConfig table menus enabled)
      (dotConfig table menus disabled) :=
  (rebuilds_iff finalized rfl consults tellable saves_enabled saves_disabled readable
    ⟨dir, List.mem_singleton_self _, rfl⟩).mpr
    ⟨[(str "ADK_PACKAGE_A", str "a"), (str "ADK_PACKAGE_A_F", str "a")], by decide +kernel,
      str "ADK_PACKAGE_A_F", by decide, fun h => not_setIn_disabled (h.mp setIn_enabled),
      by decide +kernel⟩

end Samples

end OpenADK.DotConfig
