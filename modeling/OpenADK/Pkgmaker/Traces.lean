import OpenADK.Pkgmaker.Runs

/-!
# What a failed run leaves

The temporary files of the sections are removed at the end of a run only. A run after a failed one
writes the same files exactly when none of them is left for its own sections.
-/

namespace OpenADK.Pkgmaker
open CString FileOps

/-- After a run on the first tree, a run on the second one makes the same files as in a clean
checkout. -/
def NoTrace (t₁ t₂ : Tree) : Prop :=
  (t₂.pkgmaker (t₁.pkgmaker clean).2).1 = .done ∧
    ∀ f, t₂.Owns f → (t₂.pkgmaker (t₁.pkgmaker clean).2).2 f = (t₂.pkgmaker clean).2 f

variable {sectionmap pkgmap : StrMap} {dname : Bytes} {v : Vars} {p : Package} {f : File}
  {files files' : Files}

/-! ### Counting the lines of the menus -/

section
variable {cs : List Bytes} {s u value name : Bytes} {sections : StrMap}
  {e e' : ℤ → Bytes}

theorem length_fileLines_sortfile (h : ∀ c ∈ cs, ∃ u, c = u ++ [newline] ∧ newline ∉ u) :
    (fileLines (sortfile cs.flatten)).length = (cs.map fun c => (fileLines c).length).sum := by
  have hread : readLines newline cs.flatten.length cs.flatten = cs := by
    apply readLines_flatten
    intro c hc
    obtain ⟨u, rfl, hu⟩ := h c hc
    have hle := (List.sublist_flatten_of_mem hc).length_le
    rw [List.length_append] at hle
    exact ⟨u, rfl, hu, by omega⟩
  have hperm := List.perm_insertionSort (fun a b => lineLe a b) cs
  rw [sortfile, hread, fileLines, length_readLines_flatten fun c hc => ?_]
  · exact (hperm.map _).sum_nat
  · obtain ⟨u, rfl, -⟩ := h c (hperm.mem_iff.mp hc)
    exact ⟨u, rfl⟩

/-- Lines that were there before give more lines. -/
theorem length_fileLines_lt (hs : ∃ u, s = u ++ [newline])
    (hu : u = [] ∨ ∃ w, u = w ++ [newline]) :
    (fileLines (sortfile u)).length < (fileLines (sortfile (s ++ u))).length := by
  obtain ⟨cs, rfl, hcs⟩ := exists_lines (.inr hs)
  obtain ⟨ds, rfl, hds⟩ := exists_lines hu
  have hall : ∀ c ∈ cs ++ ds, ∃ u, c = u ++ [newline] ∧ newline ∉ u := fun c hc =>
    (List.mem_append.mp hc).elim (hcs c) (hds c)
  have hne : cs ≠ [] := by
    rintro rfl
    obtain ⟨u, hu⟩ := hs
    exact List.concat_ne_nil newline u hu.symm
  obtain ⟨c, cs, rfl⟩ := List.exists_cons_of_ne_nil hne
  have hpos : 0 < (fileLines c).length := by
    obtain ⟨w, rfl, -⟩ := hcs c List.mem_cons_self
    exact List.length_pos_of_ne_nil (readFrom_ne_nil newline _ _ (List.concat_ne_nil newline w))
  rw [← List.flatten_append, length_fileLines_sortfile hall, length_fileLines_sortfile hds,
    List.map_append, List.sum_append, List.map_cons, List.sum_cons]
  omega

theorem count_text {buf : Bytes} {src : Source} (h : readSource buf = some src)
    (hnl : newline ∉ buf.dropLast) : src.text.count newline = 1 := by
  have hzero {w : Bytes} (hw : w ⊆ buf.dropLast) : w.count newline = 0 :=
    List.count_eq_zero.mpr fun hin => hnl (hw hin)
  unfold readSource at h
  dsimp only at h
  split at h
  case isTrue =>
    cases h
    have hpkg := hzero (List.dropLast_subset buf.dropLast)
    rw [Source.text, List.count_append, List.count_append, hpkg]
    decide
  case isFalse =>
    split at h
    case h_1 => cases h
    case h_2 subpkg rest hcall =>
      cases h
      obtain ⟨-, hsub, hrest, -⟩ := of_strtok hcall
      have hsubpkg := hzero (List.Subset.trans (List.dropLast_subset subpkg) hsub)
      have hpkg : (shown ((strtok (str "|") rest).map Prod.fst)).count newline = 0 := by
        cases hcall' : strtok (str "|") rest with
        | none => decide
        | some q => exact hzero (List.Subset.trans (of_strtok hcall').2.1 hrest)
      rw [Source.text, List.count_append, List.count_append, List.count_append, List.count_append,
        hsubpkg, hpkg]
      decide

theorem count_sources {bufs : List Bytes} {sources : List Source}
    (h : bufs.mapM readSource = some sources) (hnl : ∀ buf ∈ bufs, newline ∉ buf.dropLast) :
    (sources.flatMap Source.text).count newline = bufs.length := by
  induction bufs generalizing sources with
  | nil =>
    cases h
    rfl
  | cons buf bufs ih =>
    rw [List.mapM_cons] at h
    obtain ⟨src, hsrc, h⟩ := Option.bind_eq_some_iff.mp h
    obtain ⟨rest, hrest, h⟩ := Option.bind_eq_some_iff.mp h
    cases h
    rw [List.flatMap_cons, List.count_append, count_text hsrc (hnl buf List.mem_cons_self),
      ih hrest fun b hb => hnl b (List.mem_cons_of_mem _ hb), List.length_cons, Nat.add_comm]

/-- The lines of the menu of a section with this title. -/
def menuCount (value infile : Bytes) : ℕ :=
  if infile = [] then 0
  else value.dropLast.count newline + 3 + (fileLines (sortfile infile)).length

/-- The lines of all menus in the file with this name. -/
def menuCounts : StrMap → (ℤ → Bytes) → Bytes → ℕ
  | [], _, _ => 0
  | (key, value) :: sections, files, name =>
    (if menuName key = name then menuCount value (files (hashStr value)) else 0) +
      menuCounts sections (Function.update files (hashStr value) []) name

theorem count_menu {m : Menu} {infile : Bytes} (hne : infile ≠ [])
    (htitle : m.title = value.dropLast)
    (h : (fileLines (sortfile infile)).mapM readSource = some m.sources) :
    m.text.count newline = menuCount value infile := by
  have hsources := count_sources h fun buf hbuf => (of_mem_readLines hbuf).2.2
  have hconst : (str "menu \"").count newline = 0 ∧ (str "\"\n").count newline = 1 ∧
      (str "endmenu\n\n").count newline = 2 := by decide
  rw [Menu.text, menuCount, if_neg hne, List.count_append, List.count_append, List.count_append,
    List.count_append, htitle, hsources, hconst.1, hconst.2.1, hconst.2.2]
  omega

/-- The lines of the menus that are printed. -/
theorem count_menuTexts {menus : List Menu} (h : iter sections e = some menus) (name : Bytes) :
    (menuTexts menus name).count newline = menuCounts sections e name := by
  induction sections generalizing e menus with
  | nil =>
    cases h
    rfl
  | cons section' sections ih =>
    obtain ⟨key, value⟩ := section'
    rw [iter] at h
    rw [menuCounts]
    split at h
    case isTrue hnil =>
      have hsame : Function.update e (hashStr value) [] = e :=
        Function.update_eq_self_iff.mpr hnil.symm
      rw [ih h, hsame, menuCount, if_pos hnil]
      split <;> omega
    case isFalse hne =>
      split at h
      case h_1 => cases h
      case h_2 sources hsources =>
        obtain ⟨rest, hrest, rfl⟩ := Option.map_eq_some_iff.mp h
        rw [menuTexts, List.filter_cons, ← ih hrest]
        by_cases hkey : menuName key = name
        · rw [if_pos (by simpa using hkey), if_pos hkey, List.flatMap_cons, List.count_append,
            count_menu hne rfl hsources]
          rfl
        · rw [if_neg (by simpa using hkey), if_neg hkey, Nat.zero_add]
          rfl

/-- More entries give more lines, in the file of some section. -/
theorem menuCounts_le (hle : ∀ value hash, menuCount value (e hash) ≤ menuCount value (e' hash))
    (sections : StrMap) (name : Bytes) :
    menuCounts sections e name ≤ menuCounts sections e' name := by
  induction sections generalizing e e' with
  | nil => exact le_rfl
  | cons section' sections ih =>
    rw [menuCounts, menuCounts]
    refine Nat.add_le_add ?_ (ih fun value hash => ?_)
    · split
      · exact hle _ _
      · exact le_rfl
    · by_cases heq : hash = hashStr section'.2
      · rw [heq, Function.update_self, Function.update_self]
      · rw [Function.update_of_ne heq, Function.update_of_ne heq]
        exact hle value hash

theorem exists_menuCounts_lt
    (hle : ∀ value hash, menuCount value (e hash) ≤ menuCount value (e' hash))
    (hlt : ∃ s ∈ sections, ∀ value, menuCount value (e (hashStr s.2)) <
      menuCount value (e' (hashStr s.2))) :
    ∃ name, menuCounts sections e name < menuCounts sections e' name := by
  induction sections generalizing e e' with
  | nil =>
    obtain ⟨s, hs, -⟩ := hlt
    cases hs
  | cons section' sections ih =>
    obtain ⟨key, title⟩ := section'
    have hrest (value : Bytes) (hash : ℤ) :
        menuCount value (Function.update e (hashStr title) [] hash) ≤
          menuCount value (Function.update e' (hashStr title) [] hash) := by
      by_cases heq : hash = hashStr title
      · rw [heq, Function.update_self, Function.update_self]
      · rw [Function.update_of_ne heq, Function.update_of_ne heq]
        exact hle value hash
    obtain ⟨s, hs, hlt⟩ := hlt
    by_cases heq : hashStr s.2 = hashStr title
    · -- this section takes the entries
      refine ⟨menuName key, ?_⟩
      rw [menuCounts, menuCounts, if_pos rfl, if_pos rfl]
      exact Nat.add_lt_add_of_lt_of_le (heq ▸ hlt title) (menuCounts_le hrest _ _)
    · have hs : s ∈ sections := (List.mem_cons.mp hs).resolve_left (by
        rintro rfl
        exact heq rfl)
      obtain ⟨name, hname⟩ := ih hrest ⟨s, hs, fun value => by
        rw [Function.update_of_ne heq, Function.update_of_ne heq]
        exact hlt value⟩
      refine ⟨name, ?_⟩
      rw [menuCounts, menuCounts]
      refine Nat.add_lt_add_of_le_of_lt ?_ hname
      split
      · exact hle _ _
      · exact le_rfl

end

/-! ### Writing the menus from the same files -/

/-- The files that the menus of these sections are made of. -/
def Touched (sections : StrMap) (f : File) : Prop :=
  (∃ name, f = .auto name) ∨ (∃ hash, f = .sorted hash) ∨
    ∃ s ∈ sections, f = .sectionlst (hashStr s.2)

section
variable {sections : StrMap} {out : Files}

theorem update_congr {g f : File} (c : Option Bytes) (h : files f = files' f) :
    Function.update files g c f = Function.update files' g c f := by
  by_cases hf : f = g
  · rw [hf, Function.update_self, Function.update_self]
  · rw [Function.update_of_ne hf, Function.update_of_ne hf, h]

theorem iterFiles_congr (h : ∀ f, Touched sections f → files f = files' f)
    (hrun : iterFiles sections files = some out) : ∃ out', iterFiles sections files' = some out' ∧
      ∀ name, out (.auto name) = out' (.auto name) := by
  induction sections generalizing files files' with
  | nil =>
    cases hrun
    exact ⟨files', rfl, fun name => h _ (.inl ⟨name, rfl⟩)⟩
  | cons section' sections ih =>
    obtain ⟨key, value⟩ := section'
    have htail {f : File} (hf : Touched sections f) : Touched ((key, value) :: sections) f :=
      hf.imp_right (.imp_right fun ⟨s, hs, heq⟩ => ⟨s, List.mem_cons_of_mem _ hs, heq⟩)
    rw [iterFiles] at hrun ⊢
    dsimp only at hrun ⊢
    have hfirst : ∀ f, Touched ((key, value) :: sections) f →
        step files (.append (.auto (menuName key)) []) f =
          step files' (.append (.auto (menuName key)) []) f := fun f hf => step_congr _ (h f hf)
    generalize step files (.append (.auto (menuName key)) []) = first at hrun hfirst
    generalize step files' (.append (.auto (menuName key)) []) = first' at hfirst ⊢
    have hlist : first (.sectionlst (hashStr value)) = first' (.sectionlst (hashStr value)) :=
      hfirst _ (.inr (.inr ⟨_, List.mem_cons_self, rfl⟩))
    rw [← hlist, ← hfirst (.sorted (hashStr value)) (.inr (.inl ⟨_, rfl⟩))]
    split at hrun
    case h_1 => exact ih (fun f hf => hfirst f (htail hf)) hrun
    case h_2 infile hinfile =>
      split at hrun
      case h_1 => cases hrun
      case h_2 sources hsources =>
        refine ih (fun f hf => step_congr _ ?_) hrun
        exact update_congr _ (update_congr _ (hfirst f (htail hf)))

theorem iterFiles_of_ne (hrun : iterFiles sections files = some out)
    (h : ∀ name hash, f ≠ .auto name ∧ f ≠ .sectionlst hash ∧ f ≠ .sorted hash) :
    out f = files f := by
  induction sections generalizing files with
  | nil =>
    cases hrun
    rfl
  | cons section' sections ih =>
    rw [iterFiles] at hrun
    dsimp only at hrun
    have hauto := (h (menuName section'.1) 0).1
    split at hrun
    · rw [ih hrun, step_of_ne (.append _ _) hauto.symm]
    · split at hrun
      · cases hrun
      · rw [ih hrun, step_of_ne (.append _ _) hauto.symm,
          Function.update_of_ne (h [] _).2.1, Function.update_of_ne (h [] _).2.2,
          step_of_ne (.append _ _) hauto.symm]

end

/-! ### What is written anew -/

theorem mem_listOps {ts : List Bytes} {token : Bytes}
    (h : (listOps sectionmap pkgmap dname v ts).1 = .done) (htoken : token ∈ ts) :
    ∃ c, .write (.configOf dname token) c ∈ (listOps sectionmap pkgmap dname v ts).2 := by
  induction ts generalizing v with
  | nil => cases htoken
  | cons first ts ih =>
    obtain ⟨hvalue, dev, -, -, hrest, heq⟩ := of_listOps_cons h
    rw [heq]
    rcases List.mem_cons.mp htoken with rfl | htoken
    · exact ⟨_, List.mem_append_left _ (List.mem_append_left _
        (List.mem_cons_of_mem _ (List.mem_singleton_self _)))⟩
    · obtain ⟨c, hc⟩ := ih hrest htoken
      exact ⟨c, List.mem_append_right _ hc⟩

theorem mem_ops (h : (p.ops sectionmap).1 = .done) (hmanual : p.dir.manual = false) :
    (∃ c, .write (.config p.dir.name) c ∈ (p.ops sectionmap).2) ∧
      ∀ token ∈ p.tokens, ∃ c, .write (.configOf p.dir.name token) c ∈ (p.ops sectionmap).2 := by
  obtain ⟨ls, -, hlist, hops⟩ := of_ops h hmanual
  rw [hops]
  refine ⟨⟨_, List.mem_append_left _ (List.mem_cons_of_mem _ (List.mem_singleton_self _))⟩,
    fun token htoken => ?_⟩
  obtain ⟨c, hc⟩ := mem_listOps hlist htoken
  exact ⟨c, List.mem_append_right _ hc⟩

theorem ops_of_scanOps {dirs : List Dir} {vars : Vars} {nobinpkgs : Bool}
    (h : (scanOps sectionmap dirs vars nobinpkgs).1 = .done)
    (hp : p ∈ visits dirs vars nobinpkgs) : (p.ops sectionmap).1 = .done ∧
      (p.ops sectionmap).2 ⊆ (scanOps sectionmap dirs vars nobinpkgs).2 := by
  induction dirs generalizing vars nobinpkgs with
  | nil => cases hp
  | cons dir dirs ih =>
    rw [scanOps] at h ⊢
    dsimp only at h ⊢
    split at h
    case isTrue hfirst =>
      rw [if_pos hfirst]
      rcases List.mem_cons.mp hp with rfl | hp
      · exact ⟨hfirst, List.subset_append_left _ _⟩
      · obtain ⟨hdone, hsub⟩ := ih h hp
        exact ⟨hdone, List.subset_append_of_subset_right _ hsub⟩
    case isFalse hfirst => exact absurd h hfirst

/-! ### Two runs -/

namespace Tree
variable {t t₁ t₂ : Tree} {f : File}

/-- The generated menus are removed first. -/
theorem afterScan_auto (t : Tree) (files files' : Files) (name : Bytes) :
    t.afterScan files (.auto name) = t.afterScan files' (.auto name) := run_congr _ rfl

theorem afterScan_owned (hdone : t.scanned.1 = .done) (hf : t.Owns f)
    (hauto : ∀ name, f ≠ .auto name) (files files' : Files) :
    t.afterScan files f = t.afterScan files' f := by
  rcases hf with ⟨name, rfl⟩ | ⟨p, hp, hmanual, hf⟩
  · exact absurd rfl (hauto name)
  · obtain ⟨hops, hsub⟩ := ops_of_scanOps hdone hp
    obtain ⟨hconfig, htokens⟩ := mem_ops hops hmanual
    have hwrite : ∃ c, .write f c ∈ (p.ops t.sectionmap).2 := by
      rcases hf with rfl | ⟨token, htoken, rfl⟩
      · exact hconfig
      · exact htokens token htoken
    obtain ⟨c, hc⟩ := hwrite
    exact run_of_write (List.mem_append_right _ (hsub hc))

theorem removeSections_of_ne (h : ∀ hash, f ≠ .sectionlst hash ∧ f ≠ .sorted hash) :
    removeSections files f = files f := by
  cases f with
  | sectionlst hash => exact absurd rfl (h hash).1
  | sorted hash => exact absurd rfl (h hash).2
  | auto name => rfl
  | config pkg => rfl
  | configOf pkg subpkg => rfl

/-- The menus leave the files of the packages as they are. -/
theorem pkgmaker_of_ne (h : (t.pkgmaker files).1 = .done)
    (hf : ∀ name hash, f ≠ .auto name ∧ f ≠ .sectionlst hash ∧ f ≠ .sorted hash) :
    (t.pkgmaker files).2 f = step (t.afterScan files) gccMenu f := by
  obtain ⟨-, out, hout, hfiles⟩ := pkgmaker_done h
  rw [hfiles, removeSections_of_ne fun hash => (hf [] hash).2, iterFiles_of_ne hout hf]

/-- What a failed run leaves of a section. -/
theorem left_of_fatal (h : (t.pkgmaker clean).1 = .fatal) (hash : ℤ) :
    (t.pkgmaker clean).2 (.sorted hash) = none ∧
      ∀ s ∈ (t.pkgmaker clean).2 (.sectionlst hash), ∃ u, s = u ++ [newline] := by
  rw [pkgmaker_fatal h, afterScan_sorted, afterScan_sectionlst]
  refine ⟨rfl, fun s hs => ?_⟩
  split at hs
  case isTrue => cases hs
  case isFalse hne =>
    obtain rfl := Option.some.inj hs
    exact entriesOf_ends hne

/-- The menus of a section are longer when something is left of it. -/
theorem menuCount_lt {hash : ℤ} {s : Bytes} (hleft : files (.sectionlst hash) = some s)
    (hs : ∃ u, s = u ++ [newline]) (value : Bytes) :
    menuCount value ((t.afterScan clean (.sectionlst hash)).getD []) <
      menuCount value ((t.afterScan files (.sectionlst hash)).getD []) := by
  have hclean : clean (.sectionlst hash) = none := rfl
  have hne (w : Bytes) : s ++ w ≠ [] := by
    obtain ⟨u, rfl⟩ := hs
    exact List.append_ne_nil_of_left_ne_nil (List.concat_ne_nil newline u) w
  rw [afterScan_sectionlst, afterScan_sectionlst, hleft, hclean]
  by_cases hnil : t.entriesOf hash = []
  · have hsne := hne []
    rw [List.append_nil] at hsne
    rw [if_pos hnil, if_pos hnil, Option.getD_none, Option.getD_some, menuCount, menuCount,
      if_pos rfl, if_neg hsne]
    omega
  · obtain ⟨u, hu⟩ := entriesOf_ends hnil
    have hentries : (t.entriesOf hash).flatten ≠ [] := by
      rw [hu]
      exact List.concat_ne_nil newline u
    rw [if_neg hnil, if_neg hnil, Option.getD_some, Option.getD_some, Option.getD_none,
      Option.getD_some, List.nil_append, menuCount, menuCount, if_neg hentries, if_neg (hne _)]
    exact Nat.add_lt_add_left (length_fileLines_lt hs (.inr ⟨u, hu⟩)) _

theorem afterScan_of_none {hash : ℤ} (hleft : files (.sectionlst hash) = none) :
    t.afterScan files (.sectionlst hash) = t.afterScan clean (.sectionlst hash) := by
  have hclean : clean (.sectionlst hash) = none := rfl
  rw [afterScan_sectionlst, afterScan_sectionlst, hleft, hclean]

/-- The lines of the menus after a run, when nothing has been sorted before it. -/
theorem count_pkgmaker (h : (t.pkgmaker files).1 = .done)
    (hsorted : ∀ hash, files (.sorted hash) = none)
    (hfull : ∀ hash, files (.sectionlst hash) ≠ some []) (name : Bytes) :
    (((t.pkgmaker files).2 (.auto name)).getD []).count newline =
      ((t.afterScan clean (.auto name)).getD []).count newline + menuCounts t.sectionmap
        (fun hash => (t.afterScan files (.sectionlst hash)).getD []) name := by
  obtain ⟨-, out, hout, hfiles⟩ := pkgmaker_done h
  have hlist (hash : ℤ) : step (t.afterScan files) gccMenu (.sectionlst hash) =
      t.afterScan files (.sectionlst hash) := step_gccMenu (fun _ _ => File.noConfusion) _
  obtain ⟨menus, hmenus, htexts⟩ := iter_of_iterFiles
    (fun hash _ => by
      rw [step_gccMenu fun _ _ => File.noConfusion, afterScan_sorted, hsorted])
    (fun hash => by
      rw [hlist]
      exact afterScan_ne_nil (hfull hash)) hout
  simp only [hlist] at hmenus
  have hauto : removeSections out (.auto name) = out (.auto name) := rfl
  rw [hfiles, hauto, htexts, List.count_append, count_menuTexts hmenus,
    step_gccMenu fun _ _ => File.noConfusion, afterScan_auto t files clean]

end Tree

/-- After a failed run the next one makes the same files exactly when no section file is left with
the sum of one of its sections. -/
theorem noTrace_iff {t₁ t₂ : Tree} (h₁ : (t₁.pkgmaker clean).1 = .fatal)
    (h₂ : (t₂.pkgmaker clean).1 = .done) : NoTrace t₁ t₂ ↔
      ∀ s ∈ t₂.sectionmap, (t₁.pkgmaker clean).2 (.sectionlst (hashStr s.2)) = none := by
  have hleft := Tree.left_of_fatal h₁
  unfold NoTrace
  generalize (t₁.pkgmaker clean).2 = files at hleft ⊢
  have hsorted (hash : ℤ) : files (.sorted hash) = none := (hleft hash).1
  have hfull (hash : ℤ) : files (.sectionlst hash) ≠ some [] := fun hnil => by
    obtain ⟨u, hu⟩ := (hleft hash).2 [] hnil
    exact List.concat_ne_nil newline u hu.symm
  constructor
  · rintro ⟨hdone, hsame⟩ s hs
    by_contra hne
    have hlt : ∀ hash, files (.sectionlst hash) ≠ none → ∀ value,
        menuCount value ((t₂.afterScan clean (.sectionlst hash)).getD []) <
          menuCount value ((t₂.afterScan files (.sectionlst hash)).getD []) :=
      fun hash hne value => by
        obtain ⟨left, hl⟩ := Option.ne_none_iff_exists'.mp hne
        exact Tree.menuCount_lt hl ((hleft hash).2 left hl) value
    have hle (value : Bytes) (hash : ℤ) :
        menuCount value ((t₂.afterScan clean (.sectionlst hash)).getD []) ≤
          menuCount value ((t₂.afterScan files (.sectionlst hash)).getD []) := by
      by_cases hnone : files (.sectionlst hash) = none
      · rw [Tree.afterScan_of_none hnone]
      · exact (hlt hash hnone value).le
    have hmore : ∃ name,
        menuCounts t₂.sectionmap
            (fun hash => (t₂.afterScan clean (.sectionlst hash)).getD []) name <
          menuCounts t₂.sectionmap
            (fun hash => (t₂.afterScan files (.sectionlst hash)).getD []) name :=
      exists_menuCounts_lt hle ⟨s, hs, hlt _ hne⟩
    obtain ⟨name, hname⟩ := hmore
    have hcount := Tree.count_pkgmaker h₂ (fun _ => rfl) (fun _ => (Option.some_ne_none _).symm)
      name
    have hcount' := Tree.count_pkgmaker hdone hsorted hfull name
    rw [hsame _ (.inl ⟨name, rfl⟩)] at hcount'
    omega
  · intro hnone
    obtain ⟨hdone, out, hout, hfiles⟩ := Tree.pkgmaker_done h₂
    have hagree : ∀ f, Touched t₂.sectionmap f →
        step (t₂.afterScan clean) gccMenu f = step (t₂.afterScan files) gccMenu f := by
      rintro f (⟨name, rfl⟩ | ⟨hash, rfl⟩ | ⟨s, hs, rfl⟩)
      · exact step_congr _ (t₂.afterScan_auto _ _ name)
      · apply step_congr
        rw [Tree.afterScan_sorted, Tree.afterScan_sorted, hsorted]
        rfl
      · exact step_congr _ (Tree.afterScan_of_none (hnone s hs)).symm
    obtain ⟨out', hout', hauto⟩ := iterFiles_congr hagree hout
    have hrun := Tree.done_of_iterFiles hdone hout'
    refine ⟨congrArg Prod.fst hrun, fun f hf => ?_⟩
    by_cases hisauto : ∃ name, f = .auto name
    · obtain ⟨name, rfl⟩ := hisauto
      rw [hfiles, hrun]
      exact (hauto name).symm
    · have hother : ∀ name hash, f ≠ .auto name ∧ f ≠ .sectionlst hash ∧ f ≠ .sorted hash := by
        intro name hash
        rcases hf with hf | ⟨p, -, -, rfl | ⟨token, -, rfl⟩⟩
        · exact absurd hf hisauto
        · exact ⟨File.noConfusion, File.noConfusion, File.noConfusion⟩
        · exact ⟨File.noConfusion, File.noConfusion, File.noConfusion⟩
      rw [Tree.pkgmaker_of_ne (congrArg Prod.fst hrun) hother, Tree.pkgmaker_of_ne h₂ hother]
      refine step_congr _ (Tree.afterScan_owned hdone hf (fun name => ?_) _ _)
      exact (hother name 0).1

/-! ### Two trees -/

/-- The package `b` is listed before the section of `c` is not found. -/
def failing (sectionList : Bytes) : Tree where
  sectionList := sectionList
  dirs := [⟨str "b", str "PKG_NAME:=b\nPKG_SECTION:=net/misc\n", false⟩,
    ⟨str "c", str "PKG_NAME:=c\nPKG_SECTION:=text\n", false⟩]
  nodup := by decide

/-- The package `c` is gone. -/
def mended (sectionList : Bytes) : Tree where
  sectionList := sectionList
  dirs := [⟨str "b", str "PKG_NAME:=b\nPKG_SECTION:=net/misc\n", false⟩]
  nodup := by decide

/-- The title of the section has changed with the package. -/
theorem noTrace_renamed :
    NoTrace (failing (str "net/misc\tNetworking\n")) (mended (str "net/misc\tNet\n")) :=
  (@noTrace_iff (failing (str "net/misc\tNetworking\n")) (mended (str "net/misc\tNet\n"))
    (by decide +kernel) (by decide +kernel)).mpr (by decide +kernel)

/-- The package `b` is in the menu twice. -/
theorem not_noTrace_mended :
    ((failing (str "net/misc\tNet\n")).pkgmaker clean).1 = .fatal ∧
      ((mended (str "net/misc\tNet\n")).pkgmaker clean).1 = .done ∧
        ¬NoTrace (failing (str "net/misc\tNet\n")) (mended (str "net/misc\tNet\n")) := by
  refine ⟨by decide +kernel, by decide +kernel, fun h => ?_⟩
  exact absurd (h.2 (.auto (str "net.misc")) (.inl ⟨_, rfl⟩)) (by decide +kernel)

end OpenADK.Pkgmaker
