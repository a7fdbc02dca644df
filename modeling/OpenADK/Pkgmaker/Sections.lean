import OpenADK.Pkgmaker.Menus
import Mathlib.Data.List.Nodup

/-!
# What the menus source

A line of a section file is read back as it was written only if the names in it are clean. Then
the menus source what was listed, each section what was listed under the sum of its description
if no section before it has the same.
-/

namespace OpenADK.Pkgmaker
open CString
variable {sections : StrMap} {menus : List Menu} {src : Source} {buf key : Bytes}

/-! ### Lines -/

/-- The line of a source in a section file, without its newline. -/
def Source.line : Source → Bytes
  | .manual pkg => pkg ++ str "@"
  | .generated pkg subpkg => subpkg ++ str " |" ++ pkg.getD []

def Source.writes (src : Source) : Bytes := src.line ++ [newline]

/-- The names of a source are such that its line is read back. -/
def Source.Clean : Source → Prop
  | .manual pkg => newline ∉ pkg ∧ pkg.length + 1 ≤ maxPath - 2
  | .generated none _ => False
  | .generated (some pkg) subpkg =>
    (newline ∉ pkg ∧ chr '|' ∉ pkg ∧ pkg ≠ [] ∧ pkg.getLast? ≠ some (chr '@')) ∧
      (newline ∉ subpkg ∧ chr '|' ∉ subpkg) ∧ subpkg.length + 2 + pkg.length ≤ maxPath - 2

instance : DecidablePred Source.Clean
  | .manual _ => inferInstanceAs (Decidable (_ ∧ _))
  | .generated none _ => inferInstanceAs (Decidable False)
  | .generated (some _) _ => inferInstanceAs (Decidable (_ ∧ _ ∧ _))

/-- What can be said of a source that was read from a line. -/
def Source.Plain : Source → Prop
  | .manual pkg => newline ∉ pkg ∧ pkg.length + 1 ≤ maxPath - 2
  | .generated none _ => True
  | .generated (some pkg) subpkg =>
    (newline ∉ pkg ∧ chr '|' ∉ pkg ∧ pkg ≠ []) ∧ (newline ∉ subpkg ∧ chr '|' ∉ subpkg) ∧
      subpkg.length + 2 + pkg.length ≤ maxPath - 2

theorem plain_of_readSource (hnl : newline ∉ buf.dropLast) (hlen : buf.length ≤ maxPath - 1)
    (h : readSource buf = some src) : src.Plain := by
  unfold readSource at h
  have hsize : buf.dropLast.length ≤ maxPath - 2 := by
    rw [List.length_dropLast]
    exact Nat.sub_le_sub_right hlen 1
  generalize buf.dropLast = s at h hnl hsize
  dsimp only at h
  split at h
  case isTrue hlast =>
    cases h
    have hne : s ≠ [] := by
      rintro rfl
      cases hlast
    have hpos := List.length_pos_of_ne_nil hne
    refine ⟨fun hmem => hnl (List.dropLast_subset _ hmem), ?_⟩
    rw [List.length_dropLast]
    omega
  case isFalse =>
    split at h
    case h_1 => cases h
    case h_2 subpkg rest hsub =>
      cases h
      cases hpkg : strtok (str "|") rest with
      | none => trivial
      | some p =>
        obtain ⟨pkg, rest'⟩ := p
        obtain ⟨hsub1, hsub2, hrest, hlength⟩ := of_strtok hsub
        obtain ⟨hpkg1, hpkg2, -, -⟩ := of_strtok hpkg
        obtain ⟨hne, -⟩ := length_of_strtok hsub
        obtain ⟨hne', hle⟩ := length_of_strtok hpkg
        have hpos := List.length_pos_of_ne_nil hne
        have hpos' := List.length_pos_of_ne_nil hne'
        have hrest' : rest ≠ [] := by
          rintro rfl
          exact absurd hle (by rw [List.length_nil]; omega)
        have hlength := hlength hrest'
        have hbar : chr '|' ∈ str "|" := List.mem_singleton.mpr rfl
        refine ⟨⟨fun hmem => hnl (hrest (hpkg2 hmem)), fun hmem => hpkg1 _ hmem hbar, hne'⟩,
          ⟨fun hmem => hnl (hsub2 (List.dropLast_subset _ hmem)),
            fun hmem => hsub1 _ (List.dropLast_subset _ hmem) hbar⟩, ?_⟩
        change subpkg.dropLast.length + 2 + pkg.length ≤ _
        rw [List.length_dropLast]
        omega

theorem fits_of_plain (h : src.Plain) (hnone : ∀ subpkg, src ≠ .generated none subpkg) :
    Fits newline (maxPath - 2) src.line := by
  cases src with
  | manual pkg =>
    obtain ⟨hnl, hlen⟩ := h
    have hat : (str "@").length = 1 := rfl
    refine ⟨fun hmem => ?_, by rw [Source.line, List.length_append, hat]; exact hlen⟩
    rcases List.mem_append.mp hmem with hmem | hmem
    · exact hnl hmem
    · exact absurd hmem (by decide)
  | generated pkg subpkg =>
    cases pkg with
    | none => exact absurd rfl (hnone subpkg)
    | some pkg =>
      obtain ⟨⟨hpkg, -, -⟩, ⟨hsub, -⟩, hlen⟩ := h
      refine ⟨fun hmem => ?_, ?_⟩
      · rcases List.mem_append.mp hmem with hmem | hmem
        · rcases List.mem_append.mp hmem with hmem | hmem
          · exact hsub hmem
          · exact absurd hmem (by decide)
        · exact hpkg hmem
      · have hbar : (str " |").length = 2 := rfl
        rw [Source.line, List.length_append, List.length_append, hbar]
        exact hlen

/-- How a plain line is read: only an `@` at its end changes what it is. -/
theorem readSource_writes (h : src.Plain) (hnone : ∀ subpkg, src ≠ .generated none subpkg) :
    src.Clean ∧ readSource src.writes = some src ∨
      ¬src.Clean ∧ ∃ pkg, readSource src.writes = some (.manual pkg) := by
  have hdrop : src.writes.dropLast = src.line := List.dropLast_concat
  cases src with
  | manual pkg =>
    left
    refine ⟨h, ?_⟩
    rw [readSource, hdrop]
    have hlast : (Source.manual pkg).line.getLast? = some (chr '@') := List.getLast?_concat
    rw [if_pos hlast]
    exact congrArg (fun s => some (Source.manual s)) List.dropLast_concat
  | generated pkg subpkg =>
    cases pkg with
    | none => exact absurd rfl (hnone subpkg)
    | some pkg =>
      obtain ⟨⟨hnl, hpkg, hne⟩, ⟨hnl', hsub⟩, hlen⟩ := h
      have hlast : (Source.generated (some pkg) subpkg).line.getLast? = pkg.getLast? := by
        rw [Source.line, Option.getD_some, List.getLast?_append_of_ne_nil _ hne]
      by_cases hat : pkg.getLast? = some (chr '@')
      · right
        refine ⟨fun hclean => hclean.1.2.2.2 hat,
          (Source.generated (some pkg) subpkg).line.dropLast, ?_⟩
        rw [readSource, hdrop, if_pos (hlast.trans hat)]
      · left
        refine ⟨⟨⟨hnl, hpkg, hne, hat⟩, ⟨hnl', hsub⟩, hlen⟩, ?_⟩
        have hline : (Source.generated (some pkg) subpkg).line =
            (subpkg ++ [chr ' ']) ++ chr '|' :: pkg := by
          rw [Source.line, Option.getD_some, List.append_assoc, List.append_assoc]
          rfl
        have hbar : chr '|' ∈ str "|" := List.mem_singleton.mpr rfl
        have hsub' : ∀ a ∈ subpkg ++ [chr ' '], a ∉ str "|" := by
          intro a ha hmem
          obtain rfl := List.mem_singleton.mp hmem
          rcases List.mem_append.mp ha with ha | ha
          · exact hsub ha
          · exact absurd ha (by decide)
        have hpkg' : ∀ a ∈ pkg, a ∉ str "|" := by
          intro a ha hmem
          obtain rfl := List.mem_singleton.mp hmem
          exact hpkg ha
        have h1 := (strtok_of_not_mem (by simp) hsub' hbar pkg).1
        have h2 := (strtok_of_not_mem hne hpkg' hbar []).2
        rw [readSource, hdrop, if_neg (fun h => hat (hlast.symm.trans h)), hline, h1]
        simp only [h2, Option.map_some, List.dropLast_concat]

theorem Source.Clean.plain (h : src.Clean) : src.Plain := by
  cases src with
  | manual pkg => exact h
  | generated pkg subpkg =>
    cases pkg with
    | none => exact h.elim
    | some pkg => exact ⟨⟨h.1.1, h.1.2.1, h.1.2.2.1⟩, h.2⟩

theorem Source.Clean.ne_none (h : src.Clean) (subpkg : Bytes) :
    src ≠ .generated none subpkg := by
  rintro rfl
  exact h

theorem Source.Clean.readSource_writes (h : src.Clean) : readSource src.writes = some src := by
  rcases Pkgmaker.readSource_writes h.plain h.ne_none with ⟨-, hread⟩ | ⟨hnot, -⟩
  · exact hread
  · exact absurd h hnot

/-! ### Section files -/

theorem Source.writes_ne_nil (src : Source) : src.writes ≠ [] :=
  List.append_ne_nil_of_right_ne_nil _ (List.cons_ne_nil _ _)

/-- Sorting a section file keeps its lines. -/
theorem fileLines_sortfile {ss : List Source}
    (h : ∀ s ∈ ss, Fits newline (maxPath - 2) s.line) :
    (fileLines (sortfile (ss.flatMap Source.writes))).Perm (ss.map Source.writes) := by
  have hlines : ss.flatMap Source.writes = (ss.map Source.writes).flatten :=
    List.flatMap_def
  have hread : readLines newline (ss.flatMap Source.writes).length (ss.flatMap Source.writes) =
      ss.map Source.writes := by
    rw [hlines]
    apply readLines_flatten
    intro c hc
    have hle := (List.sublist_flatten_of_mem hc).length_le
    obtain ⟨s, hs, rfl⟩ := List.mem_map.mp hc
    refine ⟨s.line, rfl, (h s hs).1, ?_⟩
    rw [Source.writes, List.length_append] at hle
    omega
  have hperm := List.perm_insertionSort (fun a b => lineLe a b) (ss.map Source.writes)
  rw [sortfile, hread, fileLines, readLines_flatten]
  · exact hperm
  · intro c hc
    obtain ⟨s, hs, rfl⟩ := List.mem_map.mp (hperm.mem_iff.mp hc)
    exact ⟨s.line, rfl, h s hs⟩

theorem mapM_eq_filterMap {α β : Type} {f : α → Option β} {as : List α}
    (h : ∀ a ∈ as, (f a).isSome) : as.mapM f = some (as.filterMap f) := by
  induction as with
  | nil => rfl
  | cons a as ih =>
    obtain ⟨b, hb⟩ := Option.isSome_iff_exists.mp (h a List.mem_cons_self)
    rw [List.mapM_cons, hb, ih fun c hc => h c (List.mem_cons_of_mem _ hc),
      List.filterMap_cons_some hb]
    rfl

theorem exists_of_mem_mapM {α β : Type} {f : α → Option β} {as : List α} {bs : List β} {b : β}
    (h : as.mapM f = some bs) (hb : b ∈ bs) : ∃ a ∈ as, f a = some b := by
  induction as generalizing bs with
  | nil =>
    cases h
    cases hb
  | cons a as ih =>
    rw [List.mapM_cons] at h
    obtain ⟨c, hc, h⟩ := Option.bind_eq_some_iff.mp h
    obtain ⟨cs, hcs, h⟩ := Option.bind_eq_some_iff.mp h
    cases h
    rcases List.mem_cons.mp hb with rfl | hb
    · exact ⟨a, List.mem_cons_self, hc⟩
    · obtain ⟨a', ha', hf⟩ := ih hcs hb
      exact ⟨a', List.mem_cons_of_mem _ ha', hf⟩

theorem exists_mapM_readSource (ss : List Source) (h : ∀ s ∈ ss, s.Clean) :
    ∃ ss', (fileLines (sortfile (ss.flatMap Source.writes))).mapM readSource = some ss' ∧
      ss'.Perm ss := by
  have hperm := fileLines_sortfile fun s hs => fits_of_plain (h s hs).plain (h s hs).ne_none
  refine ⟨_, mapM_eq_filterMap fun c hc => ?_, (hperm.filterMap readSource).trans ?_⟩
  · obtain ⟨s, hs, rfl⟩ := List.mem_map.mp (hperm.mem_iff.mp hc)
    rw [(h s hs).readSource_writes, Option.isSome_some]
  · rw [List.filterMap_map]
    have hid : ∀ s ∈ ss, (readSource ∘ Source.writes) s = some s := fun s hs =>
      (h s hs).readSource_writes
    rw [List.filterMap_congr hid, List.filterMap_some]

/-! ### Enumerating the sections -/

def owner (sections : StrMap) (hash : ℤ) : Option Bytes :=
  (sections.find? fun s => hashStr s.2 = hash).map Prod.fst

def filesOf (listed : List (ℤ × Source)) (hash : ℤ) : Bytes :=
  (listed.filter fun e => e.1 = hash).flatMap fun e => e.2.writes

theorem exists_line_of_iter {files : ℤ → Bytes} (h : iter sections files = some menus)
    (hsrc : src ∈ menus.flatMap Menu.sources) :
    ∃ hash, ∃ buf ∈ fileLines (sortfile (files hash)), readSource buf = some src := by
  induction sections generalizing files menus with
  | nil =>
    cases h
    cases hsrc
  | cons s sections ih =>
    obtain ⟨key, value⟩ := s
    rw [iter] at h
    split at h
    case isTrue => exact ih h hsrc
    case isFalse =>
      split at h
      case h_1 => cases h
      case h_2 sources hsources =>
        obtain ⟨menus, hiter, rfl⟩ := Option.map_eq_some_iff.mp h
        rcases List.mem_append.mp hsrc with hmem | hmem
        · obtain ⟨buf, hbuf, hread⟩ := exists_of_mem_mapM hsources hmem
          exact ⟨_, buf, hbuf, hread⟩
        · obtain ⟨hash, buf, hbuf, hread⟩ := ih hiter hmem
          rw [Function.update_apply] at hbuf
          split at hbuf
          · cases hbuf
          · exact ⟨hash, buf, hbuf, hread⟩

theorem filesOf_eq_flatMap (listed : List (ℤ × Source)) (hash : ℤ) :
    filesOf listed hash =
      ((listed.filter fun e => e.1 = hash).map Prod.snd).flatMap Source.writes := by
  rw [filesOf, List.flatMap_map]

/-- Removing a section file leaves the other ones. -/
theorem update_filesOf (listed : List (ℤ × Source)) (hash : ℤ) :
    Function.update (filesOf listed) hash [] = filesOf (listed.filter fun e => e.1 ≠ hash) := by
  funext hash'
  rw [Function.update_apply, filesOf, filesOf, List.filter_filter]
  split
  case isTrue heq =>
    have hempty : listed.filter (fun e => decide (e.1 = hash') && decide (e.1 ≠ hash)) = [] := by
      rw [List.filter_eq_nil_iff]
      rintro e - he
      simp only [Bool.and_eq_true, decide_eq_true_eq] at he
      exact he.2 (he.1.trans heq)
    rw [hempty, List.flatMap_nil]
  case isFalse hne =>
    congr 1
    apply List.filter_congr
    intro e _
    by_cases he : e.1 = hash'
    · simp [he, hne]
    · simp [he]

theorem owner_cons_self {s : Bytes × Bytes} {hash : ℤ} (h : hashStr s.2 = hash) :
    owner (s :: sections) hash = some s.1 := by
  rw [owner, List.find?_cons_of_pos (by simpa using h), Option.map_some]

theorem owner_cons_of_ne {s : Bytes × Bytes} {hash : ℤ} (h : hashStr s.2 ≠ hash) :
    owner (s :: sections) hash = owner sections hash := by
  rw [owner, List.find?_cons_of_neg (by simpa using h), owner]

/-- What a section takes, and what it leaves for the ones after it. -/
theorem iter_cons {listed : List (ℤ × Source)} (hclean : ∀ e ∈ listed, e.2.Clean)
    {s : Bytes × Bytes} (h : iter (s :: sections) (filesOf listed) = some menus) :
    ∃ rest, iter sections (filesOf (listed.filter fun e => e.1 ≠ hashStr s.2)) = some rest ∧
      (menus.flatMap Menu.sources).Perm
        ((listed.filter fun e => e.1 = hashStr s.2).map Prod.snd ++ rest.flatMap Menu.sources) ∧
      ∀ key src, (∃ menu ∈ menus, menu.key = key ∧ src ∈ menu.sources) ↔
        (s.1 = key ∧ (hashStr s.2, src) ∈ listed) ∨
          ∃ menu ∈ rest, menu.key = key ∧ src ∈ menu.sources := by
  obtain ⟨key0, value⟩ := s
  have hmem (src : Source) : (hashStr value, src) ∈ listed ↔
      src ∈ (listed.filter fun e => e.1 = hashStr value).map Prod.snd := by
    simp only [List.mem_map, List.mem_filter, decide_eq_true_eq]
    constructor
    · exact fun hsrc => ⟨_, ⟨hsrc, rfl⟩, rfl⟩
    · rintro ⟨⟨hash, src⟩, ⟨hsrc, rfl⟩, rfl⟩
      exact hsrc
  simp only [hmem]
  rw [← update_filesOf]
  rw [iter] at h
  split at h
  case isTrue hempty =>
    rw [filesOf_eq_flatMap] at hempty
    have htaken : (listed.filter fun e => e.1 = hashStr value).map Prod.snd = [] := by
      refine List.eq_nil_iff_forall_not_mem.mpr fun src hsrc => src.writes_ne_nil ?_
      exact List.flatMap_eq_nil_iff.mp hempty src hsrc
    have hsame : Function.update (filesOf listed) (hashStr value) [] = filesOf listed := by
      rw [Function.update_eq_self_iff, filesOf_eq_flatMap, htaken, List.flatMap_nil]
    rw [htaken, hsame]
    exact ⟨menus, h, .refl _, fun key src => by simp only [List.not_mem_nil, and_false, false_or]⟩
  case isFalse =>
    rw [filesOf_eq_flatMap] at h
    obtain ⟨sources, hsources, hperm⟩ := exists_mapM_readSource
      ((listed.filter fun e => e.1 = hashStr value).map Prod.snd) (by
        intro src hsrc
        obtain ⟨e, he, rfl⟩ := List.mem_map.mp hsrc
        exact hclean e (List.mem_of_mem_filter he))
    rw [hsources] at h
    obtain ⟨rest, hiter, rfl⟩ := Option.map_eq_some_iff.mp h
    refine ⟨rest, hiter, ?_, fun key src => ?_⟩
    · rw [List.flatMap_cons]
      exact hperm.append_right _
    · simp only [List.exists_mem_cons_iff, hperm.mem_iff]

/-- Each section takes what is listed under its sum, unless one before it has the same sum. -/
theorem iter_correct {listed : List (ℤ × Source)} (hclean : ∀ e ∈ listed, e.2.Clean)
    (h : iter sections (filesOf listed) = some menus) :
    (menus.flatMap Menu.sources).Perm
        ((listed.filter fun e => (owner sections e.1).isSome).map Prod.snd) ∧
      ∀ key src, (∃ menu ∈ menus, menu.key = key ∧ src ∈ menu.sources) ↔
        ∃ e ∈ listed, e.2 = src ∧ owner sections e.1 = some key := by
  induction sections generalizing listed menus with
  | nil =>
    cases h
    have hnone : ∀ e ∈ listed, ¬(owner [] e.1).isSome = true := fun e _ => Bool.false_ne_true
    rw [List.filter_eq_nil_iff.mpr hnone]
    refine ⟨.nil, fun key src => ⟨?_, ?_⟩⟩
    · rintro ⟨menu, hmenu, -⟩
      cases hmenu
    · rintro ⟨e, -, -, howner⟩
      cases howner
  | cons s sections ih =>
    obtain ⟨rest, hiter, hperm, hkeys⟩ := iter_cons hclean h
    obtain ⟨hperm', hkeys'⟩ := ih (fun e he => hclean e (List.mem_of_mem_filter he)) hiter
    refine ⟨hperm.trans ?_, fun key src => (hkeys key src).trans ?_⟩
    · apply (hperm'.append_left _).trans
      rw [← List.map_append, List.filter_filter]
      apply List.Perm.map
      have htaken : (listed.filter fun e => e.1 = hashStr s.2) =
          (listed.filter fun e => (owner (s :: sections) e.1).isSome).filter
            fun e => e.1 = hashStr s.2 := by
        rw [List.filter_filter]
        apply List.filter_congr
        intro e _
        by_cases he : e.1 = hashStr s.2
        · simp [he, owner_cons_self]
        · simp [he]
      have hleft :
          (listed.filter fun e => (owner sections e.1).isSome && decide (e.1 ≠ hashStr s.2)) =
          (listed.filter fun e => (owner (s :: sections) e.1).isSome).filter
            fun e => !decide (e.1 = hashStr s.2) := by
        rw [List.filter_filter]
        apply List.filter_congr
        intro e _
        by_cases he : e.1 = hashStr s.2
        · simp [he]
        · simp [he, owner_cons_of_ne (Ne.symm he)]
      rw [htaken, hleft]
      exact List.filter_append_perm _ _
    · rw [hkeys']
      simp only [List.mem_filter, decide_eq_true_eq, and_assoc]
      constructor
      · rintro (⟨rfl, hmem⟩ | ⟨e, hmem, hne, rfl, howner⟩)
        · exact ⟨_, hmem, rfl, owner_cons_self rfl⟩
        · exact ⟨e, hmem, rfl, (owner_cons_of_ne (Ne.symm hne)).trans howner⟩
      · rintro ⟨⟨hash, src⟩, hmem, rfl, howner⟩
        by_cases he : hashStr s.2 = hash
        · subst he
          rw [owner_cons_self rfl] at howner
          exact .inl ⟨Option.some.inj howner, hmem⟩
        · rw [owner_cons_of_ne he] at howner
          exact .inr ⟨_, hmem, Ne.symm he, rfl, howner⟩

end OpenADK.Pkgmaker
