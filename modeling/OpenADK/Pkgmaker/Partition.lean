import OpenADK.Pkgmaker.Sections

/-!
# The menus partition the packages

Each package is sourced once and in the menu of its own section exactly if the names are clean,
no subpackage is given twice, and the section in effect is not confused with another one.
-/

namespace OpenADK.Pkgmaker
open CString
variable {sections : StrMap} {packages : List Package} {entries : List Entry} {menus : List Menu}
variable {p : Package} {t : Tree}

/-- A package or subpackage with the section it belongs to, and the one it is listed under. -/
structure Placed where
  source : Source
  own : Option Bytes
  effect : Option Bytes

def Placed.hash (sections : StrMap) (q : Placed) : ℤ :=
  hashStr ((q.effect.bind fun key => sections.get key maxValue).getD [])

namespace Package

/-- The `PKG_SECTION` of the Makefile itself, whatever was in the variable before. -/
def declared (p : Package) : Option Bytes :=
  ({ p with vars := p.vars.clear [.section] } : Package).reading.vars .section

/-- The section of a subpackage: its `PKGSC_` value or the section of the package. -/
def own (p : Package) (token : Bytes) : Option Bytes :=
  (p.reading.pkgmap.lookup (sectionKey token)).or p.declared

/-- The section in effect after these subpackages: the last `PKGSC_` value of any of them. -/
def effect (p : Package) (upTo : List Bytes) : Option Bytes :=
  (upTo.reverse.findSome? fun token => p.reading.pkgmap.get (sectionKey token) maxValue).or
    (p.reading.vars .section)

def placed (p : Package) : List Placed :=
  if p.dir.manual then [⟨.manual p.dir.name, p.declared, p.reading.vars .section⟩]
  else p.tokens.mapIdx fun i token =>
    ⟨.generated (some p.dir.name) token, p.own token, p.effect (p.tokens.take (i + 1))⟩

/-- What a package has to be like for the menus to come out right. -/
structure Orderly (sections : StrMap) (p : Package) : Prop where
  distinct : p.tokens.Nodup
  clean : ∀ q ∈ p.placed, q.source.Clean
  /-- The first section whose description has the same sum as the one of the section in effect
  is its own. -/
  owned : ∀ q ∈ p.placed, owner sections (q.hash sections) = q.own

end Package

/-- Each package and subpackage is sourced exactly once, in the menu of its own section. -/
def Partitioned (packages : List Package) (menus : List Menu) : Prop :=
  ∀ p ∈ packages, ∀ q ∈ p.placed, ∃ key, q.own = some key ∧
    (menus.flatMap Menu.sources).count q.source = 1 ∧
    ∃ menu ∈ menus, menu.key = key ∧ q.source ∈ menu.sources

/-! ### What is listed -/

/-- The entry of a package, when there is a description of the section in effect. -/
def Placed.Lists (sections : StrMap) (q : Placed) (e : Entry) : Prop :=
  (q.effect.bind fun key => sections.get key maxValue).isSome ∧
    e = ⟨q.hash sections, q.source.writes⟩

theorem listTokens_correct {pkgmap : StrMap} {dname : Bytes} {pkgSection : Option Bytes}
    {tokens : List Bytes} (own : Bytes → Option Bytes)
    (h : listTokens sections pkgmap dname pkgSection tokens = some entries) :
    List.Forall₂ (Placed.Lists sections)
      (tokens.mapIdx fun i token => ⟨.generated (some dname) token, own token,
        ((tokens.take (i + 1)).reverse.findSome?
          fun token => pkgmap.get (sectionKey token) maxValue).or pkgSection⟩) entries := by
  induction tokens generalizing pkgSection entries with
  | nil =>
    cases h
    exact .nil
  | cons token tokens ih =>
    rw [listTokens] at h
    split at h
    case h_1 => cases h
    case h_2 hvalue hget =>
      obtain ⟨rest, hrest, rfl⟩ := Option.map_eq_some_iff.mp h
      have hor (upTo : List Bytes) :
          ((token :: upTo).reverse.findSome?
              fun token => pkgmap.get (sectionKey token) maxValue).or pkgSection =
            (upTo.reverse.findSome? fun token => pkgmap.get (sectionKey token) maxValue).or
              ((pkgmap.get (sectionKey token) maxValue).or pkgSection) := by
        rw [List.reverse_cons, List.findSome?_append, Option.or_assoc, List.findSome?_singleton]
      rw [List.mapIdx_cons]
      refine .cons ?_ ?_
      · have hone := hor []
        rw [List.reverse_nil, List.findSome?_nil, Option.none_or] at hone
        rw [Nat.zero_add, List.take_succ_cons, List.take_zero]
        refine ⟨?_, ?_⟩
        · dsimp only
          rw [hone, hget, Option.isSome_some]
        · unfold Placed.hash
          dsimp only
          rw [hone, hget, Option.getD_some]
          rfl
      · have := ih hrest
        simp only [List.take_succ_cons, hor]
        exact this

theorem entries_correct (h : p.entries sections = some entries) :
    List.Forall₂ (Placed.Lists sections) p.placed entries := by
  unfold Package.placed
  by_cases hmanual : p.dir.manual
  · simp only [Package.entries, if_pos hmanual] at h
    obtain ⟨hvalue, hget, rfl⟩ := Option.map_eq_some_iff.mp h
    rw [if_pos hmanual]
    refine .cons ⟨?_, ?_⟩ .nil
    · dsimp only
      rw [hget, Option.isSome_some]
    · unfold Placed.hash
      dsimp only
      rw [hget, Option.getD_some]
      rfl
  · rw [if_neg hmanual]
    by_cases hnobin : p.reading.nobinpkgs
    · simp only [Package.entries, if_neg hmanual, if_pos hnobin] at h
      cases h
      rw [Package.tokens, if_pos (.inr hnobin)]
      exact .nil
    · simp only [Package.entries, if_neg hmanual, if_neg hnobin] at h
      split at h
      case isTrue => cases h
      case isFalse => exact listTokens_correct p.own h

theorem scan_correct {dirs : List Dir} {vars : Vars} {nobinpkgs : Bool}
    (h : scan sections dirs vars nobinpkgs = some (packages, entries)) :
    packages.map Package.dir = dirs ∧
      List.Forall₂ (Placed.Lists sections) (packages.flatMap Package.placed) entries := by
  induction dirs generalizing vars nobinpkgs packages entries with
  | nil =>
    cases h
    exact ⟨rfl, .nil⟩
  | cons dir dirs ih =>
    rw [scan] at h
    split at h
    case h_1 => cases h
    case h_2 entries hentries =>
      obtain ⟨⟨packages, rest⟩, hscan, heq⟩ := Option.map_eq_some_iff.mp h
      cases heq
      obtain ⟨hdirs, hrest⟩ := ih hscan
      refine ⟨by rw [List.map_cons, hdirs], ?_⟩
      rw [List.flatMap_cons]
      exact List.rel_append (entries_correct hentries) hrest

def listed (sections : StrMap) (packages : List Package) : List (ℤ × Source) :=
  (packages.flatMap Package.placed).map fun q => (q.hash sections, q.source)

theorem sectionFiles_eq {qs : List Placed} (h : List.Forall₂ (Placed.Lists sections) qs entries) :
    sectionFiles entries = filesOf (qs.map fun q => (q.hash sections, q.source)) := by
  funext hash
  unfold sectionFiles filesOf
  induction h with
  | nil => rfl
  | @cons q e qs entries hqe _ ih =>
    obtain ⟨-, rfl⟩ := hqe
    rw [List.map_cons, List.filter_cons, List.filter_cons]
    dsimp only
    split
    · rw [List.flatMap_cons, List.flatMap_cons, ih]
    · exact ih

theorem StrMap.mem_of_get {map : StrMap} {key value : Bytes} {size : ℕ}
    (h : map.get key size = some value) : (key, value) ∈ map := by
  have hlookup := (Option.filter_eq_some_iff.mp h).1
  obtain ⟨before, after, rfl, -⟩ := List.lookup_eq_some_iff.mp hlookup
  exact List.mem_append_right _ List.mem_cons_self

/-- What is listed is taken by some section. -/
theorem Placed.Lists.isSome_owner {q : Placed} {e : Entry} (h : q.Lists sections e) :
    (owner sections (q.hash sections)).isSome := by
  obtain ⟨hvalue, hget⟩ := Option.isSome_iff_exists.mp h.1
  obtain ⟨key, -, hkey⟩ := Option.bind_eq_some_iff.mp hget
  have hhash : q.hash sections = hashStr hvalue := by rw [Placed.hash, hget, Option.getD_some]
  rw [owner, Option.isSome_map, List.find?_isSome]
  exact ⟨_, StrMap.mem_of_get hkey, by simp [hhash]⟩

/-! ### The sources of a package -/

def Source.dname : Source → Bytes
  | .manual pkg => pkg
  | .generated pkg _ => pkg.getD []

theorem dname_of_mem_placed {q : Placed} (h : q ∈ p.placed) :
    q.source.dname = p.dir.name ∧ ∀ subpkg, q.source ≠ .generated none subpkg := by
  unfold Package.placed at h
  split at h
  · obtain rfl := List.mem_singleton.mp h
    exact ⟨rfl, fun _ h => by cases h⟩
  · obtain ⟨i, hi, rfl⟩ := List.mem_mapIdx.mp h
    exact ⟨rfl, fun _ h => by cases h⟩

theorem map_source_placed (p : Package) : p.placed.map Placed.source =
    if p.dir.manual then [.manual p.dir.name]
    else p.tokens.map fun token => .generated (some p.dir.name) token := by
  unfold Package.placed
  split
  · rfl
  · apply List.ext_getElem (by simp)
    intro i hi hi'
    rw [List.getElem_map, List.getElem_mapIdx, List.getElem_map]

theorem nodup_sources_iff : (p.placed.map Placed.source).Nodup ↔ p.tokens.Nodup := by
  rw [map_source_placed]
  split
  case isTrue hmanual =>
    rw [Package.tokens, if_pos (.inl hmanual)]
    exact iff_of_true (List.nodup_singleton _) List.nodup_nil
  case isFalse =>
    apply List.nodup_map_iff
    intro a b hab
    cases hab
    rfl

theorem nodup_sources (hnames : (packages.map fun p => p.dir.name).Nodup)
    (h : ∀ p ∈ packages, p.tokens.Nodup) :
    ((packages.flatMap Package.placed).map Placed.source).Nodup := by
  rw [List.map_flatMap, List.nodup_flatMap]
  refine ⟨fun p hp => nodup_sources_iff.mpr (h p hp), ?_⟩
  apply (List.pairwise_map.mp hnames).imp
  intro p p' hne src hsrc hsrc'
  obtain ⟨q, hq, rfl⟩ := List.mem_map.mp hsrc
  obtain ⟨q', hq', heq⟩ := List.mem_map.mp hsrc'
  exact hne ((dname_of_mem_placed hq).1.symm.trans
    ((congrArg Source.dname heq.symm).trans (dname_of_mem_placed hq').1))

/-! ### The menus -/

theorem exists_of_forall₂ {α β : Type} {R : α → β → Prop} {as : List α} {bs : List β} {a : α}
    (h : List.Forall₂ R as bs) (ha : a ∈ as) : ∃ b, R a b := by
  induction h with
  | nil => cases ha
  | cons hab _ ih =>
    rcases List.mem_cons.mp ha with rfl | ha
    · exact ⟨_, hab⟩
    · exact ih ha

/-- What a successful run of `pkgmaker` has done. -/
theorem of_pkgmaker (h : pkgmaker t = some (packages, menus)) :
    iter t.sectionmap (filesOf (listed t.sectionmap packages)) = some menus ∧
      (packages.map fun p => p.dir.name).Nodup ∧
      ∀ q ∈ packages.flatMap Package.placed, (owner t.sectionmap (q.hash t.sectionmap)).isSome := by
  unfold pkgmaker at h
  split at h
  case h_1 => cases h
  case h_2 packages entries hscan =>
    obtain ⟨menus, hiter, heq⟩ := Option.map_eq_some_iff.mp h
    cases heq
    obtain ⟨hdirs, hlists⟩ := scan_correct hscan
    refine ⟨by rw [listed, ← sectionFiles_eq hlists]; exact hiter, ?_, fun q hq => ?_⟩
    · have hmap : (packages.map fun p => p.dir.name) = t.visible.map Dir.name := by
        rw [← hdirs, List.map_map]
        rfl
      rw [hmap]
      exact t.nodup.sublist (List.filter_sublist.map _)
    · obtain ⟨e, he⟩ := exists_of_forall₂ hlists hq
      exact he.isSome_owner

theorem map_snd_listed (sections : StrMap) (packages : List Package) :
    (listed sections packages).map Prod.snd =
      (packages.flatMap Package.placed).map Placed.source := by
  rw [listed, List.map_map]
  rfl

/-- With clean names the menus source all that is listed. -/
theorem perm_sources (h : pkgmaker t = some (packages, menus))
    (hclean : ∀ q ∈ packages.flatMap Package.placed, q.source.Clean) :
    (menus.flatMap Menu.sources).Perm ((packages.flatMap Package.placed).map Placed.source) ∧
      ∀ key src, (∃ menu ∈ menus, menu.key = key ∧ src ∈ menu.sources) ↔
        ∃ q ∈ packages.flatMap Package.placed,
          q.source = src ∧ owner t.sectionmap (q.hash t.sectionmap) = some key := by
  obtain ⟨hiter, -, howner⟩ := of_pkgmaker h
  have hlisted : ∀ e ∈ listed t.sectionmap packages, e.2.Clean ∧
      (owner t.sectionmap e.1).isSome = true := by
    intro e he
    obtain ⟨q, hq, rfl⟩ := List.mem_map.mp he
    exact ⟨hclean q hq, howner q hq⟩
  obtain ⟨hperm, hkeys⟩ := iter_correct (fun e he => (hlisted e he).1) hiter
  rw [List.filter_eq_self.mpr fun e he => (hlisted e he).2, map_snd_listed] at hperm
  refine ⟨hperm, fun key src => (hkeys key src).trans ?_⟩
  constructor
  · rintro ⟨e, he, rfl, hkey⟩
    obtain ⟨q, hq, rfl⟩ := List.mem_map.mp he
    exact ⟨q, hq, rfl, hkey⟩
  · rintro ⟨q, hq, rfl, hkey⟩
    exact ⟨_, List.mem_map_of_mem hq, rfl, hkey⟩

/-- Names are clean if everything is sourced. -/
theorem clean_of_sourced (h : pkgmaker t = some (packages, menus))
    (hsourced : ∀ q ∈ packages.flatMap Package.placed, q.source ∈ menus.flatMap Menu.sources) :
    ∀ q ∈ packages.flatMap Package.placed, q.source.Clean := by
  obtain ⟨hiter, -, -⟩ := of_pkgmaker h
  have hnone : ∀ q ∈ packages.flatMap Package.placed, ∀ subpkg,
      q.source ≠ .generated none subpkg := by
    intro q hq
    obtain ⟨p, -, hqp⟩ := List.mem_flatMap.mp hq
    exact (dname_of_mem_placed hqp).2
  have hplain : ∀ q ∈ packages.flatMap Package.placed, q.source.Plain := by
    intro q hq
    obtain ⟨hash, buf, hbuf, hread⟩ := exists_line_of_iter hiter (hsourced q hq)
    obtain ⟨-, hlen, hnl⟩ := of_mem_readLines hbuf
    exact plain_of_readSource hnl hlen hread
  intro q hq
  obtain ⟨hash, buf, hbuf, hread⟩ := exists_line_of_iter hiter (hsourced q hq)
  -- The line that it was read from is the one of something listed, since all of them fit.
  rw [filesOf_eq_flatMap] at hbuf
  have hfile : ∀ s ∈ ((listed t.sectionmap packages).filter fun e => e.1 = hash).map Prod.snd,
      s.Plain ∧ ∀ subpkg, s ≠ .generated none subpkg := by
    intro s hs
    obtain ⟨e, he, rfl⟩ := List.mem_map.mp hs
    obtain ⟨q', hq', rfl⟩ := List.mem_map.mp (List.mem_of_mem_filter he)
    exact ⟨hplain q' hq', hnone q' hq'⟩
  have hperm := fileLines_sortfile fun s hs => fits_of_plain (hfile s hs).1 (hfile s hs).2
  obtain ⟨s, hs, rfl⟩ := List.mem_map.mp (hperm.mem_iff.mp hbuf)
  rcases readSource_writes (hfile s hs).1 (hfile s hs).2 with ⟨hclean, hs'⟩ | ⟨-, pkg, hs'⟩
  · exact Option.some.inj (hs'.symm.trans hread) ▸ hclean
  · have hmanual := Option.some.inj (hs'.symm.trans hread)
    have hq' := hplain q hq
    rw [← hmanual] at hq' ⊢
    exact hq'

/-- The section menus partition the packages if and only if each package is orderly. -/
theorem pkgmaker_partitioned (h : pkgmaker t = some (packages, menus)) :
    Partitioned packages menus ↔ ∀ p ∈ packages, p.Orderly t.sectionmap := by
  obtain ⟨-, hnames, howner⟩ := of_pkgmaker h
  have hmem {p : Package} {q : Placed} (hp : p ∈ packages) (hq : q ∈ p.placed) :
      q ∈ packages.flatMap Package.placed := List.mem_flatMap.mpr ⟨p, hp, hq⟩
  constructor
  · intro hpart
    have hclean : ∀ q ∈ packages.flatMap Package.placed, q.source.Clean := by
      apply clean_of_sourced h
      intro q hq
      obtain ⟨p, hp, hqp⟩ := List.mem_flatMap.mp hq
      obtain ⟨key, -, -, menu, hmenu, -, hsrc⟩ := hpart p hp q hqp
      exact List.mem_flatMap.mpr ⟨menu, hmenu, hsrc⟩
    obtain ⟨hperm, hkeys⟩ := perm_sources h hclean
    have hnodup : ((packages.flatMap Package.placed).map Placed.source).Nodup := by
      apply List.nodup_iff_count_le_one.mpr
      intro src
      by_cases hsrc : src ∈ (packages.flatMap Package.placed).map Placed.source
      · obtain ⟨q, hq, rfl⟩ := List.mem_map.mp hsrc
        obtain ⟨p, hp, hqp⟩ := List.mem_flatMap.mp hq
        obtain ⟨key, -, hcount, -⟩ := hpart p hp q hqp
        rw [← hperm.count_eq, hcount]
      · rw [List.count_eq_zero_of_not_mem hsrc]
        exact Nat.zero_le _
    intro p hp
    refine ⟨nodup_sources_iff.mp ?_, fun q hq => hclean q (hmem hp hq), fun q hq => ?_⟩
    · rw [List.map_flatMap, List.nodup_flatMap] at hnodup
      exact hnodup.1 p hp
    · obtain ⟨key, hown, -, hmenu⟩ := hpart p hp q hq
      obtain ⟨q', hq', hsrc, hkey⟩ := (hkeys key q.source).mp hmenu
      obtain rfl := List.inj_on_of_nodup_map hnodup hq' (hmem hp hq) hsrc
      exact hkey.trans hown.symm
  · intro horderly
    have hclean : ∀ q ∈ packages.flatMap Package.placed, q.source.Clean := by
      intro q hq
      obtain ⟨p, hp, hqp⟩ := List.mem_flatMap.mp hq
      exact (horderly p hp).clean q hqp
    obtain ⟨hperm, hkeys⟩ := perm_sources h hclean
    have hnodup := nodup_sources hnames fun p hp => (horderly p hp).distinct
    intro p hp q hq
    obtain ⟨key, hkey⟩ := Option.isSome_iff_exists.mp (howner q (hmem hp hq))
    refine ⟨key, ((horderly p hp).owned q hq).symm.trans hkey, ?_,
      (hkeys key q.source).mpr ⟨q, hmem hp hq, rfl, hkey⟩⟩
    rw [hperm.count_eq]
    exact List.count_eq_one_of_mem hnodup (List.mem_map_of_mem (hmem hp hq))

namespace Samples

def sectionList : Bytes := str "libs/misc\tMisc Libraries\nnet/dns\t\tDNS and DHCP\n"

/-- A package with these subpackages, the library in a section of its own. -/
def avahi (subpkgs : String) : Tree where
  sectionList := sectionList
  dirs := [⟨str "avahi", str "PKG_NAME:=\t\tavahi\nPKG_SECTION:=\t\tnet/dns\nPKG_SUBPKGS:=\t" ++
    str subpkgs ++ str "\nPKGSC_LIBAVAHI:=\tlibs/misc\n", false⟩]
  nodup := List.nodup_singleton _

theorem pkgmaker_partitioned_avahi :
    ∃ packages menus, pkgmaker (avahi "AVAHI LIBAVAHI") = some (packages, menus) ∧
      Partitioned packages menus := by
  have hrun : ((pkgmaker (avahi "AVAHI LIBAVAHI")).any fun r => r.1.all fun p =>
      decide p.tokens.Nodup && p.placed.all fun q => decide q.source.Clean &&
        decide (owner (avahi "AVAHI LIBAVAHI").sectionmap
          (q.hash (avahi "AVAHI LIBAVAHI").sectionmap) = q.own)) = true := by decide +kernel
  obtain ⟨⟨packages, menus⟩, hmenus, hall⟩ := (Option.any_eq_true _ _).mp hrun
  refine ⟨packages, menus, hmenus, (pkgmaker_partitioned hmenus).mpr fun p hp => ?_⟩
  obtain ⟨hdistinct, hplaced⟩ := (Bool.and_eq_true_iff).mp (List.all_eq_true.mp hall p hp)
  have hq := fun q hq => Bool.and_eq_true_iff.mp (List.all_eq_true.mp hplaced q hq)
  exact ⟨of_decide_eq_true hdistinct, fun q hqp => of_decide_eq_true (hq q hqp).1,
    fun q hqp => of_decide_eq_true (hq q hqp).2⟩

/-- The third package is in the section of the second one. -/
theorem not_partitioned :
    ∃ packages menus, pkgmaker (avahi "AVAHI LIBAVAHI AVAHI_UTILS") = some (packages, menus) ∧
      ¬Partitioned packages menus := by
  have hrun : ((pkgmaker (avahi "AVAHI LIBAVAHI AVAHI_UTILS")).any fun r => r.1.any fun p =>
      p.placed.any fun q => r.2.all fun menu =>
        decide (q.own = some menu.key → q.source ∉ menu.sources)) = true := by decide +kernel
  obtain ⟨⟨packages, menus⟩, hmenus, hany⟩ := (Option.any_eq_true _ _).mp hrun
  obtain ⟨p, hp, hany⟩ := List.any_eq_true.mp hany
  obtain ⟨q, hq, hall⟩ := List.any_eq_true.mp hany
  refine ⟨packages, menus, hmenus, fun hpart => ?_⟩
  obtain ⟨key, hown, -, menu, hmenu, rfl, hsrc⟩ := hpart p hp q hq
  exact of_decide_eq_true (List.all_eq_true.mp hall menu hmenu) hown hsrc

end Samples
end OpenADK.Pkgmaker
