import OpenADK.Cfgfs.Extract

/-!
# A commit is restored by the next setup

The outcome of a setup after a commit has the files and the links of `/etc`, on exactly those trees
whose types agree with those of the ROM in the way that the difference needs.
-/

namespace OpenADK.Cfgfs

/-- The same files and links, with the same contents and targets. -/
def Restores (T : Listing) (E : Etc) : Prop :=
  ∀ p, reserved p = false → ∀ n, n ≠ .dir → (node T p = some n ↔ E.node p = some n)

/-- A directory of the ROM is a directory or gone, a file is a file, gone, or a link that leads to
something else, and a link is a link or a file. -/
structure Restorable (K : Kernel) (R E : Etc) : Prop where
  dirs : DirsKept R E
  files : ∀ p data, R.node p = some (.file data) → E.node p ≠ some .dir
  links : ∀ p t, R.node p = some (.symlink t) → ∃ n, n ≠ .dir ∧ E.node p = some n
  linkKept : ∀ before p after, R.files = before ++ p :: after → LinkKept K R E before p

/-- The names that the system keeps for itself beside the tree. -/
def IsOwn (own : Listing) : Prop :=
  ∀ e ∈ own, e.2 ≠ .dir ∧ slash ∉ e.1 ∧ ownName e.1 = true

section
variable {K : Kernel} {md5 : Bytes → Bytes} {R E : Etc} {T D own : Listing} {p q : Bytes}
  {n m : Node} {same gone : List Bytes}

theorem reserved_of_top (h : slash ∉ p) : reserved p = ownName p := by
  have hall : ∀ c ∈ p, decide (c ≠ slash) = true := fun c hc =>
    decide_eq_true (ne_of_mem_of_not_mem hc h)
  rw [reserved, List.takeWhile_eq_self_iff.mpr hall]

theorem rmOwn_eq (E : Etc) (hown : IsOwn own) : rmOwn (E.entries ++ own) = E.entries := by
  have hE : ∀ e ∈ E.entries, e.2 = .dir ∨ slash ∈ e.1 ∨ ownName e.1 = false := by
    intro e he
    by_cases hslash : slash ∈ e.1
    · exact .inr (.inl hslash)
    · exact .inr (.inr (reserved_of_top hslash ▸ E.unreserved e he))
  have hremoved : ∀ e ∈ own, ¬(e.2 = .dir ∨ slash ∈ e.1 ∨ ownName e.1 = false) := by
    intro e he
    obtain ⟨hdir, hslash, hname⟩ := hown e he
    simp [hdir, hslash, hname]
  rw [rmOwn, List.filter_append, List.filter_eq_self.mpr fun e he => decide_eq_true (hE e he),
    List.filter_eq_nil_iff.mpr fun e he => by simpa using hremoved e he, List.append_nil]

/-- The loop over the ROM, from the copy of `/etc`. -/
theorem commit_eq (hmd5 : Function.Injective md5) (hplain : ∀ p ∈ R.files, Plain p)
    (hoption : NoOptions R E) (hown : IsOwn own) (hdirs : DirsKept R E) :
    commit K md5 R (E.entries ++ own) = prune (left E (R.files.foldl (account K R E) ([], [])).1
      (R.files.foldl (account K R E) ([], [])).2) := by
  have hstart : E.entries = left E [] [] := by
    rw [left, deletions, if_pos rfl, List.append_nil, List.filter_eq_self.mpr fun e _ => by simp]
  rw [commit, compareFiles, readNames_findOutput hplain, rmOwn_eq E hown, hstart]
  exact congrArg prune
    (compareFiles_left (a := ([], [])) hmd5 hdirs hoption fun p hp => hp)

/-! ### The packed tree -/

theorem nodup_left (E : Etc) (same gone : List Bytes) :
    ((left E same gone).map Prod.fst).Nodup := by
  rw [left, List.map_append, List.nodup_append]
  refine ⟨E.nodup.sublist ((List.filter_sublist).map _), ?_, ?_⟩
  · unfold deletions
    split_ifs
    · exact List.nodup_nil
    · exact List.nodup_singleton _
  · intro p hp q hq
    obtain ⟨e, he, rfl⟩ := List.mem_map.mp hp
    obtain ⟨e', he', rfl⟩ := List.mem_map.mp hq
    have hne := ne_deletedName (E.unreserved e (List.mem_filter.mp he).1)
    unfold deletions at he'
    split_ifs at he'
    · cases he'
    · obtain rfl := List.mem_singleton.mp he'
      exact hne

theorem Packs.nodup (hD : Packs (prune (left E same gone)) D) : (D.map Prod.fst).Nodup :=
  (hD.perm.map _).nodup_iff.mpr ((nodup_left E same gone).sublist ((List.filter_sublist).map _))

/-- What is packed of the tree is there, and was not taken for the same as in the ROM. -/
theorem Packs.of_mem (hD : Packs (prune (left E same gone)) D) (hp : p ≠ deletedName)
    (h : (p, n) ∈ D) : E.node p = some n ∧ p ∉ same := by
  have hmem := (List.mem_filter.mp (hD.perm.mem_iff.mp h)).1
  have hnode := node_left E same gone hp
  rw [node_of_mem (nodup_left E same gone) hmem] at hnode
  split_ifs at hnode with hsame
  exact ⟨hnode.symm, hsame⟩

theorem Packs.mem (hD : Packs (prune (left E same gone)) D) (hn : n ≠ .dir)
    (h : node (left E same gone) p = some n) : (p, n) ∈ D :=
  hD.perm.mem_iff.mpr (List.mem_filter.mpr ⟨mem_of_node h, decide_eq_true (.inl hn)⟩)

/-- A packed directory has a file or a link below it. -/
theorem Packs.exists_below (hD : Packs (prune (left E same gone)) D) (h : (p, .dir) ∈ D) :
    ∃ q n, n ≠ .dir ∧ p ∈ ancestors q ∧ E.node q = some n := by
  obtain ⟨-, hbelow⟩ := List.mem_filter.mp (hD.perm.mem_iff.mp h)
  obtain hdir | ⟨⟨q, n⟩, hq, hn, hanc⟩ := of_decide_eq_true hbelow
  · exact absurd rfl hdir
  · have hne : q ≠ deletedName := by
      rintro rfl
      have hslash : slash ∉ deletedName := by decide
      exact hslash (slash_mem_of_mem_ancestors hanc)
    exact ⟨q, n, hn, hanc, (hD.of_mem hne (hD.mem hn (node_of_mem (nodup_left _ _ _) hq))).1⟩

/-! ### What the outcome has -/

/-- The ROM has no list of deleted files. -/
theorem node_rom_deletedName (R : Etc) : node R.entries deletedName = none := by
  cases h : R.node deletedName with
  | none => exact h
  | some n => exact absurd rfl (ne_deletedName (R.unreserved_of_node h))

/-- Without links on the way, the listed files are removed from what was extracted. -/
theorem setup_node (hK : K.Sane) (hplain : ∀ p ∈ R.files, Plain p)
    (hD : Packs (prune (left E same gone)) D) (hgone : Accounted R E gone)
    (hdirect : Direct K R.entries D) (hq : q ≠ deletedName) :
    node (setup K R D) q =
      if q ∈ gone then none else node (D.foldl (extract K) R.entries) q := by
  refine applyDeleted_node ?_ (fun p hp => ?_) hq
  · by_cases hnil : gone = []
    · have hnot : deletedName ∉ D.map Prod.fst := by
        intro hmem
        obtain ⟨⟨p, n⟩, he, rfl⟩ := List.mem_map.mp hmem
        have hleft := node_of_mem (nodup_left E same gone)
          (List.mem_filter.mp (hD.perm.mem_iff.mp he)).1
        rw [node_left_deletedName, hnil] at hleft
        cases hleft
      rw [hdirect.node_of_not_mem hnot, node_rom_deletedName, hnil]
      rfl
    · have hlist : node (deletions gone) deletedName =
          some (.file (gone.flatMap fun p => p ++ [newline])) := by
        rw [deletions, if_neg hnil, node_cons, if_pos rfl]
      rw [hlist]
      exact hdirect.node_of_top hD.nodup
        (hD.mem (by simp) (node_left_deletedName.trans hlist)) (by decide) (by simp)
        (node_rom_deletedName R)
  · obtain ⟨data, hR⟩ := Etc.mem_files.mp (hgone p hp).1
    exact ⟨(hplain p (hgone p hp).1).no_newline, R.proper_of_node hR,
      fun q hq => foldl_extract_dir hK D (R.node_ancestor hR hq),
      hdirect.ne_dir hR (by simp)⟩

/-- What is not packed as a file or a link stays as it is in the ROM. -/
theorem extracted_of_rom (hdirect : Direct K R.entries D) (hD : (D.map Prod.fst).Nodup)
    (hR : R.node p = some m) (h : ∀ n, (p, n) ∈ D → n = .dir) :
    node (D.foldl (extract K) R.entries) p = some m := by
  by_cases hp : p ∈ D.map Prod.fst
  · obtain ⟨⟨p, n⟩, he, rfl⟩ := List.mem_map.mp hp
    obtain rfl := h n he
    exact hdirect.node_of_dir hD he hR
  · rw [hdirect.node_of_not_mem hp]
    exact hR

/-! ### What a restored tree needs -/

theorem dirsKept_of_restores (hK : K.Sane) (h : Restores (setup K R D) E) : DirsKept R E := by
  intro p hR n hE
  by_contra hn
  have hdir := foldl_extract_dir hK D hR
  have hnode := (h p (R.unreserved_of_node hR) n hn).mpr hE
  rcases applyDeleted_cases hK (D.foldl (extract K) R.entries) p with heq | ⟨hne, -⟩
  · rw [setup, heq, hdir] at hnode
    exact hn (Option.some.inj hnode).symm
  · exact hne hdir

/-- An entry created through a link would be missing its directory in the end. -/
theorem direct_of_restores (hK : K.Sane) (hD : Packs (prune (left E same gone)) D)
    (h : Restores (setup K R D) E) : Direct K R.entries D := by
  by_contra hnot
  obtain ⟨D₁, e, D₂, rfl, hlink, hdirect⟩ := exists_last_link hnot
  obtain ⟨q, hq, t, ht⟩ := exists_link_of_linkAbove hlink
  have hmem : (q, Node.dir) ∈ D₁ := mem_of_parentsFirst hD.parentsFirst hq
  have hnodup := hD.nodup
  rw [List.map_append, List.map_cons, List.nodup_append] at hnodup
  have hafter : q ∉ D₂.map Prod.fst := fun hq₂ =>
    hnodup.2.2 q (List.mem_map_of_mem hmem) q (List.mem_cons_of_mem _ hq₂) rfl
  have hcross : node ((D₁ ++ [e]).foldl (extract K) R.entries) q ≠ some .dir := by
    rw [List.foldl_append, List.foldl_cons, List.foldl_nil, extract, if_pos hlink]
    exact hK.cross_ne_dir _ _ ht (by simp)
  have hlast : node ((D₁ ++ e :: D₂).foldl (extract K) R.entries) q ≠ some .dir := by
    have heq := hdirect.node_of_not_mem hafter
    rw [← List.foldl_append, List.append_assoc, List.singleton_append] at heq
    rwa [heq]
  have hend : node (setup K R (D₁ ++ e :: D₂)) q ≠ some .dir := by
    rcases applyDeleted_cases hK ((D₁ ++ e :: D₂).foldl (extract K) R.entries) q with heq | hnone
    · rwa [setup, heq]
    · rw [setup, hnone.2]
      simp
  obtain ⟨r, n, hn, hqr, hE⟩ := hD.exists_below (List.mem_append_left _ hmem)
  have hclosed : Closed (setup K R (D₁ ++ e :: D₂)) :=
    (foldl_extract_closed hK _ R.closed).of_removed (applyDeleted_cases hK _)
  exact hend (hclosed.node_ancestor ((h r (E.unreserved_of_node hE) n hn).mpr hE) hqr)

section
variable (hK : K.Sane) (hplain : ∀ p ∈ R.files, Plain p)
  (hD : Packs (prune (left E same gone)) D) (hgone : Accounted R E gone)
include hK hplain hD hgone

/-- A file or link of the ROM that is neither listed nor replaced is in the outcome. -/
theorem node_of_rom_of_restores (h : Restores (setup K R D) E) (hR : R.node p = some m)
    (hm : m ≠ .dir) (hnot : p ∉ gone) (hp : ∀ n, (p, n) ∈ D → n = .dir) : E.node p = some m := by
  have hdirect := direct_of_restores hK hD h
  have hreserved := R.unreserved_of_node hR
  refine (h p hreserved m hm).mp ?_
  rw [setup_node hK hplain hD hgone hdirect (ne_deletedName hreserved), if_neg hnot]
  exact extracted_of_rom hdirect hD.nodup hR hp

theorem files_of_restores (h : Restores (setup K R D) E) {data : Bytes}
    (hR : R.node p = some (.file data)) : E.node p ≠ some .dir := by
  intro hdir
  have hnot : p ∉ gone := fun hp => (hgone p hp).2 hdir
  have hnode := node_of_rom_of_restores hK hplain hD hgone h hR nofun hnot fun n hn => by
    have hE := (hD.of_mem (ne_deletedName (R.unreserved_of_node hR)) hn).1
    exact Option.some.inj (hE.symm.trans hdir)
  cases hnode.symm.trans hdir

theorem links_of_restores (h : Restores (setup K R D) E) {t : Bytes}
    (hR : R.node p = some (.symlink t)) : ∃ n, n ≠ .dir ∧ E.node p = some n := by
  by_contra hno
  have hE : ∀ n, E.node p = some n → n = .dir := fun n hn =>
    not_not.mp fun hne => hno ⟨n, hne, hn⟩
  have hnot : p ∉ gone := by
    intro hp
    obtain ⟨data, hfile⟩ := Etc.mem_files.mp (hgone p hp).1
    cases hR.symm.trans hfile
  have hnode := node_of_rom_of_restores hK hplain hD hgone h hR nofun hnot fun n hn =>
    hE n (hD.of_mem (ne_deletedName (R.unreserved_of_node hR)) hn).1
  cases hE _ hnode

/-- A link in the place of a file is not restored once it was taken for the file, or for gone. -/
theorem not_accounted_of_restores (h : Restores (setup K R D) E) (hp : p ∈ R.files) {t : Bytes}
    (hE : E.node p = some (.symlink t)) : p ∉ same ∧ p ∉ gone := by
  obtain ⟨data, hR⟩ := Etc.mem_files.mp hp
  have hreserved := R.unreserved_of_node hR
  have hnot : p ∉ gone := by
    intro hmem
    have hnode := (h p hreserved (.symlink t) nofun).mpr hE
    rw [setup_node hK hplain hD hgone (direct_of_restores hK hD h) (ne_deletedName hreserved),
      if_pos hmem] at hnode
    cases hnode
  refine ⟨fun hsame => ?_, hnot⟩
  have hnode := node_of_rom_of_restores hK hplain hD hgone h hR nofun hnot fun n hn =>
    absurd hsame (hD.of_mem (ne_deletedName hreserved) hn).2
  cases hnode.symm.trans hE

end

theorem linkKept_of_restores (hK : K.Sane) (hplain : ∀ p ∈ R.files, Plain p)
    (hdirs : DirsKept R E)
    (hD : Packs (prune (left E (R.files.foldl (account K R E) ([], [])).1
      (R.files.foldl (account K R E) ([], [])).2)) D)
    (h : Restores (setup K R D) E) (before : List Bytes) (p : Bytes) (after : List Bytes)
    (hfiles : R.files = before ++ p :: after) : LinkKept K R E before p := by
  have hgone := (accounted_foldl (K := K) (a := ([], [])) hdirs (fun p (hp : p ∈ R.files) => hp)
    nofun nofun).2
  revert before p after
  by_contra hbad
  obtain ⟨before, p, after, hfiles, hlink, hfirst⟩ := exists_first hbad
  have hp : p ∈ R.files := hfiles ▸ List.mem_append_right _ List.mem_cons_self
  have hnodup := R.nodup_files
  rw [hfiles, List.nodup_append] at hnodup
  have hstart := foldl_account (K := K) hdirs
    (fun q hq => hfiles ▸ List.mem_append_left _ hq) hnodup.1 hfirst
  obtain ⟨⟨t, hE⟩, hmem⟩ := mem_account_of_not_linkKept hdirs hp
    (fun hp' => hnodup.2.2 p hp' p List.mem_cons_self rfl) hlink
  obtain ⟨hsame, hnot⟩ := not_accounted_of_restores hK hplain hD hgone h hp hE
  rw [hfiles, List.foldl_append, List.foldl_cons, hstart] at hsame hnot
  obtain ⟨hsub₁, hsub₂⟩ :=
    subset_foldl_account (K := K) (R := R) (E := E) after (account K R E (lists R E before) p)
  rcases hmem with hmem | hmem
  · exact hsame (hsub₁ hmem)
  · exact hnot (hsub₂ hmem)

/-! ### What is enough -/

theorem restores_of_restorable (hK : K.Sane) (hplain : ∀ p ∈ R.files, Plain p)
    (hD : Packs (prune (left E (lists R E R.files).1 (lists R E R.files).2)) D)
    (h : Restorable K R E) : Restores (setup K R D) E := by
  have hgone : Accounted R E (lists R E R.files).2 := fun p hp => by
    obtain ⟨hfile, hnone⟩ := List.mem_filter.mp hp
    exact ⟨hfile, by rw [of_decide_eq_true hnone]; nofun⟩
  have hkind : ∀ e ∈ D, (e.2 = .dir → ∀ m, node R.entries e.1 = some m → m = .dir) ∧
      (e.2 ≠ .dir → node R.entries e.1 ≠ some .dir) := by
    rintro ⟨p, n⟩ he
    by_cases hp : p = deletedName
    · subst hp
      refine ⟨fun _ m hm => ?_, fun _ hdir => ?_⟩
      · cases (node_rom_deletedName R).symm.trans hm
      · cases (node_rom_deletedName R).symm.trans hdir
    · obtain ⟨hE, -⟩ := hD.of_mem hp he
      refine ⟨fun hn m hm => ?_, fun hn hdir => hn (h.dirs p hdir n hE)⟩
      dsimp only at hn
      subst hn
      cases m with
      | file data => exact absurd hE (h.files p data hm)
      | symlink t =>
        obtain ⟨n, hn, hE'⟩ := h.links p t hm
        exact absurd (Option.some.inj (hE'.symm.trans hE)) hn
      | dir => rfl
  obtain ⟨hdirect, hall⟩ := direct_of_compatible K [] hD.parentsFirst hD.nodup nofun hkind
  intro p hp n hn
  rw [setup_node hK hplain hD hgone hdirect (ne_deletedName hp)]
  by_cases hlisted : p ∈ (lists R E R.files).2
  · have hnone := of_decide_eq_true (List.mem_filter.mp hlisted).2
    rw [if_pos hlisted, hnone]
  rw [if_neg hlisted]
  by_cases hmem : p ∈ D.map Prod.fst
  · obtain ⟨⟨p, m⟩, he, rfl⟩ := List.mem_map.mp hmem
    rw [hall _ he, (hD.of_mem (ne_deletedName hp) he).1]
  rw [hdirect.node_of_not_mem hmem]
  have hnode := node_left E (lists R E R.files).1 (lists R E R.files).2 (ne_deletedName hp)
  by_cases hsame : p ∈ (lists R E R.files).1
  · -- the file is as it is in the ROM
    rw [of_decide_eq_true (List.mem_filter.mp hsame).2]
    rfl
  · -- what is neither packed nor in a list is a directory, or not there
    rw [if_neg hsame] at hnode
    have hE : ∀ m, E.node p = some m → m = .dir := fun m hm => by
      by_contra hne
      exact hmem (List.mem_map_of_mem (hD.mem hne (hnode.trans hm)))
    have hR : ∀ m, R.node p = some m → m = .dir := by
      intro m hm
      cases m with
      | file data =>
        cases hE' : E.node p with
        | none =>
          exact absurd (List.mem_filter.mpr ⟨Etc.mem_files.mpr ⟨data, hm⟩, decide_eq_true hE'⟩)
            hlisted
        | some m =>
          obtain rfl := hE m hE'
          exact absurd hE' (h.files p data hm)
      | symlink t =>
        obtain ⟨m, hne, hm'⟩ := h.links p t hm
        exact absurd (hE m hm') hne
      | dir => rfl
    exact ⟨fun hn' => absurd (hR n hn') hn, fun hn' => absurd (hE n hn') hn⟩

/-- For names that `read` takes as they are, and a digest without collisions. -/
theorem setup_commit_restores (hK : K.Sane) (hmd5 : Function.Injective md5)
    (hplain : ∀ p ∈ R.files, Plain p) (hoption : NoOptions R E) (hown : IsOwn own)
    (hD : Packs (commit K md5 R (E.entries ++ own)) D) :
    Restores (setup K R D) E ↔ Restorable K R E := by
  constructor
  · intro h
    have hdirs := dirsKept_of_restores hK h
    have hgone := (accounted_foldl (K := K) (a := ([], [])) hdirs
      (fun p (hp : p ∈ R.files) => hp) nofun nofun).2
    rw [commit_eq hmd5 hplain hoption hown hdirs] at hD
    exact ⟨hdirs, fun p data hR => files_of_restores hK hplain hD hgone h hR,
      fun p t hR => links_of_restores hK hplain hD hgone h hR,
      linkKept_of_restores hK hplain hdirs hD h⟩
  · intro h
    rw [commit_eq hmd5 hplain hoption hown h.dirs,
      foldl_account h.dirs (fun p hp => hp) R.nodup_files h.linkKept] at hD
    exact restores_of_restorable hK hplain hD h

end

namespace Samples

/-- On these trees no path leads through a link. -/
def kernel : Kernel where
  look _ _ := .absent
  cross T _ _ := T
  remove T _ := T
  option _ _ := []

theorem kernel_sane : kernel.Sane where
  cross_closed _ _ h := h
  cross_dir _ _ _ h := h
  cross_ne_dir _ _ _ _ h hm := by
    rw [kernel, h]
    exact fun h => hm (Option.some.inj h)
  remove_node _ _ _ := .inl rfl

def rom : Etc where
  entries := [(ascii "init.d", .dir), (ascii "init.d/rcS", .file (ascii "mount -a\n")),
    (ascii "localtime", .symlink (ascii "/usr/share/zoneinfo/UTC")),
    (ascii "motd", .file (ascii "welcome\n")), (ascii "passwd", .file (ascii "root::0:0\n")),
    (ascii "-old", .file (ascii "root::0:0\n"))]
  nodup := by decide
  closed := by unfold Closed; decide
  proper := by decide
  unreserved := by decide

/-- The link and a file are changed, two files are gone, one of them with a name like an option,
and a link in a directory is new. -/
def etc : Etc where
  entries := [(ascii "init.d", .dir), (ascii "init.d/rcS", .file (ascii "mount -a\n")),
    (ascii "localtime", .symlink (ascii "/usr/share/zoneinfo/CET")),
    (ascii "passwd", .file (ascii "root:x:0:0\n")), (ascii "rc.d", .dir),
    (ascii "rc.d/rcS", .symlink (ascii "../init.d/rcS"))]
  nodup := by decide
  closed := by unfold Closed; decide
  proper := by decide
  unreserved := by decide

def done : Listing := [(ascii ".cfgfs_done", .file [])]

theorem restores_etc :
    Restores (setup kernel rom (commit kernel id rom (etc.entries ++ done))) etc := by
  have hdone : IsOwn done := by
    unfold IsOwn
    decide
  have hoption : NoOptions rom etc := by
    have h : ∀ p ∈ rom.files, (etc.node p).isSome → ¬[45] <+: p := by decide +kernel
    exact fun p hp n hn => h p hp (by rw [hn]; rfl)
  refine (setup_commit_restores kernel_sane Function.injective_id (by decide +kernel) hoption
    hdone ⟨List.Perm.refl _, by decide +kernel⟩).mpr
    ⟨fun p hp n hn => ?_, fun p data hp => ?_, fun p t hp => ?_, fun before p after hp t ht => ?_⟩
  · have h : ∀ e ∈ rom.entries, e.2 = .dir → ∀ n ∈ etc.node e.1, n = .dir := by decide +kernel
    exact h _ (Etc.node_iff.mp hp) rfl n hn
  · have h : ∀ e ∈ rom.entries, e.2.isFile → etc.node e.1 ≠ some .dir := by decide +kernel
    exact h _ (Etc.node_iff.mp hp) rfl
  · have h : ∀ e ∈ rom.entries, e.2.isSymlink →
        ∃ e' ∈ etc.entries, e'.1 = e.1 ∧ e'.2 ≠ .dir := by decide +kernel
    obtain ⟨e, he, rfl, hdir⟩ := h _ (Etc.node_iff.mp hp) rfl
    exact ⟨e.2, hdir, Etc.node_iff.mpr he⟩
  · have h : ∀ p ∈ rom.files, ∀ n ∈ etc.node p, n.isSymlink = false := by decide +kernel
    have hmem : p ∈ rom.files := hp ▸ List.mem_append_right _ List.mem_cons_self
    cases h p hmem _ ht

/-- A link of the ROM, and nothing in `/etc`. -/
def linkRom : Etc where
  entries := [(ascii "localtime", .symlink (ascii "/usr/share/zoneinfo/UTC"))]
  nodup := by decide
  closed := by unfold Closed; decide
  proper := by decide
  unreserved := by decide

def empty : Etc := ⟨[], List.nodup_nil, nofun, nofun, nofun⟩

/-- The removed link is back. -/
theorem not_restores :
    Packs (commit kernel id linkRom (empty.entries ++ done)) [] ∧
      ¬Restores (setup kernel linkRom []) empty := by
  refine ⟨⟨by decide +kernel, rfl⟩, fun h => ?_⟩
  have hlink := (h (ascii "localtime") (by decide)
    (.symlink (ascii "/usr/share/zoneinfo/UTC")) nofun).mp (by decide +kernel)
  cases hlink

end Samples
end OpenADK.Cfgfs
