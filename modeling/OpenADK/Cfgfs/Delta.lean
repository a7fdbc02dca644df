import OpenADK.Cfgfs.Commit

/-!
# What a commit leaves

As long as no directory of the ROM has become a file or a link, the loop of `cfgfs commit` keeps
`/etc` less the files that are as in the ROM, with the list of the files that are gone.
-/

namespace OpenADK.Cfgfs

/-- The list of deleted files, if there are any. -/
def deletions (gone : List Bytes) : Listing :=
  if gone = [] then [] else [(deletedName, .file (gone.flatMap fun p => p ++ [newline]))]

def left (E : Etc) (same gone : List Bytes) : Listing :=
  (E.entries.filter fun e => e.1 ∉ same) ++ deletions gone

/-- No directory of the ROM has become a file or a link. -/
def DirsKept (R E : Etc) : Prop :=
  ∀ p, R.node p = some .dir → ∀ n, E.node p = some n → n = .dir

/-- How a file of the ROM is accounted for: as the same, as gone, or not at all. -/
def account (K : Kernel) (R E : Etc) (a : List Bytes × List Bytes) (p : Bytes) :
    List Bytes × List Bytes :=
  match K.stat (left E a.1 a.2) p with
  | .absent => (a.1, a.2 ++ [p])
  | .content data => if R.node p = some (.file data) then (a.1 ++ [p], a.2) else a
  | .directory => a

/-- The files of the ROM that `/etc` has as they are, and those that it does not have. -/
def lists (R E : Etc) (names : List Bytes) : List Bytes × List Bytes :=
  (names.filter fun p => E.node p = R.node p, names.filter fun p => E.node p = none)

/-- A link in the place of a file leads to something else, when the files before it in the listing
of the ROM have been accounted for. -/
def LinkKept (K : Kernel) (R E : Etc) (before : List Bytes) (p : Bytes) : Prop :=
  ∀ t, E.node p = some (.symlink t) →
    K.look (left E (lists R E before).1 (lists R E before).2) p ≠ .absent ∧
    ∀ data, R.node p = some (.file data) →
      K.look (left E (lists R E before).1 (lists R E before).2) p ≠ .content data

section
variable {K : Kernel} {md5 : Bytes → Bytes} {R E : Etc} {p q : Bytes} {n : Node}
  {same gone names : List Bytes} {a : List Bytes × List Bytes}

theorem reserved_deletedName : reserved deletedName = true := by decide

theorem ne_deletedName (h : reserved p = false) : p ≠ deletedName := by
  rintro rfl
  rw [reserved_deletedName] at h
  cases h

theorem node_deletions (h : p ≠ deletedName) : node (deletions gone) p = none := by
  unfold deletions
  split_ifs
  · rfl
  · rw [node_cons, if_neg h]
    rfl

theorem node_left (E : Etc) (same gone : List Bytes) (h : p ≠ deletedName) :
    node (left E same gone) p = if p ∈ same then none else E.node p := by
  rw [left, node_append, node_deletions h, Option.or_none, node_filter (fun k => k ∉ same)]
  by_cases hp : p ∈ same
  · rw [if_pos hp, if_neg (by simp [hp])]
  · rw [if_neg hp, if_pos (by simp [hp])]
    rfl

theorem node_left_deletedName :
    node (left E same gone) deletedName = node (deletions gone) deletedName := by
  have hE : E.node deletedName = none := by
    cases h : E.node deletedName with
    | none => rfl
    | some n => exact absurd rfl (ne_deletedName (E.unreserved_of_node h))
  have hkept : node (E.entries.filter fun e => e.1 ∉ same) deletedName = none := by
    rw [node_filter (fun k => k ∉ same)]
    split_ifs
    · exact hE
    · rfl
  rw [left, node_append, hkept, Option.none_or]

theorem linkAbove_left (same gone : List Bytes) (hdirs : DirsKept R E) (hp : R.node p = some n) :
    linkAbove (left E same gone) p = false := by
  refine linkAbove_eq_false fun q hq t hlink => ?_
  have hR := R.node_ancestor hp hq
  rw [node_left E same gone (ne_deletedName (R.unreserved_of_node hR))] at hlink
  split_ifs at hlink
  cases hdirs q hR _ hlink

theorem append_left (p : Bytes) :
    append (left E same gone) deletedName (p ++ [newline]) = left E same (gone ++ [p]) := by
  have hne : gone ++ [p] ≠ [] := List.append_ne_nil_of_right_ne_nil _ (List.cons_ne_nil _ _)
  have herase : erase (left E same gone) deletedName = E.entries.filter fun e => e.1 ∉ same := by
    have hkept : (E.entries.filter fun e => e.1 ∉ same).filter (fun e => e.1 ≠ deletedName) =
        E.entries.filter fun e => e.1 ∉ same :=
      List.filter_eq_self.mpr fun e he => decide_eq_true
        (ne_deletedName (E.unreserved e (List.mem_filter.mp he).1))
    have hlist : (deletions gone).filter (fun e => e.1 ≠ deletedName) = [] := by
      unfold deletions
      split_ifs
      · rfl
      · rfl
    rw [erase, left, List.filter_append, hkept, hlist, List.append_nil]
  rw [append, node_left_deletedName]
  by_cases hgone : gone = []
  · subst hgone
    have hnone : node (deletions []) deletedName = none := rfl
    simp only [hnone, set, herase]
    rw [left, deletions, if_neg hne, List.flatMap_append, List.flatMap_singleton,
      List.flatMap_nil, List.nil_append]
  · have hlist : node (deletions gone) deletedName =
        some (.file (gone.flatMap fun p => p ++ [newline])) := by
      rw [deletions, if_neg hgone, node_cons, if_pos rfl]
    simp only [hlist, set, herase]
    rw [left, deletions, if_neg hne, List.flatMap_append, List.flatMap_singleton]

theorem erase_left (h : p ≠ deletedName) :
    erase (left E same gone) p = left E (same ++ [p]) gone := by
  have hlist : (deletions gone).filter (fun e => e.1 ≠ p) = deletions gone := by
    unfold deletions
    split_ifs
    · rfl
    · exact List.filter_cons_of_pos (decide_eq_true h.symm)
  rw [erase, left, left, List.filter_append, hlist, List.filter_filter]
  congr 2
  ext e
  simp [and_comm]

theorem stat_rom (K : Kernel) {data : Bytes} (hp : R.node p = some (.file data)) :
    K.stat R.entries p = .content data := by
  have hlink : linkAbove R.entries p = false := linkAbove_eq_false fun q hq t hlink => by
    cases (R.node_ancestor hp hq).symm.trans hlink
  have hnode : node R.entries p = some (.file data) := hp
  rw [Kernel.stat, if_neg (by simp [R.proper_of_node hp, hlink]), hnode]

/-- What the loop does about a file of the ROM. -/
theorem compareFile_left (hmd5 : Function.Injective md5) (hdirs : DirsKept R E)
    (hoption : NoOptions R E) (hp : p ∈ R.files) :
    compareFile K md5 R (left E a.1 a.2) p =
      left E (account K R E a p).1 (account K R E a p).2 := by
  obtain ⟨data, hR⟩ := Etc.mem_files.mp hp
  have hname := ne_deletedName (R.unreserved_of_node hR)
  have hlink := linkAbove_left a.1 a.2 hdirs hR
  have hproper := R.proper_of_node hR
  have hrnd : p ≠ ascii ".rnd" := by
    rintro rfl
    exact absurd (R.unreserved_of_node hR) (by decide)
  -- only what is still there is given to `md5sum`
  have hdash (h : K.stat (left E a.1 a.2) p ≠ .absent) : ¬[45] <+: p := by
    have hnode := node_left E a.1 a.2 hname
    rw [Kernel.stat, if_neg (by simp [hproper, hlink])] at h
    split_ifs at hnode
    · rw [hnode] at h
      exact absurd rfl h
    · cases hE : E.node p with
      | none =>
        rw [hnode, hE] at h
        exact absurd rfl h
      | some n => exact hoption p hp n hE
  have hsum (h : ¬[45] <+: p) : md5sum K md5 R.entries p = md5 data ++ ascii "  " ++ p := by
    rw [md5sum, if_neg h, stat_rom K hR]
  unfold compareFile account
  cases hstat : K.stat (left E a.1 a.2) p with
  | absent =>
    rw [if_pos rfl, if_neg hrnd]
    exact append_left p
  | directory =>
    have hnot := hdash (by rw [hstat]; nofun)
    rw [if_neg (by simp), hsum hnot, md5sum, if_neg hnot, hstat, if_neg (by simp [ascii])]
  | content data' =>
    have hnot := hdash (by rw [hstat]; nofun)
    rw [hsum hnot, md5sum, if_neg hnot, hstat]
    have hdir : node (left E a.1 a.2) p ≠ some .dir := by
      intro hdir
      rw [Kernel.stat, if_neg (by simp [hproper, hlink]), hdir] at hstat
      cases hstat
    rw [if_neg (by simp)]
    dsimp only
    by_cases hdata : data = data'
    · subst hdata
      rw [if_pos rfl, if_pos hR, K.rm_of_not_linkAbove hproper hlink hdir]
      exact erase_left hname
    · have hR' : R.node p ≠ some (.file data') := by
        rw [hR]
        rintro ⟨⟩
        exact hdata rfl
      have hmd : md5 data ++ ascii "  " ++ p ≠ md5 data' ++ ascii "  " ++ p := by
        rw [List.append_assoc, List.append_assoc]
        exact fun h => hdata (hmd5 (List.append_cancel_right h))
      rw [if_neg hmd, if_neg hR']

theorem compareFiles_left (hmd5 : Function.Injective md5) (hdirs : DirsKept R E)
    (hoption : NoOptions R E) (hnames : ∀ p ∈ names, p ∈ R.files) :
    names.foldl (compareFile K md5 R) (left E a.1 a.2) =
      left E (names.foldl (account K R E) a).1 (names.foldl (account K R E) a).2 := by
  induction names generalizing a with
  | nil => rfl
  | cons p names ih =>
    rw [List.foldl_cons, List.foldl_cons,
      compareFile_left hmd5 hdirs hoption (hnames p List.mem_cons_self)]
    exact ih fun q hq => hnames q (List.mem_cons_of_mem _ hq)

/-! ### The account -/

theorem stat_left (K : Kernel) (gone : List Bytes) (hdirs : DirsKept R E) (hR : R.node p = some n)
    (hp : p ∉ same) :
    K.stat (left E same gone) p = match E.node p with
      | none => .absent
      | some (.file data) => .content data
      | some (.symlink _) => K.look (left E same gone) p
      | some .dir => .directory := by
  have hnode := node_left E same gone (ne_deletedName (R.unreserved_of_node hR))
  rw [if_neg hp] at hnode
  have hwalk : ¬(crooked p ∨ linkAbove (left E same gone) p) := by
    simp [R.proper_of_node hR, linkAbove_left same gone hdirs hR]
  refine (if_neg hwalk).trans ?_
  cases hE : E.node p with
  | none => simp only [hnode, hE]
  | some m =>
    cases m with
    | file data => simp only [hnode, hE]
    | symlink t => simp only [hnode, hE]
    | dir => simp only [hnode, hE]

theorem subset_account (p : Bytes) :
    a.1 ⊆ (account K R E a p).1 ∧ a.2 ⊆ (account K R E a p).2 := by
  unfold account
  split
  · exact ⟨List.Subset.refl _, List.subset_append_left _ _⟩
  · split_ifs
    · exact ⟨List.subset_append_left _ _, List.Subset.refl _⟩
    · exact ⟨List.Subset.refl _, List.Subset.refl _⟩
  · exact ⟨List.Subset.refl _, List.Subset.refl _⟩

theorem subset_foldl_account (names : List Bytes) (a : List Bytes × List Bytes) :
    a.1 ⊆ (names.foldl (account K R E) a).1 ∧ a.2 ⊆ (names.foldl (account K R E) a).2 := by
  induction names generalizing a with
  | nil => exact ⟨List.Subset.refl _, List.Subset.refl _⟩
  | cons p names ih =>
    obtain ⟨hsame, hgone⟩ := ih (account K R E a p)
    exact ⟨List.Subset.trans (subset_account p).1 hsame,
      List.Subset.trans (subset_account p).2 hgone⟩

/-- What is accounted for is a file of the ROM that has not become a directory. -/
def Accounted (R E : Etc) (names : List Bytes) : Prop :=
  ∀ p ∈ names, p ∈ R.files ∧ E.node p ≠ some .dir

theorem Accounted.append (h : Accounted R E names) (hp : p ∈ R.files)
    (hdir : E.node p ≠ some .dir) : Accounted R E (names ++ [p]) := by
  intro q hq
  rcases List.mem_append.mp hq with hq | hq
  · exact h q hq
  · obtain rfl := List.mem_singleton.mp hq
    exact ⟨hp, hdir⟩

theorem accounted_account (hdirs : DirsKept R E) (hp : p ∈ R.files) (hsame : Accounted R E a.1)
    (hgone : Accounted R E a.2) :
    Accounted R E (account K R E a p).1 ∧ Accounted R E (account K R E a p).2 := by
  obtain ⟨data, hR⟩ := Etc.mem_files.mp hp
  have hdir (h : K.stat (left E a.1 a.2) p ≠ .directory) : E.node p ≠ some .dir := by
    intro hdir
    rw [stat_left K a.2 hdirs hR fun hmem => (hsame p hmem).2 hdir, hdir] at h
    exact h rfl
  unfold account
  split
  · next hstat => exact ⟨hsame, hgone.append hp (hdir (by rw [hstat]; nofun))⟩
  · next hstat =>
    split_ifs
    · exact ⟨hsame.append hp (hdir (by rw [hstat]; nofun)), hgone⟩
    · exact ⟨hsame, hgone⟩
  · exact ⟨hsame, hgone⟩

theorem accounted_foldl (hdirs : DirsKept R E) (hnames : ∀ p ∈ names, p ∈ R.files)
    (hsame : Accounted R E a.1) (hgone : Accounted R E a.2) :
    Accounted R E (names.foldl (account K R E) a).1 ∧
      Accounted R E (names.foldl (account K R E) a).2 := by
  induction names generalizing a with
  | nil => exact ⟨hsame, hgone⟩
  | cons p names ih =>
    obtain ⟨hsame', hgone'⟩ :=
      accounted_account (K := K) hdirs (hnames p List.mem_cons_self) hsame hgone
    exact ih (fun q hq => hnames q (List.mem_cons_of_mem _ hq)) hsame' hgone'

theorem account_lists (hdirs : DirsKept R E) (hp : p ∈ R.files) (hnew : p ∉ names)
    (hlink : LinkKept K R E names p) :
    account K R E (lists R E names) p = lists R E (names ++ [p]) := by
  obtain ⟨data, hR⟩ := Etc.mem_files.mp hp
  have hsame : p ∉ (lists R E names).1 := fun h => hnew (List.mem_filter.mp h).1
  have hstat := stat_left K (lists R E names).2 hdirs hR hsame
  unfold account
  rw [hstat, lists, lists, List.filter_append, List.filter_append]
  cases hE : E.node p with
  | none => simp [hE, hR]
  | some n =>
    cases n with
    | file data' =>
      by_cases hdata : data = data'
      · simp [hE, hR, hdata]
      · simp [hE, hR, hdata, Ne.symm hdata]
    | dir => simp [hE, hR]
    | symlink t =>
      obtain ⟨habsent, hcontent⟩ := hlink t hE
      rw [lists] at habsent hcontent
      dsimp only
      split
      · next h => exact absurd h habsent
      · next data' h =>
        have hne : data ≠ data' := fun hd => hcontent data hR (hd ▸ h)
        simp [hE, hR, hne]
      · simp [hE, hR]

theorem foldl_account (hdirs : DirsKept R E) (hnames : ∀ p ∈ names, p ∈ R.files)
    (hnodup : names.Nodup)
    (hlink : ∀ before p after, names = before ++ p :: after → LinkKept K R E before p) :
    names.foldl (account K R E) ([], []) = lists R E names := by
  induction names using List.reverseRecOn with
  | nil => rfl
  | append_singleton names p ih =>
    rw [List.nodup_append] at hnodup
    rw [List.foldl_append, List.foldl_cons, List.foldl_nil,
      ih (fun q hq => hnames q (List.mem_append_left _ hq)) hnodup.1 fun before q after h =>
        hlink before q (after ++ [p]) (by rw [h]; simp)]
    exact account_lists hdirs (hnames p (List.mem_append_right _ List.mem_cons_self))
      (fun hp => hnodup.2.2 p hp p List.mem_cons_self rfl) (hlink names p [] rfl)

/-- A link that leads nowhere, or to what the ROM has in its place, is not kept. -/
theorem mem_account_of_not_linkKept (hdirs : DirsKept R E) (hp : p ∈ R.files) (hnew : p ∉ names)
    (hlink : ¬LinkKept K R E names p) :
    (∃ t, E.node p = some (.symlink t)) ∧ (p ∈ (account K R E (lists R E names) p).1 ∨
      p ∈ (account K R E (lists R E names) p).2) := by
  obtain ⟨data, hR⟩ := Etc.mem_files.mp hp
  have hsame : p ∉ (lists R E names).1 := fun h => hnew (List.mem_filter.mp h).1
  have hstat := stat_left K (lists R E names).2 hdirs hR hsame
  unfold LinkKept at hlink
  push Not at hlink
  obtain ⟨t, hE, hbad⟩ := hlink
  refine ⟨⟨t, hE⟩, ?_⟩
  rw [hE] at hstat
  dsimp only at hstat
  unfold account
  rw [hstat]
  by_cases habsent : K.look (left E (lists R E names).1 (lists R E names).2) p = .absent
  · rw [habsent]
    exact .inr (List.mem_append_right _ List.mem_cons_self)
  · obtain ⟨data', hR', hlook⟩ := hbad habsent
    rw [hlook]
    dsimp only
    rw [if_pos hR']
    exact .inl (List.mem_append_right _ List.mem_cons_self)

/-- The first file in a listing that a property does not hold of. -/
theorem exists_first {P : List Bytes → Bytes → Prop}
    (h : ¬∀ before p after, names = before ++ p :: after → P before p) :
    ∃ before p after, names = before ++ p :: after ∧ ¬P before p ∧
      ∀ before' q after', before = before' ++ q :: after' → P before' q := by
  induction names using List.reverseRecOn with
  | nil => exact absurd (fun before p after heq => by simp at heq) h
  | append_singleton names p ih =>
    by_cases hnames : ∀ before q after, names = before ++ q :: after → P before q
    · refine ⟨names, p, [], rfl, fun hp => h fun before q after heq => ?_, hnames⟩
      rcases List.eq_nil_or_concat after with rfl | ⟨after, r, rfl⟩
      · obtain ⟨rfl, hpq⟩ := List.append_inj' heq rfl
        cases hpq
        exact hp
      · have hcut : names ++ [p] = before ++ q :: after ++ [r] := by rw [heq]; simp
        obtain ⟨rfl, -⟩ := List.append_inj' hcut rfl
        exact hnames before q after rfl
    · obtain ⟨before, q, after, rfl, hq, hfirst⟩ := ih hnames
      exact ⟨before, q, after ++ [p], by simp, hq, hfirst⟩

end
end OpenADK.Cfgfs
