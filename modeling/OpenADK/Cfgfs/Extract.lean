import OpenADK.Cfgfs.Delta

/-!
# `cfgfs setup`

The packed tree is extracted over a copy of the ROM, and the listed names are removed from the
outcome.
-/

namespace OpenADK.Cfgfs

/-- `mkdir`, which fails where something exists. -/
def makeDirectory (T : Listing) (p : Bytes) : Listing :=
  if node T p = none then set T p .dir else T

def unlink (T : Listing) (p : Bytes) : Listing := if node T p = some .dir then T else erase T p

/-- Unlinking and creating, which fails on a directory. -/
def makeNode (n : Node) (T : Listing) (p : Bytes) : Listing :=
  if node (unlink T p) p = none then set (unlink T p) p n else unlink T p

def makeFile (data : Bytes) : Listing → Bytes → Listing := makeNode (.file data)

def makeSymlink (target : Bytes) : Listing → Bytes → Listing := makeNode (.symlink target)

/-- `IFS= read -r` -/
def readLines (line : Bytes) : Bytes → List Bytes
  | [] => []
  | c :: text => if c = newline then line :: readLines [] text else readLines (line ++ [c]) text

section
variable (K : Kernel)

/-- One entry of the packed tree. Nothing is created below what is not a directory. -/
def extract (T : Listing) (e : Bytes × Node) : Listing :=
  if linkAbove T e.1 then K.cross T e.1 e.2
  else if dirsAbove T e.1 then
    match e.2 with
    | .dir => makeDirectory T e.1
    | .file data => makeFile data T e.1
    | .symlink target => makeSymlink target T e.1
  else T

def applyDeleted (T : Listing) : Listing :=
  match node T deletedName with
  | some (.file data) => K.rm ((readLines [] data).foldl K.rm T) deletedName
  | _ => T

/-- `/etc` after a start from the ROM with this packed tree. -/
def setup (R : Etc) (packed : Listing) : Listing :=
  applyDeleted K (packed.foldl (extract K) R.entries)

end

/-- In the order of a walk through a tree, directories come before what is in them. -/
def parentsFirst (seen : Listing) : Listing → Bool
  | [] => true
  | e :: D => (ancestors e.1).all (fun q => (q, .dir) ∈ seen) && parentsFirst (seen ++ [e]) D

structure Packs (T D : Listing) : Prop where
  perm : D.Perm T
  parentsFirst : parentsFirst [] D = true

/-- No entry is created through a symbolic link. -/
def Direct (K : Kernel) : Listing → Listing → Prop
  | _, [] => True
  | T, e :: D => linkAbove T e.1 = false ∧ Direct K (extract K T e) D

section
variable {K : Kernel} {R E : Etc} {T D : Listing} {e : Bytes × Node} {p q : Bytes} {n m : Node}

/-! ### One entry -/

theorem makeNode_of_dir (n : Node) (h : node T p = some .dir) : makeNode n T p = T := by
  rw [makeNode, unlink, if_pos h, if_neg (by rw [h]; nofun)]

theorem node_makeNode (n : Node) (h : node T p ≠ some .dir) (q : Bytes) :
    node (makeNode n T p) q = if q = p then some n else node T q := by
  rw [makeNode, unlink, if_neg h, if_pos (by rw [node_erase, if_pos rfl]), node_set, node_erase]
  split_ifs
  · rfl
  · rfl

/-- What an entry that is not created through a link does. -/
theorem extract_cases (K : Kernel) (h : linkAbove T e.1 = false) :
    (extract K T e = T ∧ (dirsAbove T e.1 = true →
      (e.2 = .dir → node T e.1 ≠ none) ∧ (e.2 ≠ .dir → node T e.1 = some .dir))) ∨
    (dirsAbove T e.1 = true ∧ (e.2 = .dir → node T e.1 = none) ∧ node T e.1 ≠ some .dir ∧
      ∀ q, node (extract K T e) q = if q = e.1 then some e.2 else node T q) := by
  obtain ⟨p, n⟩ := e
  unfold extract
  rw [if_neg (by simp [h])]
  by_cases hdirs : dirsAbove T p = true
  · rw [if_pos hdirs]
    have hnode (hn : n ≠ .dir) : (makeNode n T p = T ∧ (dirsAbove T p = true →
          (n = .dir → node T p ≠ none) ∧ (n ≠ .dir → node T p = some .dir))) ∨
        (dirsAbove T p = true ∧ (n = .dir → node T p = none) ∧ node T p ≠ some .dir ∧
          ∀ q, node (makeNode n T p) q = if q = p then some n else node T q) := by
      by_cases hp : node T p = some .dir
      · exact .inl ⟨makeNode_of_dir n hp, fun _ => ⟨fun h => absurd h hn, fun _ => hp⟩⟩
      · exact .inr ⟨hdirs, fun h => absurd h hn, hp, node_makeNode n hp⟩
    cases n with
    | dir =>
      by_cases hp : node T p = none
      · refine .inr ⟨hdirs, fun _ => hp, by rw [hp]; nofun, fun q => ?_⟩
        dsimp only
        rw [makeDirectory, if_pos hp, node_set]
      · exact .inl ⟨if_neg hp, fun _ => ⟨fun _ => hp, fun h => absurd rfl h⟩⟩
    | file data => exact hnode nofun
    | symlink target => exact hnode nofun
  · rw [if_neg hdirs]
    exact .inl ⟨rfl, fun h => absurd h hdirs⟩

theorem extract_node_of_ne (h : linkAbove T e.1 = false) (hq : q ≠ e.1) :
    node (extract K T e) q = node T q := by
  rcases extract_cases K h with ⟨heq, -⟩ | ⟨-, -, -, hnode⟩
  · rw [heq]
  · rw [hnode, if_neg hq]

/-- Where something exists, no directory is made. -/
theorem extract_dir_of_some (h : linkAbove T p = false) (hp : node T p = some m) :
    node (extract K T (p, .dir)) p = some m := by
  rcases extract_cases (e := (p, .dir)) K h with ⟨heq, -⟩ | ⟨-, hnone, -, -⟩
  · rw [heq, hp]
  · cases hp.symm.trans (hnone rfl)

theorem extract_node_self (h : linkAbove T e.1 = false) (hdirs : dirsAbove T e.1 = true)
    (hdir : e.2 = .dir → ∀ m, node T e.1 = some m → m = .dir)
    (hnode : e.2 ≠ .dir → node T e.1 ≠ some .dir) : node (extract K T e) e.1 = some e.2 := by
  rcases extract_cases K h with ⟨heq, hkeep⟩ | ⟨-, -, -, hnode'⟩
  · obtain ⟨hsome, hisdir⟩ := hkeep hdirs
    by_cases hn : e.2 = .dir
    · obtain ⟨m, hm⟩ := Option.ne_none_iff_exists'.mp (hsome hn)
      rw [heq, hm, hdir hn m hm, hn]
    · exact absurd (hisdir hn) (hnode hn)
  · rw [hnode', if_pos rfl]

theorem extract_dir (hK : K.Sane) (e : Bytes × Node) (hq : node T q = some .dir) :
    node (extract K T e) q = some .dir := by
  by_cases h : linkAbove T e.1 = true
  · rw [extract, if_pos h]
    exact hK.cross_dir _ _ hq
  · rw [Bool.not_eq_true] at h
    by_cases hqe : q = e.1
    · rcases extract_cases K h with ⟨heq, -⟩ | ⟨-, -, hne, -⟩
      · rw [heq, hq]
      · exact absurd (hqe ▸ hq) hne
    · rw [extract_node_of_ne h hqe, hq]

/-- A file or a link does not become a directory. -/
theorem extract_ne_dir (h : linkAbove T e.1 = false) (hq : node T q = some m) (hm : m ≠ .dir) :
    ∃ m' ≠ .dir, node (extract K T e) q = some m' := by
  rcases extract_cases K h with ⟨heq, -⟩ | ⟨-, hnone, -, hnode⟩
  · exact ⟨m, hm, by rw [heq, hq]⟩
  · by_cases hqe : q = e.1
    · refine ⟨e.2, fun hdir => ?_, by rw [hnode, if_pos hqe]⟩
      rw [hqe, hnone hdir] at hq
      cases hq
    · exact ⟨m, hm, by rw [hnode, if_neg hqe, hq]⟩

theorem extract_closed (hK : K.Sane) (hT : Closed T) (e : Bytes × Node) :
    Closed (extract K T e) := by
  by_cases h : linkAbove T e.1 = true
  · rw [extract, if_pos h]
    exact hK.cross_closed _ _ hT
  · rw [Bool.not_eq_true] at h
    rcases extract_cases K h with ⟨heq, -⟩ | ⟨hdirs, -, hne, hnode⟩
    · rwa [heq]
    · refine closed_of_node fun p n hp q hq => ?_
      rw [hnode] at hp ⊢
      split_ifs at hp with hpe
      · rw [hpe] at hq
        rw [if_neg (ne_of_mem_ancestors hq)]
        exact dirsAbove_eq_true.mp hdirs q hq
      · have hdir := hT.node_ancestor hp hq
        rw [if_neg (by rintro rfl; exact hne hdir), hdir]

/-! ### All entries -/

theorem foldl_extract_dir (hK : K.Sane) (D : Listing) (hq : node T q = some .dir) :
    node (D.foldl (extract K) T) q = some .dir := by
  induction D generalizing T with
  | nil => exact hq
  | cons e D ih => exact ih (extract_dir hK e hq)

theorem foldl_extract_closed (hK : K.Sane) (D : Listing) (hT : Closed T) :
    Closed (D.foldl (extract K) T) := by
  induction D generalizing T with
  | nil => exact hT
  | cons e D ih => exact ih (extract_closed hK hT e)

theorem Direct.node_of_not_mem (h : Direct K T D) (hq : q ∉ D.map Prod.fst) :
    node (D.foldl (extract K) T) q = node T q := by
  induction D generalizing T with
  | nil => rfl
  | cons e D ih =>
    rw [List.map_cons, List.mem_cons, not_or] at hq
    rw [List.foldl_cons, ih h.2 hq.2, extract_node_of_ne h.1 hq.1]

theorem Direct.append : ∀ {T D₁ D₂ : Listing}, Direct K T (D₁ ++ D₂) →
    Direct K T D₁ ∧ Direct K (D₁.foldl (extract K) T) D₂
  | _, [], _, h => ⟨trivial, h⟩
  | _, _ :: _, _, h => ⟨⟨h.1, (Direct.append h.2).1⟩, (Direct.append h.2).2⟩

/-- Where the entry is a directory, a file or a link that is there stays. -/
theorem Direct.node_of_dir (h : Direct K T D) (hD : (D.map Prod.fst).Nodup)
    (hp : (p, .dir) ∈ D) (hm : node T p = some m) :
    node (D.foldl (extract K) T) p = some m := by
  obtain ⟨D₁, D₂, rfl⟩ := List.append_of_mem hp
  obtain ⟨h₁, h₂⟩ := h.append
  have hD' := hD
  rw [List.map_append, List.map_cons, List.nodup_append, List.nodup_cons] at hD'
  have hbefore : node (D₁.foldl (extract K) T) p = some m := by
    rw [h₁.node_of_not_mem fun hmem => hD'.2.2 p hmem p List.mem_cons_self rfl, hm]
  rw [List.foldl_append, List.foldl_cons, h₂.2.node_of_not_mem hD'.2.1.1]
  exact extract_dir_of_some h₂.1 hbefore

theorem Direct.ne_dir (h : Direct K T D) (hq : node T q = some m) (hm : m ≠ .dir) :
    node (D.foldl (extract K) T) q ≠ some .dir := by
  induction D generalizing T m with
  | nil =>
    rw [List.foldl_nil, hq]
    exact fun h => hm (Option.some.inj h)
  | cons e D ih =>
    obtain ⟨m', hm', hq'⟩ := extract_ne_dir (K := K) h.1 hq hm
    exact ih h.2 hq' hm'

/-- What a walk has met before an entry. -/
theorem mem_of_parentsFirst {seen D₁ D₂ : Listing}
    (h : parentsFirst seen (D₁ ++ e :: D₂) = true) (hq : q ∈ ancestors e.1) :
    (q, .dir) ∈ seen ++ D₁ := by
  induction D₁ generalizing seen with
  | nil =>
    rw [List.nil_append, parentsFirst, Bool.and_eq_true, List.all_eq_true] at h
    rw [List.append_nil]
    exact of_decide_eq_true (h.1 q hq)
  | cons e' D₁ ih =>
    rw [List.cons_append, parentsFirst, Bool.and_eq_true] at h
    have hmem := ih h.2
    rwa [List.append_assoc, List.singleton_append] at hmem

/-- Entries that are of the same kind as what is in their place. -/
theorem direct_of_compatible (K : Kernel) (seen : Listing) (hfirst : parentsFirst seen D = true)
    (hnodup : ((seen ++ D).map Prod.fst).Nodup) (hseen : ∀ e ∈ seen, node T e.1 = some e.2)
    (hD : ∀ e ∈ D, (e.2 = .dir → ∀ m, node T e.1 = some m → m = .dir) ∧
      (e.2 ≠ .dir → node T e.1 ≠ some .dir)) :
    Direct K T D ∧ ∀ e ∈ seen ++ D, node (D.foldl (extract K) T) e.1 = some e.2 := by
  induction D generalizing seen T with
  | nil => exact ⟨trivial, fun e he => hseen e (by simpa using he)⟩
  | cons e D ih =>
    have hanc : ∀ q ∈ ancestors e.1, node T q = some .dir := by
      intro q hq
      have hmem : (q, Node.dir) ∈ seen ++ [] := mem_of_parentsFirst hfirst hq
      rw [List.append_nil] at hmem
      exact hseen _ hmem
    have hlink : linkAbove T e.1 = false := linkAbove_eq_false fun q hq t ht => by
      cases (hanc q hq).symm.trans ht
    obtain ⟨hdir, hnode⟩ := hD e List.mem_cons_self
    have hself := extract_node_self (K := K) hlink (dirsAbove_eq_true.mpr hanc) hdir hnode
    have hsplit : seen ++ e :: D = seen ++ [e] ++ D := by simp
    have hne : ∀ e' ∈ seen ++ D, e'.1 ≠ e.1 := by
      intro e' he' heq
      rw [List.map_append, List.map_cons, List.nodup_middle, List.nodup_cons,
        ← List.map_append] at hnodup
      exact hnodup.1 (heq ▸ List.mem_map_of_mem he')
    have hkept : ∀ e' ∈ seen ++ D, node (extract K T e) e'.1 = node T e'.1 :=
      fun e' he' => extract_node_of_ne hlink (hne e' he')
    rw [parentsFirst, Bool.and_eq_true] at hfirst
    rw [hsplit] at hnodup
    obtain ⟨hdirect, hall⟩ := ih (seen ++ [e]) hfirst.2 hnodup
      (fun e' he' => by
        rcases List.mem_append.mp he' with he' | he'
        · rw [hkept e' (List.mem_append_left _ he'), hseen e' he']
        · obtain rfl := List.mem_singleton.mp he'
          exact hself)
      (fun e' he' => by
        rw [hkept e' (List.mem_append_right _ he')]
        exact hD e' (List.mem_cons_of_mem _ he'))
    exact ⟨⟨hlink, hdirect⟩, fun e' he' => hall e' (hsplit ▸ he')⟩

/-- A file at the top, where there was nothing. -/
theorem Direct.node_of_top (h : Direct K T D) (hD : (D.map Prod.fst).Nodup) (hp : (p, n) ∈ D)
    (htop : ancestors p = []) (hn : n ≠ .dir) (hT : node T p = none) :
    node (D.foldl (extract K) T) p = some n := by
  obtain ⟨D₁, D₂, rfl⟩ := List.append_of_mem hp
  obtain ⟨h₁, h₂⟩ := h.append
  rw [List.map_append, List.map_cons, List.nodup_append, List.nodup_cons] at hD
  have hbefore : node (D₁.foldl (extract K) T) p = none := by
    rw [h₁.node_of_not_mem fun hmem => hD.2.2 p hmem p List.mem_cons_self rfl, hT]
  rw [List.foldl_append, List.foldl_cons, h₂.2.node_of_not_mem hD.2.1.1]
  refine extract_node_self (e := (p, n)) h₂.1 (dirsAbove_eq_true.mpr fun q hq => ?_)
    (fun h => absurd h hn) fun _ => by rw [hbefore]; nofun
  rw [htop] at hq
  cases hq

/-! ### Deleted names -/

theorem readLines_append (line text : Bytes) (hp : newline ∉ p) :
    readLines line (p ++ newline :: text) = (line ++ p) :: readLines [] text := by
  induction p generalizing line with
  | nil => rw [List.nil_append, readLines, if_pos rfl, List.append_nil]
  | cons c p ih =>
    rw [List.mem_cons, not_or] at hp
    rw [List.cons_append, readLines, if_neg (Ne.symm hp.1), ih _ hp.2, List.append_assoc,
      List.singleton_append]

theorem readLines_flatMap {gone : List Bytes} (h : ∀ p ∈ gone, newline ∉ p) :
    readLines [] (gone.flatMap fun p => p ++ [newline]) = gone := by
  induction gone with
  | nil => rfl
  | cons p gone ih =>
    rw [List.flatMap_cons, List.append_assoc, List.singleton_append,
      readLines_append [] _ (h p List.mem_cons_self), List.nil_append,
      ih fun q hq => h q (List.mem_cons_of_mem _ hq)]

theorem applyDeleted_cases (hK : K.Sane) (T : Listing) (q : Bytes) :
    node (applyDeleted K T) q = node T q ∨
      node T q ≠ some .dir ∧ node (applyDeleted K T) q = none := by
  unfold applyDeleted
  split
  · next data _ =>
    have hrms := K.rms_node hK (readLines [] data ++ [deletedName]) T q
    rwa [List.foldl_append] at hrms
  · exact .inl rfl

theorem applyDeleted_node {gone : List Bytes}
    (hlist : node T deletedName = node (deletions gone) deletedName)
    (hgone : ∀ p ∈ gone, newline ∉ p ∧ crooked p = false ∧
      (∀ q ∈ ancestors p, node T q = some .dir) ∧ node T p ≠ some .dir) (hq : q ≠ deletedName) :
    node (applyDeleted K T) q = if q ∈ gone then none else node T q := by
  unfold applyDeleted
  rw [hlist]
  by_cases hnil : gone = []
  · subst hnil
    rw [if_neg List.not_mem_nil]
    rfl
  · have hfile : node (deletions gone) deletedName =
        some (.file (gone.flatMap fun p => p ++ [newline])) := by
      rw [deletions, if_neg hnil, node_cons, if_pos rfl]
    have hnames : ∀ p ∈ gone ++ [deletedName], crooked p = false ∧
        (∀ q ∈ ancestors p, node T q = some .dir) ∧ node T p ≠ some .dir := by
      intro p hp
      rcases List.mem_append.mp hp with hp | hp
      · exact (hgone p hp).2
      · obtain rfl := List.mem_singleton.mp hp
        refine ⟨by decide, fun q hq => ?_, by rw [hlist, hfile]; simp⟩
        have htop : ancestors deletedName = [] := by decide
        rw [htop] at hq
        cases hq
    have hrms := K.rms_erase hnames q
    rw [List.foldl_append, List.foldl_cons, List.foldl_nil] at hrms
    rw [hfile]
    dsimp only
    rw [readLines_flatMap fun p hp => (hgone p hp).1, hrms]
    simp only [List.mem_append, List.mem_singleton, hq, or_false]

/-! ### Links on the way -/

/-- The last entry that is created through a link. -/
theorem exists_last_link (h : ¬Direct K T D) :
    ∃ D₁ e D₂, D = D₁ ++ e :: D₂ ∧ linkAbove (D₁.foldl (extract K) T) e.1 = true ∧
      Direct K ((D₁ ++ [e]).foldl (extract K) T) D₂ := by
  induction D generalizing T with
  | nil => exact absurd trivial h
  | cons e D ih =>
    by_cases hD : Direct K (extract K T e) D
    · refine ⟨[], e, D, rfl, ?_, hD⟩
      by_contra hlink
      exact h ⟨by simpa using hlink, hD⟩
    · obtain ⟨D₁, e', D₂, rfl, hlink, hdirect⟩ := ih hD
      exact ⟨e :: D₁, e', D₂, rfl, hlink, hdirect⟩

end
end OpenADK.Cfgfs
