import OpenADK.Cfgfs.Pack
import Mathlib.Data.List.Infix
import Mathlib.Data.List.Nodup

/-!
# Trees of files, symbolic links and directories

`/etc` and its copies by path. What a path means when a symbolic link is on the way to it depends on
the rest of the system, and is left to the kernel.
-/

namespace OpenADK.Cfgfs

scoped instance : LawfulBEq Bytes := inferInstance

def ascii (s : String) : Bytes := s.toList.map fun c => UInt8.ofNat c.toNat

def slash : UInt8 := 47
def newline : UInt8 := 10

inductive Node
  | file (data : Bytes)
  | symlink (target : Bytes)
  | dir
  deriving DecidableEq

def Node.isSymlink : Node → Bool
  | symlink _ => true
  | _ => false

def Node.isFile : Node → Bool
  | file _ => true
  | _ => false

/-- The paths are relative to the top. -/
abbrev Listing := List (Bytes × Node)

def node (T : Listing) (p : Bytes) : Option Node := T.lookup p

def erase (T : Listing) (p : Bytes) : Listing := T.filter fun e => e.1 ≠ p

def set (T : Listing) (p : Bytes) (n : Node) : Listing := erase T p ++ [(p, n)]

def ancestors (p : Bytes) : List Bytes := p.inits.filter fun q => q ++ [slash] <+: p

/-- The top is not a path, and `.` and `..` are not names. -/
def crooked (p : Bytes) : Bool := (p.splitOn slash).any fun c => c ∈ [[], ascii ".", ascii ".."]

def ownName (c : Bytes) : Bool := ascii ".cfgfs_" <+: c ∨ c = ascii ".rnd"

def reserved (p : Bytes) : Bool := ownName (p.takeWhile (· ≠ slash))

def Closed (T : Listing) : Prop := ∀ e ∈ T, ∀ q ∈ ancestors e.1, node T q = some .dir

structure Etc where
  entries : Listing
  nodup : (entries.map Prod.fst).Nodup
  closed : Closed entries
  proper : ∀ e ∈ entries, crooked e.1 = false
  unreserved : ∀ e ∈ entries, reserved e.1 = false

namespace Etc

def node (E : Etc) (p : Bytes) : Option Node := Cfgfs.node E.entries p

/-- What `find . -type f` lists. -/
def files (E : Etc) : List Bytes := (E.entries.filter fun e => e.2.isFile).map Prod.fst

end Etc

/-! ### The kernel -/

inductive Look
  | absent
  | directory
  | content (data : Bytes)
  deriving DecidableEq

/-- What is done on paths that lead through symbolic links, or that are not plain. -/
structure Kernel where
  look : Listing → Bytes → Look
  cross : Listing → Bytes → Node → Listing
  remove : Listing → Bytes → Listing
  /-- The output of `md5sum` when the name is taken as an option. -/
  option : Listing → Bytes → Bytes

def linkAbove (T : Listing) (p : Bytes) : Bool :=
  (ancestors p).any fun q => (node T q).any Node.isSymlink

def dirsAbove (T : Listing) (p : Bytes) : Bool :=
  (ancestors p).all fun q => node T q = some .dir

namespace Kernel
variable (K : Kernel)

/-- `-e`, and reading from the path. -/
def stat (T : Listing) (p : Bytes) : Look :=
  if crooked p ∨ linkAbove T p then K.look T p
  else match node T p with
    | none => .absent
    | some (.file data) => .content data
    | some (.symlink _) => K.look T p
    | some .dir => .directory

/-- `rm`, which leaves directories alone. -/
def rm (T : Listing) (p : Bytes) : Listing :=
  if crooked p ∨ linkAbove T p then K.remove T p
  else if node T p = some .dir then T
  else erase T p

/-- A directory stays; another node does not become one in a single step. -/
structure Sane : Prop where
  cross_closed : ∀ {T : Listing} (p : Bytes) (n : Node), Closed T → Closed (K.cross T p n)
  cross_dir : ∀ {T : Listing} (p : Bytes) (n : Node) {q : Bytes}, node T q = some .dir →
    node (K.cross T p n) q = some .dir
  cross_ne_dir : ∀ {T : Listing} (p : Bytes) (n : Node) {q : Bytes} {m : Node},
    node T q = some m → m ≠ .dir → node (K.cross T p n) q ≠ some .dir
  remove_node : ∀ (T : Listing) (p q : Bytes), node (K.remove T p) q = node T q ∨
    node T q ≠ some .dir ∧ node (K.remove T p) q = none

end Kernel

/-! ### Paths -/

section
variable {T S : Listing} {p q r : Bytes} {n m : Node}

theorem mem_ancestors : q ∈ ancestors p ↔ q ++ [slash] <+: p := by
  rw [ancestors, List.mem_filter, List.mem_inits, decide_eq_true_eq]
  exact ⟨And.right, fun h => ⟨(List.prefix_append q _).trans h, h⟩⟩

theorem ne_of_mem_ancestors (h : q ∈ ancestors p) : q ≠ p := by
  rintro rfl
  have hle := (mem_ancestors.mp h).length_le
  rw [List.length_append, List.length_singleton] at hle
  omega

theorem slash_mem_of_mem_ancestors (h : q ∈ ancestors p) : slash ∈ p :=
  (mem_ancestors.mp h).subset (List.mem_append_right _ List.mem_cons_self)

/-! ### Nodes -/

theorem node_cons (e : Bytes × Node) (T : Listing) (p : Bytes) :
    node (e :: T) p = if p = e.1 then some e.2 else node T p := by
  rw [node, List.lookup_cons]
  by_cases h : p = e.1
  · rw [if_pos h, beq_iff_eq.mpr h]
  · rw [if_neg h, beq_eq_false_iff_ne.mpr h]
    rfl

theorem node_append (T S : Listing) (p : Bytes) :
    node (T ++ S) p = (node T p).or (node S p) := by
  rw [node, List.lookup_append]
  rfl

theorem mem_of_node (h : node T p = some n) : (p, n) ∈ T := by
  induction T with
  | nil => cases h
  | cons e T ih =>
    rw [node_cons] at h
    split_ifs at h with hp
    · cases h
      rw [hp]
      exact List.mem_cons_self
    · exact List.mem_cons_of_mem _ (ih h)

theorem node_eq_none : node T p = none ↔ p ∉ T.map Prod.fst := by
  rw [node, List.lookup_eq_none_iff]
  constructor
  · intro h hmem
    obtain ⟨e, he, rfl⟩ := List.mem_map.mp hmem
    exact absurd (h e he) (by simp)
  · intro h e he
    rw [bne_iff_ne]
    rintro rfl
    exact h (List.mem_map_of_mem he)

theorem node_of_mem (hT : (T.map Prod.fst).Nodup) (h : (p, n) ∈ T) : node T p = some n := by
  cases hp : node T p with
  | none => exact absurd (List.mem_map_of_mem h) (node_eq_none.mp hp)
  | some m =>
    have heq := List.inj_on_of_nodup_map hT (mem_of_node hp) h rfl
    rw [(Prod.mk.inj heq).2]

theorem node_filter (keep : Bytes → Bool) (T : Listing) (p : Bytes) :
    node (T.filter fun e => keep e.1) p = if keep p then node T p else none := by
  induction T with
  | nil => rw [List.filter_nil]; exact (ite_self none).symm
  | cons e T ih =>
    rw [List.filter_cons, node_cons]
    by_cases hk : keep e.1 = true
    · rw [if_pos hk, node_cons, ih]
      split_ifs with hp h
      · rfl
      · exact absurd (hp ▸ hk) h
      · rfl
      · rfl
    · rw [if_neg hk, ih]
      split_ifs with h hp
      · exact absurd (hp ▸ h) hk
      · rfl
      · rfl

theorem node_erase (T : Listing) (p q : Bytes) :
    node (erase T p) q = if q = p then none else node T q := by
  rw [erase, node_filter (fun k => k ≠ p)]
  by_cases h : q = p
  · rw [if_pos h, if_neg (by simp [h])]
  · rw [if_neg h, if_pos (by simp [h])]

theorem node_set (T : Listing) (p q : Bytes) (n : Node) :
    node (set T p n) q = if q = p then some n else node T q := by
  rw [set, node_append, node_erase, node_cons]
  split_ifs
  · rfl
  · exact Option.or_none

theorem Closed.node_ancestor (hT : Closed T) (hp : node T p = some n) (hq : q ∈ ancestors p) :
    node T q = some .dir :=
  hT _ (mem_of_node hp) q hq

theorem closed_of_node (h : ∀ p n, node T p = some n → ∀ q ∈ ancestors p, node T q = some .dir) :
    Closed T := by
  intro e he q hq
  cases hp : node T e.1 with
  | none => exact absurd (List.mem_map_of_mem he) (node_eq_none.mp hp)
  | some n => exact h e.1 n hp q hq

/-- Taking away what is not a directory. -/
theorem Closed.of_removed (hT : Closed T)
    (h : ∀ q, node S q = node T q ∨ node T q ≠ some .dir ∧ node S q = none) : Closed S := by
  refine closed_of_node fun p n hp q hq => ?_
  rcases h p with heq | ⟨-, hnone⟩
  · have hdir := hT.node_ancestor (heq ▸ hp) hq
    rcases h q with heq' | ⟨hne, -⟩
    · rw [heq', hdir]
    · exact absurd hdir hne
  · rw [hnone] at hp
    cases hp

theorem linkAbove_eq_false (h : ∀ q ∈ ancestors p, ∀ t, node T q ≠ some (.symlink t)) :
    linkAbove T p = false := by
  rw [linkAbove, List.any_eq_false]
  intro q hq hlink
  obtain ⟨n, hn, hlink⟩ := (Option.any_eq_true _ _).mp hlink
  cases n with
  | symlink t => exact h q hq t hn
  | file data => cases hlink
  | dir => cases hlink

theorem dirsAbove_eq_true : dirsAbove T p = true ↔ ∀ q ∈ ancestors p, node T q = some .dir := by
  rw [dirsAbove, List.all_eq_true]
  exact forall₂_congr fun q _ => decide_eq_true_iff

theorem exists_link_of_linkAbove (h : linkAbove T p = true) :
    ∃ q ∈ ancestors p, ∃ t, node T q = some (.symlink t) := by
  by_contra hno
  push Not at hno
  rw [linkAbove_eq_false hno] at h
  cases h

end

/-! ### Removing -/

namespace Kernel
variable {K : Kernel} {T : Listing} {p q : Bytes}

theorem rm_of_not_linkAbove (K : Kernel) (hp : crooked p = false) (hlink : linkAbove T p = false)
    (hdir : node T p ≠ some .dir) : K.rm T p = erase T p := by
  rw [rm, if_neg (by simp [hp, hlink]), if_neg hdir]

theorem rm_node (hK : K.Sane) (T : Listing) (p q : Bytes) :
    node (K.rm T p) q = node T q ∨ node T q ≠ some .dir ∧ node (K.rm T p) q = none := by
  unfold rm
  split_ifs with hlink hdir
  · exact hK.remove_node T p q
  · exact .inl rfl
  · rw [node_erase]
    by_cases h : q = p
    · exact .inr ⟨h ▸ hdir, if_pos h⟩
    · exact .inl (if_neg h)

/-- Names whose directories are there, and that are not directories themselves. -/
theorem rms_erase (K : Kernel) {ps : List Bytes} {T : Listing}
    (h : ∀ p ∈ ps, crooked p = false ∧ (∀ q ∈ ancestors p, node T q = some .dir) ∧
      node T p ≠ some .dir) (q : Bytes) :
    node (ps.foldl K.rm T) q = if q ∈ ps then none else node T q := by
  induction ps generalizing T with
  | nil => exact (if_neg List.not_mem_nil).symm
  | cons p ps ih =>
    obtain ⟨hp, hanc, hdir⟩ := h p List.mem_cons_self
    have hlink : linkAbove T p = false := linkAbove_eq_false fun q hq t ht => by
      cases (hanc q hq).symm.trans ht
    rw [List.foldl_cons, K.rm_of_not_linkAbove hp hlink hdir, ih]
    · rw [node_erase]
      by_cases hqp : q = p
      · rw [if_pos hqp, ite_self, if_pos (hqp ▸ List.mem_cons_self)]
      · simp only [List.mem_cons, hqp, false_or, ↓reduceIte]
    · intro r hr
      obtain ⟨hr', hanc', hdir'⟩ := h r (List.mem_cons_of_mem _ hr)
      refine ⟨hr', fun q hq => ?_, ?_⟩
      · have hqp : q ≠ p := by
          rintro rfl
          exact hdir (hanc' q hq)
        rw [node_erase, if_neg hqp, hanc' q hq]
      · rw [node_erase]
        split_ifs
        · nofun
        · exact hdir'

theorem rms_node (hK : K.Sane) (ps : List Bytes) (T : Listing) (q : Bytes) :
    node (ps.foldl K.rm T) q = node T q ∨
      node T q ≠ some .dir ∧ node (ps.foldl K.rm T) q = none := by
  induction ps generalizing T with
  | nil => exact .inl rfl
  | cons p ps ih =>
    rw [List.foldl_cons]
    rcases ih (K.rm T p) with heq | ⟨hdir, hnone⟩ <;> rcases K.rm_node hK T p q with hp | ⟨hp, hp'⟩
    · exact .inl (heq.trans hp)
    · exact .inr ⟨hp, heq.trans hp'⟩
    · exact .inr ⟨hp ▸ hdir, hnone⟩
    · exact .inr ⟨hp, hnone⟩

end Kernel

namespace Etc
variable {E : Etc} {p q : Bytes} {n : Node}

theorem node_iff : E.node p = some n ↔ (p, n) ∈ E.entries :=
  ⟨mem_of_node, node_of_mem E.nodup⟩

theorem node_ancestor (h : E.node p = some n) (hq : q ∈ ancestors p) : E.node q = some .dir :=
  E.closed.node_ancestor h hq

theorem mem_files : p ∈ E.files ↔ ∃ data, E.node p = some (.file data) := by
  rw [files, List.mem_map]
  constructor
  · rintro ⟨⟨p, n⟩, he, rfl⟩
    obtain ⟨hmem, hfile⟩ := List.mem_filter.mp he
    cases n with
    | file data => exact ⟨data, node_iff.mpr hmem⟩
    | symlink t => cases hfile
    | dir => cases hfile
  · rintro ⟨data, h⟩
    exact ⟨(p, .file data), List.mem_filter.mpr ⟨node_iff.mp h, rfl⟩, rfl⟩

theorem nodup_files (E : Etc) : E.files.Nodup :=
  E.nodup.sublist ((List.filter_sublist).map _)

theorem proper_of_node (h : E.node p = some n) : crooked p = false :=
  E.proper _ (node_iff.mp h)

theorem unreserved_of_node (h : E.node p = some n) : reserved p = false :=
  E.unreserved _ (node_iff.mp h)

end Etc
end OpenADK.Cfgfs
