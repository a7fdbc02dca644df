import OpenADK.Kconfig.Symbol
import Mathlib.Data.Finset.Card
import Mathlib.Data.Set.Finite.Basic
import Mathlib.Logic.Relation

/-!
# Included files

`zconf_nextfile` and `zconf_endfile`. There is one `struct file` for each name, and its `parent` is
overwritten when the file is included again. Of a file there are its `source` statements. The last
one of them may be the end of the file, without a newline; the scanner then leaves the file before
the statement is carried out.
-/

namespace OpenADK.Kconfig
namespace Include

/-- The names in the `source` statements of a file. -/
structure Contents where
  sources : List Text
  /-- The name in a last line that has no newline. -/
  last : Option Text
  deriving DecidableEq

def Contents.named (c : Contents) : List Text := c.sources ++ c.last.toList

/-- What `zconf_fopen` finds. -/
abbrev Files := Text → Option Contents

structure Scanner where
  currentFile : Option Text
  /-- `file->parent` of the record with a name. -/
  parent : Text → Option Text
  /-- What is left of `current_buf` and of its parents. -/
  buffers : List Contents
  /-- The files that have been read, the last one first. -/
  read : List Text

/-- How the program leaves the scanner. -/
inductive Outcome
  | done
  | recursive
  | cantOpen (name : Text)
  /-- `NULL` is dereferenced. -/
  | crashes
  /-- A walk over `file->parent` does not end. -/
  | hangs
  deriving DecidableEq

inductive Next
  | state (s : Scanner)
  | stop (o : Outcome)

/-- The walk that looks for a name among the parents, and nothing when it takes more steps than
there are records. -/
def walk (parent : Text → Option Text) (name : Text) : ℕ → Option Text → Option Bool
  | _, none => some false
  | 0, some _ => none
  | n + 1, some iter => if name = iter then some true else walk parent name n (parent iter)

def Scanner.entered (s : Scanner) (name : Text) (c : Contents) : Scanner where
  currentFile := some name
  parent := Function.update s.parent name s.currentFile
  buffers := c :: s.buffers
  read := name :: s.read

/-- `zconf_nextfile`. -/
def zconfNextfile (files : Files) (s : Scanner) (name : Text) : Next :=
  match s.buffers with
  | [] => .stop .crashes
  | _ :: _ =>
    match files name with
    | none => .stop (.cantOpen name)
    | some c =>
      match s.currentFile with
      | none => .stop .crashes
      | some current =>
        match walk s.parent current s.read.length (s.parent current) with
        | none => .stop .hangs
        | some true => .stop .recursive
        | some false => .state (s.entered name c)

/-- `zconf_endfile`. -/
def zconfEndfile (s : Scanner) (current : Text) (bufs : List Contents) : Scanner :=
  { s with currentFile := s.parent current, buffers := bufs }

/-- The scanner gets to the next `source` statement or to the end of a file. -/
def step (files : Files) (s : Scanner) : Next :=
  match s.currentFile, s.buffers with
  | none, _ | _, [] => .stop .done
  | some current, ⟨[], none⟩ :: bufs => .state (zconfEndfile s current bufs)
  -- the end of the file is the end of the line, too
  | some current, ⟨[], some name⟩ :: bufs =>
    zconfNextfile files (zconfEndfile s current bufs) name
  | some _, ⟨name :: rest, last⟩ :: bufs =>
    zconfNextfile files { s with buffers := ⟨rest, last⟩ :: bufs } name

/-- `zconf_initscan`. -/
def start (root : Text) (c : Contents) : Scanner := ⟨some root, fun _ => none, [c], [root]⟩

/-- A number of steps, with the files that have been read. -/
def run (files : Files) : ℕ → Scanner → Option (Outcome × List Text)
  | 0, _ => none
  | n + 1, s =>
    match step files s with
    | .stop o => some (o, s.read.reverse)
    | .state s => run files n s

/-! ### What the statements mean -/

/-- A file has a `source` statement for another. -/
def Sources (files : Files) (m n : Text) : Prop := ∃ c, files m = some c ∧ n ∈ c.named

/-- Following the statements from the root reaches a cycle. -/
def ReachesCycle (files : Files) (root : Text) : Prop :=
  ∃ n, Relation.ReflTransGen (Sources files) root n ∧ Relation.TransGen (Sources files) n n

/-- All the files that the statements name are read, each where it is named, with what it names. -/
inductive ReadsAll (files : Files) : List Text → List Text → Prop
  | nil : ReadsAll files [] []
  | cons {name : Text} {c : Contents} {rest l l' : List Text} (h : files name = some c)
    (hname : ReadsAll files c.named l) (hrest : ReadsAll files rest l') :
    ReadsAll files (name :: rest) (name :: l ++ l')

/-- The error is raised exactly at a cycle, and all files are read when there is none. -/
structure Included (files : Files) (root : Text) (outcome : Outcome) (read : List Text) : Prop where
  recursive : outcome = .recursive ↔ ReachesCycle files root
  done : outcome ≠ .recursive → outcome = .done ∧ ReadsAll files [root] read

/-- The program ends, and as it should. -/
def Handled (files : Files) (root : Text) : Prop :=
  ∀ c, files root = some c → ∃ n outcome read, run files n (start root c) = some (outcome, read) ∧
    Included files root outcome read

/-! ### Where reading the files does not get on -/

/-- All that a file leads to is there, and no cycle is among it. -/
def Whole (files : Files) (name : Text) : Prop := ∃ l, ReadsAll files [name] l

/-- The first file that is named and not whole is named in a line with its newline. -/
def Inner (files : Files) (m n : Text) : Prop :=
  ∃ c before after, files m = some c ∧ c.sources = before ++ n :: after ∧
    (∀ k ∈ before, Whole files k) ∧ ¬Whole files n

/-- The first file that is named and not whole is named in a last line without a newline. -/
def Last (files : Files) (m n : Text) : Prop :=
  ∃ c, files m = some c ∧ c.last = some n ∧ (∀ k ∈ c.sources, Whole files k) ∧ ¬Whole files n

def Stuck (files : Files) (m n : Text) : Prop := Inner files m n ∨ Last files m n

/-- Reading does not get to a missing file, nor into a circle of last lines, nor to a last line of
the root without a newline. -/
structure Orderly (files : Files) (root : Text) : Prop where
  there : ∀ m n, Relation.ReflTransGen (Stuck files) root m → Stuck files m n → (files n).isSome
  noCircle : ∀ m, Relation.ReflTransGen (Stuck files) root m →
    ¬Relation.TransGen (Last files) m m
  rootEnds : ∀ c, files root = some c → c.last.isSome → ∃ k ∈ c.sources, ¬Whole files k

section
variable {files : Files} {root name m n k : Text} {names rest l l' : List Text} {c : Contents}

/-! ### What can be read as a whole -/

theorem ReadsAll.append (h : ReadsAll files names l) (h' : ReadsAll files rest l') :
    ReadsAll files (names ++ rest) (l ++ l') := by
  induction h with
  | nil => exact h'
  | cons hopen hname _ _ ih =>
    rw [List.cons_append, List.append_assoc]
    exact .cons hopen hname ih

theorem ReadsAll.unique (h : ReadsAll files names l) (h' : ReadsAll files names l') : l = l' := by
  induction h generalizing l' with
  | nil =>
    cases h'
    rfl
  | cons hopen hname hrest ihname ihrest =>
    cases h' with
    | cons hopen' hname' hrest' =>
      cases Option.some.inj (hopen.symm.trans hopen')
      rw [ihname hname', ihrest hrest']

/-- A file that is named takes part in what is read. -/
theorem ReadsAll.of_mem (h : ReadsAll files names l) (hmem : name ∈ names) :
    ∃ l', ReadsAll files [name] l' ∧ l'.length ≤ l.length := by
  induction h with
  | nil => exact absurd hmem List.not_mem_nil
  | @cons m c rest l l' hopen hname hrest _ ih =>
    rcases List.mem_cons.mp hmem with rfl | hmem
    · refine ⟨name :: l ++ [], .cons hopen hname .nil, ?_⟩
      simp
    · obtain ⟨l'', h'', hlen⟩ := ih hmem
      refine ⟨l'', h'', hlen.trans ?_⟩
      simp only [List.length_append, List.length_cons]
      omega

theorem exists_readsAll (h : ∀ k ∈ names, Whole files k) : ∃ l, ReadsAll files names l := by
  induction names with
  | nil => exact ⟨[], .nil⟩
  | cons name names ih =>
    obtain ⟨l, hl⟩ := h name List.mem_cons_self
    obtain ⟨l', hl'⟩ := ih fun k hk => h k (List.mem_cons_of_mem name hk)
    exact ⟨l ++ l', hl.append hl'⟩

theorem whole_of_named (hopen : files name = some c) (h : ∀ k ∈ c.named, Whole files k) :
    Whole files name := by
  obtain ⟨l, hl⟩ := exists_readsAll h
  exact ⟨name :: l ++ [], .cons hopen hl .nil⟩

theorem ReadsAll.of_sources (h : ReadsAll files [m] l) (hsource : Sources files m name) :
    ∃ l', ReadsAll files [name] l' ∧ l'.length < l.length := by
  obtain ⟨c, hopen, hmem⟩ := hsource
  cases h with
  | cons hopen' hname =>
    cases Option.some.inj (hopen.symm.trans hopen')
    obtain ⟨l', hl', hlen⟩ := hname.of_mem hmem
    refine ⟨l', hl', ?_⟩
    simp only [List.length_append, List.length_cons]
    omega

/-- What is whole is on no cycle. -/
theorem Whole.not_transGen (h : Whole files n) : ¬Relation.TransGen (Sources files) n n := by
  intro hcycle
  obtain ⟨l, hl⟩ := h
  have hshorter : ∀ m, Relation.TransGen (Sources files) n m →
      ∃ l', ReadsAll files [m] l' ∧ l'.length < l.length := by
    intro m hm
    induction hm with
    | single hsource => exact hl.of_sources hsource
    | tail _ hsource ih =>
      obtain ⟨l₁, hl₁, hlen₁⟩ := ih
      obtain ⟨l₂, hl₂, hlen₂⟩ := hl₁.of_sources hsource
      exact ⟨l₂, hl₂, hlen₂.trans hlen₁⟩
  obtain ⟨l', hl', hlen⟩ := hshorter n hcycle
  rw [hl'.unique hl] at hlen
  exact lt_irrefl _ hlen

theorem Whole.not_reachesCycle (h : Whole files root) : ¬ReachesCycle files root := by
  have hwhole : ∀ m, Relation.ReflTransGen (Sources files) root m → Whole files m := by
    intro m hm
    induction hm with
    | refl => exact h
    | tail _ hsource ih =>
      obtain ⟨l, hl⟩ := ih
      obtain ⟨l', hl', -⟩ := hl.of_sources hsource
      exact ⟨l', hl'⟩
  rintro ⟨n, hreach, hcycle⟩
  exact (hwhole n hreach).not_transGen hcycle

/-! ### The way to what is not whole -/

theorem exists_first {P : Text → Prop} (h : ¬∀ k ∈ names, P k) :
    ∃ before n after, names = before ++ n :: after ∧ (∀ k ∈ before, P k) ∧ ¬P n := by
  induction names with
  | nil => exact absurd (fun k hk => absurd hk List.not_mem_nil) h
  | cons name names ih =>
    by_cases hname : P name
    · obtain ⟨before, n, after, rfl, hbefore, hn⟩ := ih fun hall =>
        h (List.forall_mem_cons.mpr ⟨hname, hall⟩)
      exact ⟨name :: before, n, after, rfl, List.forall_mem_cons.mpr ⟨hname, hbefore⟩, hn⟩
    · exact ⟨[], name, names, rfl, nofun, hname⟩

theorem first_unique {P : Text → Prop} {before before' after after' : List Text}
    (h : before ++ m :: after = before' ++ n :: after') (hbefore : ∀ k ∈ before, P k)
    (hbefore' : ∀ k ∈ before', P k) (hm : ¬P m) (hn : ¬P n) : m = n := by
  induction before generalizing before' with
  | nil =>
    cases before' with
    | nil => exact (List.cons.inj h).1
    | cons k before' =>
      obtain ⟨rfl, -⟩ := List.cons.inj h
      exact absurd (hbefore' m List.mem_cons_self) hm
  | cons k before ih =>
    cases before' with
    | nil =>
      obtain ⟨rfl, -⟩ := List.cons.inj h
      exact absurd (hbefore k List.mem_cons_self) hn
    | cons k' before' =>
      exact ih (List.cons.inj h).2 (fun j hj => hbefore j (List.mem_cons_of_mem k hj))
        fun j hj => hbefore' j (List.mem_cons_of_mem k' hj)

theorem Inner.not_last (h : Inner files m n) : ¬Last files m k := by
  rintro ⟨c', hopen', -, hall, -⟩
  obtain ⟨c, before, after, hopen, hsources, -, hn⟩ := h
  obtain rfl := Option.some.inj (hopen.symm.trans hopen')
  exact hn (hall n (hsources ▸ List.mem_append_right _ List.mem_cons_self))

theorem Stuck.unique (h : Stuck files m n) (h' : Stuck files m k) : n = k := by
  rcases h with hinner | hlast
  · rcases h' with hinner' | hlast'
    · obtain ⟨c, before, after, hopen, hsources, hbefore, hn⟩ := hinner
      obtain ⟨c', before', after', hopen', hsources', hbefore', hk⟩ := hinner'
      obtain rfl := Option.some.inj (hopen.symm.trans hopen')
      exact first_unique (hsources.symm.trans hsources') hbefore hbefore' hn hk
    · exact absurd hlast' hinner.not_last
  · rcases h' with hinner' | hlast'
    · exact absurd hlast hinner'.not_last
    · obtain ⟨c, hopen, hname, -, -⟩ := hlast
      obtain ⟨c', hopen', hname', -, -⟩ := hlast'
      obtain rfl := Option.some.inj (hopen.symm.trans hopen')
      exact Option.some.inj (hname.symm.trans hname')

theorem Stuck.sources (h : Stuck files m n) : Sources files m n := by
  rcases h with ⟨c, before, after, hopen, hsources, -⟩ | ⟨c, hopen, hlast, -⟩
  · refine ⟨c, hopen, List.mem_append_left _ ?_⟩
    rw [hsources]
    exact List.mem_append_right _ List.mem_cons_self
  · refine ⟨c, hopen, List.mem_append_right _ ?_⟩
    rw [hlast]
    exact List.mem_singleton_self n

theorem stuck_le : Stuck files ≤ Sources files := fun _ _ h => h.sources

theorem Stuck.isSome (h : Stuck files m n) : (files m).isSome := by
  obtain ⟨c, hopen, -⟩ := h.sources
  rw [hopen]
  rfl

theorem Stuck.not_whole (h : Stuck files m n) : ¬Whole files n := by
  rcases h with ⟨c, before, after, -, -, -, hn⟩ | ⟨c, -, -, -, hn⟩ <;> exact hn

theorem exists_stuck (hopen : files m = some c) (h : ¬Whole files m) : ∃ n, Stuck files m n := by
  by_cases hall : ∀ k ∈ c.sources, Whole files k
  · cases hlast : c.last with
    | none =>
      refine absurd (whole_of_named hopen ?_) h
      rwa [Contents.named, hlast, Option.toList_none, List.append_nil]
    | some n =>
      refine ⟨n, .inr ⟨c, hopen, hlast, hall, fun hn => h (whole_of_named hopen ?_)⟩⟩
      rw [Contents.named, hlast, Option.toList_some]
      exact List.forall_mem_append.mpr ⟨hall, List.forall_mem_singleton.mpr hn⟩
  · obtain ⟨before, n, after, hsources, hbefore, hn⟩ := exists_first hall
    exact ⟨n, .inl ⟨c, before, after, hopen, hsources, hbefore, hn⟩⟩

/-- What follows on a circle of last lines is on it. -/
theorem Stuck.circle (h : Stuck files m n) (hcircle : Relation.TransGen (Last files) m m) :
    Relation.TransGen (Last files) n n := by
  obtain ⟨k, hlast, hback⟩ := Relation.TransGen.head'_iff.mp hcircle
  obtain rfl := h.unique (.inr hlast)
  exact .tail' hback hlast

/-- From what follows on a circle there is a way back. -/
theorem reflTransGen_back (hcircle : Relation.TransGen (Stuck files) m m)
    (h : Relation.ReflTransGen (Stuck files) m n) : Relation.ReflTransGen (Stuck files) n m := by
  induction h with
  | refl => exact .refl
  | tail _ hstuck ih =>
    rcases Relation.ReflTransGen.cases_head ih with rfl | ⟨k, hstuck', hback⟩
    · obtain ⟨k, hstuck', hback⟩ := Relation.TransGen.head'_iff.mp hcircle
      exact hstuck.unique hstuck' ▸ hback
    · exact hstuck.unique hstuck' ▸ hback

/-! ### The parents -/

end

/-- Each file of a path is included from the next one. -/
def Linked (parent : Text → Option Text) : List Text → Prop
  | [] => True
  | a :: path => parent a = path.head? ∧ Linked parent path

section
variable {files : Files} {parent : Text → Option Text} {path : List Text} {name : Text} {n : ℕ}

theorem Linked.congr {parent' : Text → Option Text} (h : Linked parent path)
    (heq : ∀ m ∈ path, parent' m = parent m) : Linked parent' path := by
  induction path with
  | nil => trivial
  | cons a path ih =>
    exact ⟨(heq a List.mem_cons_self).trans h.1,
      ih h.2 fun m hm => heq m (List.mem_cons_of_mem a hm)⟩

/-- The walk over a path on which the name is not. -/
theorem walk_of_not_mem (h : Linked parent path) (hname : name ∉ path) (hn : path.length ≤ n) :
    walk parent name n path.head? = some false := by
  induction path generalizing n with
  | nil => cases n <;> rfl
  | cons a path ih =>
    obtain ⟨n, rfl⟩ := Nat.exists_eq_add_of_lt (Nat.lt_of_lt_of_le (Nat.zero_lt_succ _) hn)
    rw [List.mem_cons, not_or] at hname
    rw [List.head?_cons, walk, if_neg hname.1, h.1]
    exact ih h.2 hname.2 (by simp only [List.length_cons] at hn; omega)

/-- The walk over a path on which the name is, also when the parent of the name has changed. -/
theorem walk_of_mem (h : Linked parent path) (hname : name ∈ path) (hn : path.length ≤ n)
    (v : Option Text) : walk (Function.update parent name v) name n path.head? = some true := by
  induction path generalizing n with
  | nil => exact absurd hname List.not_mem_nil
  | cons a path ih =>
    obtain ⟨n, rfl⟩ := Nat.exists_eq_add_of_lt (Nat.lt_of_lt_of_le (Nat.zero_lt_succ _) hn)
    rw [List.head?_cons, walk]
    split
    · rfl
    · next hne =>
      rw [Function.update_of_ne (Ne.symm hne), h.1]
      exact ih h.2 (List.mem_of_ne_of_mem hne hname) (by simp only [List.length_cons] at hn; omega)

end

/-! ### Runs -/

/-- The scanner gets from one state to another. -/
def Reaches (files : Files) (s s' : Scanner) : Prop :=
  Relation.ReflTransGen (fun a b => step files a = .state b) s s'

def Halts (files : Files) (s : Scanner) (o : Outcome) : Prop :=
  ∃ s', Reaches files s s' ∧ step files s' = .stop o

/-- The files that are being read, the current one first, and what is left of each. -/
structure Inside (path : List Text) (bufs : List Contents) (s : Scanner) : Prop where
  currentFile : s.currentFile = path.head?
  buffers : s.buffers = bufs
  length : bufs.length = path.length
  linked : Linked s.parent path
  nodup : path.Nodup
  read : path ⊆ s.read

section
variable {files : Files} {root current name n : Text} {path names rest l : List Text}
  {c : Contents} {bufs : List Contents} {s s' : Scanner} {last : Option Text} {o : Outcome}

theorem Halts.of_reaches (h : Reaches files s s') (hhalts : Halts files s' o) :
    Halts files s o := by
  obtain ⟨t, ht, hstop⟩ := hhalts
  exact ⟨t, h.trans ht, hstop⟩

theorem run_of_stop (h : Reaches files s s') (hstop : step files s' = .stop o) :
    ∃ n, run files n s = some (o, s'.read.reverse) := by
  induction h using Relation.ReflTransGen.head_induction_on with
  | refl => exact ⟨1, by rw [run, hstop]⟩
  | head hstep _ ih =>
    obtain ⟨n, hn⟩ := ih
    exact ⟨n + 1, by rw [run, hstep]; exact hn⟩

/-- A run goes on from each state that it gets to. -/
theorem run_of_reaches {k : ℕ} {r : Outcome × List Text} (h : Reaches files s s')
    (hrun : run files k s = some r) : ∃ k' ≤ k, run files k' s' = some r := by
  induction h using Relation.ReflTransGen.head_induction_on generalizing k with
  | refl => exact ⟨k, le_rfl, hrun⟩
  | head hstep _ ih =>
    cases k with
    | zero => cases hrun
    | succ k =>
      rw [run, hstep] at hrun
      obtain ⟨k', hk', hrun'⟩ := ih hrun
      exact ⟨k', Nat.le_succ_of_le hk', hrun'⟩

theorem run_of_transGen {k : ℕ} {r : Outcome × List Text}
    (h : Relation.TransGen (fun a b => step files a = .state b) s s')
    (hrun : run files k s = some r) : ∃ k' < k, run files k' s' = some r := by
  obtain ⟨t, hstep, hreach⟩ := Relation.TransGen.head'_iff.mp h
  cases k with
  | zero => cases hrun
  | succ k =>
    rw [run, hstep] at hrun
    obtain ⟨k', hk', hrun'⟩ := run_of_reaches hreach hrun
    exact ⟨k', Nat.lt_succ_of_le hk', hrun'⟩

theorem outcome_eq {k : ℕ} {r : Outcome × List Text} (h : Halts files s o)
    (hrun : run files k s = some r) : r.1 = o := by
  obtain ⟨s', hreach, hstop⟩ := h
  obtain ⟨k', -, hrun'⟩ := run_of_reaches hreach hrun
  cases k' with
  | zero => cases hrun'
  | succ k' =>
    rw [run, hstop] at hrun'
    rw [← Option.some.inj hrun']

/-! ### One step -/

theorem Inside.endfile (h : Inside (current :: path) (c :: bufs) s) :
    Inside path bufs (zconfEndfile s current bufs) where
  currentFile := h.linked.1
  buffers := rfl
  length := Nat.succ.inj h.length
  linked := h.linked.2
  nodup := (List.nodup_cons.mp h.nodup).2
  read _ hm := h.read (List.mem_cons_of_mem current hm)

theorem Inside.setBuffers (h : Inside (current :: path) (c :: bufs) s) (c' : Contents) :
    Inside (current :: path) (c' :: bufs) { s with buffers := c' :: bufs } :=
  ⟨h.currentFile, rfl, h.length, h.linked, h.nodup, h.read⟩

theorem Inside.step_end (h : Inside (current :: path) (⟨[], none⟩ :: bufs) s) :
    step files s = .state (zconfEndfile s current bufs) := by
  simp only [step, h.currentFile, h.buffers, List.head?_cons]

theorem Inside.step_last (h : Inside (current :: path) (⟨[], some name⟩ :: bufs) s) :
    step files s = zconfNextfile files (zconfEndfile s current bufs) name := by
  simp only [step, h.currentFile, h.buffers, List.head?_cons]

theorem Inside.step_source (h : Inside (current :: path) (⟨name :: rest, last⟩ :: bufs) s) :
    step files s = zconfNextfile files { s with buffers := ⟨rest, last⟩ :: bufs } name := by
  simp only [step, h.currentFile, h.buffers, List.head?_cons]

/-- The check of the including file passes while no file is read twice at once. -/
theorem Inside.nextfile (h : Inside (current :: path) (c :: bufs) s) {c' : Contents}
    (hopen : files name = some c') : zconfNextfile files s name = .state (s.entered name c') := by
  have hlen : path.length ≤ s.read.length :=
    (Nat.le_succ _).trans ((List.subperm_of_subset h.nodup h.read).length_le)
  have hwalk := walk_of_not_mem h.linked.2 (List.nodup_cons.mp h.nodup).1 hlen
  simp only [zconfNextfile, h.buffers, hopen, h.currentFile, List.head?_cons, h.linked.1, hwalk]

theorem Inside.nextfile_missing (h : Inside (current :: path) (c :: bufs) s)
    (hopen : files name = none) : zconfNextfile files s name = .stop (.cantOpen name) := by
  simp only [zconfNextfile, h.buffers, hopen]

theorem Inside.nextfile_crashes (h : Inside [] bufs s) :
    zconfNextfile files s name = .stop .crashes := by
  have hbufs : s.buffers = [] := h.buffers.trans (List.eq_nil_of_length_eq_zero h.length)
  simp only [zconfNextfile, hbufs]

theorem Inside.entered (h : Inside path bufs s) (hname : name ∉ path) (c : Contents) :
    Inside (name :: path) (c :: bufs) (s.entered name c) where
  currentFile := rfl
  buffers := congrArg (c :: ·) h.buffers
  length := congrArg Nat.succ h.length
  linked := by
    refine ⟨?_, h.linked.congr fun m hm => ?_⟩
    · simp only [Scanner.entered, Function.update_self, h.currentFile]
    · exact Function.update_of_ne (ne_of_mem_of_not_mem hm hname) _ _
  nodup := List.nodup_cons.mpr ⟨hname, h.nodup⟩
  read := List.cons_subset_cons name h.read

/-- A file that is included while it is read stops the scanner at its first statement. -/
theorem Inside.recursive (h : Inside (current :: path) (c :: bufs) s)
    (hmem : name ∈ current :: path) {first : Text} (hfirst : (files first).isSome) :
    step files (s.entered name ⟨first :: rest, last⟩) = .stop .recursive := by
  obtain ⟨c', hc'⟩ := Option.isSome_iff_exists.mp hfirst
  have hlen : (current :: path).length ≤ (name :: s.read).length :=
    ((List.subperm_of_subset h.nodup h.read).length_le).trans (Nat.le_succ _)
  have hwalk := walk_of_mem h.linked hmem hlen (some current)
  rw [List.head?_cons] at hwalk
  simp only [step, Scanner.entered, zconfNextfile, hc', h.currentFile, List.head?_cons,
    Function.update_self, hwalk]

/-! ### Reading what is whole -/

def LeadTo (files : Files) (path : List Text) (n : Text) : Prop :=
  ∀ m ∈ path, Relation.TransGen (Sources files) m n

theorem LeadTo.not_mem (h : LeadTo files path n) (hwhole : Whole files n) : n ∉ path :=
  fun hmem => hwhole.not_transGen (h n hmem)

theorem LeadTo.cons (h : LeadTo files path name) (hsource : Sources files name n) :
    LeadTo files (name :: path) n := by
  intro m hm
  rcases List.mem_cons.mp hm with rfl | hm
  · exact .single hsource
  · exact (h m hm).tail hsource

/-- A whole file is read when it is included, and the including file goes on. -/
def Includes (files : Files) (names l : List Text) : Prop :=
  ∀ path c bufs s, c.named = names → Inside path (c :: bufs) s →
    (∀ n ∈ names, LeadTo files path n) → (path.tail = [] → c.last = none) →
      ∃ s', Reaches files s s' ∧ Inside path.tail bufs s' ∧ s'.read = l.reverse ++ s.read

/-- What is named in lines of a file is read. -/
def GoesOn (files : Files) (names l : List Text) : Prop :=
  ∀ path rest last bufs s, Inside path (⟨names ++ rest, last⟩ :: bufs) s →
    (∀ n ∈ names, LeadTo files path n) →
      ∃ s', Reaches files s s' ∧ Inside path (⟨rest, last⟩ :: bufs) s' ∧
        s'.read = l.reverse ++ s.read

/-- The step that includes a whole file, and all that comes of it. -/
theorem Includes.call (h : Includes files c.named l) (hopen : files name = some c)
    (hwhole : Whole files name) {c' : Contents} (hinside : Inside (current :: path) (c' :: bufs) s)
    (hlead : LeadTo files (current :: path) name) :
    ∃ s₁ s', zconfNextfile files s name = .state s₁ ∧ Reaches files s₁ s' ∧
      Inside (current :: path) (c' :: bufs) s' ∧ s'.read = (name :: l).reverse ++ s.read := by
  have hsub (n : Text) (hn : n ∈ c.named) : LeadTo files (name :: current :: path) n :=
    hlead.cons ⟨c, hopen, hn⟩
  obtain ⟨s', hreach, hinside', hread⟩ := h _ c _ _ rfl
    (hinside.entered (hlead.not_mem hwhole) c) hsub nofun
  refine ⟨_, s', hinside.nextfile hopen, hreach, hinside', ?_⟩
  rw [hread, Scanner.entered, List.reverse_cons, List.append_assoc]
  rfl

theorem includes_of_readsAll (h : ReadsAll files names l) :
    Includes files names l ∧ GoesOn files names l := by
  induction h with
  | nil =>
    refine ⟨fun path c bufs s hnamed hinside _ _ => ?_, fun path rest last bufs s hinside _ =>
      ⟨s, .refl, hinside, rfl⟩⟩
    obtain ⟨sources, last⟩ := c
    obtain ⟨rfl, hlast⟩ := List.append_eq_nil_iff.mp hnamed
    obtain rfl := Option.toList_eq_nil_iff.mp hlast
    cases path with
    | nil => cases hinside.length
    | cons current path => exact ⟨_, .single hinside.step_end, hinside.endfile, rfl⟩
  | @cons name c names l l' hopen hname hrest ihname ihrest =>
    have hwhole : Whole files name := ⟨_, .cons hopen hname .nil⟩
    have hreverse (t : Scanner) : l'.reverse ++ ((name :: l).reverse ++ t.read) =
        (name :: l ++ l').reverse ++ t.read := by
      rw [List.reverse_append, List.append_assoc]
    refine ⟨fun path c' bufs s hnamed hinside hlead hlast => ?_,
      fun path rest last bufs s hinside hlead => ?_⟩
    · obtain ⟨sources, last⟩ := c'
      cases path with
      | nil => cases hinside.length
      | cons current path =>
        have hfirst := hlead name List.mem_cons_self
        have hothers (n : Text) (hn : n ∈ names) := hlead n (List.mem_cons_of_mem name hn)
        cases sources with
        | nil =>
          -- the file has ended before the last line is carried out
          obtain ⟨rfl, rfl⟩ : last = some name ∧ names = [] := by
            cases last with
            | none => cases hnamed
            | some m =>
              obtain ⟨rfl, rfl⟩ := List.cons.inj hnamed
              exact ⟨rfl, rfl⟩
          cases path with
          | nil => exact absurd (hlast rfl) nofun
          | cons p path =>
            have hend := hinside.endfile
            cases bufs with
            | nil => cases hend.length
            | cons c' bufs =>
              obtain ⟨s₁, s', hstep, hreach, hinside', hread⟩ := ihname.1.call hopen hwhole hend
                fun m hm => hfirst m (List.mem_cons_of_mem current hm)
              cases hrest
              refine ⟨s', .head (hinside.step_last.trans hstep) hreach, hinside', ?_⟩
              rw [hread, List.append_nil]
              rfl
        | cons m sources =>
          obtain ⟨rfl, hnamed'⟩ := List.cons.inj hnamed
          obtain ⟨s₁, s', hstep, hreach, hinside', hread⟩ :=
            ihname.1.call hopen hwhole (hinside.setBuffers ⟨sources, last⟩) hfirst
          obtain ⟨s'', hreach', hinside'', hread'⟩ :=
            ihrest.1 _ ⟨sources, last⟩ _ _ hnamed' hinside' hothers hlast
          refine ⟨s'', .head (hinside.step_source.trans hstep) (hreach.trans hreach'), hinside'',
            ?_⟩
          rw [hread', hread]
          exact hreverse s
    · cases path with
      | nil => cases hinside.length
      | cons current path =>
        obtain ⟨s₁, s', hstep, hreach, hinside', hread⟩ :=
          ihname.1.call hopen hwhole (hinside.setBuffers ⟨names ++ rest, last⟩)
            (hlead name List.mem_cons_self)
        obtain ⟨s'', hreach', hinside'', hread'⟩ := ihrest.2 _ rest last _ _ hinside' fun n hn =>
          hlead n (List.mem_cons_of_mem name hn)
        refine ⟨s'', .head (hinside.step_source.trans hstep) (hreach.trans hreach'), hinside'', ?_⟩
        rw [hread', hread]
        exact hreverse s

/-! ### Going where reading does not get on -/

/-- The scanner begins a file; each of the including files is stuck at it. -/
structure At (files : Files) (current : Text) (path : List Text) (s : Scanner) : Prop where
  inside : ∃ c bufs, files current = some c ∧ Inside (current :: path) (c :: bufs) s
  stuck : ∀ m ∈ path, ∃ k, Inner files m k ∧ Relation.ReflTransGen (Stuck files) k current

/-- What comes of including a file from what is being read. -/
inductive Comes (files : Files) (s : Scanner) (n : Text) (stack : List Text) : Prop
  | crashes (hstack : stack = []) (halts : Halts files s .crashes)
  | missing (hopen : files n = none) (halts : Halts files s (.cantOpen n))
  | recursive (hmem : n ∈ stack) (halts : Halts files s .recursive)
  | enters (hmem : n ∉ stack) (s' : Scanner)
    (hreach : Relation.TransGen (fun a b => step files a = .state b) s s')
    (hat : At files n stack s')

theorem Inner.first {m k : Text} (h : Inner files m k) (hk : (files k).isSome) :
    ∃ first rest last, files m = some ⟨first :: rest, last⟩ ∧ (files first).isSome := by
  obtain ⟨⟨sources, last⟩, before, after, hopen, hsources, hbefore, -⟩ := h
  obtain rfl : sources = before ++ k :: after := hsources
  cases before with
  | nil => exact ⟨k, after, last, hopen, hk⟩
  | cons first before =>
    refine ⟨first, before ++ k :: after, last, hopen, ?_⟩
    obtain ⟨l, hl⟩ := hbefore first List.mem_cons_self
    cases hl with
    | cons hopen' => rw [hopen']; rfl

theorem isSome_of_reaches {k : Text} (h : Relation.ReflTransGen (Stuck files) k n)
    (hn : (files n).isSome) : (files k).isSome := by
  rcases Relation.ReflTransGen.cases_head h with rfl | ⟨m, hstuck, -⟩
  · exact hn
  · exact hstuck.isSome

theorem Comes.of_step {t s₁ : Scanner} {stack : List Text} (hreach : Reaches files s s₁)
    (hstep : step files s₁ = zconfNextfile files t n) (hinside : Inside stack bufs t)
    (hstuck : ∀ m ∈ stack, ∃ k, Inner files m k ∧ Relation.ReflTransGen (Stuck files) k n) :
    Comes files s n stack := by
  cases stack with
  | nil => exact .crashes rfl ⟨s₁, hreach, hstep.trans hinside.nextfile_crashes⟩
  | cons current path =>
    cases bufs with
    | nil => cases hinside.length
    | cons c bufs =>
      cases hopen : files n with
      | none => exact .missing hopen ⟨s₁, hreach, hstep.trans (hinside.nextfile_missing hopen)⟩
      | some c' =>
        have hsome : (files n).isSome := by rw [hopen]; rfl
        have hnext := hstep.trans (hinside.nextfile hopen)
        by_cases hmem : n ∈ current :: path
        · obtain ⟨k, hinner, hback⟩ := hstuck n hmem
          obtain ⟨first, rest, last, hopen', hfirst⟩ :=
            hinner.first (isSome_of_reaches hback hsome)
          obtain rfl := Option.some.inj (hopen.symm.trans hopen')
          exact .recursive hmem ⟨_, hreach.tail hnext, hinside.recursive hmem hfirst⟩
        · exact .enters hmem _ (.tail' hreach hnext)
            ⟨⟨c', _, hopen, hinside.entered hmem c'⟩, hstuck⟩

/-- From a file that is not whole the scanner gets to the first one that it names and that is not
whole. -/
theorem At.comes (h : At files current path s) (hnot : ¬Whole files current) :
    ∃ n stack, (Inner files current n ∧ stack = current :: path ∨
      Last files current n ∧ stack = path) ∧ Comes files s n stack := by
  obtain ⟨c, bufs, hopen, hinside⟩ := h.inside
  have hlead {k : Text} (hk : k ∈ c.named) : LeadTo files (current :: path) k := by
    have hsource : Sources files current k := ⟨c, hopen, hk⟩
    refine LeadTo.cons (fun m hm => ?_) hsource
    obtain ⟨j, hinner, hback⟩ := h.stuck m hm
    exact .head' (Stuck.sources (.inl hinner)) (Relation.ReflTransGen.mono stuck_le _ _ hback)
  obtain ⟨n, hstuck⟩ := exists_stuck hopen hnot
  have hback : ∀ m ∈ path, ∃ k, Inner files m k ∧ Relation.ReflTransGen (Stuck files) k n :=
    fun m hm => (h.stuck m hm).imp fun k hk => ⟨hk.1, hk.2.tail hstuck⟩
  obtain ⟨sources, last⟩ := c
  rcases hstuck with hinner | hlast
  · have hinner' := hinner
    obtain ⟨c, before, after, hopen', hsources, hbefore, -⟩ := hinner
    obtain rfl := Option.some.inj (hopen.symm.trans hopen')
    obtain rfl : sources = before ++ n :: after := hsources
    obtain ⟨l, hl⟩ := exists_readsAll hbefore
    obtain ⟨s₁, hreach, hinside', -⟩ := (includes_of_readsAll hl).2 _ _ _ _ _ hinside fun k hk =>
      hlead (List.mem_append_left _ (List.mem_append_left _ hk))
    refine ⟨n, _, .inl ⟨hinner', rfl⟩, .of_step hreach hinside'.step_source
      (hinside'.setBuffers ⟨after, last⟩) fun m hm => ?_⟩
    rcases List.mem_cons.mp hm with rfl | hm
    · exact ⟨n, hinner', .refl⟩
    · exact hback m hm
  · have hlast' := hlast
    obtain ⟨c, hopen', hname, hall, -⟩ := hlast
    obtain rfl := Option.some.inj (hopen.symm.trans hopen')
    obtain rfl : last = some n := hname
    obtain ⟨l, hl⟩ := exists_readsAll hall
    rw [← List.append_nil sources] at hinside
    obtain ⟨s₁, hreach, hinside', -⟩ := (includes_of_readsAll hl).2 _ _ _ _ _ hinside fun k hk =>
      hlead (List.mem_append_left _ hk)
    exact ⟨n, _, .inr ⟨hlast', rfl⟩, .of_step hreach hinside'.step_last hinside'.endfile hback⟩

/-- Without a circle of last lines the scanner gets to the error. The measure is the number of files
that are not being read, and then of those that are not in the chain of last lines so far. -/
theorem At.halts (F : Finset Text) (hF : ∀ m, (files m).isSome → m ∈ F) {current : Text}
    {path : List Text} {s : Scanner} (h : At files current path s) (hnot : ¬Whole files current)
    (hthere : ∀ m n, Relation.ReflTransGen (Stuck files) current m → Stuck files m n →
      (files n).isSome)
    (hcircle : ∀ m, Relation.ReflTransGen (Stuck files) current m →
      ¬Relation.TransGen (Last files) m m)
    (hends : path = [] → ∀ n, ¬Last files current n) (chain : List Text) (hnodup : chain.Nodup)
    (hchain : ∀ m ∈ chain, Relation.TransGen (Last files) m current) :
    Halts files s .recursive ∧ ∃ n, Relation.ReflTransGen (Stuck files) current n ∧
      Relation.TransGen (Stuck files) n n := by
  obtain ⟨n, stack, hway, hcomes⟩ := h.comes hnot
  have hstuck : Stuck files current n := hway.imp And.left And.left
  have hin (l : List Text) (hl : l.Nodup) (hsome : ∀ m ∈ l, (files m).isSome) :
      l.length ≤ F.card := by
    rw [← List.toFinset_card_of_nodup hl]
    exact Finset.card_le_card fun m hm => hF m (hsome m (List.mem_toFinset.mp hm))
  cases hcomes with
  | crashes hstack =>
    subst hstack
    rcases hway with ⟨-, hnil⟩ | ⟨hlast, rfl⟩
    · cases hnil
    · exact absurd hlast (hends rfl n)
  | missing hopen =>
    have hsome := hthere current n .refl hstuck
    rw [hopen] at hsome
    cases hsome
  | recursive hmem halts =>
    refine ⟨halts, n, .single hstuck, ?_⟩
    rcases hway with ⟨hinner, rfl⟩ | ⟨hlast, rfl⟩
    · rcases List.mem_cons.mp hmem with rfl | hmem
      · exact .single hstuck
      · obtain ⟨k, hinner', hback⟩ := h.stuck n hmem
        exact .head' (.inl hinner') (hback.tail hstuck)
    · obtain ⟨k, hinner', hback⟩ := h.stuck n hmem
      exact .head' (.inl hinner') (hback.tail hstuck)
  | enters hmem s' hreach hat =>
    have hthere' := fun m k (hm : Relation.ReflTransGen (Stuck files) n m) =>
      hthere m k (hm.head hstuck)
    have hcircle' := fun m (hm : Relation.ReflTransGen (Stuck files) n m) =>
      hcircle m (hm.head hstuck)
    obtain ⟨c, bufs, hopen, hinside⟩ := h.inside
    have hcurrent : (files current).isSome := by rw [hopen]; rfl
    have hresult : Halts files s' .recursive ∧ ∃ k, Relation.ReflTransGen (Stuck files) n k ∧
        Relation.TransGen (Stuck files) k k := by
      rcases hway with ⟨-, heq⟩ | ⟨hlast, heq⟩
      · rw [heq] at hat
        have hlen : path.length + 1 ≤ F.card := hin (current :: path) hinside.nodup fun m hm => by
          rcases List.mem_cons.mp hm with rfl | hm
          · exact hcurrent
          · obtain ⟨k, hinner', -⟩ := h.stuck m hm
            exact Stuck.isSome (.inl hinner')
        exact hat.halts F hF hstuck.not_whole hthere' hcircle' nofun [] List.nodup_nil nofun
      · rw [heq] at hat
        have hnew : current ∉ chain := fun hmem => hcircle current .refl (hchain current hmem)
        have hnodup' : (current :: chain).Nodup := List.nodup_cons.mpr ⟨hnew, hnodup⟩
        have hlen : chain.length + 1 ≤ F.card := hin (current :: chain) hnodup' fun m hm => by
          rcases List.mem_cons.mp hm with rfl | hm
          · exact hcurrent
          · obtain ⟨k, hlast', -⟩ := Relation.TransGen.head'_iff.mp (hchain m hm)
            exact Stuck.isSome (.inr hlast')
        refine hat.halts F hF hstuck.not_whole hthere' hcircle' (fun hnil => ?_)
          (current :: chain) hnodup' fun m hm => ?_
        · exact absurd hlast (hends hnil n)
        · rcases List.mem_cons.mp hm with rfl | hm
          · exact .single hlast
          · exact (hchain m hm).tail hlast
    obtain ⟨halts, k, hk, hback⟩ := hresult
    exact ⟨halts.of_reaches hreach.to_reflTransGen, k, hk.head hstuck, hback⟩
termination_by (F.card - path.length, F.card - chain.length)
decreasing_by
  · apply Prod.Lex.left
    rw [List.length_cons]
    omega
  · apply Prod.Lex.right
    rw [List.length_cons]
    omega

/-- When the scanner has stopped, no file on the way was missing or on a circle of last lines. -/
theorem At.of_run {r : Outcome × List Text} (k : ℕ) (h : At files current path s)
    (hnot : ¬Whole files current) (hrun : run files k s = some r) :
    r.1 ≠ .done ∧ (r.1 = .recursive → ∀ m, Relation.ReflTransGen (Stuck files) current m →
      (∀ n, Stuck files m n → (files n).isSome) ∧ ¬Relation.TransGen (Last files) m m) := by
  induction k using Nat.strong_induction_on generalizing current path s with
  | h k ih =>
    obtain ⟨n, stack, hway, hcomes⟩ := h.comes hnot
    have hstuck : Stuck files current n := hway.imp And.left And.left
    cases hcomes with
    | crashes _ halts => exact ⟨by rw [outcome_eq halts hrun]; nofun, by
        rw [outcome_eq halts hrun]; nofun⟩
    | missing _ halts => exact ⟨by rw [outcome_eq halts hrun]; nofun, by
        rw [outcome_eq halts hrun]; nofun⟩
    | recursive hmem halts =>
      refine ⟨by rw [outcome_eq halts hrun]; nofun, fun _ m hm => ?_⟩
      -- the file is stuck in a line with a newline, and leads back to itself
      obtain ⟨j, hinner, hback⟩ : ∃ j, Inner files n j ∧
          Relation.ReflTransGen (Stuck files) j n := by
        rcases hway with ⟨hinner, rfl⟩ | ⟨-, rfl⟩
        · rcases List.mem_cons.mp hmem with rfl | hmem
          · exact ⟨n, hinner, .refl⟩
          · exact (h.stuck n hmem).imp fun j hj => ⟨hj.1, hj.2.tail hstuck⟩
        · exact (h.stuck n hmem).imp fun j hj => ⟨hj.1, hj.2.tail hstuck⟩
      have hcycle : Relation.TransGen (Stuck files) n n := .head' (.inl hinner) hback
      have hreturn : Relation.ReflTransGen (Stuck files) m n := by
        rcases Relation.ReflTransGen.cases_head hm with rfl | ⟨k, hstuck', hm⟩
        · exact .single hstuck
        · obtain rfl := hstuck.unique hstuck'
          exact reflTransGen_back hcycle hm
      have hsome : (files n).isSome := Stuck.isSome (.inl hinner)
      refine ⟨fun k hk => ?_, fun hcircle => ?_⟩
      · rcases Relation.ReflTransGen.cases_head hreturn with rfl | ⟨k', hstuck', hreturn'⟩
        · exact isSome_of_reaches (reflTransGen_back hcycle (.single hk)) hsome
        · obtain rfl := hk.unique hstuck'
          exact isSome_of_reaches hreturn' hsome
      · have hall : ∀ k, Relation.ReflTransGen (Stuck files) m k →
            Relation.TransGen (Last files) k k := by
          intro k hk
          induction hk with
          | refl => exact hcircle
          | tail _ hstuck' ih => exact hstuck'.circle ih
        obtain ⟨k, hlast, -⟩ := Relation.TransGen.head'_iff.mp (hall n hreturn)
        exact hinner.not_last hlast
    | enters _ s' hreach hat =>
      obtain ⟨k', hk', hrun'⟩ := run_of_transGen hreach hrun
      obtain ⟨hdone, hrest⟩ := ih k' hk' hat hstuck.not_whole hrun'
      refine ⟨hdone, fun hrec m hm => ?_⟩
      rcases Relation.ReflTransGen.cases_head hm with rfl | ⟨j, hstuck', hm⟩
      · obtain ⟨c, bufs, hopen, -⟩ := hat.inside
        refine ⟨fun j hj => ?_, fun hcircle => (hrest hrec n .refl).2 (hstuck.circle hcircle)⟩
        rw [← hstuck.unique hj, hopen]
        rfl
      · obtain rfl := hstuck.unique hstuck'
        exact hrest hrec m hm

/-! ### The whole run -/

theorem at_start (hroot : files root = some c) : At files root [] (start root c) where
  inside := ⟨c, [], hroot, rfl, rfl, rfl, ⟨rfl, trivial⟩, List.nodup_singleton root,
    List.Subset.refl _⟩
  stuck := nofun

theorem orderly_of_whole (h : Whole files root)
    (hends : ∀ c, files root = some c → c.last = none) : Orderly files root := by
  have hwhole : ∀ m, Relation.ReflTransGen (Stuck files) root m → Whole files m := by
    intro m hm
    induction hm with
    | refl => exact h
    | tail _ hstuck ih =>
      obtain ⟨l, hl⟩ := ih
      obtain ⟨l', hl', -⟩ := hl.of_sources hstuck.sources
      exact ⟨l', hl'⟩
  refine ⟨fun m n hm hstuck => ?_, fun m hm hcircle => ?_, fun c hroot hlast => ?_⟩
  · exact absurd (hwhole n (hm.tail hstuck)) hstuck.not_whole
  · obtain ⟨n, hlast, -⟩ := Relation.TransGen.head'_iff.mp hcircle
    exact absurd (hwhole n (hm.tail (.inr hlast))) (Stuck.not_whole (.inr hlast))
  · rw [hends c hroot] at hlast
    cases hlast

/-- A last line of the root without a newline crashes the scanner when it gets there. -/
theorem halts_crashes (hroot : files root = some c) (hlast : c.last = some n)
    (hall : ∀ k ∈ c.sources, Whole files k) : Halts files (start root c) .crashes := by
  obtain ⟨c', bufs, hopen, hinside⟩ := (at_start hroot).inside
  obtain rfl := Option.some.inj (hroot.symm.trans hopen)
  obtain ⟨sources, last⟩ := c
  obtain rfl : last = some n := hlast
  obtain ⟨l, hl⟩ := exists_readsAll hall
  rw [← List.append_nil sources] at hinside
  have hlead (k : Text) (hk : k ∈ sources) : LeadTo files [root] k := by
    intro m hm
    rw [List.mem_singleton.mp hm]
    exact .single ⟨_, hroot, List.mem_append_left _ hk⟩
  obtain ⟨s₁, hreach, hinside', -⟩ := (includes_of_readsAll hl).2 _ _ _ _ _ hinside hlead
  rw [List.append_nil] at hreach
  exact ⟨s₁, hreach, hinside'.step_last.trans hinside'.endfile.nextfile_crashes⟩

/-- A whole root is read to its end. -/
theorem run_of_whole (h : Whole files root) (hroot : files root = some c) (hlast : c.last = none) :
    ∃ n read, run files n (start root c) = some (.done, read) ∧ ReadsAll files [root] read := by
  obtain ⟨l, hl⟩ := h
  cases hl with
  | @cons _ c' _ l l' hopen hnamed hrest =>
    obtain rfl := Option.some.inj (hroot.symm.trans hopen)
    cases hrest
    obtain ⟨c', bufs, hopen, hinside⟩ := (at_start hroot).inside
    obtain rfl := Option.some.inj (hroot.symm.trans hopen)
    obtain ⟨s', hreach, hinside', hread⟩ := (includes_of_readsAll hnamed).1 _ _ _ _ rfl hinside
      (fun k hk m hm => by
        rw [List.mem_singleton.mp hm]
        exact .single ⟨_, hroot, hk⟩) fun _ => hlast
    have hstop : step files s' = .stop .done := by
      have hnone : s'.currentFile = none := hinside'.currentFile
      simp only [step, hnone]
    obtain ⟨n, hrun⟩ := run_of_stop hreach hstop
    refine ⟨n, _, hrun, ?_⟩
    have hall : s'.read.reverse = root :: l ++ [] := by
      rw [hread, start]
      simp
    rw [hall]
    exact .cons hroot hnamed .nil

end
namespace Samples

def root : Text := ['K']
def left : Text := ['L']
def right : Text := ['R']
def shared : Text := ['S']

/-- Two files that include the same one, one of them in a last line without a newline. -/
def diamond : Files := fun name =>
  if name = root then some ⟨[left, right], none⟩
  else if name = left then some ⟨[], some shared⟩
  else if name = right then some ⟨[shared], none⟩
  else if name = shared then some ⟨[], none⟩
  else none

example : (run diamond 20 (start root ⟨[left, right], none⟩)).map Prod.snd =
    some [root, left, shared, right, shared] := by decide

theorem finite_diamond : {m | (diamond m).isSome}.Finite := by
  apply (List.finite_toSet [root, left, right, shared]).subset
  intro m hm
  simp only [Set.mem_ofPred_eq, diamond] at hm
  simp only [Set.mem_ofPred_eq, List.mem_cons, List.not_mem_nil, or_false]
  split_ifs at hm with h₁ h₂ h₃ h₄
  · exact .inl h₁
  · exact .inr (.inl h₂)
  · exact .inr (.inr (.inl h₃))
  · exact .inr (.inr (.inr h₄))
  · exact absurd hm (by decide)

theorem whole_diamond : Whole diamond root := by
  have hshared : ReadsAll diamond [shared] _ := .cons rfl .nil .nil
  have hleft : ReadsAll diamond [left] _ := .cons rfl hshared .nil
  have hright : ReadsAll diamond [right] _ := .cons rfl hshared .nil
  have hboth : ReadsAll diamond [left, right] _ := hleft.append hright
  exact ⟨_, .cons rfl hboth .nil⟩

/-- A file that names itself in a last line without a newline. -/
def endless : Files := fun name =>
  if name = root then some ⟨[left], none⟩
  else if name = left then some ⟨[], some left⟩
  else none

/-- The file is begun again and again. -/
theorem run_endless (n : ℕ) (s : Scanner) (hcurrent : s.currentFile = some left)
    (hbufs : s.buffers = [⟨[], some left⟩, ⟨[], none⟩]) (hleft : s.parent left = some root)
    (hroot : s.parent root = none) : run endless n s = none := by
  have hopen : endless left = some ⟨[], some left⟩ := by decide
  have hne : root ≠ left := by decide
  induction n generalizing s with
  | zero => rfl
  | succ n ih =>
    have hstep : step endless s =
        .state ((zconfEndfile s left [⟨[], none⟩]).entered left ⟨[], some left⟩) := by
      cases s.read.length <;>
        simp only [step, hcurrent, hbufs, zconfNextfile, zconfEndfile, hleft, hopen, hroot, walk]
    rw [run, hstep]
    refine ih _ rfl rfl ?_ ?_
    · have hparent := Function.update_self left (s.parent left) s.parent
      exact hparent.trans hleft
    · have hother := Function.update_of_ne hne (s.parent left) s.parent
      exact hother.trans hroot

end Samples
end Include
end OpenADK.Kconfig
