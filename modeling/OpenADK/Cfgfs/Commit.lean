import OpenADK.Cfgfs.Etc
import Mathlib.Data.FinEnum
import Mathlib.Data.List.DropRight

/-!
# `cfgfs commit`

A copy of `/etc` is reduced to its difference from the ROM: files that are as in the ROM are removed
from it, and the names of files that are gone are written to a list in it.
-/

namespace OpenADK.Cfgfs

def deletedName : Bytes := ascii ".cfgfs_deleted"

/-! ### Reading names -/

def findOutput (names : List Bytes) : Bytes :=
  names.flatMap fun p => ascii "./" ++ p ++ [newline]

/-- A space or a tab that no backslash stands before. -/
def blank (c : UInt8 × Bool) : Bool := !c.2 && (c.1 = 32 || c.1 = 9)

/-- The value of the variable that `read` sets. -/
def stripBlanks (line : List (UInt8 × Bool)) : Bytes :=
  ((line.dropWhile blank).rdropWhile blank).map Prod.fst

/-- The values of `f` in `while read f`. A backslash quotes the next byte and joins lines; a line
without its end is not taken. -/
def readNames (escape : Bool) (line : List (UInt8 × Bool)) : Bytes → List Bytes
  | [] => []
  | c :: text =>
    if escape then
      if c = newline then readNames false line text
      else readNames false (line ++ [(c, true)]) text
    else if c = 92 then readNames true line text
    else if c = newline then stripBlanks line :: readNames false [] text
    else readNames false (line ++ [(c, false)]) text

/-- `${f#./}` -/
def stripDot (f : Bytes) : Bytes := if ascii "./" <+: f then f.drop 2 else f

/-! ### Commit -/

/-- `>>`, where the name is that of a regular file or of nothing. -/
def append (T : Listing) (name text : Bytes) : Listing :=
  match node T name with
  | none => set T name (.file text)
  | some (.file data) => set T name (.file (data ++ text))
  | some _ => T

/-- `rm -f .cfgfs_* .rnd` -/
def rmOwn (T : Listing) : Listing :=
  T.filter fun e => e.2 = .dir ∨ slash ∈ e.1 ∨ ownName e.1 = false

/-- `find -type d -empty -delete` -/
def prune (T : Listing) : Listing :=
  T.filter fun e => e.2 ≠ .dir ∨ ∃ e' ∈ T, e'.2 ≠ .dir ∧ e.1 ∈ ancestors e'.1

section
variable (K : Kernel) (md5 : Bytes → Bytes) (R : Etc)

def md5sum (T : Listing) (f : Bytes) : Bytes :=
  if [45] <+: f then K.option T f
  else match K.stat T f with
    | .content data => md5 data ++ ascii "  " ++ f
    | _ => []

/-- One pass through the loop over the names of files in the ROM. -/
def compareFile (T : Listing) (f : Bytes) : Listing :=
  if K.stat T f = .absent then
    if f = ascii ".rnd" then T else append T deletedName (f ++ [newline])
  else if md5sum K md5 R.entries f = md5sum K md5 T f then K.rm T f
  else T

def compareFiles (T : Listing) : Listing :=
  ((readNames false [] (findOutput R.files)).map stripDot).foldl (compareFile K md5 R) T

/-- The tree that is packed, for the ROM and the current `/etc`. -/
def commit (current : Listing) : Listing := prune (compareFiles K md5 R (rmOwn current))

end

/-- A name that `read` takes as it is. -/
structure Plain (p : Bytes) : Prop where
  no_newline : newline ∉ p
  no_backslash : 92 ∉ p
  no_blank : ∀ c ∈ p.getLast?, c ≠ 32 ∧ c ≠ 9

instance (p : Bytes) : Decidable (Plain p) :=
  decidable_of_iff (newline ∉ p ∧ 92 ∉ p ∧ ∀ c ∈ p.getLast?, c ≠ 32 ∧ c ≠ 9)
    ⟨fun ⟨h₁, h₂, h₃⟩ => ⟨h₁, h₂, h₃⟩, fun ⟨h₁, h₂, h₃⟩ => ⟨h₁, h₂, h₃⟩⟩

/-- No file of the ROM that is still in `/etc` has a name that `md5sum` takes for an option. -/
def NoOptions (R E : Etc) : Prop :=
  ∀ p ∈ R.files, ∀ n, E.node p = some n → ¬[45] <+: p

/-! ### The names are read as they are -/

section
variable {p : Bytes} {names : List Bytes}

theorem readNames_append (line : List (UInt8 × Bool)) (hnl : newline ∉ p) (hbs : 92 ∉ p)
    (text : Bytes) : readNames false line (p ++ newline :: text) =
      stripBlanks (line ++ p.map fun c => (c, false)) :: readNames false [] text := by
  induction p generalizing line with
  | nil =>
    have hne : newline ≠ 92 := by decide
    rw [List.nil_append, readNames, if_neg Bool.false_ne_true, if_neg hne, if_pos rfl,
      List.map_nil, List.append_nil]
  | cons c p ih =>
    rw [List.mem_cons, not_or] at hnl hbs
    rw [List.cons_append, readNames, if_neg Bool.false_ne_true, if_neg (Ne.symm hbs.1),
      if_neg (Ne.symm hnl.1), ih _ hnl.2 hbs.2, List.map_cons, List.append_assoc,
      List.singleton_append]

theorem stripBlanks_of_getLast (hfirst : ∀ c ∈ p.head?, c ≠ 32 ∧ c ≠ 9)
    (hlast : ∀ c ∈ p.getLast?, c ≠ 32 ∧ c ≠ 9) :
    stripBlanks (p.map fun c => (c, false)) = p := by
  have hkeep {c : UInt8} (hc : c ≠ 32 ∧ c ≠ 9) : ¬blank (c, false) = true := by
    simp [blank, hc.1, hc.2]
  have hdrop : (p.map fun c => (c, false)).dropWhile blank = p.map fun c => (c, false) := by
    cases p with
    | nil => rfl
    | cons c p => exact List.dropWhile_cons_of_neg (hkeep (hfirst c rfl))
  have hrdrop : (p.map fun c => (c, false)).rdropWhile blank = p.map fun c => (c, false) := by
    rw [List.rdropWhile_eq_self_iff]
    intro hne
    rw [List.getLast_map]
    exact hkeep (hlast _ (List.getLast?_eq_some_getLast _))
  rw [stripBlanks, hdrop, hrdrop, List.map_map]
  exact List.map_id _

theorem readNames_findOutput (h : ∀ p ∈ names, Plain p) :
    (readNames false [] (findOutput names)).map stripDot = names := by
  induction names with
  | nil => rfl
  | cons p names ih =>
    have hp := h p List.mem_cons_self
    have hdot : newline ∉ ascii "./" ∧ 92 ∉ ascii "./" := by decide
    have hlast : ∀ c ∈ (ascii "./" ++ p).getLast?, c ≠ 32 ∧ c ≠ 9 := by
      rw [List.getLast?_append]
      cases hq : p.getLast? with
      | none =>
        intro c hc
        obtain rfl : 47 = c := Option.some.inj hc
        decide
      | some c => exact fun d hd => hp.no_blank d (by rw [hq]; exact hd)
    have hfirst : ∀ c ∈ (ascii "./" ++ p).head?, c ≠ 32 ∧ c ≠ 9 := by
      intro c hc
      obtain rfl : 46 = c := Option.some.inj hc
      decide
    have hstrip : stripDot (ascii "./" ++ p) = p := if_pos (List.prefix_append _ _)
    rw [findOutput, List.flatMap_cons, List.append_assoc, List.singleton_append,
      readNames_append [] (by simp [hdot.1, hp.no_newline]) (by simp [hdot.2, hp.no_backslash]),
      List.nil_append, stripBlanks_of_getLast hfirst hlast, List.map_cons, hstrip]
    exact congrArg _ (ih fun q hq => h q (List.mem_cons_of_mem _ hq))

end
end OpenADK.Cfgfs
