import OpenADK.Pkgmaker.Sections
import Mathlib.Data.UInt
import Mathlib.Data.Vector.Basic

/-!
# Sorting the section files

`sortfile.c` maps a file, makes a table of its lines, sorts the table and writes the lines out.
Positions are distances from the beginning of the file. Memory can always be allocated.
-/

namespace OpenADK.Pkgmaker.Sortfile
open CString

/-- A line: where it begins, and its length with the newline. -/
structure Ptrsize where
  ptr : ℕ
  size : ℕ
  deriving DecidableEq, Repr

variable {thefile : Bytes} {cp len i anents asz endfile : ℕ} {t thearray : List Ptrsize}

/-! ### `sortfile` -/

/-- `memchr` for a newline -/
def memchr (thefile : Bytes) (cp len : ℕ) : Option ℕ :=
  (((thefile.drop cp).take len).findIdx? fun c => c = newline).map (cp + ·)

theorem of_memchr (h : memchr thefile cp len = some i) :
    cp ≤ i ∧ i < cp + len ∧ ∃ body, newline ∉ body ∧
      (thefile.drop cp).take (i + 1 - cp) = body ++ [newline] := by
  obtain ⟨k, hk, rfl⟩ := Option.map_eq_some_iff.mp h
  obtain ⟨hlt, hfound, hbefore⟩ := List.findIdx?_eq_some_iff_getElem.mp hk
  have hlen := hlt
  rw [List.length_take, List.length_drop] at hlen
  refine ⟨Nat.le_add_right _ _, by omega, (thefile.drop cp).take k, ?_, ?_⟩
  · intro hmem
    obtain ⟨j, hj, hget⟩ := List.mem_iff_getElem.mp hmem
    rw [List.length_take, List.length_drop] at hj
    have hne := hbefore j (by omega)
    rw [List.getElem_take] at hne hget
    exact hne (decide_eq_true hget)
  · have hin : k < (thefile.drop cp).length := by
      rw [List.length_drop]
      omega
    have hget : (thefile.drop cp)[k] = newline := by
      rw [List.getElem_take] at hfound
      exact of_decide_eq_true hfound
    have hk1 : cp + k + 1 - cp = k + 1 := by omega
    rw [hk1, List.take_succ_eq_append_getElem hin, hget]

theorem of_memchr_eq_none (h : memchr thefile cp len = none) :
    newline ∉ (thefile.drop cp).take len := by
  have hnone := List.findIdx?_eq_none_iff.mp (Option.map_eq_none_iff.mp h)
  intro hmem
  exact of_decide_eq_false (hnone newline hmem) rfl

/-- Access to an entry; there is none beyond the table. -/
def update (t : List Ptrsize) (i : ℕ) (f : Ptrsize → Ptrsize) : Option (List Ptrsize) :=
  t[i]?.map fun e => t.set i (f e)

/-- `realloc` leaves new entries undefined. -/
def xrecalloc (fresh : ∀ n, List.Vector Ptrsize n) (t : List Ptrsize) (nmemb : ℕ) :
    List Ptrsize :=
  t ++ (fresh (nmemb - t.length)).toList

/-- What is done with the newline at `i`. -/
def endLine (fresh : ∀ n, List.Vector Ptrsize n) (i anents asz : ℕ) (thearray : List Ptrsize) :
    Option (List Ptrsize × ℕ) :=
  (update thearray anents fun e => { e with size := i + 1 - e.ptr }).bind fun t =>
    let (t, asz) :=
      if anents + 1 = asz then (xrecalloc fresh t (asz * 2), asz * 2) else (t, asz)
    (update t (anents + 1) fun e => { e with ptr := i + 1 }).map fun t => (t, asz)

/-- The `while` loop. -/
def scan (fresh : ∀ n, List.Vector Ptrsize n) (thefile : Bytes) (endfile cp anents asz : ℕ)
    (thearray : List Ptrsize) : Option (List Ptrsize × ℕ) :=
  match _h : memchr thefile cp (endfile - cp) with
  | none => some (thearray, anents)
  | some i =>
    if i + 1 > endfile then some (thearray, anents)
    else
      (endLine fresh i anents asz thearray).bind fun (t, asz) =>
        scan fresh thefile endfile (i + 1) (anents + 1) asz t
termination_by endfile - cp
decreasing_by
  have := of_memchr ‹_›
  omega

/-- The table of the lines. There is nothing to be mapped in an empty file. -/
def lineTable (fresh : ∀ n, List.Vector Ptrsize n) (thefile : Bytes) : Option (List Ptrsize) :=
  if thefile = [] then none
  else
    let endfile := thefile.length - 1
    (update (xrecalloc fresh [] 8) 0 fun e => { e with ptr := 0 }).bind fun t =>
      (scan fresh thefile endfile 0 0 8 t).bind fun (t, anents) =>
        (update t anents fun e => { e with size := endfile - e.ptr + 1 }).map fun t =>
          t.take (anents + 1)

/-- `memcmp` of ranges of the same length. -/
def memcmp : Bytes → Bytes → ℤ
  | a :: s, b :: t => if a = b then memcmp s t else (a.toNat : ℤ) - b.toNat
  | _, _ => 0

def cmpfn (thefile : Bytes) (a1 a2 : Ptrsize) : ℤ :=
  let n := (if a1.size > a2.size then a2.size else a1.size) - 1
  let rv := memcmp ((thefile.drop a1.ptr).take n) ((thefile.drop a2.ptr).take n)
  if rv ≠ 0 then rv
  else if a1.size > a2.size then 1
  else if a1.size = a2.size then 0
  else -1

def text (thefile : Bytes) (e : Ptrsize) : Bytes := (thefile.drop e.ptr).take e.size

/-- `qsort` -/
def sorted (thefile : Bytes) (thearray : List Ptrsize) : List Ptrsize :=
  thearray.mergeSort fun a1 a2 => cmpfn thefile a1 a2 ≤ 0

/-- What is in the output file, which is not truncated. -/
def sortfile (fresh : ∀ n, List.Vector Ptrsize n) (thefile outfile : Bytes) : Option Bytes :=
  (lineTable fresh thefile).map fun thearray =>
    let written := (sorted thefile thearray).flatMap (text thefile)
    written ++ outfile.drop written.length

/-! ### The table -/

def Tiles : ℕ → List Ptrsize → ℕ → Prop
  | start, [], stop => start = stop
  | start, e :: es, stop => e.ptr = start ∧ Tiles (start + e.size) es stop

def IsLine (l : Bytes) : Prop := ∃ body, newline ∉ body ∧ l = body ++ [newline]

theorem Tiles.append {start stop : ℕ} {e : Ptrsize} (h : Tiles start t stop) (he : e.ptr = stop) :
    Tiles start (t ++ [e]) (stop + e.size) := by
  induction t generalizing start with
  | nil =>
    cases h
    exact ⟨he, rfl⟩
  | cons d t ih => exact ⟨h.1, ih h.2⟩

/-- Entries that lie one behind the other cover what is between their ends. -/
theorem Tiles.flatMap_text {start stop : ℕ} (h : Tiles start t stop) (thefile : Bytes) :
    start ≤ stop ∧ t.flatMap (text thefile) = (thefile.drop start).take (stop - start) := by
  induction t generalizing start with
  | nil =>
    cases h
    rw [Nat.sub_self, List.take_zero]
    exact ⟨le_rfl, rfl⟩
  | cons e t ih =>
    obtain ⟨rfl, hrest⟩ := h
    obtain ⟨hle, htext⟩ := ih hrest
    refine ⟨by omega, ?_⟩
    have hsplit : stop - e.ptr = e.size + (stop - (e.ptr + e.size)) := by omega
    rw [List.flatMap_cons, htext, text, hsplit, List.take_add, List.drop_drop]

/-- The state of the loop: the lines before `cp` are in the table, and the entry for the next one
has its place in it. -/
structure Loop (thefile : Bytes) (endfile cp anents asz : ℕ) (thearray : List Ptrsize) : Prop where
  cp_le : cp ≤ endfile
  length_eq : thearray.length = asz
  pending : (thearray[anents]?).map Ptrsize.ptr = some cp
  tiles : Tiles 0 (thearray.take anents) cp
  lines : ∀ e ∈ thearray.take anents, IsLine (text thefile e)

theorem update_eq {f : Ptrsize → Ptrsize} (h : i < t.length) :
    update t i f = some (t.set i (f t[i])) := by
  rw [update, List.getElem?_eq_getElem h, Option.map_some]

theorem Loop.lt (h : Loop thefile endfile cp anents asz thearray) : anents < asz := by
  obtain ⟨e, he, -⟩ := Option.map_eq_some_iff.mp h.pending
  rw [← h.length_eq]
  exact (List.getElem?_eq_some_iff.mp he).1

theorem take_set_succ {e : Ptrsize} (h : anents < t.length) :
    (t.set anents e).take (anents + 1) = t.take anents ++ [e] := by
  rw [List.take_succ_eq_append_getElem (by rwa [List.length_set]), List.take_set_of_le le_rfl,
    List.getElem_set_self]

theorem xrecalloc_take {fresh : ∀ n, List.Vector Ptrsize n} {nmemb : ℕ} (h : i ≤ t.length) :
    (xrecalloc fresh t nmemb).take i = t.take i :=
  List.take_append_of_le_length h

theorem length_xrecalloc {fresh : ∀ n, List.Vector Ptrsize n} {nmemb : ℕ} (h : t.length ≤ nmemb) :
    (xrecalloc fresh t nmemb).length = nmemb := by
  rw [xrecalloc, List.length_append, List.Vector.toList_length]
  omega

/-- The next entry has its place, also when the table is full. -/
theorem Loop.endLine (fresh : ∀ n, List.Vector Ptrsize n)
    (h : Loop thefile endfile cp anents asz thearray) (hi : i < endfile) (hcp : cp ≤ i)
    (hline : IsLine ((thefile.drop cp).take (i + 1 - cp))) :
    ∃ t asz', endLine fresh i anents asz thearray = some (t, asz') ∧
      Loop thefile endfile (i + 1) (anents + 1) asz' t := by
  have hlt := h.lt
  have hlen := h.length_eq
  have hptr : thearray[anents].ptr = cp := by
    have hpending := h.pending
    rwa [List.getElem?_eq_getElem, Option.map_some, Option.some.injEq] at hpending
  generalize hd : ({ thearray[anents] with size := i + 1 - thearray[anents].ptr } : Ptrsize) = d
  have hdptr : d.ptr = cp := by rw [← hd, hptr]
  have hdsize : d.size = i + 1 - cp := by rw [← hd, hptr]
  have hdone : (thearray.set anents d).take (anents + 1) = thearray.take anents ++ [d] :=
    take_set_succ (hlen ▸ hlt)
  have hgrown : ∃ t asz', (if anents + 1 = asz then
      (xrecalloc fresh (thearray.set anents d) (asz * 2), asz * 2)
      else (thearray.set anents d, asz)) = (t, asz') ∧ t.length = asz' ∧ anents + 1 < asz' ∧
        t.take (anents + 1) = thearray.take anents ++ [d] := by
    have hset : (thearray.set anents d).length = asz := List.length_set.trans hlen
    split
    · refine ⟨_, _, rfl, length_xrecalloc (by omega), by omega, ?_⟩
      rw [xrecalloc_take (by omega), hdone]
    · exact ⟨_, _, rfl, hset, by omega, hdone⟩
  obtain ⟨t, asz', hgrown, hlen', hlt', htake⟩ := hgrown
  have hnext : anents + 1 < t.length := hlen' ▸ hlt'
  refine ⟨t.set (anents + 1) { t[anents + 1] with ptr := i + 1 }, asz', ?_, hi, ?_, ?_, ?_, ?_⟩
  · rw [Sortfile.endLine, update_eq (hlen ▸ hlt), Option.bind_some, hd, hgrown]
    simp only
    rw [update_eq hnext, Option.map_some]
  · rw [List.length_set, hlen']
  · rw [List.getElem?_set_self hnext]
    rfl
  · rw [List.take_set_of_le le_rfl, htake]
    have hstop : i + 1 = cp + d.size := by omega
    rw [hstop]
    exact h.tiles.append hdptr
  · rw [List.take_set_of_le le_rfl, htake]
    intro e he
    rcases List.mem_append.mp he with he | he
    · exact h.lines e he
    · obtain rfl := List.mem_singleton.mp he
      rw [text, hdptr, hdsize]
      exact hline

/-- A run of the loop, up to the last newline of the file. -/
theorem Loop.scan (fresh : ∀ n, List.Vector Ptrsize n)
    (h : Loop thefile endfile cp anents asz thearray) :
    ∃ t anents' cp' asz', scan fresh thefile endfile cp anents asz thearray = some (t, anents') ∧
      Loop thefile endfile cp' anents' asz' t ∧
        newline ∉ (thefile.drop cp').take (endfile - cp') := by
  induction hn : endfile - cp using Nat.strong_induction_on generalizing cp anents asz thearray with
  | _ n ih =>
    rw [Sortfile.scan]
    split
    case h_1 hnone => exact ⟨thearray, anents, cp, asz, rfl, h, of_memchr_eq_none hnone⟩
    case h_2 i hi =>
      obtain ⟨hle, hlt, hline⟩ := of_memchr hi
      have hend : i < endfile := by
        have := h.cp_le
        omega
      rw [if_neg (by omega)]
      obtain ⟨t, asz', hbody, hloop⟩ := h.endLine fresh hend hle hline
      rw [hbody, Option.bind_some]
      exact ih _ (by omega) hloop rfl

/-- The table of a file that ends with a newline covers it by lines. -/
theorem lineTable_eq (fresh : ∀ n, List.Vector Ptrsize n)
    (hlast : thefile.getLast? = some newline) :
    ∃ thearray, lineTable fresh thefile = some thearray ∧ Tiles 0 thearray thefile.length ∧
      ∀ e ∈ thearray, IsLine (text thefile e) := by
  have hne : thefile ≠ [] := by
    rintro rfl
    cases hlast
  have hpos := List.length_pos_iff.mpr hne
  have height : 0 < (xrecalloc fresh [] 8).length := by
    rw [length_xrecalloc (Nat.zero_le 8)]
    decide
  have hinit : Loop thefile (thefile.length - 1) 0 0 8
      ((xrecalloc fresh [] 8).set 0 { (xrecalloc fresh [] 8)[0] with ptr := 0 }) := by
    refine ⟨Nat.zero_le _, ?_, ?_, rfl, fun e he => ?_⟩
    · rw [List.length_set, length_xrecalloc (Nat.zero_le 8)]
    · rw [List.getElem?_set_self height]
      rfl
    · rw [List.take_zero] at he
      cases he
  obtain ⟨t, anents, cp, asz, hscan, hloop, hrest⟩ := hinit.scan fresh
  have hlt : anents < t.length := hloop.length_eq ▸ hloop.lt
  have hptr : t[anents].ptr = cp := by
    have hpending := hloop.pending
    rwa [List.getElem?_eq_getElem, Option.map_some, Option.some.injEq] at hpending
  have hcp := hloop.cp_le
  generalize hd : ({ t[anents] with size := thefile.length - 1 - t[anents].ptr + 1 } : Ptrsize) = d
  have hdptr : d.ptr = cp := by rw [← hd, hptr]
  have hdsize : d.size = thefile.length - 1 - cp + 1 := by rw [← hd, hptr]
  refine ⟨t.take anents ++ [d], ?_, ?_, ?_⟩
  · rw [lineTable, if_neg hne]
    simp only
    rw [update_eq height, Option.bind_some, hscan, Option.bind_some, update_eq hlt,
      Option.map_some, hd, take_set_succ hlt]
  · have hstop : thefile.length = cp + d.size := by omega
    rw [hstop]
    exact hloop.tiles.append hdptr
  · intro e he
    rcases List.mem_append.mp he with he | he
    · exact hloop.lines e he
    · obtain rfl := List.mem_singleton.mp he
      refine ⟨_, hrest, ?_⟩
      have hin : thefile.length - 1 - cp < (thefile.drop cp).length := by
        rw [List.length_drop]
        omega
      have hget : (thefile.drop cp)[thefile.length - 1 - cp] = newline := by
        rw [List.getLast?_eq_getElem?, List.getElem?_eq_getElem (by omega), Option.some.injEq]
          at hlast
        rw [List.getElem_drop, ← hlast]
        congr 1
        omega
      rw [text, hdptr, hdsize, List.take_succ_eq_append_getElem hin, hget]

/-! ### The order -/

/-- An entry in the file that has at least its newline. -/
def InFile (thefile : Bytes) (e : Ptrsize) : Prop := 0 < e.size ∧ e.ptr + e.size ≤ thefile.length

def body (thefile : Bytes) (e : Ptrsize) : Bytes := (text thefile e).dropLast

theorem memcmp_cases (s t : Bytes) :
    let n := min s.length t.length
    (memcmp (s.take n) (t.take n) < 0 ∧ s < t) ∨ (0 < memcmp (s.take n) (t.take n) ∧ t < s) ∨
      (memcmp (s.take n) (t.take n) = 0 ∧ s.take n = t.take n) := by
  induction s generalizing t with
  | nil => exact .inr (.inr ⟨by simp [memcmp], by simp⟩)
  | cons a s ih =>
    cases t with
    | nil => exact .inr (.inr ⟨by simp [memcmp], by simp⟩)
    | cons b t =>
      have hmin : min (a :: s).length (b :: t).length = min s.length t.length + 1 := by
        simp only [List.length_cons]
        omega
      dsimp only
      rw [hmin, List.take_succ_cons, List.take_succ_cons, memcmp, List.cons_lt_cons_iff,
        List.cons_lt_cons_iff]
      by_cases hab : a = b
      · subst hab
        rw [if_pos rfl]
        rcases ih t with ⟨h, hlt⟩ | ⟨h, hlt⟩ | ⟨h, heq⟩
        · exact .inl ⟨h, .inr ⟨rfl, hlt⟩⟩
        · exact .inr (.inl ⟨h, .inr ⟨rfl, hlt⟩⟩)
        · exact .inr (.inr ⟨h, by rw [heq]⟩)
      · rw [if_neg hab]
        have hne : a.toNat ≠ b.toNat := fun h => hab (UInt8.toNat_inj.mp h)
        rcases lt_or_gt_of_ne hne with h | h
        · exact .inl ⟨by omega, .inl (UInt8.lt_iff_toNat_lt.mpr h)⟩
        · exact .inr (.inl ⟨by omega, .inl (UInt8.lt_iff_toNat_lt.mpr h)⟩)

/-- A proper prefix comes first. -/
theorem lt_of_prefix {s t : Bytes} (hlen : s.length < t.length) (h : s <+: t) : s < t := by
  obtain ⟨u, rfl⟩ := h
  induction s with
  | nil =>
    cases u with
    | nil => cases hlen
    | cons c u => exact List.nil_lt_cons c u
  | cons a s ih =>
    rw [List.cons_append, List.length_cons, List.length_cons] at hlen
    rw [List.cons_append, List.cons_lt_cons_iff]
    exact .inr ⟨rfl, ih (by omega)⟩

theorem length_body {e : Ptrsize} (h : InFile thefile e) :
    (body thefile e).length + 1 = e.size := by
  obtain ⟨hpos, hle⟩ := h
  rw [body, List.length_dropLast, text, List.length_take, List.length_drop]
  omega

theorem take_body {e : Ptrsize} {n : ℕ} (h : InFile thefile e) (hn : n + 1 ≤ e.size) :
    (thefile.drop e.ptr).take n = (body thefile e).take n := by
  obtain ⟨hpos, hle⟩ := h
  rw [body, List.dropLast_eq_take, text, List.take_take, List.take_take, List.length_take,
    List.length_drop]
  congr 1
  omega

/-- The sign of `cmpfn` is that of the order of the lines. -/
theorem cmpfn_cases {a b : Ptrsize} (ha : InFile thefile a) (hb : InFile thefile b) :
    (cmpfn thefile a b < 0 ∧ body thefile a < body thefile b) ∨
      (0 < cmpfn thefile a b ∧ body thefile b < body thefile a) ∨
        (cmpfn thefile a b = 0 ∧ body thefile a = body thefile b) := by
  have hla := length_body ha
  have hlb := length_body hb
  have hn : (if a.size > b.size then b.size else a.size) - 1 =
      min (body thefile a).length (body thefile b).length := by
    split <;> omega
  have hcases := memcmp_cases (body thefile a) (body thefile b)
  dsimp only at hcases
  unfold cmpfn
  dsimp only
  rw [hn, take_body ha (by omega), take_body hb (by omega)]
  rcases hcases with ⟨h, hlt⟩ | ⟨h, hlt⟩ | ⟨h, heq⟩
  · rw [if_pos h.ne]
    exact .inl ⟨h, hlt⟩
  · rw [if_pos h.ne']
    exact .inr (.inl ⟨h, hlt⟩)
  · rw [if_neg (not_not.mpr h)]
    split
    case isTrue hgt =>
      refine .inr (.inl ⟨by decide, lt_of_prefix (by omega) ?_⟩)
      rw [min_eq_right (by omega), List.take_length] at heq
      exact heq ▸ List.take_prefix _ _
    case isFalse hle =>
      split
      case isTrue hsize =>
        refine .inr (.inr ⟨rfl, ?_⟩)
        rwa [List.take_of_length_le (by omega), List.take_of_length_le (by omega)] at heq
      case isFalse hsize =>
        refine .inl ⟨by decide, lt_of_prefix (by omega) ?_⟩
        rw [min_eq_left (by omega), List.take_length] at heq
        exact heq ▸ List.take_prefix _ _

theorem cmpfn_nonpos_iff {a b : Ptrsize} (ha : InFile thefile a) (hb : InFile thefile b) :
    cmpfn thefile a b ≤ 0 ↔ body thefile a ≤ body thefile b := by
  rcases cmpfn_cases ha hb with ⟨h, hlt⟩ | ⟨h, hlt⟩ | ⟨h, heq⟩
  · exact iff_of_true h.le (List.le_of_lt hlt)
  · exact iff_of_false (not_le.mpr h) (List.not_le.mpr hlt)
  · exact iff_of_true h.le (heq ▸ List.le_refl _)

theorem cmpfn_pos_iff {a b : Ptrsize} (ha : InFile thefile a) (hb : InFile thefile b) :
    0 < cmpfn thefile a b ↔ body thefile b < body thefile a := by
  rw [← not_le, cmpfn_nonpos_iff ha hb, List.not_le]

theorem cmpfn_neg_iff {a b : Ptrsize} (ha : InFile thefile a) (hb : InFile thefile b) :
    cmpfn thefile a b < 0 ↔ body thefile a < body thefile b := by
  rcases cmpfn_cases ha hb with ⟨h, hlt⟩ | ⟨h, hlt⟩ | ⟨h, heq⟩
  · exact iff_of_true h hlt
  · exact iff_of_false (not_lt.mpr h.le) (List.not_lt.mpr (List.le_of_lt hlt))
  · exact iff_of_false (not_lt.mpr h.ge) (heq ▸ List.lt_irrefl _)

/-! ### The sorted file -/

/-- The lines without their newlines are in order, and a proper prefix comes first. -/
def LineLe (l l' : Bytes) : Prop := l.dropLast ≤ l'.dropLast

/-- A comparison for `qsort`: its signs are those of a total preorder. -/
structure Compares {α : Type} (cmp : α → α → ℤ) (s : Set α) : Prop where
  total : ∀ a ∈ s, ∀ b ∈ s, cmp a b ≤ 0 ∨ cmp b a ≤ 0
  trans : ∀ a ∈ s, ∀ b ∈ s, ∀ c ∈ s, cmp a b ≤ 0 → cmp b c ≤ 0 → cmp a c ≤ 0
  neg : ∀ a ∈ s, ∀ b ∈ s, cmp a b < 0 ↔ 0 < cmp b a

theorem compares_cmpfn (thefile : Bytes) :
    Compares (cmpfn thefile) {e | InFile thefile e} where
  total a ha b hb := by
    rw [cmpfn_nonpos_iff ha hb, cmpfn_nonpos_iff hb ha]
    exact List.le_total _ _
  trans a ha b hb c hc hab hbc := by
    rw [cmpfn_nonpos_iff ha hb] at hab
    rw [cmpfn_nonpos_iff hb hc] at hbc
    rw [cmpfn_nonpos_iff ha hc]
    exact List.le_trans hab hbc
  neg a ha b hb := by rw [cmpfn_neg_iff ha hb, cmpfn_pos_iff hb ha]

theorem Tiles.inFile {start stop : ℕ} (h : Tiles start t stop) (hstop : stop ≤ thefile.length)
    (hpos : ∀ e ∈ t, IsLine (text thefile e)) : ∀ e ∈ t, InFile thefile e := by
  induction t generalizing start with
  | nil => exact nofun
  | cons d t ih =>
    obtain ⟨rfl, hrest⟩ := h
    have hle := (hrest.flatMap_text thefile).1
    intro e he
    rcases List.mem_cons.mp he with rfl | he
    · obtain ⟨body, -, htext⟩ := hpos e List.mem_cons_self
      have hlen := congrArg List.length htext
      rw [text, List.length_take, List.length_append, List.length_singleton] at hlen
      exact ⟨by omega, by omega⟩
    · exact ih hrest (fun e he => hpos e (List.mem_cons_of_mem _ he)) e he

theorem pairwise_sorted (h : ∀ e ∈ thearray, InFile thefile e) :
    (sorted thefile thearray).Pairwise fun a b => LineLe (text thefile a) (text thefile b) := by
  have hmap : (sorted thefile thearray).map (body thefile) =
      (thearray.map (body thefile)).mergeSort fun l l' => decide (l ≤ l') := by
    apply List.map_mergeSort
    intro a ha b hb
    rw [decide_eq_decide]
    exact cmpfn_nonpos_iff (h a ha) (h b hb)
  have hsorted : ((sorted thefile thearray).map (body thefile)).Pairwise fun l l' => l ≤ l' := by
    rw [hmap]
    refine (List.pairwise_mergeSort ?_ ?_ _).imp of_decide_eq_true
    · intro a b c hab hbc
      exact decide_eq_true (List.le_trans (of_decide_eq_true hab) (of_decide_eq_true hbc))
    · intro a b
      rw [Bool.or_eq_true, decide_eq_true_iff, decide_eq_true_iff]
      exact List.le_total a b
  exact (List.pairwise_map.mp hsorted).imp fun h => h

/-- The lines of a file that ends with a newline are in a new file in order, each with its
newline. -/
theorem sortfile_sorts (fresh : ∀ n, List.Vector Ptrsize n)
    (hlast : thefile.getLast? = some newline) :
    ∃ lines sortedLines : List Bytes, (∃ thearray, lineTable fresh thefile = some thearray ∧
        Tiles 0 thearray thefile.length ∧ lines = thearray.map (text thefile) ∧
          ∀ e ∈ thearray, InFile thefile e) ∧
      (∀ l ∈ lines, IsLine l) ∧ lines.flatten = thefile ∧
      Compares (cmpfn thefile) {e | InFile thefile e} ∧
      sortfile fresh thefile [] = some sortedLines.flatten ∧ sortedLines.Perm lines ∧
      sortedLines.Pairwise LineLe := by
  obtain ⟨thearray, htable, htiles, hlines⟩ := lineTable_eq fresh hlast
  have hin := htiles.inFile le_rfl hlines
  refine ⟨thearray.map (text thefile), (sorted thefile thearray).map (text thefile),
    ⟨thearray, htable, htiles, rfl, hin⟩, ?_, ?_, compares_cmpfn thefile, ?_, ?_, ?_⟩
  · intro l hl
    obtain ⟨e, he, rfl⟩ := List.mem_map.mp hl
    exact hlines e he
  · have htext := (htiles.flatMap_text thefile).2
    rwa [List.drop_zero, Nat.sub_zero, List.take_length, List.flatMap_def] at htext
  · rw [sortfile, htable, Option.map_some]
    simp only [List.drop_nil, List.append_nil, List.flatMap_def]
  · exact (List.mergeSort_perm thearray _).map _
  · exact List.pairwise_map.mpr (pairwise_sorted hin)

/-- Two lines with an empty one between them. -/
theorem sortfile_sorts_small : ∃ sortedLines : List Bytes,
    sortfile (fun n => List.Vector.replicate n ⟨0, 0⟩) [98, 10, 10, 97, 10] [] =
      some sortedLines.flatten ∧ sortedLines.Pairwise LineLe := by
  obtain ⟨_, sortedLines, -, -, -, -, hout, -, hsorted⟩ :=
    sortfile_sorts (fun n => List.Vector.replicate n ⟨0, 0⟩)
      (show [98, 10, 10, 97, 10].getLast? = some newline from rfl)
  exact ⟨sortedLines, hout, hsorted⟩

end OpenADK.Pkgmaker.Sortfile
