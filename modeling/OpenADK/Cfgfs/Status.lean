import OpenADK.Cfgfs.Commit

/-!
# `cfgfs status`

The checksums of all files are kept in a text, and the text of the saved state is compared with
that of the current one by the usual tools.
-/

namespace OpenADK.Cfgfs

/-- Names of any characters other than newline. -/
def IsName (p : Bytes) : Prop := p ≠ [] ∧ 0 ∉ p ∧ newline ∉ p

instance (p : Bytes) : Decidable (IsName p) := inferInstanceAs (Decidable (_ ∧ _ ∧ _))

/-- The regular files of `/etc` in the order of `find`, what can be read at a path, and what
`md5sum` prints when there are options among its arguments. -/
structure RegularFiles where
  entries : List (Bytes × Bytes)
  nodup : (entries.map Prod.fst).Nodup
  isName : ∀ e ∈ entries, IsName e.1
  look : Bytes → Option Bytes
  look_entry : ∀ e ∈ entries, look (ascii "./" ++ e.1) = some e.2
  options : List Bytes → List Bytes

/-- Checksums in hexadecimal digits. -/
structure Digest where
  hash : Bytes → Bytes
  hex : ∀ data, ∀ b ∈ hash data, b ∈ ascii "0123456789abcdef"
  length_hash : ∀ data, (hash data).length = 32
  hash_nil : hash [] = ascii "d41d8cd98f00b204e9800998ecf8427e"
  hash_zero : hash [0] = ascii "93b885adfe0da089cdf634904fd59f71"

/-! ### The tools -/

def unlines (lines : List Bytes) : Bytes := lines.flatMap fun line => line ++ [newline]

/-- `grep -v -e '^./.cfgfs' -e '^./.rnd$'`, where a dot stands for any character. -/
def dropped : Bytes → Bool
  | _ :: c :: _ :: rest => c = slash && (ascii "cfgfs" <+: rest || rest = ascii "rnd")
  | _ => false

def sorted (lines : List Bytes) : List Bytes := lines.mergeSort fun a b => a ≤ b

/-- White space separates the arguments of `xargs`. -/
def isSpace (c : UInt8) : Bool := c ∈ [32, 9, 10, 11, 12, 13]

/-- The arguments that `xargs` makes of its input: quotes and backslashes are taken away. There are
none if a quote is not closed on its line. -/
def xargs (word : Option Bytes) (quote : Option UInt8) (escape : Bool) :
    Bytes → Option (List Bytes)
  | [] => if quote.isSome then none else some word.toList
  | c :: text =>
    if escape then xargs (some (word.getD [] ++ [c])) quote false text
    else
      match quote with
      | some q =>
        if c = q then xargs word none false text
        else if c = newline then none
        else xargs (some (word.getD [] ++ [c])) quote false text
      | none =>
        if c = 92 then xargs (some (word.getD [])) none true text
        else if c = 34 ∨ c = 39 then xargs (some (word.getD [])) (some c) false text
        else if isSpace c then (xargs none none false text).map (word.toList ++ ·)
        else xargs (some (word.getD [] ++ [c])) none false text

section
variable (d : Digest) (F : RegularFiles)

/-- The line for an argument; there is none if it cannot be read. -/
def md5sumLine (arg : Bytes) : Option Bytes :=
  (if arg = [45] then some [] else F.look arg).map fun data => d.hash data ++ ascii "  " ++ arg

def xargsMd5sum (text : Bytes) : List Bytes :=
  match xargs none none false text with
  | none => []
  | some [] => [d.hash [] ++ ascii "  -"]
  | some args =>
    if args.any fun arg => [45] <+: arg ∧ arg ≠ [45] then F.options args
    else args.filterMap (md5sumLine d F)

/-- `sed 's!  ./! !'` -/
def squeeze : Bytes → Bytes
  | 32 :: 32 :: _ :: 47 :: rest => 32 :: rest
  | c :: rest => c :: squeeze rest
  | [] => []

def statusLines : List Bytes :=
  (xargsMd5sum d F (unlines (sorted ((F.entries.map fun e => ascii "./" ++ e.1).filter
    fun line => !dropped line)))).map squeeze

end

/-- `sed 's/^[0-9a-f]* //'` -/
def stripSum (line : Bytes) : Bytes :=
  match line.dropWhile fun b => b ∈ ascii "0123456789abcdef" with
  | 32 :: name => name
  | _ => line

/-- `comm -23` -/
def comm : List Bytes → List Bytes → List Bytes
  | [], _ => []
  | a, [] => a
  | x :: xs, y :: ys =>
    if x = y then comm xs ys
    else if x < y then x :: comm xs (y :: ys)
    else comm (x :: xs) ys
termination_by a b => a.length + b.length

/-- The lines that `read` gets, with what is escaped in them. -/
def readRaw (escape : Bool) (line : List (UInt8 × Bool)) : Bytes → List (List (UInt8 × Bool))
  | [] => []
  | c :: text =>
    if escape then
      if c = newline then readRaw false line text
      else readRaw false (line ++ [(c, true)]) text
    else if c = 92 then readRaw true line text
    else if c = newline then line :: readRaw false [] text
    else readRaw false (line ++ [(c, false)]) text

def isSep (c : UInt8 × Bool) : Bool := c = (32, false)

/-- The values of the two variables of `IFS=' ' read`. -/
def readPair (line : List (UInt8 × Bool)) : Bytes × Bytes :=
  let line := (line.dropWhile isSep).rdropWhile isSep
  ((line.takeWhile fun c => !isSep c).map Prod.fst,
    (((line.dropWhile fun c => !isSep c).dropWhile isSep)).map Prod.fst)

def readPairs (lines : List Bytes) : List (Bytes × Bytes) :=
  (readRaw false [] (unlines lines)).map readPair

/-- The key of `sort -k2`: all that comes after the first field. -/
def sortKey (line : Bytes) : Bytes :=
  let isBlank (b : UInt8) : Bool := b = 32 || b = 9
  (line.dropWhile isBlank).dropWhile fun b => !isBlank b

/-- Lines with the same key are compared as a whole. -/
def keyLe (a b : Bytes) : Bool :=
  sortKey a < sortKey b || sortKey a = sortKey b && a ≤ b

/-! ### The command -/

def nullLine (name : Bytes) : Bytes := ascii "<NULL> " ++ name

/-- The lines of one text and a line for each name that is only in the other one. -/
def completed (lines others : List Bytes) : List Bytes :=
  lines ++ (readNames false [] (unlines (comm (others.map stripSum) (lines.map stripSum)))).map
    nullLine

def compareLoop (quiet : Bool) : List (Bytes × Bytes) → List (Bytes × Bytes) → ℕ → ℕ
  | [], _, gotany => gotany
  | _ :: _, [], _ => 255
  | old :: olds, new :: news, gotany =>
    if old.2 ≠ new.2 then 255
    else if old.1 = new.1 then compareLoop quiet olds news gotany
    else if quiet then 8
    else compareLoop quiet olds news 8

def statusOf (quiet : Bool) (oldLines newLines : List Bytes) : ℕ :=
  compareLoop quiet (readPairs ((completed oldLines newLines).mergeSort keyLe))
    (readPairs ((completed newLines oldLines).mergeSort keyLe)) 0

/-- The exit status for a saved and a current state. -/
def status (d : Digest) (quiet : Bool) (saved current : RegularFiles) : ℕ :=
  statusOf quiet (statusLines d saved) (statusLines d current)

/-! ### What it should say -/

/-- The files that are left out: `.cfgfs*` and `.rnd`. -/
def Excepted (p : Bytes) : Prop := ascii ".cfgfs" <+: p ∨ p = ascii ".rnd"

def SameState (saved current : RegularFiles) : Prop :=
  ∀ p data, ¬Excepted p → ((p, data) ∈ saved.entries ↔ (p, data) ∈ current.entries)

def CollisionFree (d : Digest) (saved current : RegularFiles) : Prop :=
  ∀ e ∈ saved.entries ++ current.entries, ∀ e' ∈ saved.entries ++ current.entries,
    d.hash e.2 = d.hash e'.2 → e.2 = e'.2

/-- The exit status says if the states are the same. -/
def Right (d : Digest) (saved current : RegularFiles) : Prop :=
  ∀ quiet, (SameState saved current → status d quiet saved current = 0) ∧
    (¬SameState saved current → status d quiet saved current = 8)

def NoFiles (F : RegularFiles) : Prop := ∀ e ∈ F.entries, Excepted e.1

/-- The first character is between the blank and the dash. In the line for the input the dash stands
for the name, with a blank before it. -/
def IsEarly (p : Bytes) : Prop := ∃ b ∈ p.head?, 32 < b ∧ b < 45

def HasEarly (F : RegularFiles) : Prop := ∃ e ∈ F.entries, ¬Excepted e.1 ∧ IsEarly e.1

/-- Either both states have files, or none of them, or the order of the names is that of the
lines. -/
def Aligned (saved current : RegularFiles) : Prop :=
  (NoFiles saved ↔ NoFiles current) ∨ ¬HasEarly saved ∧ ¬HasEarly current

def Clean (s : Bytes) : Prop := ∀ b ∈ s, isSpace b = false ∧ b ≠ 34 ∧ b ≠ 39 ∧ b ≠ 92

instance (s : Bytes) : Decidable (Clean s) := List.decidableBAll _ s

def Tame (p : Bytes) : Prop := Excepted p ∨ Clean p ∧ dropped (ascii "./" ++ p) = false

/-! ### Clean lines -/

section
variable {s x : Bytes} {lines : List Bytes}

theorem Clean.append {t : Bytes} (h : Clean s) (h' : Clean t) : Clean (s ++ t) := fun b hb =>
  (List.mem_append.mp hb).elim (h b) (h' b)

theorem Clean.ne {b : UInt8} (h : Clean s) (hb : b ∈ s) :
    b ≠ 32 ∧ b ≠ 9 ∧ b ≠ newline ∧ b ≠ 92 := by
  obtain ⟨hspace, -, -, hback⟩ := h b hb
  have hmem : b ∉ ([32, 9, 10, 11, 12, 13] : List UInt8) := of_decide_eq_false hspace
  refine ⟨?_, ?_, ?_, hback⟩ <;>
  · rintro rfl
    exact hmem (by decide)

theorem clean_dot : Clean (ascii "./") := by decide

theorem clean_null : Clean (ascii "<NULL>") := by decide

theorem clean_hash (d : Digest) (data : Bytes) : Clean (d.hash data) := by
  have hdigits : Clean (ascii "0123456789abcdef") := by decide
  exact fun b hb => hdigits b (d.hex data b hb)

/-- The characters of a word are collected. -/
theorem xargs_clean (word : Option Bytes) (hs : Clean s) (hne : s ≠ []) (text : Bytes) :
    xargs word none false (s ++ text) = xargs (some (word.getD [] ++ s)) none false text := by
  induction s generalizing word with
  | nil => exact absurd rfl hne
  | cons b s ih =>
    obtain ⟨hspace, hdouble, hsingle, hback⟩ := hs b List.mem_cons_self
    have hstep : xargs word none false (b :: s ++ text) =
        xargs (some (word.getD [] ++ [b])) none false (s ++ text) := by
      rw [List.cons_append, xargs, if_neg Bool.false_ne_true, if_neg hback,
        if_neg (not_or.mpr ⟨hdouble, hsingle⟩), hspace, if_neg Bool.false_ne_true]
    rw [hstep]
    by_cases hnil : s = []
    · rw [hnil, List.nil_append]
    · rw [ih _ (fun c hc => hs c (List.mem_cons_of_mem b hc)) hnil, Option.getD_some,
        List.append_assoc, List.singleton_append]

theorem xargs_newline (word : Option Bytes) (text : Bytes) :
    xargs word none false (newline :: text) =
      (xargs none none false text).map (word.toList ++ ·) := rfl

/-- Each clean line is an argument. -/
theorem xargs_unlines (hclean : ∀ line ∈ lines, Clean line) (hne : ∀ line ∈ lines, line ≠ []) :
    xargs none none false (unlines lines) = some lines := by
  induction lines with
  | nil => rfl
  | cons line lines ih =>
    obtain ⟨hline, hlines⟩ := List.forall_mem_cons.mp hclean
    obtain ⟨hline', hlines'⟩ := List.forall_mem_cons.mp hne
    rw [unlines, List.flatMap_cons, List.append_assoc, xargs_clean _ hline hline',
      List.singleton_append, xargs_newline]
    change (xargs none none false (unlines lines)).map _ = _
    rw [ih hlines hlines']
    rfl

theorem squeeze_clean (hs : Clean s) (text : Bytes) : squeeze (s ++ text) = s ++ squeeze text := by
  induction s with
  | nil => rfl
  | cons b s ih =>
    have hb := (hs.ne List.mem_cons_self).1
    rw [List.cons_append, squeeze, ih fun c hc => hs c (List.mem_cons_of_mem b hc),
      List.cons_append]
    exact fun c rest h => absurd h hb

theorem stripSum_hash (d : Digest) (data : Bytes) (x : Bytes) :
    stripSum (d.hash data ++ 32 :: x) = x := by
  have hdrop : (d.hash data ++ 32 :: x).dropWhile
      (fun b => b ∈ ascii "0123456789abcdef") = 32 :: x := by
    rw [List.dropWhile_append_of_pos fun b hb => decide_eq_true (d.hex data b hb)]
    rfl
  rw [stripSum, hdrop]
  rfl

/-- Nothing is quoted in clean lines. -/
theorem readRaw_unlines (hlines : ∀ line ∈ lines, ∀ b ∈ line, b ≠ newline ∧ b ≠ 92) :
    readRaw false [] (unlines lines) = lines.map fun line => line.map (·, false) := by
  have hchars (line : Bytes) (hline : ∀ b ∈ line, b ≠ newline ∧ b ≠ 92)
      (front : List (UInt8 × Bool)) (text : Bytes) : readRaw false front (line ++ text) =
        readRaw false (front ++ line.map (·, false)) text := by
    induction line generalizing front with
    | nil => rw [List.nil_append, List.map_nil, List.append_nil]
    | cons b line ih =>
      obtain ⟨hb, hline⟩ := List.forall_mem_cons.mp hline
      rw [List.cons_append, readRaw, if_neg Bool.false_ne_true, if_neg hb.2, if_neg hb.1, ih hline,
        List.append_assoc]
      rfl
  induction lines with
  | nil => rfl
  | cons line lines ih =>
    obtain ⟨hline, hlines⟩ := List.forall_mem_cons.mp hlines
    rw [unlines, List.flatMap_cons, List.append_assoc, hchars line hline, List.nil_append]
    change line.map (·, false) :: readRaw false [] (unlines lines) = _
    rw [ih hlines, List.map_cons]

end

/-! ### The text of a state -/

theorem lt_of_le_of_ne_list {a b : Bytes} (h : a ≤ b) (hne : a ≠ b) : a < b :=
  List.not_le.mp fun h' => hne (List.le_antisymm h h')

theorem pairwise_sorted (lines : List Bytes) : (sorted lines).Pairwise (· ≤ ·) := by
  have hpairwise := @List.pairwise_mergeSort _ (fun a b : Bytes => decide (a ≤ b))
    (fun a b c hab hbc => decide_eq_true
      (List.le_trans (of_decide_eq_true hab) (of_decide_eq_true hbc)))
    (fun a b => by
      rw [Bool.or_eq_true, decide_eq_true_eq, decide_eq_true_eq]
      exact List.le_total a b) lines
  exact hpairwise.imp fun h => of_decide_eq_true h

theorem sorted_perm (lines : List Bytes) : (sorted lines).Perm lines := List.mergeSort_perm _ _

/-- The names that are not left out by `grep`, in their order. -/
def keptNames (F : RegularFiles) : List Bytes :=
  sorted ((F.entries.map Prod.fst).filter fun p => !dropped (ascii "./" ++ p))

def contentOf (F : RegularFiles) (p : Bytes) : Bytes := (F.look (ascii "./" ++ p)).getD []

/-- What stands for the names: there is a line for the input if there is no file. -/
def lineNames (F : RegularFiles) : List Bytes :=
  if keptNames F = [] then [ascii " -"] else keptNames F

def sumOf (d : Digest) (F : RegularFiles) (x : Bytes) : Bytes :=
  if keptNames F = [] then d.hash [] else d.hash (contentOf F x)

section
variable {d : Digest} {F : RegularFiles} {p : Bytes}

theorem mem_keptNames :
    p ∈ keptNames F ↔ (∃ data, (p, data) ∈ F.entries) ∧ dropped (ascii "./" ++ p) = false := by
  rw [keptNames, (sorted_perm _).mem_iff, List.mem_filter, Bool.not_eq_true', List.mem_map]
  exact and_congr_left' ⟨fun ⟨e, he, hp⟩ => ⟨e.2, hp ▸ he⟩, fun ⟨data, h⟩ => ⟨_, h, rfl⟩⟩

theorem contentOf_eq {data : Bytes} (h : (p, data) ∈ F.entries) : contentOf F p = data := by
  rw [contentOf, F.look_entry _ h, Option.getD_some]

theorem pairwise_keptNames (F : RegularFiles) : (keptNames F).Pairwise (· < ·) := by
  have hnodup : (keptNames F).Nodup := (sorted_perm _).nodup_iff.mpr (F.nodup.filter _)
  exact ((pairwise_sorted _).and hnodup).imp fun h => lt_of_le_of_ne_list h.1 h.2

theorem pairwise_lineNames (F : RegularFiles) : (lineNames F).Pairwise (· < ·) := by
  unfold lineNames
  split
  · exact List.pairwise_singleton _ _
  · exact pairwise_keptNames F

theorem sorted_dot (names : List Bytes) :
    sorted (names.map (ascii "./" ++ ·)) = (sorted names).map (ascii "./" ++ ·) := by
  refine (List.map_mergeSort fun a _ b _ => decide_eq_decide.mpr ?_).symm
  change a ≤ b ↔ 46 :: 47 :: a ≤ 46 :: 47 :: b
  rw [List.cons_le_cons_iff, List.cons_le_cons_iff]
  simp

/-- The line of a file. -/
theorem squeeze_line (d : Digest) (data p : Bytes) :
    squeeze (d.hash data ++ ascii "  " ++ (ascii "./" ++ p)) = d.hash data ++ 32 :: p := by
  rw [List.append_assoc, squeeze_clean (clean_hash d data)]
  rfl

theorem statusLines_eq (hnames : ∀ p ∈ keptNames F, Clean p) :
    statusLines d F = (lineNames F).map fun x => sumOf d F x ++ 32 :: x := by
  have hsorted : sorted ((F.entries.map fun e => ascii "./" ++ e.1).filter
      fun line => !dropped line) = (keptNames F).map (ascii "./" ++ ·) := by
    rw [keptNames, ← sorted_dot, List.filter_map, List.filter_map, List.map_map]
    rfl
  have hargs : xargs none none false (unlines ((keptNames F).map (ascii "./" ++ ·))) =
      some ((keptNames F).map (ascii "./" ++ ·)) := by
    apply xargs_unlines
    · intro line hline
      obtain ⟨p, hp, rfl⟩ := List.mem_map.mp hline
      exact clean_dot.append (hnames p hp)
    · intro line hline
      obtain ⟨p, hp, rfl⟩ := List.mem_map.mp hline
      exact List.append_ne_nil_of_left_ne_nil (by decide) p
  rw [statusLines, hsorted, xargsMd5sum, hargs]
  by_cases hempty : keptNames F = []
  · simp only [hempty, lineNames, sumOf, if_true, List.map_nil, List.map_cons]
    rw [squeeze_clean (clean_hash d [])]
    rfl
  · obtain ⟨p, names, hcons⟩ := List.exists_cons_of_ne_nil hempty
    have hoption : ((keptNames F).map (ascii "./" ++ ·)).any
        (fun arg => [45] <+: arg ∧ arg ≠ [45]) = false := by
      rw [List.any_eq_false]
      intro arg harg
      obtain ⟨p, -, rfl⟩ := List.mem_map.mp harg
      have hdot : ¬[45] <+: ascii "./" ++ p := by
        change ¬[45] <+: 46 :: 47 :: p
        rw [List.cons_prefix_cons]
        exact fun h => absurd h.1 (by decide)
      exact fun h => hdot (of_decide_eq_true h).1
    have hlines : ((keptNames F).map (ascii "./" ++ ·)).filterMap (md5sumLine d F) =
        (keptNames F).map fun p => d.hash (contentOf F p) ++ ascii "  " ++ (ascii "./" ++ p) := by
      rw [List.filterMap_map, ← List.filterMap_eq_map]
      apply List.filterMap_congr
      intro p hp
      obtain ⟨⟨data, hentry⟩, -⟩ := mem_keptNames.mp hp
      have hdash : ascii "./" ++ p ≠ [45] := fun h => absurd (List.cons.inj h).1 (by decide)
      change md5sumLine d F (ascii "./" ++ p) =
        some (d.hash (contentOf F p) ++ ascii "  " ++ (ascii "./" ++ p))
      rw [md5sumLine, if_neg hdash, F.look_entry _ hentry, contentOf_eq hentry, Option.map_some]
    have hmatch : (match some ((keptNames F).map (ascii "./" ++ ·)) with
        | none => []
        | some [] => [d.hash [] ++ ascii "  -"]
        | some args =>
          if args.any fun arg => [45] <+: arg ∧ arg ≠ [45] then F.options args
          else args.filterMap (md5sumLine d F)) =
        ((keptNames F).map (ascii "./" ++ ·)).filterMap (md5sumLine d F) := by
      rw [hcons, List.map_cons] at hoption ⊢
      simp only [hoption, Bool.false_eq_true, if_false]
    rw [hmatch, hlines, List.map_map, lineNames, if_neg hempty]
    apply List.map_congr_left
    intro p hp
    rw [sumOf, if_neg hempty]
    exact squeeze_line d _ p

end

end OpenADK.Cfgfs
