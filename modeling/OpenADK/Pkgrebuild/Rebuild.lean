import OpenADK.Depmaker.Symbols

/-!
# Packages to be rebuilt

`pkgrebuild` makes the symbols of subpackages, flavours and choices from the lines of the Makefiles,
and marks the package of each symbol that is in only one of two configurations.
-/

namespace OpenADK.Pkgrebuild
open CString Pkgmaker Depmaker

/-- Unlike that of `pkgmaker`, it leaves `!` as it is. -/
def toupperstr (string : Bytes) : Bytes :=
  string.map fun c => toupper (if c = chr '+' then chr 'X' else if c = chr '-' then chr '_' else c)

inductive Block
  | name
  | set
  | add
  | flavours
  | choices
  deriving DecidableEq

def Block.text : Block → Bytes
  | .name => str "PKG_NAME:="
  | .set => str "PKG_SUBPKGS:="
  | .add => str "PKG_SUBPKGS+="
  | .flavours => str "PKG_FLAVOURS_"
  | .choices => str "PKG_CHOICES_"

def blocks : List Block := [.name, .set, .add, .flavours, .choices]

structure State where
  pkgName : Option Bytes
  pkgmap : StrMap

structure Line where
  buf : Bytes
  state : State

def Block.delims (b : Block) (buf : Bytes) : Bytes :=
  match b with
  | .add => str "+="
  | .flavours => if (strstr (str ":=") buf).isSome then str ":=" else str "+="
  | _ => str ":="

def split (delims string : Bytes) : Bytes × Option Bytes :=
  match strtok delims string.dropLast with
  | none => ([], none)
  | some (key, rest) => (key, cut rest)

/-- What a symbol begins with before the token. The name of the package may be a null pointer. -/
def Block.front (b : Block) (pkgName : Option Bytes) (key : Bytes) : Option Bytes :=
  match b with
  | .flavours => some (str "ADK_PACKAGE_" ++ key.drop 13 ++ str "_")
  | .choices => pkgName.map fun name => str "ADK_PACKAGE_" ++ toupperstr name ++ str "_"
  | _ => some (str "ADK_PACKAGE_")

/-- The symbols of the tokens of a value. Without a token no pointer is followed. -/
def Block.symbols (b : Block) (pkgName : Option Bytes) (key : Bytes) (value : Option Bytes) :
    Option (List Bytes) :=
  let toks := tokens (str " ") (value.getD [])
  if b = .name ∨ toks = [] then some []
  else (b.front pkgName key).map fun front => toks.map (front ++ ·)

def Block.pkgName (b : Block) (old value : Option Bytes) : Option Bytes :=
  if b = .name then value.or old else old

def putAll (pkgmap : StrMap) (pairs : List (Bytes × Bytes)) : StrMap :=
  pairs.foldl (fun pkgmap pair => pkgmap.put pair.1 pair.2) pkgmap

def Block.run (b : Block) (dname : Bytes) (l : Line) : Option Line :=
  match strstr b.text l.buf with
  | none => some l
  | some string =>
    let (key, value) := split (b.delims l.buf) string
    (b.symbols l.state.pkgName key value).map fun symbols =>
      { buf := l.buf.take (l.buf.length - string.length) ++ key
        state :=
          { pkgName := b.pkgName l.state.pkgName value
            pkgmap := putAll l.state.pkgmap (symbols.map (·, dname)) } }

def readLine (dname : Bytes) (s : State) (buf : Bytes) : Option State :=
  if str "PKG" <+: buf then
    (blocks.foldlM (fun (l : Line) (b : Block) => b.run dname l) ⟨buf, s⟩).map Line.state
  else some s

/-- The lines of the Makefiles, as far as they fit into the buffer, with their directories. -/
def pieces (tree : List Dir) : List (Bytes × Bytes) :=
  tree.flatMap fun dir => (readLines newline 318 dir.makefile).map (dir.name, ·)

def readTree (tree : List Dir) : Option State :=
  (pieces tree).foldlM (fun s piece => readLine piece.1 s piece.2) ⟨none, []⟩

/-- The key that is put for a line of a configuration. -/
def configKey (buf : Bytes) : Option Bytes :=
  if str "ADK_PACKAGE" <+: buf then
    (strtok (str "=") buf).bind fun (key, rest) => (strtok (str "=") rest).map fun _ => key
  else none

def configKeys (config : Bytes) : List Bytes := (readLines newline 126 config).filterMap configKey

/-- The file that `iter_disabled` or `iter_enabled` creates for a key. -/
def rebuildFile (pkgmap : StrMap) (key : Bytes) : Option Bytes :=
  (pkgmap.get key 256).map fun hvalue => (str ".rebuild." ++ hvalue).take 255

def main (tree : List Dir) (configold config : Bytes) : List Bytes :=
  match readTree tree with
  | none => []
  | some s =>
    ((configKeys configold).filter fun key => key ∉ configKeys config).filterMap
        (rebuildFile s.pkgmap) ++
      ((configKeys config).filter fun key => key ∉ configKeys configold).filterMap
        (rebuildFile s.pkgmap)

/-! ### What lines declare -/

def Block.reads (b : Block) (a : Assignment) : Bool :=
  match b with
  | .name => a.name = str "PKG_NAME" ∧ a.appends = false
  | .set => a.name = str "PKG_SUBPKGS" ∧ a.appends = false
  | .add => a.name = str "PKG_SUBPKGS" ∧ a.appends = true
  | .flavours => str "PKG_FLAVOURS_" <+: a.name
  | .choices => str "PKG_CHOICES_" <+: a.name

/-- The symbols that a line declares for `pkgrebuild`, if the name of the package is known where it
is needed. -/
def declared (pkgName : Option Bytes) (line : Bytes) : Option (List Bytes) :=
  match assignment line with
  | none => some []
  | some a =>
    match blocks.find? (·.reads a) with
    | none => some []
    | some b => b.symbols pkgName a.name (cut a.value)

def nameStep (old : Option Bytes) (line : Bytes) : Option Bytes :=
  match assignment line with
  | none => old
  | some a => if Block.name.reads a then (cut a.value).or old else old

/-- The symbols of all lines with the directories they stand for, in their order. -/
def owners : Option Bytes → List (Bytes × Bytes) → Option (List (Bytes × Bytes))
  | _, [] => some []
  | pkgName, (dname, line) :: rest =>
    (declared pkgName line).bind fun symbols =>
      (owners (nameStep pkgName line) rest).map fun pairs => symbols.map (·, dname) ++ pairs

/-- A line of these variables is written without blanks around the name and without another `=`,
and the names of these variables are not elsewhere in lines for variables. -/
structure Legible (line : Bytes) : Prop where
  written : ∀ a ∈ assignment line, ∀ b ∈ blocks, b.reads a →
    line = a.name ++ (str (if a.appends then "+=" else ":=") ++ a.value) ∧ chr '=' ∉ a.value
  alone : str "PKG" <+: line ++ [newline] → ∀ b ∈ blocks,
    (strstr b.text (line ++ [newline])).isSome → ∃ a ∈ assignment line, b.reads a

instance (line : Bytes) : Decidable (Legible line) :=
  decidable_of_iff
    ((∀ a ∈ assignment line, ∀ b ∈ blocks, b.reads a →
      line = a.name ++ (str (if a.appends then "+=" else ":=") ++ a.value) ∧ chr '=' ∉ a.value) ∧
      (str "PKG" <+: line ++ [newline] → ∀ b ∈ blocks,
        (strstr b.text (line ++ [newline])).isSome → ∃ a ∈ assignment line, b.reads a))
    ⟨fun ⟨h1, h2⟩ => ⟨h1, h2⟩, fun h => ⟨h.written, h.alone⟩⟩

section
variable {line string d : Bytes} {a : Assignment} {b b' : Block} {l : Line} {dname : Bytes}
variable {s : State}

theorem mem_blocks (b : Block) : b ∈ blocks := by cases b <;> decide

theorem Block.run_of_none (h : strstr b.text l.buf = none) : b.run dname l = some l := by
  rw [Block.run, h]

theorem Block.run_of_found (h : strstr b.text l.buf = some string) :
    b.run dname l =
      (b.symbols l.state.pkgName (split (b.delims l.buf) string).1
        (split (b.delims l.buf) string).2).map fun symbols =>
        { buf := l.buf.take (l.buf.length - string.length) ++ (split (b.delims l.buf) string).1
          state :=
            { pkgName := b.pkgName l.state.pkgName (split (b.delims l.buf) string).2
              pkgmap := putAll l.state.pkgmap (symbols.map (·, dname)) } } := by
  rw [Block.run, h]

theorem foldlM_run_of_none {bs : List Block} (h : ∀ b ∈ bs, strstr b.text l.buf = none) :
    bs.foldlM (fun (l : Line) (b : Block) => b.run dname l) l = some l := by
  induction bs with
  | nil => rfl
  | cons b bs ih =>
    obtain ⟨hb, hbs⟩ := List.forall_mem_cons.mp h
    rw [List.foldlM_cons, Block.run_of_none hb]
    exact ih hbs

/-- Only one block finds its text. -/
theorem foldlM_blocks (b : Block) (h : ∀ b' ≠ b, strstr b'.text l.buf = none)
    (hafter : ∀ l' ∈ b.run dname l, ∀ b' ≠ b, strstr b'.text l'.buf = none) :
    blocks.foldlM (fun (l : Line) (b : Block) => b.run dname l) l = b.run dname l := by
  obtain ⟨front, back, hsplit, hfront, hback⟩ :=
    exists_split_of_nodup (mem_blocks b) (by decide : blocks.Nodup)
  rw [hsplit, List.foldlM_append, foldlM_run_of_none fun b' hb' => h b' (hfront b' hb'),
    Option.bind_eq_bind, Option.bind_some, List.foldlM_cons]
  cases hrun : b.run dname l with
  | none => rfl
  | some l' => exact foldlM_run_of_none fun b' hb' => hafter l' hrun b' (hback b' hb')

/-! ### Reading a legible line -/

theorem Block.text_of_reads (h : b.reads a) (rest : Bytes) :
    b.text <+: a.name ++ (str (if a.appends then "+=" else ":=") ++ rest) := by
  cases b with
  | name =>
    obtain ⟨hname, happends⟩ := of_decide_eq_true h
    rw [hname, happends]
    exact ⟨rest, rfl⟩
  | set =>
    obtain ⟨hname, happends⟩ := of_decide_eq_true h
    rw [hname, happends]
    exact ⟨rest, rfl⟩
  | add =>
    obtain ⟨hname, happends⟩ := of_decide_eq_true h
    rw [hname, happends]
    exact ⟨rest, rfl⟩
  | flavours => exact (of_decide_eq_true h).trans (List.prefix_append _ _)
  | choices => exact (of_decide_eq_true h).trans (List.prefix_append _ _)

/-- An assignment is meant for one block only. -/
theorem eq_of_reads (h : b.reads a) (h' : b'.reads a) : b' = b := by
  have hall : ∀ b ∈ blocks, ∀ b' ∈ blocks, b.text <+: b'.text → b' = b := by decide
  obtain hpre | hpre := List.prefix_or_prefix_of_prefix (Block.text_of_reads h [])
    (Block.text_of_reads h' [])
  · exact hall b (mem_blocks b) b' (mem_blocks b') hpre
  · exact (hall b' (mem_blocks b') b (mem_blocks b) hpre).symm

theorem cut_cons_eq (value : Bytes) : cut (chr '=' :: value) = cut value := by
  rw [cut, cut, strtok, strtok, List.dropWhile_cons_of_pos (by decide)]

/-- What a block makes of a line that is meant for it. The key matters for flavours only. -/
theorem split_of_reads (ha : assignment line = some a)
    (hwritten : line = a.name ++ (str (if a.appends then "+=" else ":=") ++ a.value))
    (hplain : chr '=' ∉ a.value) (hb : b.reads a) :
    ∃ key, split (b.delims (line ++ [newline])) (line ++ [newline]) = (key, cut a.value) ∧
      key <+: line ∧ (b = .flavours → key = a.name) := by
  obtain ⟨hne, hchars⟩ := name_of_assignment ha
  have hset := isSome_strstr_set ha hwritten hplain
  have hkey {d : Bytes} (hd : d ⊆ str ":+=") {c : UInt8} (hc : c ∈ d) (rest : Bytes) :
      strtok d (a.name ++ c :: rest) = some (a.name, rest) :=
    (strtok_of_not_mem hne (fun x hx hin => hchars x hx (hd hin)) hc rest).1
  have hpre : a.name <+: line := hwritten ▸ List.prefix_append _ _
  have hsplit {d : Bytes} (hd : d ⊆ str ":+=") {c : UInt8} (hc : c ∈ d)
      (hline : line = a.name ++ c :: chr '=' :: a.value) :
      split d (line ++ [newline]) = (a.name, cut a.value) := by
    rw [split, List.dropLast_concat, hline, hkey hd hc]
    exact congrArg (Prod.mk a.name) (cut_cons_eq _)
  cases happends : a.appends with
  | false =>
    rw [happends] at hset hwritten
    have hdelims : b.delims (line ++ [newline]) = str ":=" := by
      cases b with
      | add => exact absurd (of_decide_eq_true hb).2 (by rw [happends]; decide)
      | flavours => exact if_pos hset
      | _ => rfl
    rw [hdelims]
    exact ⟨_, hsplit (by decide) (List.mem_cons_self (a := chr ':')) hwritten, hpre, fun _ => rfl⟩
  | true =>
    rw [happends] at hset hwritten
    have hadd : b.delims (line ++ [newline]) = str "+=" →
        ∃ key, split (b.delims (line ++ [newline])) (line ++ [newline]) = (key, cut a.value) ∧
          key <+: line ∧ (b = .flavours → key = a.name) := by
      intro hdelims
      rw [hdelims]
      exact ⟨_, hsplit (by decide) (List.mem_cons_self (a := chr '+')) hwritten, hpre,
        fun _ => rfl⟩
    cases b with
    | name => exact absurd (of_decide_eq_true hb).2 (by rw [happends]; decide)
    | set => exact absurd (of_decide_eq_true hb).2 (by rw [happends]; decide)
    | add => exact hadd rfl
    | flavours => exact hadd (if_neg (by rw [hset]; decide))
    | choices =>
      -- the plus sign is taken for a part of the key
      have hplus : ∀ c ∈ a.name ++ [chr '+'], c ∉ str ":=" := by
        intro c hc
        rcases List.mem_append.mp hc with hc | hc
        · exact fun hin => hchars c hc ((by decide : str ":=" ⊆ str ":+=") hin)
        · rw [List.mem_singleton.mp hc]
          decide
      have hline : line = (a.name ++ [chr '+']) ++ chr '=' :: a.value := by
        rw [List.append_assoc]
        exact hwritten
      refine ⟨a.name ++ [chr '+'], ?_, ⟨_, hline.symm⟩, nofun⟩
      change split (str ":=") (line ++ [newline]) = _
      rw [split, List.dropLast_concat, hline,
        (strtok_of_not_mem (List.append_ne_nil_of_left_ne_nil hne _) hplus (by decide) _).1]

theorem find_of_reads (h : b.reads a) : blocks.find? (·.reads a) = some b := by
  cases hfind : blocks.find? (·.reads a) with
  | none => exact absurd h (List.find?_eq_none.mp hfind b (mem_blocks b))
  | some b' =>
    have hb' : b'.reads a := by simpa using List.find?_some hfind
    rw [eq_of_reads h hb']

theorem Block.symbols_congr {pkgName value : Option Bytes} {key key' : Bytes}
    (h : b = .flavours → key = key') :
    b.symbols pkgName key value = b.symbols pkgName key' value := by
  by_cases hb : b = .flavours
  · rw [h hb]
  · have hfront : b.front pkgName key = b.front pkgName key' := by
      cases b with
      | flavours => exact absurd rfl hb
      | _ => rfl
    unfold Block.symbols
    rw [hfront]

theorem Block.pkgName_of_reads {old : Option Bytes} (ha : assignment line = some a)
    (hb : b.reads a) : b.pkgName old (cut a.value) = nameStep old line := by
  have hname : b = .name ↔ Block.name.reads a :=
    ⟨fun h => h ▸ hb, fun h => eq_of_reads h hb⟩
  rw [nameStep, ha, Block.pkgName]
  simp only [hname]

/-- The block that is meant for a line finds its text at the beginning, and no other block finds
its text. -/
theorem Legible.found (h : Legible line) (ha : assignment line = some a) (hb : b.reads a) :
    str "PKG" <+: line ++ [newline] ∧ b.text <+: line ++ [newline] ∧
      ∀ b' ≠ b, strstr b'.text (line ++ [newline]) = none := by
  obtain ⟨hwritten, -⟩ := h.written a ha b (mem_blocks b) hb
  have hpre : b.text <+: line ++ [newline] :=
    (hwritten ▸ Block.text_of_reads hb a.value : b.text <+: line).trans (List.prefix_append _ _)
  have hpkg : str "PKG" <+: line ++ [newline] :=
    ((by decide : ∀ b ∈ blocks, str "PKG" <+: b.text) b (mem_blocks b)).trans hpre
  refine ⟨hpkg, hpre, fun b' hne => ?_⟩
  by_contra hfound
  obtain ⟨a', ha', hb'⟩ := h.alone hpkg b' (mem_blocks b') (Option.isSome_iff_ne_none.mpr hfound)
  obtain rfl := Option.some.inj (ha.symm.trans ha')
  exact hne (eq_of_reads hb hb')

theorem Legible.readLine_of_reads (h : Legible line) (dname : Bytes) (s : State)
    (ha : assignment line = some a) (hb : b.reads a) :
    readLine dname s (line ++ [newline]) = (declared s.pkgName line).map fun symbols =>
      ⟨nameStep s.pkgName line, putAll s.pkgmap (symbols.map (·, dname))⟩ := by
  obtain ⟨hwritten, hplain⟩ := h.written a ha b (mem_blocks b) hb
  obtain ⟨hpkg, hpre, hothers⟩ := h.found ha hb
  obtain ⟨key, hsplit, hkey, hflavours⟩ := split_of_reads ha hwritten hplain hb
  have hfound : strstr b.text (line ++ [newline]) = some (line ++ [newline]) :=
    strstr_of_prefix hpre
  have hrun : b.run dname ⟨line ++ [newline], s⟩ = _ := Block.run_of_found hfound
  rw [hsplit, Nat.sub_self, List.take_zero, List.nil_append] at hrun
  -- only the key is left for the blocks after it
  have hafter : ∀ l' ∈ b.run dname ⟨line ++ [newline], s⟩, ∀ b' ≠ b,
      strstr b'.text l'.buf = none := by
    intro l' hl' b' hne
    rw [hrun] at hl'
    obtain ⟨symbols, -, rfl⟩ := Option.map_eq_some_iff.mp hl'
    exact strstr_of_prefix_none (hkey.trans (List.prefix_append _ _)) (hothers b' hne)
  rw [readLine, if_pos hpkg, foldlM_blocks b hothers hafter, hrun, declared, ha]
  dsimp only
  rw [find_of_reads hb, Block.symbols_congr hflavours, Block.pkgName_of_reads ha hb,
    Option.map_map]
  rfl

theorem Legible.readLine_of_not_reads (h : Legible line) (dname : Bytes) (s : State)
    (hnone : ∀ a ∈ assignment line, ∀ b : Block, ¬b.reads a) :
    readLine dname s (line ++ [newline]) = some s ∧ declared s.pkgName line = some [] ∧
      nameStep s.pkgName line = s.pkgName := by
  refine ⟨?_, ?_, ?_⟩
  · rw [readLine]
    split
    · next hpkg =>
      rw [foldlM_run_of_none fun b hb => ?_]
      · rfl
      · by_contra hfound
        obtain ⟨a, ha, hreads⟩ := h.alone hpkg b hb (Option.isSome_iff_ne_none.mpr hfound)
        exact hnone a ha b hreads
    · rfl
  · rw [declared]
    split
    · rfl
    · next a ha => rw [List.find?_eq_none.mpr fun b _ => hnone a ha b]
  · rw [nameStep]
    split
    · rfl
    · next a ha => exact if_neg (hnone a ha _)

/-- A legible line is read as it is written. -/
theorem Legible.readLine_eq (h : Legible line) (dname : Bytes) (s : State) :
    readLine dname s (line ++ [newline]) = (declared s.pkgName line).map fun symbols =>
      ⟨nameStep s.pkgName line, putAll s.pkgmap (symbols.map (·, dname))⟩ := by
  by_cases hany : ∃ a ∈ assignment line, ∃ b : Block, b.reads a
  · obtain ⟨a, ha, b, hb⟩ := hany
    exact h.readLine_of_reads dname s ha hb
  · obtain ⟨hline, hdeclared, hname⟩ := h.readLine_of_not_reads dname s
      fun a ha b hb => hany ⟨a, ha, b, hb⟩
    rw [hline, hdeclared, hname]
    rfl

/-! ### Who owns a symbol -/

theorem lookup_putAll (map : StrMap) (pairs : List (Bytes × Bytes)) (key : Bytes) :
    (putAll map pairs).lookup key = (pairs.reverse.lookup key).or (map.lookup key) := by
  induction pairs generalizing map with
  | nil => rfl
  | cons pair pairs ih =>
    rw [putAll, List.foldl_cons, ← putAll, ih, StrMap.lookup_put, List.reverse_cons,
      List.lookup_append, Option.or_assoc]
    congr 1
    by_cases hkey : key = pair.1
    · rw [if_pos hkey, hkey, List.lookup_cons_self]
      rfl
    · rw [if_neg hkey, List.lookup_cons, (beq_eq_false_iff_ne.mpr hkey : (key == pair.1) = false)]
      rfl

theorem putAll_append (map : StrMap) (pairs pairs' : List (Bytes × Bytes)) :
    putAll map (pairs ++ pairs') = putAll (putAll map pairs) pairs' := List.foldl_append

/-- The map after legible lines. -/
theorem foldlM_readLine {ls : List (Bytes × Bytes)} (h : ∀ l ∈ ls, Legible l.2) (s : State) :
    ((ls.map fun l => (l.1, l.2 ++ [newline])).foldlM
      (fun (s : State) piece => readLine piece.1 s piece.2) s).map State.pkgmap =
      (owners s.pkgName ls).map (putAll s.pkgmap) := by
  induction ls generalizing s with
  | nil => rfl
  | cons l ls ih =>
    obtain ⟨hl, hls⟩ := List.forall_mem_cons.mp h
    rw [List.map_cons, List.foldlM_cons, hl.readLine_eq, owners]
    cases declared s.pkgName l.2 with
    | none => rfl
    | some symbols =>
      rw [Option.map_some, Option.bind_eq_bind, Option.bind_some, ih hls, Option.bind_some,
        Option.map_map]
      exact congrArg (fun f => Option.map f _) (funext fun pairs => (putAll_append _ _ _).symm)

theorem snd_of_mem_owners {ls pairs : List (Bytes × Bytes)} {pkgName : Option Bytes}
    {pair : Bytes × Bytes} (h : owners pkgName ls = some pairs) (hmem : pair ∈ pairs) :
    ∃ l ∈ ls, pair.2 = l.1 := by
  induction ls generalizing pkgName pairs with
  | nil =>
    obtain rfl := Option.some.inj h
    cases hmem
  | cons l ls ih =>
    rw [owners] at h
    obtain ⟨symbols, -, h⟩ := Option.bind_eq_some_iff.mp h
    obtain ⟨rest, hrest, rfl⟩ := Option.map_eq_some_iff.mp h
    rcases List.mem_append.mp hmem with hmem | hmem
    · obtain ⟨symbol, -, rfl⟩ := List.mem_map.mp hmem
      exact ⟨l, List.mem_cons_self, rfl⟩
    · obtain ⟨l', hl', heq⟩ := ih hrest hmem
      exact ⟨l', List.mem_cons_of_mem _ hl', heq⟩

end

/-! ### The configurations -/

/-- `key=value` is a line of the configuration. -/
def HasKey (config key : Bytes) : Prop :=
  ∃ line ∈ config.splitOn newline, str "ADK_PACKAGE" <+: line ∧
    ∃ value, line = key ++ chr '=' :: value ∧ chr '=' ∉ key

/-- The lines for packages are short enough for the buffer. -/
def ReadableConfig (config : Bytes) : Prop :=
  (readLines newline 126 config).filter (fun buf => str "ADK_PACKAGE" <+: buf) =
    ((config.splitOn newline).filter fun line => str "ADK_PACKAGE" <+: line).map (· ++ [newline])

def OnlyInOne (configold config key : Bytes) : Prop :=
  HasKey configold key ∧ ¬HasKey config key ∨ HasKey config key ∧ ¬HasKey configold key

section
variable {line config configold key d : Bytes} {tree : List Dir}

theorem configKey_eq_some_iff (hline : str "ADK_PACKAGE" <+: line) :
    configKey (line ++ [newline]) = some key ↔
      ∃ value, line = key ++ chr '=' :: value ∧ chr '=' ∉ key := by
  rw [configKey, if_pos (hline.trans (List.prefix_append _ _))]
  have hmem {c : UInt8} : c ∈ str "=" ↔ c = chr '=' := List.mem_singleton
  have hne {name rest : Bytes} (h : line = name ++ chr '=' :: rest) : name ≠ [] := by
    rintro rfl
    rw [h, List.nil_append] at hline
    exact absurd (List.cons_prefix_cons.mp hline).1 (by decide)
  have htoken {name rest : Bytes} (h : line = name ++ chr '=' :: rest) (hname : chr '=' ∉ name) :
      (strtok (str "=") (line ++ [newline])).bind (fun (key, rest) =>
        (strtok (str "=") rest).map fun _ => key) = some name := by
    have hchars : ∀ c ∈ name, c ∉ str "=" := fun c hc hin => hname (hmem.mp hin ▸ hc)
    have hvalue : strtok (str "=") (rest ++ [newline]) ≠ none := by
      intro hnone
      unfold strtok at hnone
      split at hnone
      · next hnil =>
        have hall := List.dropWhile_eq_nil_iff.mp hnil newline
          (List.mem_append_right _ (List.mem_singleton_self _))
        exact absurd hall (by decide)
      · cases hnone
    obtain ⟨t, ht⟩ := Option.ne_none_iff_exists'.mp hvalue
    rw [h, List.append_assoc, List.cons_append,
      (strtok_of_not_mem (hne h) hchars (hmem.mpr rfl) _).1, Option.bind_some]
    change (strtok (str "=") (rest ++ [newline])).map (fun _ => name) = some name
    rw [ht]
    rfl
  constructor
  · intro h
    by_cases hin : chr '=' ∈ line
    · obtain ⟨name, rest, hsplit, hname⟩ := List.eq_append_cons_of_mem hin
      obtain rfl := Option.some.inj ((htoken hsplit hname).symm.trans h)
      exact ⟨rest, hsplit, hname⟩
    · have hchars : ∀ c ∈ line ++ [newline], c ∉ str "=" := by
        intro c hc heq
        obtain rfl := hmem.mp heq
        rcases List.mem_append.mp hc with hc | hc
        · exact hin hc
        · exact absurd (List.mem_singleton.mp hc) (by decide)
      have hwhole := (strtok_of_not_mem (by simp) hchars (hmem.mpr rfl) []).2
      rw [hwhole, Option.bind_some] at h
      cases h
  · rintro ⟨value, h, hkey⟩
    exact htoken h hkey

/-- The keys that are put are the keys of the lines. -/
theorem mem_configKeys (h : ReadableConfig config) :
    key ∈ configKeys config ↔ HasKey config key := by
  have hfilter : configKeys config =
      ((readLines newline 126 config).filter fun buf => str "ADK_PACKAGE" <+: buf).filterMap
        configKey := by
    rw [configKeys, List.filterMap_filter]
    apply List.filterMap_congr
    intro buf _
    by_cases hbuf : str "ADK_PACKAGE" <+: buf
    · rw [if_pos (decide_eq_true hbuf)]
    · rw [if_neg (by simpa using hbuf), configKey, if_neg hbuf]
  rw [hfilter, h, List.filterMap_map, List.mem_filterMap]
  constructor
  · rintro ⟨line, hline, hkey⟩
    obtain ⟨hmem, hpre⟩ := List.mem_filter.mp hline
    have hpkg := of_decide_eq_true hpre
    exact ⟨line, hmem, hpkg, (configKey_eq_some_iff hpkg).mp hkey⟩
  · rintro ⟨line, hmem, hpkg, hkey⟩
    exact ⟨line, List.mem_filter.mpr ⟨hmem, decide_eq_true hpkg⟩,
      (configKey_eq_some_iff hpkg).mpr hkey⟩

end

/-! ### No option is missed -/

def lines (tree : List Dir) : List (Bytes × Bytes) :=
  tree.flatMap fun dir => (dir.makefile.splitOn newline).dropLast.map (dir.name, ·)

/-- All files are read as they are written. -/
structure Readable (tree : List Dir) (configold config : Bytes) : Prop where
  whole : pieces tree = (lines tree).map fun l => (l.1, l.2 ++ [newline])
  legible : ∀ l ∈ lines tree, Legible l.2
  room : ∀ dir ∈ tree, dir.name.length ≤ 246
  configold : ReadableConfig configold
  config : ReadableConfig config

/-- A package is marked when one of its options is in only one of the two configurations. -/
def MissesNothing (packages : List Package) (tree : List Dir) (configold config : Bytes) : Prop :=
  ∀ p ∈ packages, ∀ k F, Defines p k F → OnlyInOne configold config (definedSymbol p k F) →
    str ".rebuild." ++ p.dir.name ∈ main tree configold config

/-- A key that is in only one of the configurations stands for a directory: no line after the last
line of this directory that declares it declares it for another one. -/
def Owns (tree : List Dir) (configold config dname : Bytes) : Prop :=
  ∃ pairs, owners none (lines tree) = some pairs ∧
    ∃ key, OnlyInOne configold config key ∧ pairs.reverse.lookup key = some dname

section
variable {config configold dname : Bytes} {tree : List Dir}

theorem Readable.room_of_owners {pairs : List (Bytes × Bytes)} {pair : Bytes × Bytes}
    (h : Readable tree configold config) (hpairs : owners none (lines tree) = some pairs)
    (hmem : pair ∈ pairs) : pair.2.length ≤ 246 := by
  obtain ⟨l, hl, heq⟩ := snd_of_mem_owners hpairs hmem
  obtain ⟨dir, hdir, hl⟩ := List.mem_flatMap.mp hl
  obtain ⟨line, -, rfl⟩ := List.mem_map.mp hl
  rw [heq]
  exact h.room dir hdir

/-- The name of a file is not cut off. -/
theorem rebuildFile_eq_iff {pkgmap : StrMap} {key : Bytes}
    (hroom : ∀ name, pkgmap.lookup key = some name → name.length ≤ 246)
    (hdname : dname.length ≤ 246) :
    rebuildFile pkgmap key = some (str ".rebuild." ++ dname) ↔
      pkgmap.lookup key = some dname := by
  have hshort {name : Bytes} (hname : name.length ≤ 246) :
      (str ".rebuild." ++ name).take 255 = str ".rebuild." ++ name := by
    apply List.take_of_length_le
    rw [List.length_append]
    change 9 + name.length ≤ 255
    omega
  rw [rebuildFile, StrMap.get]
  constructor
  · intro hfile
    obtain ⟨name, hname, heq⟩ := Option.map_eq_some_iff.mp hfile
    have hlooked := (Option.filter_eq_some_iff.mp hname).1
    rw [hshort (hroom name hlooked)] at heq
    rwa [← List.append_cancel_left heq]
  · intro hlooked
    refine Option.map_eq_some_iff.mpr
      ⟨_, Option.filter_eq_some_iff.mpr ⟨hlooked, decide_eq_true ?_⟩, hshort hdname⟩
    omega

/-- The files that are created. -/
theorem mem_main_iff (h : Readable tree configold config) (hdir : ∃ dir ∈ tree, dir.name = dname) :
    str ".rebuild." ++ dname ∈ main tree configold config ↔
      Owns tree configold config dname := by
  have hmap := foldlM_readLine h.legible ⟨none, []⟩
  rw [← h.whole, ← readTree] at hmap
  obtain ⟨dir, hmem, rfl⟩ := hdir
  cases hread : readTree tree with
  | none =>
    rw [hread] at hmap
    have hnone : owners none (lines tree) = none := Option.map_eq_none_iff.mp hmap.symm
    rw [main, hread, Owns, hnone]
    constructor
    · nofun
    · rintro ⟨pairs, hpairs, -⟩
      cases hpairs
  | some s =>
    rw [hread, Option.map_some] at hmap
    obtain ⟨pairs, hpairs, hpkgmap⟩ := Option.map_eq_some_iff.mp hmap.symm
    have hlookup (key : Bytes) : s.pkgmap.lookup key = pairs.reverse.lookup key := by
      rw [← hpkgmap, lookup_putAll]
      exact Option.or_none
    have hfile (key : Bytes) : rebuildFile s.pkgmap key = some (str ".rebuild." ++ dir.name) ↔
        pairs.reverse.lookup key = some dir.name := by
      refine (rebuildFile_eq_iff (fun name hname => ?_) (h.room dir hmem)).trans (by rw [hlookup])
      rw [hlookup] at hname
      obtain ⟨before, after, hsplit, -⟩ := List.lookup_eq_some_iff.mp hname
      have hin : (key, name) ∈ pairs := List.mem_reverse.mp (by rw [hsplit]; simp)
      exact h.room_of_owners hpairs hin
    rw [main, hread]
    simp only [List.mem_append, List.mem_filterMap, List.mem_filter, decide_eq_true_eq,
      mem_configKeys h.configold, mem_configKeys h.config, hfile]
    constructor
    · rintro (⟨key, hkey, hown⟩ | ⟨key, hkey, hown⟩)
      · exact ⟨pairs, hpairs, key, .inl hkey, hown⟩
      · exact ⟨pairs, hpairs, key, .inr hkey, hown⟩
    · rintro ⟨pairs', hpairs', key, hkey, hown⟩
      obtain rfl := Option.some.inj (hpairs.symm.trans hpairs')
      exact hkey.imp (fun hkey => ⟨key, hkey, hown⟩) fun hkey => ⟨key, hkey, hown⟩

end

namespace Samples

def flavourDir : Dir :=
  ⟨str "a", str "PKG_NAME:=a\nPKG_SUBPKGS:=A\nPKG_FLAVOURS_A:=F\n", false⟩

def stringDir : Dir :=
  ⟨str "a", str "PKG_NAME:=a\nPKG_SUBPKGS:=A\nPKG_FLAVOURS_STRING_A:=F\n", false⟩

def package (dir : Dir) : Package := ⟨dir, fun _ => none, false⟩

def configold : Bytes := str "ADK_PACKAGE_A=y\nADK_PACKAGE_A_F=y\n"
def config : Bytes := str "ADK_PACKAGE_A=y\n"

theorem readable_flavourDir : Readable [flavourDir] configold config where
  whole := by decide +kernel
  legible := by decide +kernel
  room := by decide +kernel
  configold := by
    unfold ReadableConfig
    decide +kernel
  config := by
    unfold ReadableConfig
    decide +kernel

end Samples

end OpenADK.Pkgrebuild
