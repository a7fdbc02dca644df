import OpenADK.Kconfig.ReadConfig

/-!
# Values in the line buffer

`conf_set_sym_val` on the characters of a line, from the value to the terminating NUL. Reading a
cell that is not there gives nothing. A string is unescaped in place: each backslash is overwritten
with what follows it, NUL included, and the scan goes on behind the character that was escaped.
-/

namespace OpenADK.Kconfig
namespace LineBuffer

def nul : Char := '\x00'

/-- `strpbrk (p2, "\"\\")`: the distance to the first quote or backslash. -/
def strpbrk : List Char → Option (Option ℕ)
  | [] => none
  | c :: cs =>
    if c = nul then some none
    else if c = '"' ∨ c = '\\' then some (some 0)
    else (strpbrk cs).map (Option.map (· + 1))

def strlen : List Char → Option ℕ
  | [] => none
  | c :: cs => if c = nul then some 0 else (strlen cs).map (· + 1)

/-- The string at a pointer, as `strdup` copies it and `%s` prints it. -/
def strdup : List Char → Option Text
  | [] => none
  | c :: cs => if c = nul then some [] else (strdup cs).map (c :: ·)

def memmove (buf : List Char) (dst src n : ℕ) : Option (List Char) :=
  if dst + n ≤ buf.length ∧ src + n ≤ buf.length then
    some (buf.take dst ++ (buf.drop src).take n ++ buf.drop (dst + n))
  else none

/-- The loop over `p2`: the buffer with the closing quote overwritten, or nothing when there is no
closing quote. -/
def unescapeLoop : ℕ → List Char → ℕ → Option (Option (List Char))
  | 0, _, _ => none
  | fuel + 1, buf, p2 =>
    match strpbrk (buf.drop p2) with
    | none => none
    | some none => some none
    | some (some i) =>
      if buf[p2 + i]? = some '"' then some (some (buf.set (p2 + i) nul))
      else
        match (strlen (buf.drop (p2 + i))).bind (memmove buf (p2 + i) (p2 + i + 1)) with
        | none => none
        | some buf => unescapeLoop fuel buf (p2 + i + 1)

/-! ### `sym_string_valid` -/

/-- `while ((ch = *str++))` with a test of each character. -/
def allChars (p : Char → Bool) : List Char → Option Bool
  | [] => none
  | ch :: str => if ch = nul then some true else if p ch then allChars p str else some false

/-- The `S_INT` case after the sign. -/
def intDigitsValid : List Char → Option Bool
  | [] => none
  | ch :: str =>
    if !isDigit ch then some false
    else if ch = '0' then str.head?.bind fun next => if next ≠ nul then some false else allChars isDigit str
    else allChars isDigit str

def intValid : List Char → Option Bool
  | [] => none
  | ch :: str => if ch = '-' then intDigitsValid str else intDigitsValid (ch :: str)

/-- The loop of the `S_HEX` case, which tests the first character also when it is the NUL. -/
def hexDigitsValid : List Char → Option Bool
  | [] => none
  | ch :: str => if isXDigit ch then allChars isXDigit str else some false

def hexValid : List Char → Option Bool
  | [] => none
  | ch :: str =>
    if ch = '0' then
      str.head?.bind fun next =>
        if next = 'x' ∨ next = 'X' then hexDigitsValid str.tail else hexDigitsValid (ch :: str)
    else hexDigitsValid (ch :: str)

def symStringValid (type : SymType) (str : List Char) : Option Bool :=
  match type with
  | .string => some true
  | .int => intValid str
  | .hex => hexValid str
  | .boolean | .tristate => str.head?.map fun ch => (tristateOfText [ch]).isSome
  | _ => some false

/-! ### `conf_set_sym_val` -/

/-- What `conf_set_sym_val` does with the symbol. -/
inductive Setting
  | tri (t : Tristate)
  | val (t : Text)
  | keep
  | invalid
  deriving DecidableEq

def invalidValue (p : List Char) : Option Setting := (strdup p).map fun _ => .invalid

/-- The code from `S_INT` on. -/
def checkValue (type : SymType) (p : List Char) : Option Setting :=
  (symStringValid type p).bind fun valid => if valid then (strdup p).map .val else invalidValue p

/-- The code from `S_STRING` on. -/
def stringValue (type : SymType) (p : List Char) : Option Setting :=
  p.head?.bind fun ch =>
    if ch ≠ '"' then some .keep
    else
      (unescapeLoop p.length p 1).bind fun buf =>
        match buf with
        | none => some .invalid
        | some buf => checkValue type (buf.drop 1)

/-- The code from `S_BOOLEAN` on. -/
def booleanValue (p : List Char) : Option Setting :=
  p.head?.bind fun ch =>
    if ch = 'y' then some (.tri .yes) else if ch = 'n' then some (.tri .no) else invalidValue p

/-- The scan for a space in a value whose symbol is in no file. -/
def skipNonSpace : List Char → Option Unit
  | [] => none
  | ch :: p2 => if ch = nul then some () else if isSpace ch then some () else skipNonSpace p2

/-- `conf_set_sym_val` on a buffer that begins with the value. -/
def confSetSymVal (type : SymType) (p : List Char) : Option Setting :=
  match type with
  | .tristate => p.head?.bind fun ch => if ch = 'm' then some (.tri .mod) else booleanValue p
  | .boolean => booleanValue p
  | .other =>
    p.head?.bind fun ch =>
      if ch ≠ '"' then (skipNonSpace p).bind fun _ => checkValue .string p else stringValue .other p
  | .string => stringValue .string p
  | .int | .hex => checkValue type p
  | .unknown => some .keep

/-! ### Reading up to the NUL -/

section
variable {cs pre rest : Text} {c : Char} {k fuel : ℕ}

theorem strpbrk_skip (hc : c ≠ nul) (hq : c ≠ '"') (hb : c ≠ '\\') (cs : List Char) :
    strpbrk (c :: cs) = (strpbrk cs).map (Option.map (· + 1)) := by
  rw [strpbrk, if_neg hc, if_neg (not_or.mpr ⟨hq, hb⟩)]

theorem strlen_append (h : nul ∉ cs) (rest : List Char) :
    strlen (cs ++ nul :: rest) = some cs.length := by
  induction cs with
  | nil => exact if_pos rfl
  | cons c cs ih =>
    rw [List.mem_cons, not_or] at h
    rw [List.cons_append, strlen, if_neg (Ne.symm h.1), ih h.2]
    rfl

theorem strdup_append (h : nul ∉ cs) (rest : List Char) :
    strdup (cs ++ nul :: rest) = some cs := by
  induction cs with
  | nil => exact if_pos rfl
  | cons c cs ih =>
    rw [List.mem_cons, not_or] at h
    rw [List.cons_append, strdup, if_neg (Ne.symm h.1), ih h.2]
    rfl

/-- Taking the backslash away moves the rest of the string, with its NUL. -/
theorem memmove_backslash (pre rest : List Char) (c : Char) (k : ℕ) :
    memmove (pre ++ c :: (rest ++ List.replicate (k + 1) nul)) pre.length (pre.length + 1)
        (rest.length + 1) =
      some (pre ++ (rest ++ List.replicate (k + 2) nul)) := by
  have hlen : (pre ++ c :: (rest ++ List.replicate (k + 1) nul)).length =
      pre.length + (rest.length + (k + 1) + 1) := by
    rw [List.length_append, List.length_cons, List.length_append, List.length_replicate]
  have hsrc : (pre ++ c :: (rest ++ List.replicate (k + 1) nul)).drop (pre.length + 1) =
      rest ++ List.replicate (k + 1) nul := by
    rw [← List.drop_drop, List.drop_left, List.drop_succ_cons, List.drop_zero]
  have hmoved : (rest ++ List.replicate (k + 1) nul).take (rest.length + 1) = rest ++ [nul] := by
    rw [List.take_append, List.take_of_length_le (Nat.le_succ _), Nat.add_sub_cancel_left,
      List.replicate_succ]
    rfl
  have hleft : (pre ++ c :: (rest ++ List.replicate (k + 1) nul)).drop
      (pre.length + (rest.length + 1)) = List.replicate (k + 1) nul := by
    rw [← List.drop_drop, List.drop_left, List.drop_succ_cons, List.drop_left]
  rw [memmove, if_pos (by rw [hlen]; omega), hsrc, hmoved, hleft, List.take_left,
    List.append_assoc, List.append_assoc, List.replicate_succ (n := k + 1)]
  rfl

theorem unescapeLoop_skip (fuel : ℕ) {buf cs : List Char} {p2 : ℕ} (h : buf.drop p2 = c :: cs) (hc : c ≠ nul)
    (hq : c ≠ '"') (hb : c ≠ '\\') :
    unescapeLoop (fuel + 1) buf p2 = unescapeLoop (fuel + 1) buf (p2 + 1) := by
  have hnext : buf.drop (p2 + 1) = cs := by rw [← List.drop_drop, h]; rfl
  unfold unescapeLoop
  rw [h, hnext, strpbrk_skip hc hq hb]
  cases strpbrk cs with
  | none => rfl
  | some found =>
    cases found with
    | none => rfl
    | some i =>
      simp only [Option.map_some]
      rw [show p2 + (i + 1) = p2 + 1 + i by omega]

/-- A backslash at the very end leaves `p2` on the second of two NULs. -/
theorem unescapeLoop_end (fuel : ℕ) (pre : List Char) (k : ℕ) (p2 : ℕ) (h : p2 = pre.length) :
    unescapeLoop (fuel + 1) (pre ++ List.replicate (k + 1) nul) p2 = some none := by
  subst h
  unfold unescapeLoop
  rw [List.drop_left, List.replicate_succ, strpbrk, if_pos rfl]

/-- One backslash is taken away, and `p2` passes what follows it. -/
theorem unescapeLoop_backslash (fuel : ℕ) (pre : List Char) (k : ℕ) (h : nul ∉ rest) :
    unescapeLoop (fuel + 1) (pre ++ '\\' :: (rest ++ List.replicate (k + 1) nul)) pre.length =
      unescapeLoop fuel (pre ++ (rest ++ List.replicate (k + 2) nul)) (pre.length + 1) := by
  have hchar : (pre ++ '\\' :: (rest ++ List.replicate (k + 1) nul))[pre.length + 0]? ≠ some '"' := by
    simp
  have hnot : nul ∉ '\\' :: rest := by
    rw [List.mem_cons, not_or]
    exact ⟨by decide, h⟩
  have hlen : strlen ('\\' :: (rest ++ List.replicate (k + 1) nul)) = some (rest.length + 1) :=
    strlen_append hnot (List.replicate k nul)
  rw [unescapeLoop, List.drop_left, strpbrk, if_neg (by decide), if_pos (.inr rfl)]
  simp only
  rw [if_neg hchar, Nat.add_zero, List.drop_left, hlen, Option.bind_some, memmove_backslash]

/-- The loop does what `unescape` does, on what is left of the line. The cells behind it are the
NUL and one more for each backslash so far. -/
theorem unescapeLoop_eq (hrest : nul ∉ rest) (hfuel : rest.length < fuel) :
    match unescape rest with
    | none => unescapeLoop fuel (pre ++ (rest ++ List.replicate (k + 1) nul)) pre.length = some none
    | some v => ∃ tail, unescapeLoop fuel (pre ++ (rest ++ List.replicate (k + 1) nul)) pre.length =
        some (some (pre ++ (v ++ nul :: tail))) := by
  induction rest using unescape.induct generalizing pre k fuel with
  | case1 =>
    obtain ⟨fuel, rfl⟩ := Nat.exists_eq_succ_of_ne_zero (Nat.ne_of_gt hfuel)
    rw [unescape, List.nil_append]
    exact unescapeLoop_end _ pre k _ rfl
  | case2 cs =>
    obtain ⟨fuel, rfl⟩ := Nat.exists_eq_succ_of_ne_zero (Nat.ne_of_gt (Nat.zero_lt_of_lt hfuel))
    rw [unescape]
    refine ⟨cs ++ List.replicate (k + 1) nul, ?_⟩
    have hfound : (pre ++ ('"' :: cs ++ List.replicate (k + 1) nul))[pre.length + 0]? = some '"' := by
      simp
    rw [unescapeLoop, List.drop_left, List.cons_append, strpbrk, if_neg (by decide),
      if_pos (.inl rfl)]
    simp only
    rw [← List.cons_append, if_pos hfound]
    simp
  | case3 =>
    obtain ⟨fuel, rfl⟩ := Nat.exists_eq_add_of_lt hfuel
    rw [unescape, List.length_singleton, Nat.add_comm 1 fuel]
    have hstep := unescapeLoop_backslash (fuel + 1) pre k (List.not_mem_nil (a := nul))
    have hsplit : pre ++ ([] ++ List.replicate (k + 2) nul) =
        pre ++ [nul] ++ List.replicate (k + 1) nul := by
      rw [List.nil_append, List.replicate_succ, List.append_assoc]
      rfl
    rw [hsplit] at hstep
    exact hstep.trans (unescapeLoop_end _ _ k _ (by simp))
  | case4 c cs ih =>
    obtain ⟨fuel, rfl⟩ := Nat.exists_eq_add_of_lt (Nat.lt_of_le_of_lt (Nat.zero_le _) hfuel)
    have hcs : nul ∉ c :: cs := fun hmem => hrest (List.mem_cons_of_mem _ hmem)
    have hstep := unescapeLoop_backslash (0 + fuel) pre k hcs
    have hsplit : pre ++ (c :: cs ++ List.replicate (k + 2) nul) =
        pre ++ [c] ++ (cs ++ List.replicate (k + 1 + 1) nul) := by
      rw [List.append_assoc]
      rfl
    have hlen : pre.length + 1 = (pre ++ [c]).length := by simp
    rw [hsplit, hlen] at hstep
    have hih := @ih (pre ++ [c]) (k + 1) (0 + fuel)
      (fun hmem => hcs (List.mem_cons_of_mem _ hmem)) (by
        simp only [List.length_cons] at hfuel
        omega)
    rw [unescape]
    cases hun : unescape cs with
    | none =>
      rw [hun] at hih
      exact hstep.trans hih
    | some v =>
      rw [hun] at hih
      obtain ⟨tail, htail⟩ := hih
      refine ⟨tail, hstep.trans (htail.trans ?_)⟩
      rw [List.append_assoc]
      rfl
  | case5 c cs hq hb1 hb2 ih =>
    obtain ⟨fuel, rfl⟩ := Nat.exists_eq_add_of_lt (Nat.lt_of_le_of_lt (Nat.zero_le _) hfuel)
    rw [List.mem_cons, not_or] at hrest
    have hb : c ≠ '\\' := by
      rintro rfl
      cases cs with
      | nil => exact hb1 rfl rfl
      | cons d cs => exact hb2 d cs rfl rfl
    have hdrop : (pre ++ (c :: cs ++ List.replicate (k + 1) nul)).drop pre.length =
        c :: (cs ++ List.replicate (k + 1) nul) := List.drop_left
    have hstep := unescapeLoop_skip (0 + fuel) hdrop (Ne.symm hrest.1) hq hb
    have hsplit : pre ++ (c :: cs ++ List.replicate (k + 1) nul) =
        pre ++ [c] ++ (cs ++ List.replicate (k + 1) nul) := by
      rw [List.append_assoc]
      rfl
    have hlen : pre.length + 1 = (pre ++ [c]).length := by simp
    have hih := @ih (pre ++ [c]) k (0 + fuel + 1) hrest.2 (by
      simp only [List.length_cons] at hfuel
      omega)
    rw [hlen] at hstep
    have hun : unescape (c :: cs) = (unescape cs).map (c :: ·) := by
      rw [unescape] <;> assumption
    rw [hun]
    cases hcs : unescape cs with
    | none =>
      rw [hcs, ← hsplit] at hih
      exact hstep.trans hih
    | some v =>
      rw [hcs, ← hsplit] at hih
      obtain ⟨tail, htail⟩ := hih
      refine ⟨tail, hstep.trans (htail.trans ?_)⟩
      rw [List.append_assoc]
      rfl

theorem subset_of_unescape {v : Text} (h : unescape rest = some v) : v ⊆ rest := by
  induction rest using unescape.induct generalizing v with
  | case1 => cases h
  | case2 cs =>
    rw [unescape] at h
    cases h
    exact List.nil_subset _
  | case3 => cases h
  | case4 c cs ih =>
    rw [unescape] at h
    obtain ⟨w, hw, rfl⟩ := Option.map_eq_some_iff.mp h
    exact List.subset_cons_of_subset _ (List.cons_subset_cons c (ih hw))
  | case5 c cs hq hb1 hb2 ih =>
    rw [unescape] at h <;> try assumption
    obtain ⟨w, hw, rfl⟩ := Option.map_eq_some_iff.mp h
    exact List.cons_subset_cons c (ih hw)

/-! ### `sym_string_valid` stays in the line -/

theorem allChars_append (p : Char → Bool) (h : nul ∉ cs) :
    allChars p (cs ++ [nul]) = some (cs.all p) := by
  induction cs with
  | nil => exact if_pos rfl
  | cons c cs ih =>
    rw [List.mem_cons, not_or] at h
    rw [List.cons_append, allChars, if_neg (Ne.symm h.1), ih h.2, List.all_cons]
    cases p c <;> rfl

theorem intDigitsValid_append (h : nul ∉ cs) :
    intDigitsValid (cs ++ [nul]) = some (Kconfig.intDigitsValid cs) := by
  cases cs with
  | nil => rfl
  | cons c cs =>
    rw [List.mem_cons, not_or] at h
    have hall := allChars_append isDigit h.2
    simp only [List.cons_append, intDigitsValid, Kconfig.intDigitsValid]
    cases hc : isDigit c with
    | false => rfl
    | true =>
      by_cases hzero : c = '0'
      · cases cs with
        | nil =>
          subst hzero
          rfl
        | cons d cs =>
          rw [List.mem_cons, not_or] at h
          have hd : d ≠ nul := Ne.symm h.2.1
          simp [hzero, hd]
      · simp [hzero, hall]

theorem intValid_append (h : nul ∉ cs) : intValid (cs ++ [nul]) = some (Kconfig.intValid cs) := by
  cases cs with
  | nil => rfl
  | cons c cs =>
    have hcs : nul ∉ cs := fun hmem => h (List.mem_cons_of_mem c hmem)
    rw [List.cons_append, intValid]
    by_cases hc : c = '-'
    · subst hc
      exact intDigitsValid_append hcs
    · rw [if_neg hc, ← List.cons_append, intDigitsValid_append h]
      unfold Kconfig.intValid
      split
      · next heq => exact absurd (List.cons.inj heq).1 hc
      · rfl

theorem hexDigitsValid_append (h : nul ∉ cs) :
    hexDigitsValid (cs ++ [nul]) = some (!cs.isEmpty && cs.all isXDigit) := by
  cases cs with
  | nil => rfl
  | cons c cs =>
    have hcs : nul ∉ cs := fun hmem => h (List.mem_cons_of_mem c hmem)
    rw [List.cons_append, hexDigitsValid, allChars_append isXDigit hcs, List.all_cons]
    cases isXDigit c <;> rfl

theorem hexValid_append (h : nul ∉ cs) : hexValid (cs ++ [nul]) = some (Kconfig.hexValid cs) := by
  have hself := hexDigitsValid_append h
  unfold Kconfig.hexValid hexDigits
  split
  · next cs =>
    have hcs : nul ∉ cs := fun hmem => h (List.mem_cons_of_mem _ (List.mem_cons_of_mem _ hmem))
    exact hexDigitsValid_append hcs
  · next cs =>
    have hcs : nul ∉ cs := fun hmem => h (List.mem_cons_of_mem _ (List.mem_cons_of_mem _ hmem))
    exact hexDigitsValid_append hcs
  · next hx hX =>
    rw [← hself]
    cases cs with
    | nil => rfl
    | cons c cs =>
      rw [List.cons_append, hexValid]
      by_cases hc : c = '0'
      · subst hc
        rw [if_pos rfl]
        cases cs with
        | nil => rfl
        | cons d cs =>
          have hd : ¬(d = 'x' ∨ d = 'X') := by
            rintro (rfl | rfl)
            · exact hx cs rfl
            · exact hX cs rfl
          rw [List.cons_append, List.head?_cons, Option.bind_some, if_neg hd]
      · rw [if_neg hc]

theorem tristateOfText_cons (c : Char) (cs : Text) :
    tristateOfText (c :: cs) = tristateOfText [c] := by
  unfold tristateOfText
  split <;> split <;> simp_all

theorem symStringValid_append (type : SymType) (h : nul ∉ cs) :
    symStringValid type (cs ++ [nul]) = some (Kconfig.symStringValid type cs) := by
  cases type with
  | int => exact intValid_append h
  | hex => exact hexValid_append h
  | string | unknown | other => rfl
  | boolean | tristate =>
    cases cs with
    | nil => rfl
    | cons c cs =>
      simp only [symStringValid, Kconfig.symStringValid, List.cons_append, List.head?_cons,
        Option.map_some, tristateOfText_cons c cs]

/-! ### `conf_set_sym_val` stays in the line -/

def booleanSetting : Text → Setting
  | 'y' :: _ => .tri .yes
  | 'n' :: _ => .tri .no
  | _ => .invalid

def tristateSetting : Text → Setting
  | 'm' :: _ => .tri .mod
  | cs => booleanSetting cs

def stringSetting (type : SymType) : Text → Setting
  | '"' :: p =>
    match unescape p with
    | some v => if type = .string then .val v else .invalid
    | none => .invalid
  | _ => .keep

theorem checkValue_append (type : SymType) (h : nul ∉ cs) :
    checkValue type (cs ++ [nul]) =
      some (if Kconfig.symStringValid type cs then .val cs else .invalid) := by
  rw [checkValue, symStringValid_append type h, Option.bind_some, invalidValue, strdup_append h]
  cases Kconfig.symStringValid type cs <;> rfl

theorem checkValue_tail {type : SymType} (htype : type = .string ∨ type = .other)
    (h : nul ∉ cs) (tail : List Char) :
    checkValue type (cs ++ nul :: tail) =
      some (if type = .string then .val cs else .invalid) := by
  rcases htype with rfl | rfl
  · rw [checkValue, symStringValid, Option.bind_some, if_pos rfl, if_pos rfl,
      strdup_append h tail]
    rfl
  · rw [checkValue, symStringValid, Option.bind_some, if_neg Bool.false_ne_true,
      if_neg (by decide), invalidValue, strdup_append h tail]
    · rfl
    all_goals exact nofun

theorem stringValue_append {type : SymType} (htype : type = .string ∨ type = .other)
    (h : nul ∉ cs) : stringValue type (cs ++ [nul]) = some (stringSetting type cs) := by
  unfold stringSetting
  unfold stringValue
  split
  · next p =>
    have hp : nul ∉ p := fun hmem => h (List.mem_cons_of_mem _ hmem)
    have hloop := @unescapeLoop_eq ['"'] p 0 (('"' :: p ++ [nul]).length) hp (by
      rw [List.length_append, List.length_cons]
      omega)
    have hlen : ['"'].length = 1 := rfl
    rw [hlen] at hloop
    rw [List.cons_append, List.head?_cons, Option.bind_some, if_neg (not_not.mpr rfl)]
    cases hun : unescape p with
    | none =>
      rw [hun] at hloop
      simp only at hloop
      rw [List.cons_append] at hloop
      exact (congrArg (Option.bind · _) hloop).trans rfl
    | some v =>
      rw [hun] at hloop
      obtain ⟨tail, htail⟩ := hloop
      have hv : nul ∉ v := fun hmem => hp (subset_of_unescape hun hmem)
      exact (congrArg (Option.bind · _) htail).trans (checkValue_tail htype hv tail)
  · next hquote =>
    cases cs with
    | nil => rfl
    | cons c cs =>
      have hc : c ≠ '"' := by
        rintro rfl
        exact hquote cs rfl
      rw [List.cons_append, List.head?_cons, Option.bind_some, if_pos hc]

theorem isSome_skipNonSpace (h : nul ∉ cs) : (skipNonSpace (cs ++ [nul])).isSome := by
  induction cs with
  | nil => rfl
  | cons c cs ih =>
    rw [List.mem_cons, not_or] at h
    rw [List.cons_append, skipNonSpace, if_neg (Ne.symm h.1)]
    split
    · rfl
    · exact ih h.2

theorem booleanValue_append (h : nul ∉ cs) :
    booleanValue (cs ++ [nul]) = some (booleanSetting cs) := by
  have hinvalid : invalidValue (cs ++ [nul]) = some .invalid := by
    rw [invalidValue, strdup_append h]
    rfl
  unfold booleanValue booleanSetting
  split
  · rfl
  · rfl
  · next hy hn =>
    cases cs with
    | nil => rfl
    | cons c cs =>
      have hcy : c ≠ 'y' := by
        rintro rfl
        exact hy cs rfl
      have hcn : c ≠ 'n' := by
        rintro rfl
        exact hn cs rfl
      rw [← hinvalid, List.cons_append, List.head?_cons, Option.bind_some, if_neg hcy, if_neg hcn]

theorem tristateValue_append (h : nul ∉ cs) :
    confSetSymVal .tristate (cs ++ [nul]) = some (tristateSetting cs) := by
  have hbool := booleanValue_append h
  unfold confSetSymVal tristateSetting
  simp only
  split
  · rfl
  · next hm =>
    cases cs with
    | nil => rfl
    | cons c cs =>
      have hc : c ≠ 'm' := by
        rintro rfl
        exact hm cs rfl
      rw [List.cons_append, List.head?_cons, Option.bind_some, if_neg hc, ← List.cons_append, hbool]

/-- On every line `conf_set_sym_val` reads nothing beyond the NUL. -/
theorem isSome_confSetSymVal (type : SymType) (h : nul ∉ cs) :
    (confSetSymVal type (cs ++ [nul])).isSome := by
  cases type with
  | unknown => rfl
  | boolean =>
    have hbool := booleanValue_append h
    rw [confSetSymVal, hbool]
    rfl
  | tristate =>
    rw [tristateValue_append h]
    rfl
  | int =>
    have hcheck := checkValue_append .int h
    rw [confSetSymVal, hcheck]
    rfl
  | hex =>
    have hcheck := checkValue_append .hex h
    rw [confSetSymVal, hcheck]
    rfl
  | string =>
    have hstring := stringValue_append (.inl rfl) h
    rw [confSetSymVal, hstring]
    rfl
  | other =>
    have hstring := stringValue_append (.inr rfl) h
    obtain ⟨u, hskip⟩ := Option.isSome_iff_exists.mp (isSome_skipNonSpace h)
    have hhead : ∃ c, (cs ++ [nul]).head? = some c := by
      cases cs with
      | nil => exact ⟨nul, rfl⟩
      | cons c cs => exact ⟨c, rfl⟩
    obtain ⟨c, hc⟩ := hhead
    have hcheck := checkValue_append .string h
    rw [confSetSymVal, hc, Option.bind_some]
    split
    · rw [hskip, Option.bind_some, hcheck]
      rfl
    · rw [hstring]
      rfl

end
end LineBuffer
end OpenADK.Kconfig
