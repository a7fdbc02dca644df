import OpenADK.Kconfig.Frame
import OpenADK.Kconfig.ReadConfig

/-!
# Ranges of numbers

The value of an `int` or `hex` symbol is a text of any length. `sym_validate_range` and
`sym_string_within_range` compare what `strtoll` reads, which is a number of 64 bits.
-/

namespace OpenADK.Kconfig

/-! ### Numbers as texts -/

/-- The number that digits stand for, the most significant first. -/
def positional (base : ℕ) (str : Text) : ℕ :=
  str.foldl (fun acc c => acc * base + (digitValue base c).getD 0) 0

def number (base : ℕ) : Text → ℤ
  | '-' :: cs => -(positional base cs)
  | cs => positional base (hexDigits cs)

/-- The texts that `sym_string_valid` takes in a base. -/
def numberValid (base : ℕ) (str : Text) : Bool := if base = 16 then hexValid str else intValid str

/-- `LLONG_MIN`. -/
def llongMin : ℤ := -llongMax - 1

def saturate (n : ℤ) : ℤ := max (min n llongMax) llongMin

section
variable {base : ℕ} {str : Text} {c : Char}

theorem isDigit_iff : isDigit c = true ↔ 48 ≤ c.toNat ∧ c.toNat ≤ 57 := by
  unfold isDigit
  rw [Bool.and_eq_true, decide_eq_true_eq, decide_eq_true_eq]
  exact Iff.rfl

theorem isXDigit_iff : isXDigit c = true ↔
    (48 ≤ c.toNat ∧ c.toNat ≤ 57) ∨ (97 ≤ c.toNat ∧ c.toNat ≤ 102) ∨
      (65 ≤ c.toNat ∧ c.toNat ≤ 70) := by
  unfold isXDigit
  rw [Bool.or_eq_true, Bool.or_eq_true, isDigit_iff, Bool.and_eq_true, Bool.and_eq_true,
    decide_eq_true_eq, decide_eq_true_eq, decide_eq_true_eq, decide_eq_true_eq, or_assoc]
  exact Iff.rfl

theorem digitValue_isSome_of_isDigit (h : isDigit c = true) : (digitValue 10 c).isSome := by
  have hc := isDigit_iff.mp h
  have hle : '0' ≤ c ∧ c ≤ '9' := hc
  simp only [digitValue, if_pos hle, Option.isSome_filter, Option.any_some, decide_eq_true_eq]
  have hzero : '0'.toNat = 48 := rfl
  omega

theorem digitValue_isSome_of_isXDigit (h : isXDigit c = true) : (digitValue 16 c).isSome := by
  have hzero : '0'.toNat = 48 := rfl
  have ha : 'a'.toNat = 97 := rfl
  have hA : 'A'.toNat = 65 := rfl
  rcases isXDigit_iff.mp h with hc | hc | hc
  · have hle : '0' ≤ c ∧ c ≤ '9' := hc
    simp only [digitValue, if_pos hle, Option.isSome_filter, Option.any_some, decide_eq_true_eq]
    omega
  · have hnot : ¬('0' ≤ c ∧ c ≤ '9') := fun hle => absurd (hc.1.trans hle.2) (by decide)
    have hle : 'a' ≤ c ∧ c ≤ 'z' := ⟨hc.1, hc.2.trans (by decide : 102 ≤ 122)⟩
    simp only [digitValue, if_neg hnot, if_pos hle, Option.isSome_filter, Option.any_some,
      decide_eq_true_eq]
    omega
  · have hnot : ¬('0' ≤ c ∧ c ≤ '9') := fun hle => absurd (hc.1.trans hle.2) (by decide)
    have hnot' : ¬('a' ≤ c ∧ c ≤ 'z') := fun hle => absurd (Nat.le_trans hle.1 hc.2) (by decide)
    have hle : 'A' ≤ c ∧ c ≤ 'Z' := ⟨hc.1, hc.2.trans (by decide : 70 ≤ 90)⟩
    simp only [digitValue, if_neg hnot, if_neg hnot', if_pos hle, Option.isSome_filter,
      Option.any_some, decide_eq_true_eq]
    omega

theorem digitValue_digitChar {d : ℕ} (hbase : base = 10 ∨ base = 16) (h : d < base) :
    digitValue base (Nat.digitChar d) = some d := by
  have hten : ∀ d < 10, digitValue 10 (Nat.digitChar d) = some d := by decide
  have hsixteen : ∀ d < 16, digitValue 16 (Nat.digitChar d) = some d := by decide
  rcases hbase with rfl | rfl
  · exact hten d h
  · exact hsixteen d h

theorem readDigits_eq (h : ∀ c ∈ str, (digitValue base c).isSome) (acc : ℕ) :
    readDigits base acc str =
      str.foldl (fun acc c => acc * base + (digitValue base c).getD 0) acc := by
  induction str generalizing acc with
  | nil => rfl
  | cons c str ih =>
    obtain ⟨d, hd⟩ := Option.isSome_iff_exists.mp (h c List.mem_cons_self)
    rw [List.foldl_cons, hd, Option.getD_some, ← ih fun c hc => h c (List.mem_cons_of_mem _ hc)]
    simp only [readDigits, hd]

theorem positional_append (base : ℕ) (str : Text) (c : Char) :
    positional base (str ++ [c]) = positional base str * base + (digitValue base c).getD 0 := by
  rw [positional, List.foldl_append]
  rfl

/-- What `sprintf` prints is read back. -/
theorem positional_toDigits (hbase : base = 10 ∨ base = 16) (n : ℕ) :
    positional base (Nat.toDigits base n) = n := by
  have hone : 1 < base := by omega
  induction n using Nat.strong_induction_on with
  | _ n ih =>
    by_cases hn : n < base
    · rw [Nat.toDigits_of_lt_base hn, ← List.nil_append [n.digitChar], positional_append,
        digitValue_digitChar hbase hn, Option.getD_some]
      simp only [positional, List.foldl_nil, Nat.zero_mul, Nat.zero_add]
    · have hle : base ≤ n := not_lt.mp hn
      rw [Nat.toDigits_of_base_le hone hle, positional_append,
        ih _ (Nat.div_lt_self (by omega) hone),
        digitValue_digitChar hbase (Nat.mod_lt n (by omega)), Option.getD_some, mul_comm]
      exact Nat.div_add_mod n base

/-! ### Reading valid numbers -/

theorem isXDigit_of_isDigit (h : isDigit c = true) : isXDigit c = true := by
  rw [isXDigit, h, Bool.true_or, Bool.true_or]

theorem isSpace_of_isXDigit (h : isXDigit c = true) : isSpace c = false := by
  apply Bool.eq_false_iff.mpr
  intro hspace
  simp only [isSpace, Bool.or_eq_true, decide_eq_true_eq] at hspace
  rcases hspace with ((((rfl | rfl) | rfl) | rfl) | rfl) | rfl <;> exact absurd h (by decide)

theorem isDigit_of_intDigitsValid (h : intDigitsValid str = true) :
    str ≠ [] ∧ ∀ c ∈ str, isDigit c = true := by
  cases str with
  | nil => cases h
  | cons c cs =>
    simp only [intDigitsValid, Bool.and_eq_true, List.all_eq_true] at h
    refine ⟨List.cons_ne_nil c cs, fun d hd => ?_⟩
    rcases List.mem_cons.mp hd with rfl | hd
    · exact h.1.1
    · exact h.2 d hd

theorem hexDigits_eq_self (h : ∀ c ∈ str, isDigit c = true) : hexDigits str = str := by
  unfold hexDigits
  split
  · exact absurd (h 'x' (by simp)) (by decide)
  · exact absurd (h 'X' (by simp)) (by decide)
  · rfl

theorem skipHexPrefix_ten (str : Text) : skipHexPrefix 10 str = str := by
  unfold skipHexPrefix
  split
  · rw [if_neg fun hand => absurd hand.1 (by decide)]
  · rfl

theorem skipHexPrefix_sixteen (h : hexValid str = true) :
    skipHexPrefix 16 str = hexDigits str := by
  unfold hexValid at h
  rw [Bool.and_eq_true, Bool.not_eq_true', List.all_eq_true] at h
  obtain ⟨hne, hall⟩ := h
  have hskip (x : Char) (hx : x = 'x' ∨ x = 'X') (cs : Text) (hne : cs.isEmpty = false)
      (hall : ∀ c ∈ cs, isXDigit c = true) : skipHexPrefix 16 ('0' :: x :: cs) = cs := by
    cases cs with
    | nil => cases hne
    | cons c cs =>
      exact if_pos ⟨rfl, hx, digitValue_isSome_of_isXDigit (hall c List.mem_cons_self)⟩
  unfold hexDigits at hne hall ⊢
  split at hne
  · exact hskip 'x' (.inl rfl) _ hne hall
  · exact hskip 'X' (.inr rfl) _ hne hall
  · next hx hX =>
    unfold skipHexPrefix
    split
    · apply if_neg
      rintro ⟨-, rfl | rfl, -⟩
      · exact hx _ rfl
      · exact hX _ rfl
    · rfl

/-- Without a sign `strtoll` reads digits only. -/
theorem strtoll_of_isXDigit (base : ℕ) (c : Char) (cs : Text) (hc : isXDigit c = true) :
    strtoll base (c :: cs) = min (readDigits base 0 (skipHexPrefix base (c :: cs)) : ℤ) llongMax := by
  have hdrop : (c :: cs).dropWhile isSpace = c :: cs := by
    rw [List.dropWhile_cons_of_neg]
    rw [isSpace_of_isXDigit hc]
    exact Bool.false_ne_true
  unfold strtoll
  rw [hdrop]
  split
  · next heq =>
    obtain ⟨rfl, -⟩ := List.cons.inj heq
    exact absurd hc (by decide)
  · next heq =>
    obtain ⟨rfl, -⟩ := List.cons.inj heq
    exact absurd hc (by decide)
  · rfl

theorem number_of_isXDigit (base : ℕ) (c : Char) (cs : Text) (hc : isXDigit c = true) :
    number base (c :: cs) = positional base (hexDigits (c :: cs)) := by
  unfold number
  split
  · next heq =>
    obtain ⟨rfl, -⟩ := List.cons.inj heq
    exact absurd hc (by decide)
  · rfl

theorem saturate_natCast (n : ℕ) : saturate n = min (n : ℤ) llongMax := by
  unfold saturate llongMin llongMax
  omega

theorem saturate_neg (n : ℕ) : saturate (-n) = max (-(n : ℤ)) llongMin := by
  unfold saturate llongMin llongMax
  omega

theorem readDigits_eq_positional (h : ∀ c ∈ str, (digitValue base c).isSome) :
    readDigits base 0 str = positional base str := readDigits_eq h 0

/-- `strtoll` reads the nearest number of 64 bits. -/
theorem strtoll_eq_saturate (hbase : base = 10 ∨ base = 16) (h : numberValid base str = true) :
    strtoll base str = saturate (number base str) := by
  rcases hbase with rfl | rfl
  · have hint : intValid str = true := h
    unfold intValid at hint
    split at hint
    · next cs =>
      obtain ⟨-, hall⟩ := isDigit_of_intDigitsValid hint
      have hread := readDigits_eq_positional fun c hc => digitValue_isSome_of_isDigit (hall c hc)
      have hstr : strtoll 10 ('-' :: cs) =
          max (-(readDigits 10 0 (skipHexPrefix 10 cs) : ℤ)) llongMin := rfl
      have hnum : number 10 ('-' :: cs) = -(positional 10 cs : ℤ) := rfl
      rw [hstr, hnum, skipHexPrefix_ten, hread, saturate_neg]
    · obtain ⟨hne, hall⟩ := isDigit_of_intDigitsValid hint
      have hread := readDigits_eq_positional fun c hc => digitValue_isSome_of_isDigit (hall c hc)
      obtain ⟨c, cs, rfl⟩ := List.exists_cons_of_ne_nil hne
      have hc := isXDigit_of_isDigit (hall c List.mem_cons_self)
      rw [strtoll_of_isXDigit 10 c cs hc, number_of_isXDigit 10 c cs hc, skipHexPrefix_ten,
        hexDigits_eq_self hall, hread, saturate_natCast]
  · have hhex : hexValid str = true := h
    have hskip := skipHexPrefix_sixteen hhex
    unfold hexValid at hhex
    rw [Bool.and_eq_true, Bool.not_eq_true', List.all_eq_true] at hhex
    have hread := readDigits_eq_positional fun c hc => digitValue_isSome_of_isXDigit (hhex.2 c hc)
    have hfirst : ∃ c cs, str = c :: cs ∧ isXDigit c = true := by
      unfold hexDigits at hhex
      split at hhex
      · exact ⟨'0', _, rfl, by decide⟩
      · exact ⟨'0', _, rfl, by decide⟩
      · cases str with
        | nil => exact absurd hhex.1 (by decide)
        | cons c cs => exact ⟨c, cs, rfl, hhex.2 c List.mem_cons_self⟩
    obtain ⟨c, cs, rfl, hc⟩ := hfirst
    rw [strtoll_of_isXDigit 16 c cs hc, number_of_isXDigit 16 c cs hc, hskip, hread,
      saturate_natCast]

/-! ### Printing bounds -/

theorem isDigit_of_mem_toDigits {n : ℕ} (h : c ∈ Nat.toDigits 10 n) : isDigit c = true := by
  have hc := Nat.isDigit_of_mem_toDigits (by decide) (by decide) h
  rw [Char.isDigit, Bool.and_eq_true, decide_eq_true_eq, decide_eq_true_eq] at hc
  exact isDigit_iff.mpr hc

theorem number_toDigits (n : ℕ) : number 10 (Nat.toDigits 10 n) = n := by
  have hall : ∀ c ∈ Nat.toDigits 10 n, isDigit c = true := fun c hc => isDigit_of_mem_toDigits hc
  obtain ⟨c, cs, heq⟩ := List.exists_cons_of_ne_nil (Nat.toDigits_ne_nil (n := n) (b := 10))
  have hpos := @positional_toDigits 10 (.inl rfl) n
  rw [heq] at hall hpos ⊢
  rw [number_of_isXDigit 10 c cs (isXDigit_of_isDigit (hall c List.mem_cons_self)),
    hexDigits_eq_self hall, hpos]

theorem number_printDec (val : ℤ) : number 10 (printDec val) = val := by
  unfold printDec
  split
  · next hneg =>
    have hnum : number 10 ('-' :: Nat.toDigits 10 val.natAbs) =
        -(positional 10 (Nat.toDigits 10 val.natAbs) : ℤ) := rfl
    rw [hnum, positional_toDigits (.inl rfl)]
    omega
  · rw [number_toDigits]
    omega

theorem number_printHex (val : ℤ) : number 16 (printHex val) = val % 2 ^ 64 := by
  have hnum : number 16 (printHex val) =
      (positional 16 (Nat.toDigits 16 (val % 2 ^ 64).toNat) : ℤ) := rfl
  rw [hnum, positional_toDigits (.inr rfl)]
  omega

/-! ### Numbers of any length -/

theorem head_toDigits_ne {n : ℕ} (hn : 0 < n) : ∃ c cs, Nat.toDigits 10 n = c :: cs ∧ c ≠ '0' := by
  induction n using Nat.strong_induction_on with
  | _ n ih =>
    by_cases hlt : n < 10
    · have hchar : ∀ d < 10, 0 < d → Nat.digitChar d ≠ '0' := by decide
      exact ⟨_, [], Nat.toDigits_of_lt_base hlt, hchar n hlt hn⟩
    · have hle : 10 ≤ n := not_lt.mp hlt
      obtain ⟨c, cs, heq, hc⟩ := ih (n / 10) (by omega) (by omega)
      rw [Nat.toDigits_of_base_le (by decide) hle, heq]
      exact ⟨c, _, rfl, hc⟩

theorem intDigitsValid_toDigits (n : ℕ) : intDigitsValid (Nat.toDigits 10 n) = true := by
  have hall : ∀ c ∈ Nat.toDigits 10 n, isDigit c = true := fun c hc => isDigit_of_mem_toDigits hc
  rcases Nat.eq_zero_or_pos n with rfl | hn
  · decide
  · obtain ⟨c, cs, heq, hc⟩ := head_toDigits_ne hn
    rw [heq] at hall ⊢
    simp only [intDigitsValid, Bool.and_eq_true, List.all_eq_true]
    refine ⟨⟨hall c List.mem_cons_self, ?_⟩, fun d hd => hall d (List.mem_cons_of_mem c hd)⟩
    simp [hc]

theorem intValid_printDec (val : ℤ) : intValid (printDec val) = true := by
  unfold printDec
  split
  · exact intDigitsValid_toDigits _
  · have h := intDigitsValid_toDigits val.natAbs
    unfold intValid
    split
    · next heq =>
      rw [heq] at h
      exact absurd ((isDigit_of_intDigitsValid h).2 '-' List.mem_cons_self) (by decide)
    · exact h

theorem isXDigit_of_mem_toDigits {n : ℕ} (h : c ∈ Nat.toDigits 16 n) : isXDigit c = true := by
  have hchar : ∀ d < 16, isXDigit (Nat.digitChar d) = true := by decide
  induction n using Nat.strong_induction_on with
  | _ n ih =>
    by_cases hlt : n < 16
    · rw [Nat.toDigits_of_lt_base hlt, List.mem_singleton] at h
      rw [h]
      exact hchar n hlt
    · rw [Nat.toDigits_of_base_le (by decide) (not_lt.mp hlt), List.mem_append,
        List.mem_singleton] at h
      rcases h with h | rfl
      · exact ih (n / 16) (by omega) h
      · exact hchar _ (Nat.mod_lt n (by decide))

/-- There are `hex` numbers of any size. -/
theorem exists_hexValid (n : ℕ) : ∃ str, hexValid str = true ∧ number 16 str = n := by
  have hall : ∀ c ∈ Nat.toDigits 16 n, isXDigit c = true := fun c hc => isXDigit_of_mem_toDigits hc
  refine ⟨'0' :: 'x' :: Nat.toDigits 16 n, ?_, ?_⟩
  · have hne : (Nat.toDigits 16 n).isEmpty = false := by
      rw [List.isEmpty_eq_false_iff]
      exact Nat.toDigits_ne_nil
    have hvalid : hexValid ('0' :: 'x' :: Nat.toDigits 16 n) =
        (!(Nat.toDigits 16 n).isEmpty && (Nat.toDigits 16 n).all isXDigit) := rfl
    rw [hvalid, hne, List.all_eq_true.mpr hall]
    rfl
  · have hnum : number 16 ('0' :: 'x' :: Nat.toDigits 16 n) =
        (positional 16 (Nat.toDigits 16 n) : ℤ) := rfl
    rw [hnum, positional_toDigits (.inr rfl)]

theorem number_nonneg_of_hexValid (h : hexValid str = true) : 0 ≤ number 16 str := by
  unfold number
  split
  · exact absurd h (by simp [hexValid, hexDigits, isXDigit, isDigit])
  · exact Int.natCast_nonneg _

end

/-! ### The range of a symbol -/

namespace SymbolTable
variable {ι : Type} [DecidableEq ι]

section
variable (G : SymbolTable ι)

/-- A bound as `sym_get_range_val` reads it: its base and its text. -/
def rangeBound (base : ℕ) (b : ι) (σ : State ι) : ℕ × Text :=
  ((numberBase (G.type b)).getD base, ((symCalcValue G b σ).sym b).curr.val.text)

/-- The bounds of the range that is active for a symbol. -/
def activeRange (s : ι) (base : ℕ) (σ : State ι) : Option ((ℕ × Text) × (ℕ × Text)) :=
  let prop := symGetRangeProp G (symCalcValue G) s σ
  (prop.1.bind fun p => propRange p.1).map fun bounds =>
    (G.rangeBound base bounds.1 prop.2,
      G.rangeBound base bounds.2 (symCalcValue G bounds.1 prop.2))

/-- The value of a symbol after `sym_validate_range`. -/
def validated (s : ι) (σ : State ι) : Val ι :=
  ((symValidateRange G (symCalcValue G) s σ).sym s).curr.val

structure RangeHolds (s : ι) (base : ℕ) (low high : ℤ) (σ : State ι) : Prop where
  within : low ≤ number base (G.validated s σ).text ∧ number base (G.validated s σ).text ≤ high
  unchanged : low ≤ number base (σ.sym s).curr.val.text →
    number base (σ.sym s).curr.val.text ≤ high → G.validated s σ = (σ.sym s).curr.val
  accepts : ∀ str, (symStringWithinRange G s str σ).1 = true ↔
    symStringValid (G.type s) str = true ∧ low ≤ number base str ∧ number base str ≤ high

end

section
variable {G : SymbolTable ι} {σ : State ι} {s : ι} {base : ℕ} {low high : ℕ × Text}

theorem symGetRangeVal_eq (b : ι) (σ : State ι) :
    symGetRangeVal G (symCalcValue G) b base σ =
      (strtoll (G.rangeBound base b σ).1 (G.rangeBound base b σ).2, symCalcValue G b σ) := by
  unfold symGetRangeVal rangeBound
  cases G.type b <;> rfl

theorem kept_symGetRangeProp : Kept G σ (symGetRangeProp G (symCalcValue G) s σ).2 :=
  firstVisibleProp_preserves (I := Kept G σ) (fun _ _ h => h.trans kept_symCalcValue) .refl

omit [DecidableEq ι] in
theorem base_eq (h : numberBase (G.type s) = some base) : base = 10 ∨ base = 16 := by
  cases htype : G.type s <;> rw [htype] at h <;> cases h
  · exact .inl rfl
  · exact .inr rfl

theorem rangeBound_base (hbase : base = 10 ∨ base = 16) (b : ι) (σ : State ι) :
    (G.rangeBound base b σ).1 = 10 ∨ (G.rangeBound base b σ).1 = 16 := by
  unfold rangeBound
  cases hb : numberBase (G.type b) with
  | none => exact hbase
  | some base' => exact base_eq hb

/-- What `sym_validate_range` leaves, from what `strtoll` reads. -/
theorem validated_eq (hbase : numberBase (G.type s) = some base) (hvalid : (σ.sym s).flagValid)
    (hrange : G.activeRange s base σ = some (low, high)) :
    G.validated s σ =
      if strtoll low.1 low.2 ≤ strtoll base (σ.sym s).curr.val.text then
        if strtoll base (σ.sym s).curr.val.text ≤ strtoll high.1 high.2 then (σ.sym s).curr.val
        else .str (printBound (G.type s) (strtoll high.1 high.2))
      else .str (printBound (G.type s) (strtoll low.1 low.2)) := by
  have hprop := kept_symGetRangeProp (G := G) (σ := σ) (s := s)
  obtain ⟨bounds, hb, heq⟩ := Option.map_eq_some_iff.mp hrange
  obtain ⟨rfl, rfl⟩ := Prod.mk.inj heq
  have hlow := hprop.trans (kept_symCalcValue (s := bounds.1))
  have hhigh := hlow.trans (kept_symCalcValue (s := bounds.2))
  unfold validated symValidateRange
  simp only [hbase, hb, symGetRangeVal_eq, hprop.curr s hvalid, ge_iff_le]
  split
  · split
    · rw [hhigh.curr s hvalid]
    · rw [State.modify_sym_self]
  · rw [State.modify_sym_self]

theorem symStringWithinRange_eq (hbase : numberBase (G.type s) = some base)
    (hrange : G.activeRange s base σ = some (low, high)) (str : Text) :
    (symStringWithinRange G s str σ).1 = true ↔
      symStringValid (G.type s) str = true ∧ strtoll low.1 low.2 ≤ strtoll base str ∧
        strtoll base str ≤ strtoll high.1 high.2 := by
  obtain ⟨bounds, hb, heq⟩ := Option.map_eq_some_iff.mp hrange
  obtain ⟨rfl, rfl⟩ := Prod.mk.inj heq
  unfold symStringWithinRange
  simp only [hbase]
  split
  · next hstr =>
    simp only [hb, symGetRangeVal_eq, ge_iff_le]
    split
    · next hlow => rw [decide_eq_true_eq, and_iff_right hstr, and_iff_right hlow]
    · next hlow => exact iff_of_false Bool.false_ne_true fun hand => hlow hand.2.1
  · next hstr => exact iff_of_false Bool.false_ne_true fun hand => hstr hand.1

theorem activeRange_base (hbase : base = 10 ∨ base = 16)
    (hrange : G.activeRange s base σ = some (low, high)) :
    (low.1 = 10 ∨ low.1 = 16) ∧ (high.1 = 10 ∨ high.1 = 16) := by
  obtain ⟨bounds, -, heq⟩ := Option.map_eq_some_iff.mp hrange
  obtain ⟨rfl, rfl⟩ := Prod.mk.inj heq
  exact ⟨rangeBound_base hbase _ _, rangeBound_base hbase _ _⟩

/-- A range of an `int` symbol holds when numbers of 64 bits surround it. -/
theorem rangeHolds_int_iff (htype : G.type s = .int) {lo hi : ℤ} (hle : lo ≤ hi)
    (hvalidated : G.validated s σ =
      if saturate lo ≤ saturate (number 10 (σ.sym s).curr.val.text) then
        if saturate (number 10 (σ.sym s).curr.val.text) ≤ saturate hi then (σ.sym s).curr.val
        else .str (printDec (saturate hi))
      else .str (printDec (saturate lo)))
    (haccepts : ∀ str, (symStringWithinRange G s str σ).1 = true ↔
      intValid str = true ∧ saturate lo ≤ saturate (number 10 str) ∧
        saturate (number 10 str) ≤ saturate hi) :
    G.RangeHolds s 10 lo hi σ ↔ hi < llongMax ∧ llongMin < lo := by
  have hsvalid (str : Text) : symStringValid (G.type s) str = intValid str := by rw [htype]; rfl
  constructor
  · intro h
    have hover (n : ℤ) (hlow : saturate lo ≤ saturate n) (hhigh : saturate n ≤ saturate hi) :
        lo ≤ n ∧ n ≤ hi := by
      have hin := (haccepts (printDec n)).mpr ⟨intValid_printDec n, by
        rw [number_printDec]
        exact ⟨hlow, hhigh⟩⟩
      have hnum := ((h.accepts (printDec n)).mp hin).2
      rwa [number_printDec] at hnum
    constructor
    · by_contra hnot
      have hnum := (hover (hi + 1) (by unfold saturate; omega) (by unfold saturate; omega)).2
      omega
    · by_contra hnot
      have hnum := (hover (lo - 1) (by unfold saturate; omega) (by unfold saturate; omega)).1
      omega
  · rintro ⟨hhigh, hlow⟩
    have hsat (n : ℤ) : (saturate lo ≤ saturate n ↔ lo ≤ n) ∧
        (saturate n ≤ saturate hi ↔ n ≤ hi) := by
      unfold saturate
      omega
    have hlo : saturate lo = lo := by unfold saturate; omega
    have hhi : saturate hi = hi := by unfold saturate; omega
    rw [hlo, hhi] at hvalidated
    simp only [hlo, hhi] at hsat
    simp only [hsat] at hvalidated
    refine ⟨?_, fun h1 h2 => ?_, fun str => ?_⟩
    · rw [hvalidated]
      split
      · split
        · next h1 h2 => exact ⟨h1, h2⟩
        · simp only [Val.text, number_printDec]
          exact ⟨hle, le_rfl⟩
      · simp only [Val.text, number_printDec]
        exact ⟨le_rfl, hle⟩
    · rw [hvalidated, if_pos h1, if_pos h2]
    · rw [haccepts, hsvalid, hlo, hhi, (hsat _).1, (hsat _).2]

/-- A range of a `hex` symbol holds when its upper bound is not negative and less than the
greatest number of 64 bits. -/
theorem rangeHolds_hex_iff (htype : G.type s = .hex) {lo hi : ℤ} (hle : lo ≤ hi)
    (hval : hexValid (σ.sym s).curr.val.text = true)
    (hvalidated : G.validated s σ =
      if saturate lo ≤ saturate (number 16 (σ.sym s).curr.val.text) then
        if saturate (number 16 (σ.sym s).curr.val.text) ≤ saturate hi then (σ.sym s).curr.val
        else .str (printHex (saturate hi))
      else .str (printHex (saturate lo)))
    (haccepts : ∀ str, (symStringWithinRange G s str σ).1 = true ↔
      hexValid str = true ∧ saturate lo ≤ saturate (number 16 str) ∧
        saturate (number 16 str) ≤ saturate hi) :
    G.RangeHolds s 16 lo hi σ ↔ hi < llongMax ∧ 0 ≤ hi := by
  have hsvalid (str : Text) : symStringValid (G.type s) str = hexValid str := by rw [htype]; rfl
  have hnonneg := number_nonneg_of_hexValid hval
  constructor
  · intro h
    have hhi : 0 ≤ hi := by
      refine le_trans ?_ h.within.2
      rw [hvalidated]
      split
      · split
        · exact hnonneg
        · rw [Val.text, number_printHex]
          exact Int.emod_nonneg _ (by decide)
      · rw [Val.text, number_printHex]
        exact Int.emod_nonneg _ (by decide)
    refine ⟨?_, hhi⟩
    by_contra hnot
    obtain ⟨str, hstr, hnum⟩ := exists_hexValid (hi + 1).toNat
    rw [Int.toNat_of_nonneg (by omega)] at hnum
    have hin := (haccepts str).mpr ⟨hstr, by
      rw [hnum]
      unfold saturate
      omega⟩
    have hle' := ((h.accepts str).mp hin).2.2
    omega
  · rintro ⟨hhigh, hhi0⟩
    have hmin : llongMin < 0 := by decide
    have hmax : llongMax = 9223372036854775807 := by decide
    have hsat (n : ℤ) (hn : 0 ≤ n) : (saturate lo ≤ saturate n ↔ lo ≤ n) ∧
        (saturate n ≤ saturate hi ↔ n ≤ hi) := by
      unfold saturate
      omega
    simp only [hsat _ hnonneg] at hvalidated
    refine ⟨?_, fun h1 h2 => ?_, fun str => ?_⟩
    · rw [hvalidated]
      split
      · split
        · next h1 h2 => exact ⟨h1, h2⟩
        · rw [Val.text, number_printHex]
          unfold saturate
          omega
      · rw [Val.text, number_printHex]
        unfold saturate
        omega
    · rw [hvalidated, if_pos h1, if_pos h2]
    · rw [haccepts, hsvalid]
      apply and_congr_right
      intro hstr
      rw [(hsat _ (number_nonneg_of_hexValid hstr)).1, (hsat _ (number_nonneg_of_hexValid hstr)).2]

/-- When a range holds numerically. -/
theorem rangeHolds_iff (hbase : numberBase (G.type s) = some base) (hvalid : (σ.sym s).flagValid)
    (hval : symStringValid (G.type s) (σ.sym s).curr.val.text = true)
    (hrange : G.activeRange s base σ = some (low, high))
    (hlow : numberValid low.1 low.2 = true) (hhigh : numberValid high.1 high.2 = true)
    (hle : number low.1 low.2 ≤ number high.1 high.2) :
    G.RangeHolds s base (number low.1 low.2) (number high.1 high.2) σ ↔
      number high.1 high.2 < llongMax ∧
        if G.type s = .int then llongMin < number low.1 low.2 else 0 ≤ number high.1 high.2 := by
  have hb := base_eq hbase
  obtain ⟨hlowBase, hhighBase⟩ := activeRange_base hb hrange
  have hvalidated := validated_eq hbase hvalid hrange
  have haccepts := symStringWithinRange_eq hbase hrange
  rw [strtoll_eq_saturate hlowBase hlow, strtoll_eq_saturate hhighBase hhigh] at hvalidated
  simp only [strtoll_eq_saturate hlowBase hlow, strtoll_eq_saturate hhighBase hhigh] at haccepts
  cases htype : G.type s with
  | int =>
    rw [htype] at hbase hval
    cases hbase
    have hread : strtoll 10 (σ.sym s).curr.val.text =
        saturate (number 10 (σ.sym s).curr.val.text) := strtoll_eq_saturate hb hval
    rw [hread, htype] at hvalidated
    rw [if_pos rfl]
    refine rangeHolds_int_iff htype hle hvalidated fun str => ?_
    rw [haccepts, htype]
    apply and_congr_right
    intro hstr
    have hread : strtoll 10 str = saturate (number 10 str) := strtoll_eq_saturate hb hstr
    rw [hread]
  | hex =>
    rw [htype] at hbase hval
    cases hbase
    have hread : strtoll 16 (σ.sym s).curr.val.text =
        saturate (number 16 (σ.sym s).curr.val.text) := strtoll_eq_saturate hb hval
    rw [hread, htype] at hvalidated
    rw [if_neg (by decide)]
    refine rangeHolds_hex_iff htype hle hval hvalidated fun str => ?_
    rw [haccepts, htype]
    apply and_congr_right
    intro hstr
    have hread : strtoll 16 str = saturate (number 16 str) := strtoll_eq_saturate hb hstr
    rw [hread]
  | unknown | boolean | tristate | string | other =>
    rw [htype] at hbase
    cases hbase

end
end SymbolTable

namespace WideRange

/-- The symbols of the tree
```
config X
	int "x"
	range 0 HIGH
```
with its constants. -/
inductive Name
  | y | m | n | zero | high | x
  deriving DecidableEq

open Name

def table (bound : Text) : SymbolTable Name where
  symbolYes := y
  symbolMod := m
  symbolNo := n
  symbolHash := [zero, high, x]
  modulesSym := n
  symbol
    | y => { name := some ['y'], type := .unknown, flagConst := true }
    | m => { name := some ['m'], type := .unknown, flagConst := true }
    | n => { name := some ['n'], type := .unknown, flagConst := true }
    | zero => { name := some ['0'], type := .unknown }
    | high => { name := some bound, type := .unknown }
    | x =>
      { name := some ['X']
        type := .int
        prop :=
          [{ type := .symbol, expr := .expr (.symbol x), menu := some 1 },
            { type := .prompt, text := some ['x'], menu := some 1 },
            { type := .range, expr := .range zero high, menu := some 1 }]
        flagOptional := true }

/-- The state in which `sym_calc_value` has stored a value of `X`. -/
def state (value : Text) : State Name where
  sym
    | y => { curr := ⟨.str ['y'], .yes⟩, flagValid := true }
    | m => { curr := ⟨.str ['m'], .mod⟩, flagValid := true }
    | n => { curr := ⟨.str ['n'], .no⟩, flagValid := true }
    | x => { curr := ⟨.str value, .no⟩, flagValid := true }
    | _ => {}
  modulesVal := .no
  changeCount := 0

def seven : Text := ['7']

def thirteen : Text := ['1', '3']

/-- `LLONG_MAX` as a text. -/
def max : Text := "9223372036854775807".toList

def beyond : Text := "99999999999999999999".toList

/-- A value above a small bound. -/
theorem rangeHolds_small :
    (table seven).RangeHolds x 10 (number 10 ['0']) (number 10 seven) (state thirteen) ↔
      number 10 seven < llongMax ∧
        if (table seven).type x = .int then llongMin < number 10 ['0'] else 0 ≤ number 10 seven := by
  have hrange : (table seven).activeRange x 10 (state thirteen) = some ((10, ['0']), (10, seven)) := by
    decide
  exact SymbolTable.rangeHolds_iff rfl rfl (by decide) hrange (by decide) (by decide) (by decide)

/-- A value beyond the numbers of 64 bits stays in a range that ends with them. -/
theorem not_rangeHolds :
    ¬∀ (G : SymbolTable Name) (σ : State Name) (s : Name) (base : ℕ) (low high : ℕ × Text),
      numberBase (G.type s) = some base → (σ.sym s).flagValid →
      symStringValid (G.type s) (σ.sym s).curr.val.text = true →
      G.activeRange s base σ = some (low, high) → numberValid low.1 low.2 = true →
      numberValid high.1 high.2 = true → number low.1 low.2 ≤ number high.1 high.2 →
      G.RangeHolds s base (number low.1 low.2) (number high.1 high.2) σ := by
  intro h
  have hholds := h (table max) (state beyond) x 10 (10, ['0']) (10, max) rfl rfl (by decide)
    (by decide) (by decide) (by decide) (by decide)
  have hwithin := hholds.within.2
  revert hwithin
  decide

end WideRange
end OpenADK.Kconfig
