import Mathlib.Algebra.Order.Ring.Int
import Mathlib.Data.List.Infix
import Mathlib.Data.List.TakeWhile

/-!
# Strings of C

The functions of `string.h` on strings without their terminator, and reading a file by lines.
-/

namespace CString
variable {α : Type} [DecidableEq α] {delims needle s t tok rest : List α} {a nl : α} {n : ℕ}

/-- The first suffix that begins with `needle`. -/
def strstr (needle : List α) : List α → Option (List α)
  | [] => if needle = [] then some [] else none
  | a :: s => if needle <+: a :: s then some (a :: s) else strstr needle s

/-- The next token, and where the search for the one after it goes on. -/
def strtok (delims s : List α) : Option (List α × List α) :=
  match s.dropWhile (· ∈ delims) with
  | [] => none
  | a :: s =>
    some ((a :: s).takeWhile (· ∉ delims), ((a :: s).dropWhile (· ∉ delims)).tail)

theorem length_of_strtok (h : strtok delims s = some (tok, rest)) :
    tok ≠ [] ∧ tok.length + rest.length ≤ s.length := by
  unfold strtok at h
  split at h
  case h_1 => cases h
  case h_2 a u hu =>
    cases h
    have hle : (a :: u).length ≤ s.length := hu ▸ (List.dropWhile_suffix _).length_le
    have ha : a ∉ delims := by
      have hhead := List.head_dropWhile_not (p := (· ∈ delims)) (l := s) (by rw [hu]; simp)
      simpa [hu] using hhead
    have hsplit := congrArg List.length
      (List.takeWhile_append_dropWhile (p := (· ∉ delims)) (l := a :: u))
    rw [List.length_append] at hsplit
    refine ⟨?_, ?_⟩
    · rw [List.takeWhile_cons, if_pos (by simpa using ha)]
      exact List.cons_ne_nil _ _
    · rw [List.length_tail]
      omega

/-- A token holds no delimiters, and is followed by one unless it ends the string. -/
theorem of_strtok (h : strtok delims s = some (tok, rest)) :
    (∀ a ∈ tok, a ∉ delims) ∧ tok ⊆ s ∧ rest ⊆ s ∧
      (rest ≠ [] → tok.length + 1 + rest.length ≤ s.length) := by
  unfold strtok at h
  split at h
  case h_1 => cases h
  case h_2 a u hu =>
    cases h
    have hsuffix : a :: u <:+ s := hu ▸ List.dropWhile_suffix _
    have hdrop : (a :: u).dropWhile (· ∉ delims) <:+ a :: u := List.dropWhile_suffix _
    have hsplit := congrArg List.length
      (List.takeWhile_append_dropWhile (p := (· ∉ delims)) (l := a :: u))
    have hle := hsuffix.length_le
    rw [List.length_append] at hsplit
    refine ⟨fun b hb => by simpa using List.mem_takeWhile_imp hb,
      List.Subset.trans (List.takeWhile_subset _) hsuffix.subset,
      List.Subset.trans (List.tail_subset _) (List.Subset.trans hdrop.subset hsuffix.subset),
      fun hrest => ?_⟩
    have hpos : 0 < ((a :: u).dropWhile (· ∉ delims)).length := by
      rw [List.length_pos_iff]
      exact fun hnil => hrest (by rw [hnil, List.tail_nil])
    rw [List.length_tail]
    omega

theorem strtok_of_not_mem (hne : s ≠ []) (hs : ∀ a ∈ s, a ∉ delims) (ha : a ∈ delims)
    (rest : List α) :
    strtok delims (s ++ a :: rest) = some (s, rest) ∧ strtok delims s = some (s, []) := by
  obtain ⟨b, s, rfl⟩ := List.exists_cons_of_ne_nil hne
  have hb : b ∉ delims := hs b List.mem_cons_self
  have htake : (b :: s).takeWhile (· ∉ delims) = b :: s :=
    List.takeWhile_eq_self_iff.mpr fun c hc => by simpa using hs c hc
  have hdrop : (b :: s).dropWhile (· ∉ delims) = [] :=
    List.dropWhile_eq_nil_iff.mpr fun c hc => by simpa using hs c hc
  have hskip (u : List α) : (b :: u).dropWhile (· ∈ delims) = b :: u :=
    List.dropWhile_cons_of_neg (by simpa using hb)
  constructor
  · have htake' : (b :: (s ++ a :: rest)).takeWhile (· ∉ delims) = b :: s := by
      rw [← List.cons_append, List.takeWhile_append_of_pos fun c hc => by simpa using hs c hc,
        List.takeWhile_cons_of_neg (by simpa using ha), List.append_nil]
    have hdrop' : (b :: (s ++ a :: rest)).dropWhile (· ∉ delims) = a :: rest := by
      rw [← List.cons_append, List.dropWhile_append_of_pos fun c hc => by simpa using hs c hc,
        List.dropWhile_cons_of_neg (by simpa using ha)]
    rw [strtok, List.cons_append, hskip]
    simp only [htake', hdrop', List.tail_cons]
  · rw [strtok, hskip]
    simp only [htake, hdrop, List.tail_nil]

def tokensFuel (delims : List α) : ℕ → List α → List (List α)
  | 0, _ => []
  | n + 1, s =>
    match strtok delims s with
    | none => []
    | some (tok, rest) => tok :: tokensFuel delims n rest

/-- The tokens that calling `strtok` over and over finds. Each takes a character at least. -/
def tokens (delims s : List α) : List (List α) := tokensFuel delims s.length s

theorem tokensFuel_eq (delims : List α) {n m : ℕ} (hn : s.length ≤ n) (hm : s.length ≤ m) :
    tokensFuel delims n s = tokensFuel delims m s := by
  have hnil : strtok delims ([] : List α) = none := rfl
  induction n generalizing s m with
  | zero =>
    obtain rfl := List.length_eq_zero_iff.mp (Nat.le_zero.mp hn)
    cases m with
    | zero => rfl
    | succ m => rw [tokensFuel, tokensFuel, hnil]
  | succ n ih =>
    cases m with
    | zero =>
      obtain rfl := List.length_eq_zero_iff.mp (Nat.le_zero.mp hm)
      rw [tokensFuel, tokensFuel, hnil]
    | succ m =>
      rw [tokensFuel, tokensFuel]
      cases h : strtok delims s with
      | none => rfl
      | some p =>
        obtain ⟨hne, hle⟩ := length_of_strtok h
        have hpos := List.length_pos_of_ne_nil hne
        simp only [ih (s := p.2) (m := m) (by omega) (by omega)]

theorem tokens_eq (delims s : List α) :
    tokens delims s = match strtok delims s with
      | none => []
      | some (tok, rest) => tok :: tokens delims rest := by
  rw [tokens, tokensFuel_eq delims le_rfl (Nat.le_succ _), tokensFuel]
  cases h : strtok delims s with
  | none => rfl
  | some p =>
    obtain ⟨hne, hle⟩ := length_of_strtok h
    have hpos := List.length_pos_of_ne_nil hne
    simp only [tokens, tokensFuel_eq delims (s := p.2) (n := s.length) (by omega) le_rfl]

/-- Each token is found by a call on a part of the string. -/
theorem exists_strtok_of_mem_tokensFuel (h : tok ∈ tokensFuel delims n s) :
    ∃ u rest, u ⊆ s ∧ strtok delims u = some (tok, rest) := by
  induction n generalizing s with
  | zero => cases h
  | succ n ih =>
    rw [tokensFuel] at h
    split at h
    · cases h
    · next hstr =>
      rcases List.mem_cons.mp h with rfl | h
      · exact ⟨s, _, List.Subset.refl s, hstr⟩
      · obtain ⟨-, -, hrest, -⟩ := of_strtok hstr
        obtain ⟨u, rest, hu, hcall⟩ := ih h
        exact ⟨u, rest, List.Subset.trans hu hrest, hcall⟩

theorem subset_of_mem_tokens (h : tok ∈ tokens delims s) : tok ⊆ s := by
  obtain ⟨u, rest, hu, hcall⟩ := exists_strtok_of_mem_tokensFuel h
  exact List.Subset.trans (of_strtok hcall).2.1 hu

theorem ne_nil_of_mem_tokens (h : tok ∈ tokens delims s) : tok ≠ [] := by
  obtain ⟨u, rest, -, hcall⟩ := exists_strtok_of_mem_tokensFuel h
  exact (length_of_strtok hcall).1

theorem not_mem_of_mem_tokens (h : tok ∈ tokens delims s) : ∀ a ∈ tok, a ∉ delims := by
  obtain ⟨u, rest, -, hcall⟩ := exists_strtok_of_mem_tokensFuel h
  exact (of_strtok hcall).1

/-! ### Searching -/

theorem strstr_append_eq_none {p q : List α} (h : strstr p s = none) :
    strstr (p ++ q) s = none := by
  induction s with
  | nil =>
    rw [strstr] at h ⊢
    split at h
    · cases h
    · next hp => rw [if_neg fun hnil => hp (List.append_eq_nil_iff.mp hnil).1]
  | cons a s ih =>
    rw [strstr] at h ⊢
    split at h
    · cases h
    · next hp =>
      rw [if_neg fun hpre => hp ((List.prefix_append p q).trans hpre)]
      exact ih h

theorem strstr_of_prefix (h : needle <+: s) : strstr needle s = some s := by
  cases s with
  | nil => rw [strstr, if_pos (List.prefix_nil.mp h)]
  | cons a s => rw [strstr, if_pos h]

theorem of_strstr (h : strstr needle s = some t) : t <:+ s ∧ needle <+: t := by
  induction s with
  | nil =>
    rw [strstr] at h
    split at h
    case isTrue hnil => cases h; exact ⟨List.suffix_rfl, hnil ▸ List.prefix_rfl⟩
    case isFalse => cases h
  | cons a s ih =>
    rw [strstr] at h
    split at h
    case isTrue hpre => cases h; exact ⟨List.suffix_rfl, hpre⟩
    case isFalse => exact ⟨(ih h).1.trans (List.suffix_cons a s), (ih h).2⟩

/-- The needle does not reach into characters that it does not hold. -/
theorem strstr_append_right_eq_none (ht : ∀ b ∈ t, b ∉ needle) (h : strstr needle s = none) :
    strstr needle (s ++ t) = none := by
  induction s with
  | nil =>
    have hne : needle ≠ [] := by
      rintro rfl
      cases h
    rw [List.nil_append]
    cases hfound : strstr needle t with
    | none => rfl
    | some w =>
      obtain ⟨hsuffix, hpre⟩ := of_strstr hfound
      obtain ⟨b, needle, rfl⟩ := List.exists_cons_of_ne_nil hne
      have hb : b ∈ t := hsuffix.subset (hpre.subset List.mem_cons_self)
      exact absurd List.mem_cons_self (ht b hb)
  | cons a s ih =>
    rw [strstr] at h
    split at h
    case isTrue => cases h
    case isFalse hno =>
      rw [List.cons_append, strstr, if_neg ?_]
      · exact ih h
      · intro hpre
        rcases List.prefix_or_prefix_of_prefix hpre (List.prefix_append (a :: s) t) with hin | hin
        · exact hno hin
        · obtain ⟨w, rfl⟩ := hin
          rw [← List.cons_append, List.prefix_append_right_inj] at hpre
          cases w with
          | nil => exact hno (by rw [List.append_nil])
          | cons b w =>
            have hb : b ∈ t := hpre.subset List.mem_cons_self
            exact ht b hb (List.mem_append_right _ List.mem_cons_self)

/-- The character `e` is there once, and what is before it is not what is searched for. -/
theorem strstr_eq_none {n v : List α} {c d e : α} (hs : e ∉ s) (hv : e ∉ v) (hd : e ≠ d)
    (hc : c ≠ d) : strstr (n ++ [c, e]) (s ++ d :: e :: v) = none := by
  cases h : strstr (n ++ [c, e]) (s ++ d :: e :: v) with
  | none => rfl
  | some t =>
    obtain ⟨⟨u, hu⟩, w, hw⟩ := of_strstr h
    have hsplit : (s ++ [d]) ++ e :: v = (u ++ n ++ [c]) ++ e :: w := by
      rw [← hw] at hu
      simpa using hu.symm
    have hone : e ∉ s ++ [d] := by simpa using ⟨hs, hd⟩
    rcases List.append_eq_append_iff.mp hsplit with ⟨m, hm, hrest⟩ | ⟨m, hm, hrest⟩
    · cases m with
      | nil =>
        rw [List.append_nil] at hm
        exact absurd (List.append_inj_right' hm rfl) (by simpa using hc)
      | cons b m =>
        obtain ⟨-, hvm⟩ := List.cons.inj hrest
        exact absurd (hvm ▸ List.mem_append_right m List.mem_cons_self) hv
    · cases m with
      | nil =>
        rw [List.append_nil] at hm
        exact absurd (List.append_inj_right' hm rfl) (by simpa using hc.symm)
      | cons b m =>
        obtain ⟨rfl, -⟩ := List.cons.inj hrest
        exact absurd (hm ▸ List.mem_append_right _ List.mem_cons_self) hone

theorem isSome_strstr (s : List α) {needle t : List α} (h : needle <+: t) :
    (strstr needle (s ++ t)).isSome := by
  induction s with
  | nil =>
    cases t with
    | nil => simp [strstr, List.prefix_nil.mp h]
    | cons a t => simp [strstr, h]
  | cons a s ih =>
    rw [List.cons_append, strstr]
    split
    · rfl
    · exact ih

theorem strstr_of_prefix_none {needle s t : List α} (hs : s <+: t) (h : strstr needle t = none) :
    strstr needle s = none := by
  cases hfound : strstr needle s with
  | none => rfl
  | some u =>
    obtain ⟨⟨w, hw⟩, hpre⟩ := of_strstr hfound
    obtain ⟨v, rfl⟩ := hs
    have hsome := isSome_strstr w (hpre.trans (List.prefix_append u v))
    rw [← List.append_assoc, hw, h] at hsome
    cases hsome

/-! ### Tokens of composed strings -/

theorem strtok_append_left {ds : List α} (h : ∀ a ∈ ds, a ∈ delims) (s : List α) :
    strtok delims (ds ++ s) = strtok delims s := by
  unfold strtok
  rw [List.dropWhile_append_of_pos fun a ha => by simpa using h a ha]

theorem tokens_append_left {ds : List α} (h : ∀ a ∈ ds, a ∈ delims) (s : List α) :
    tokens delims (ds ++ s) = tokens delims s := by
  rw [tokens_eq, strtok_append_left h, ← tokens_eq]

/-- A delimiter separates what is before it from what is after it. -/
theorem tokens_append_cons {d : α} (hd : d ∈ delims) (s t : List α) :
    tokens delims (s ++ d :: t) = tokens delims s ++ tokens delims t := by
  induction hn : s.length using Nat.strong_induction_on generalizing s with
  | _ n ih =>
    have hsplit := List.takeWhile_append_dropWhile (p := (· ∈ delims)) (l := s)
    have hds : ∀ a ∈ s.takeWhile (· ∈ delims), a ∈ delims := fun a ha => by
      simpa using List.mem_takeWhile_imp ha
    cases hrest : s.dropWhile (· ∈ delims) with
    | nil =>
      -- only delimiters before it
      have hall : ∀ a ∈ s ++ [d], a ∈ delims := by
        intro a ha
        rcases List.mem_append.mp ha with ha | ha
        · rw [← hsplit, hrest, List.append_nil] at ha
          exact hds a ha
        · exact List.mem_singleton.mp ha ▸ hd
      have hs : strtok delims s = none := by rw [strtok, hrest]
      rw [tokens_eq delims s, hs, List.nil_append, tokens_eq, tokens_eq delims t,
        ← strtok_append_left hall t, List.append_assoc, List.singleton_append]
    | cons b u =>
      have hb : b ∉ delims := by
        have hhead := List.head_dropWhile_not (p := (· ∈ delims)) (l := s) (by rw [hrest]; simp)
        simpa [hrest] using hhead
      have htok := List.takeWhile_append_dropWhile (p := (· ∉ delims)) (l := b :: u)
      have hfree : ∀ a ∈ (b :: u).takeWhile (· ∉ delims), a ∉ delims := fun a ha => by
        simpa using List.mem_takeWhile_imp ha
      have hne : (b :: u).takeWhile (· ∉ delims) ≠ [] := by
        rw [List.takeWhile_cons, if_pos (by simpa using hb)]
        exact List.cons_ne_nil _ _
      have hstr (w : List α) : strtok delims (s ++ w) = strtok delims (b :: u ++ w) := by
        rw [← hrest, ← strtok_append_left hds (s.dropWhile (· ∈ delims) ++ w), ← List.append_assoc,
          hsplit]
      generalize (b :: u).takeWhile (· ∉ delims) = tok at htok hfree hne
      cases hafter : (b :: u).dropWhile (· ∉ delims) with
      | nil =>
        rw [hafter, List.append_nil] at htok
        have h1 := strtok_of_not_mem hne hfree hd t
        rw [tokens_eq, hstr, ← htok, h1.1, tokens_eq delims s, ← List.append_nil s, hstr,
          ← htok, List.append_nil, h1.2]
        rfl
      | cons e w =>
        have he : e ∈ delims := by
          have hhead := List.head?_dropWhile_not (· ∉ delims) (b :: u)
          rw [hafter] at hhead
          simpa using hhead
        rw [hafter] at htok
        have h1 := (strtok_of_not_mem hne hfree he (w ++ d :: t)).1
        have h2 := (strtok_of_not_mem hne hfree he w).1
        have hlt : w.length < n := by
          have hlen := congrArg List.length htok
          have hlen' := congrArg List.length hsplit
          rw [hrest, List.length_append] at hlen'
          simp only [List.length_append, List.length_cons] at hlen hlen'
          omega
        rw [tokens_eq, hstr, ← htok, List.append_assoc, List.cons_append, h1, tokens_eq delims s,
          ← List.append_nil s, hstr, ← htok, List.append_nil, h2]
        exact congrArg (tok :: ·) (ih _ hlt w rfl)

theorem strtok_map {β : Type} [DecidableEq β] {delims' : List β} {f : α → β}
    (hf : ∀ a, f a ∈ delims' ↔ a ∈ delims) (s : List α) :
    strtok delims' (s.map f) = (strtok delims s).map fun p => (p.1.map f, p.2.map f) := by
  have hin : ((· ∈ delims') : β → Bool) ∘ f = ((· ∈ delims) : α → Bool) := by
    funext a
    simp [hf]
  have hnot : ((· ∉ delims') : β → Bool) ∘ f = ((· ∉ delims) : α → Bool) := by
    funext a
    simp [hf]
  unfold strtok
  rw [List.dropWhile_map, hin]
  cases s.dropWhile (· ∈ delims) with
  | nil => rfl
  | cons a s =>
    simp only [List.map_cons]
    rw [← List.map_cons, List.takeWhile_map, List.dropWhile_map, hnot, ← List.map_tail]
    rfl

/-- Changing characters that are no delimiters changes the tokens in the same way. -/
theorem tokens_map {β : Type} [DecidableEq β] {delims' : List β} {f : α → β}
    (hf : ∀ a, f a ∈ delims' ↔ a ∈ delims) (s : List α) :
    tokens delims' (s.map f) = (tokens delims s).map (List.map f) := by
  induction hn : s.length using Nat.strong_induction_on generalizing s with
  | _ n ih =>
    rw [tokens_eq, tokens_eq delims, strtok_map hf]
    cases h : strtok delims s with
    | none => rfl
    | some p =>
      obtain ⟨hne, hle⟩ := length_of_strtok h
      have hpos := List.length_pos_of_ne_nil hne
      simp only [Option.map_some, List.map_cons]
      rw [ih p.2.length (by omega) p.2 rfl]

/-- The pieces that `fgets` reads, after `k` characters of the first one. -/
def readFrom (nl : α) (n : ℕ) : ℕ → List α → List (List α)
  | _, [] => []
  | k, a :: s =>
    if a = nl ∨ k = n then [a] :: readFrom nl n 0 s
    else match readFrom nl n (k + 1) s with
      | [] => [[a]]
      | c :: cs => (a :: c) :: cs

/-- The contents of a file in the pieces that `fgets` reads into a buffer of `n + 2` bytes. -/
def readLines (nl : α) (n : ℕ) (s : List α) : List (List α) := readFrom nl n 0 s

theorem of_mem_readFrom {k : ℕ} (hk : k ≤ n) :
    (∀ c ∈ readFrom nl n k s, c ≠ [] ∧ c.length ≤ n + 1 ∧ nl ∉ c.dropLast) ∧
      ∀ c ∈ (readFrom nl n k s).head?, c.length + k ≤ n + 1 := by
  induction s generalizing k with
  | nil => exact ⟨fun c hc => (by cases hc), fun c hc => (by cases hc)⟩
  | cons a s ih =>
    rw [readFrom]
    split
    case isTrue =>
      refine ⟨fun c hc => ?_, fun c hc => ?_⟩
      · rcases List.mem_cons.mp hc with rfl | hc
        · exact ⟨List.cons_ne_nil _ _, Nat.le_add_left _ _, List.not_mem_nil⟩
        · exact (ih (Nat.zero_le _)).1 c hc
      · cases hc
        rw [List.length_singleton]
        omega
    case isFalse hcond =>
      obtain ⟨ha, hne⟩ := not_or.mp hcond
      obtain ⟨hmem, hhead⟩ := ih (k := k + 1) (by omega)
      cases hread : readFrom nl n (k + 1) s with
      | nil =>
        refine ⟨fun c hc => ?_, fun c hc => ?_⟩
        · obtain rfl := List.mem_singleton.mp hc
          exact ⟨List.cons_ne_nil _ _, Nat.le_add_left _ _, List.not_mem_nil⟩
        · cases hc
          rw [List.length_singleton]
          omega
      | cons c cs =>
        rw [hread] at hmem hhead
        have hlen := hhead c rfl
        obtain ⟨hc, -, hnl⟩ := hmem c List.mem_cons_self
        refine ⟨fun d hd => ?_, fun d hd => ?_⟩
        · rcases List.mem_cons.mp hd with rfl | hd
          · refine ⟨List.cons_ne_nil _ _, by rw [List.length_cons]; omega, ?_⟩
            rw [List.dropLast_cons_of_ne_nil hc, List.mem_cons, not_or]
            exact ⟨fun h => ha h.symm, hnl⟩
          · exact hmem d (List.mem_cons_of_mem _ hd)
        · cases hd
          rw [List.length_cons]
          omega

/-- A piece is short, and a newline is at its end. -/
theorem of_mem_readLines {c : List α} (h : c ∈ readLines nl n s) :
    c ≠ [] ∧ c.length ≤ n + 1 ∧ nl ∉ c.dropLast :=
  (of_mem_readFrom (Nat.zero_le n)).1 c h

theorem readFrom_line {k : ℕ} (hnl : nl ∉ s) (hlen : s.length + k ≤ n) (rest : List α) :
    readFrom nl n k (s ++ nl :: rest) = (s ++ [nl]) :: readLines nl n rest := by
  induction s generalizing k with
  | nil => rw [List.nil_append, readFrom, if_pos (.inl rfl), List.nil_append, readLines]
  | cons a s ih =>
    obtain ⟨ha, hs⟩ := not_or.mp (fun h => hnl (List.mem_cons.mpr h))
    rw [List.length_cons] at hlen
    have hcond : ¬(a = nl ∨ k = n) := by
      rintro (h | h)
      · exact ha h.symm
      · omega
    rw [List.cons_append, readFrom, if_neg hcond, ih hs (by omega), List.cons_append]

/-- A line without its newline that fits into the buffer. -/
def Fits (nl : α) (n : ℕ) (s : List α) : Prop := nl ∉ s ∧ s.length ≤ n

theorem readLines_flatten {cs : List (List α)}
    (h : ∀ c ∈ cs, ∃ s, c = s ++ [nl] ∧ Fits nl n s) : readLines nl n cs.flatten = cs := by
  induction cs with
  | nil => rfl
  | cons c cs ih =>
    obtain ⟨s, rfl, hnl, hlen⟩ := h c List.mem_cons_self
    rw [List.flatten_cons, List.append_assoc, List.singleton_append]
    conv_rhs => rw [← ih fun d hd => h d (List.mem_cons_of_mem _ hd)]
    exact readFrom_line hnl hlen _

/-- The first piece of a line. -/
theorem head?_readFrom {k : ℕ} (hk : k ≤ n) (hne : s ≠ []) (hnl : nl ∉ s.dropLast) :
    (readFrom nl n k s).head? = some (s.take (n + 1 - k)) := by
  induction s generalizing k with
  | nil => exact absurd rfl hne
  | cons a s ih =>
    rw [readFrom]
    by_cases hs : s = []
    · subst hs
      have htake : [a].take (n + 1 - k) = [a] := List.take_of_length_le (by simp; omega)
      rw [htake]
      split <;> rfl
    · rw [List.dropLast_cons_of_ne_nil hs, List.mem_cons, not_or] at hnl
      by_cases hkn : k = n
      · rw [if_pos (.inr hkn), hkn, Nat.add_sub_cancel_left]
        rfl
      · have hcond : ¬(a = nl ∨ k = n) := by
          rintro (h | h)
          · exact hnl.1 h.symm
          · exact hkn h
        have hhead := ih (k := k + 1) (by omega) hs hnl.2
        have hlen : n + 1 - k = n + 1 - (k + 1) + 1 := by omega
        rw [if_neg hcond, hlen, List.take_succ_cons]
        cases hread : readFrom nl n (k + 1) s with
        | nil =>
          rw [hread] at hhead
          cases hhead
        | cons c cs =>
          rw [hread] at hhead
          obtain rfl := Option.some.inj hhead
          rfl

theorem readFrom_ne_nil (nl : α) (n k : ℕ) (hs : s ≠ []) : readFrom nl n k s ≠ [] := by
  obtain ⟨a, s, rfl⟩ := List.exists_cons_of_ne_nil hs
  rw [readFrom]
  split
  · exact List.cons_ne_nil _ _
  · split <;> exact List.cons_ne_nil _ _

theorem readFrom_append (nl : α) (n k : ℕ) (s rest : List α) : readFrom nl n k (s ++ nl :: rest) =
    readFrom nl n k (s ++ [nl]) ++ readLines nl n rest := by
  induction s generalizing k with
  | nil =>
    rw [List.nil_append, List.nil_append, readFrom, if_pos (.inl rfl), readFrom,
      if_pos (.inl rfl)]
    rfl
  | cons a s ih =>
    rw [List.cons_append, List.cons_append, readFrom, readFrom, ih]
    split
    case isTrue => rw [List.cons_append]
    case isFalse =>
      cases hread : readFrom nl n (k + 1) (s ++ [nl]) with
      | nil =>
        exact absurd hread (readFrom_ne_nil nl n _ (List.append_ne_nil_of_right_ne_nil s (by simp)))
      | cons c cs =>
        rw [ih, hread]
        rfl

/-- Each line of a file is begun by a piece of it. -/
theorem exists_piece_of_mem_splitOn {l : List α} (h : l ∈ s.splitOn nl) (hne : l ≠ []) :
    ∃ c ∈ readLines nl n s, c = (l ++ [nl]).take (n + 1) ∨ c = l.take (n + 1) := by
  induction hn : s.length using Nat.strong_induction_on generalizing s with
  | _ m ih =>
    by_cases hnl : nl ∈ s
    · obtain ⟨u, rest, rfl, hu⟩ := List.eq_append_cons_of_mem hnl
      rw [List.splitOn_append_cons_self, List.splitOn_eq_singleton hu, List.singleton_append] at h
      rw [readLines, readFrom_append]
      rcases List.mem_cons.mp h with rfl | h
      · have hfree : nl ∉ (l ++ [nl]).dropLast := by rwa [List.dropLast_concat]
        have hhead := head?_readFrom (Nat.zero_le n) (List.concat_ne_nil nl l) hfree
        exact ⟨_, List.mem_append_left _ (List.mem_of_mem_head? hhead), .inl rfl⟩
      · obtain ⟨c, hc, hcases⟩ := ih rest.length (by subst hn; simp; omega) h rfl
        exact ⟨c, List.mem_append_right _ hc, hcases⟩
    · rw [List.splitOn_eq_singleton hnl] at h
      obtain rfl := List.mem_singleton.mp h
      have hfree : nl ∉ l.dropLast := fun hmem => hnl (List.mem_of_mem_dropLast hmem)
      have hhead := head?_readFrom (Nat.zero_le n) hne hfree
      exact ⟨_, List.mem_of_mem_head? hhead, .inr rfl⟩

/-- Lines are read one after the other, however long they are. -/
theorem length_readLines_flatten {cs : List (List α)} (h : ∀ c ∈ cs, ∃ u, c = u ++ [nl]) :
    (readLines nl n cs.flatten).length = (cs.map fun c => (readLines nl n c).length).sum := by
  induction cs with
  | nil => rfl
  | cons c cs ih =>
    obtain ⟨u, rfl⟩ := h c List.mem_cons_self
    rw [List.flatten_cons, List.append_assoc, List.singleton_append, readLines, readFrom_append,
      List.length_append, ih fun d hd => h d (List.mem_cons_of_mem _ hd), List.map_cons,
      List.sum_cons, readLines]

omit [DecidableEq α] in
/-- A file that ends with a newline is made of lines. -/
theorem exists_lines (h : s = [] ∨ ∃ u, s = u ++ [nl]) :
    ∃ cs : List (List α), cs.flatten = s ∧ ∀ c ∈ cs, ∃ u, c = u ++ [nl] ∧ nl ∉ u := by
  induction hn : s.length using Nat.strong_induction_on generalizing s with
  | _ m ih =>
    rcases h with rfl | ⟨u, rfl⟩
    · exact ⟨[], rfl, fun c hc => by cases hc⟩
    · have hmem : nl ∈ u ++ [nl] := List.mem_append_right u (List.mem_singleton_self nl)
      obtain ⟨v, rest, heq, hv⟩ := List.eq_append_cons_of_mem hmem
      have hlen := congrArg List.length heq
      rw [hn] at hlen
      simp only [List.length_append, List.length_cons] at hlen
      have hrest : rest = [] ∨ ∃ w, rest = w ++ [nl] := by
        rcases List.eq_nil_or_concat rest with hnil | ⟨w, c, rfl⟩
        · exact .inl hnil
        · rw [List.concat_eq_append, ← List.cons_append, ← List.append_assoc] at heq
          obtain ⟨-, hc⟩ := List.append_inj' heq rfl
          exact .inr ⟨w, by rw [List.concat_eq_append, hc]⟩
      obtain ⟨cs, hflat, hcs⟩ := ih rest.length (by omega) hrest rfl
      refine ⟨(v ++ [nl]) :: cs, ?_, fun c hc => ?_⟩
      · rw [List.flatten_cons, hflat, heq, List.append_assoc, List.singleton_append]
      · rcases List.mem_cons.mp hc with rfl | hc
        · exact ⟨v, rfl, hv⟩
        · exact hcs c hc

end CString
