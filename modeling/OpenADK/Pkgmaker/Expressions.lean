import OpenADK.Pkgmaker.Config

/-!
# Dependencies on the target

Five loops of `pkgmaker` print an expression for a list of tokens. They differ in the prefix of the
symbols, and one of them in what a negated token becomes.
-/

namespace OpenADK.Pkgmaker
open CString

/-! ### The loops -/

/-- The second copy, for `Config.in.dev`. -/
def devArchLines : Option Bytes → List Bytes :=
  targetLine (str "!ADK_TARGET_ARCH") (str "ADK_TARGET_ARCH_")

/-- What a package with development files adds to `Config.in.dev`. -/
def devLines (libname : Bytes) (archDepends : Option Bytes) : List Bytes :=
  let pseudoName := libname ++ str "-dev" ++
    List.replicate (20 - (libname ++ str "-dev").length) (chr '.')
  [[newline], str "config ADK_PACKAGE_" ++ toupperstr libname ++ str "_DEV\n",
    str "\tprompt \"" ++ pseudoName ++ str ". development files for " ++ libname ++ str "\"\n",
    str "\tboolean\n"] ++
  devArchLines archDepends ++
  [str "\tdepends on ADK_PACKAGE_GCC && ADK_PACKAGE_" ++ toupperstr libname ++ [newline],
    str "\tdefault n\n"]

/-! ### The expressions -/

def Negated (token : Bytes) : Prop := str "!" <+: token

instance (token : Bytes) : Decidable (Negated token) := inferInstanceAs (Decidable (_ <+: _))

def term (pre token : Bytes) : Bytes :=
  if Negated token then str "!" ++ pre ++ str "_" ++ toupperstr (token.drop 1)
  else pre ++ str "_" ++ toupperstr token

def operator (token : Bytes) : Bytes := if Negated token then str " && " else str " || "

def joined (f : Bytes → Bytes) : List Bytes → Bytes
  | [] => []
  | [token] => f token
  | token :: ts => f token ++ operator token ++ joined f ts

def dependsOn (pre : Bytes) (ts : List Bytes) : Bytes :=
  str "\tdepends on " ++ joined (term pre) ts ++ [newline]

def emitters : List (Bytes × (Option Bytes → List Bytes)) :=
  [(str "ADK_TARGET_SYSTEM", systemLines), (str "ADK_HOST", hostLines),
    (str "ADK_TARGET_LIB", libcLines), (str "ADK_TARGET_ARCH", archLines),
    (str "ADK_TARGET_ARCH", devArchLines)]

/-- For this value all loops print the same expression, up to the prefix. -/
def SameUpToPrefix (value : Bytes) : Prop :=
  ∀ e ∈ emitters, e.2 (some value) = [dependsOn e.1 (tokens (str " ") value)]

variable {pre negated plain token : Bytes} {ts : List Bytes} {f g : Bytes → Bytes}

def printed (negated plain token : Bytes) : Bytes :=
  if Negated token then negated ++ toupperstr token else plain ++ toupperstr token

theorem joined_cons_cons (f : Bytes → Bytes) (token token' : Bytes) (ts : List Bytes) :
    joined f (token :: token' :: ts) = f token ++ operator token ++ joined f (token' :: ts) := rfl

theorem foldl_eq_joined (negated plain : Bytes) (ts : List Bytes) (line sp : Bytes) :
    (ts.foldl (fun (line, sp) token =>
      if str "!" <+: token then (line ++ sp ++ negated ++ toupperstr token, str " && ")
      else (line ++ sp ++ plain ++ toupperstr token, str " || ")) (line, sp)).1 =
      line ++ (if ts = [] then [] else sp ++ joined (printed negated plain) ts) := by
  induction ts generalizing line sp with
  | nil => rw [if_pos rfl, List.append_nil, List.foldl_nil]
  | cons token ts ih =>
    have hstep : (if str "!" <+: token then
        (line ++ sp ++ negated ++ toupperstr token, str " && ")
        else (line ++ sp ++ plain ++ toupperstr token, str " || ")) =
          (line ++ sp ++ printed negated plain token, operator token) := by
      unfold printed operator
      by_cases h : str "!" <+: token
      · have hneg : Negated token := h
        rw [if_pos h, if_pos hneg, if_pos hneg, List.append_assoc _ negated]
      · have hplain : ¬Negated token := h
        rw [if_neg h, if_neg hplain, if_neg hplain, List.append_assoc _ plain]
    rw [List.foldl_cons]
    simp only [hstep]
    rw [ih, if_neg (List.cons_ne_nil _ _)]
    cases ts with
    | nil => simp only [joined, if_true, List.append_nil, List.append_assoc]
    | cons token' ts =>
      rw [if_neg (List.cons_ne_nil _ _), joined_cons_cons]
      simp only [List.append_assoc]

theorem targetLine_eq (negated plain value : Bytes) : targetLine negated plain (some value) =
    [str "\tdepends on " ++ joined (printed negated plain) (tokens (str " ") value) ++
      [newline]] := by
  have hfold := foldl_eq_joined negated plain (tokens (str " ") value) [] []
  rw [List.nil_append] at hfold
  rw [targetLine, hfold]
  split
  case isTrue hnil => rw [hnil]; rfl
  case isFalse => rfl

/-- In the loops but one the negation becomes the separating underscore. -/
theorem printed_eq_term (pre token : Bytes) :
    printed (str "!" ++ pre) (pre ++ str "_") token = term pre token := by
  unfold printed term
  split
  case isTrue h =>
    obtain ⟨t, rfl⟩ := h
    have hupper : toupperstr (str "!" ++ t) = str "_" ++ toupperstr t := rfl
    have hdrop : (str "!" ++ t).drop 1 = t := rfl
    rw [hupper, hdrop, List.append_assoc _ _ (toupperstr t)]
  case isFalse => rfl

theorem length_printed (pre token : Bytes) :
    (printed (str "!" ++ pre ++ str "_") (pre ++ str "_") token).length =
      (term pre token).length + if Negated token then 1 else 0 := by
  rw [← printed_eq_term]
  unfold printed
  split
  · simp only [List.length_append, str]
    simp
    omega
  · rfl

theorem length_joined {n : Bytes → ℕ} (h : ∀ token, (f token).length = (g token).length + n token)
    (ts : List Bytes) : (joined f ts).length = (joined g ts).length + (ts.map n).sum := by
  induction ts with
  | nil => rfl
  | cons token ts ih =>
    cases ts with
    | nil => rw [joined, joined, h, List.map_singleton, List.sum_singleton]
    | cons token' ts =>
      rw [List.map_cons, List.sum_cons, joined_cons_cons, joined_cons_cons, List.length_append,
        List.length_append, ih, h, List.length_append, List.length_append]
      omega

theorem joined_congr (h : ∀ token ∈ ts, f token = g token) : joined f ts = joined g ts := by
  induction ts with
  | nil => rfl
  | cons token ts ih =>
    cases ts with
    | nil => exact h token List.mem_cons_self
    | cons token' ts =>
      rw [joined_cons_cons, joined_cons_cons, h token List.mem_cons_self,
        ih fun token ht => h token (List.mem_cons_of_mem _ ht)]

/-! ### The loops agree -/

theorem targetLine_eq_dependsOn (pre value : Bytes) :
    targetLine (str "!" ++ pre) (pre ++ str "_") (some value) =
      [dependsOn pre (tokens (str " ") value)] := by
  rw [targetLine_eq, dependsOn, funext (printed_eq_term pre)]

/-- The expressions for a list of tokens are the same up to the prefix if and only if none of the
tokens is negated. -/
theorem sameUpToPrefix_iff (value : Bytes) :
    SameUpToPrefix value ↔ ∀ token ∈ tokens (str " ") value, ¬Negated token := by
  have hlibc : libcLines (some value) =
      [dependsOn (str "ADK_TARGET_LIB") (tokens (str " ") value)] ↔
        ∀ token ∈ tokens (str " ") value, ¬Negated token := by
    have hlength := length_joined (length_printed (str "ADK_TARGET_LIB"))
      (tokens (str " ") value)
    have heq : libcLines (some value) = [str "\tdepends on " ++
        joined (printed (str "!" ++ str "ADK_TARGET_LIB" ++ str "_")
          (str "ADK_TARGET_LIB" ++ str "_")) (tokens (str " ") value) ++ [newline]] :=
      targetLine_eq _ _ value
    rw [heq, dependsOn, List.cons.injEq, List.append_cancel_right_eq, List.append_cancel_left_eq]
    constructor
    · rintro ⟨hjoined, -⟩ token htoken hneg
      rw [hjoined] at hlength
      have hone : 1 ∈ (tokens (str " ") value).map fun token => if Negated token then 1 else 0 :=
        List.mem_map.mpr ⟨token, htoken, if_pos hneg⟩
      have hpos := List.sum_pos_iff_exists_pos_nat.mpr ⟨1, hone, Nat.one_pos⟩
      omega
    · intro h
      refine ⟨joined_congr fun token htoken => ?_, rfl⟩
      rw [printed, term, if_neg (h token htoken), if_neg (h token htoken)]
  constructor
  · intro h
    exact hlibc.mp (h (str "ADK_TARGET_LIB", libcLines) (by simp [emitters]))
  · intro h e he
    simp only [emitters, List.mem_cons, List.not_mem_nil, or_false] at he
    rcases he with rfl | rfl | rfl | rfl | rfl
    · exact targetLine_eq_dependsOn (str "ADK_TARGET_SYSTEM") value
    · exact targetLine_eq_dependsOn (str "ADK_HOST") value
    · exact hlibc.mpr h
    · exact targetLine_eq_dependsOn (str "ADK_TARGET_ARCH") value
    · exact targetLine_eq_dependsOn (str "ADK_TARGET_ARCH") value

/-- A package for all C libraries but one. -/
theorem not_sameUpToPrefix_musl : ¬SameUpToPrefix (str "!musl") := by
  intro h
  have hlibc := h (str "ADK_TARGET_LIB", libcLines) (by simp [emitters])
  exact absurd hlibc (by decide +kernel)

end OpenADK.Pkgmaker
