import OpenADK.Kconfig.LineBuffer
import OpenADK.Kconfig.WriteConfig
import OpenADK.Kconfig.Finalized

/-!
# Lines with values

The line that `conf_write_symbol` prints for a symbol, and what `conf_read_simple` makes of it.
-/

namespace OpenADK.Kconfig
open LineBuffer (nul)

def isWordChar (c : Char) : Bool :=
  isDigit c || ('a' ≤ c && c ≤ 'z') || ('A' ≤ c && c ≤ 'Z') || c = '_' || c = '-' || c = '/' ||
    c = '.'

def IsWord (name : Text) : Prop := name ≠ [] ∧ ∀ c ∈ name, isWordChar c = true

theorem isWord_of_all {name : Text} (hne : name ≠ []) (h : name.all isWordChar = true) :
    IsWord name := ⟨hne, List.all_eq_true.mp h⟩

namespace SymbolTable
variable {ι : Type} [DecidableEq ι]

section
variable (G : SymbolTable ι)

/-- The lines that `conf_write_symbol` prints. -/
def printedLine (s : ι) (σ : State ι) : Text := (confWriteSymbol G s σ).1.flatMap (printItem G)

/-- The values that a symbol of each type can have. -/
def ValidValue (s : ι) (σ : State ι) : Prop :=
  match G.type s with
  | .string => '\n' ∉ (σ.sym s).curr.val.text ∧ nul ∉ (σ.sym s).curr.val.text
  | .int | .hex => symStringValid (G.type s) (σ.sym s).curr.val.text = true
  | .boolean => (σ.sym s).curr.tri ≠ .mod
  | .tristate => (σ.sym s).curr.tri = .mod →
      ((symCalcValue G G.modulesSym σ).sym G.modulesSym).curr.tri ≠ .no
  | _ => False

/-- The user's value is the value that a symbol has in `σ`. -/
def Stored (s : ι) (σ : State ι) (st : SymState ι) : Prop :=
  st.flagDefUser = true ∧
    match G.type s with
    | .boolean | .tristate => st.defUser.tri = (σ.sym s).curr.tri
    | _ => st.defUser.val = .str (σ.sym s).curr.val.text

/-- A line is read as one line, and it sets the value of the symbol and nothing else but what the
choice of the symbol is told. -/
structure ReadsBack (s : ι) (σ : State ι) (line : Text) : Prop where
  one : ∀ rest, confLines (line ++ rest) = line :: confLines rest
  stored : ∀ ρ, G.Stored s σ ((readLine G ρ line).state.sym s)
  frame : ∀ ρ t, t ≠ s → ¬(G.isChoiceValue s ∧ G.choiceOf s = some t) →
    (readLine G ρ line).state.sym t = ρ.state.sym t

/-- How a valid value is printed: as the comment that the symbol is not set, or as an assignment
that stores the value. -/
def Prints (name : Text) (s : ι) (σ : State ι) (line : Text) : Prop :=
  (line = ['#', ' '] ++ name ++ ' ' :: isNotSet ++ ['\n'] ∧
      (G.type s = .boolean ∨ G.type s = .tristate) ∧ (σ.sym s).curr.tri = .no) ∨
    ∃ value f, line = name ++ '=' :: value ++ ['\n'] ∧ '\n' ∉ value ∧ value.getLast? ≠ some '\r' ∧
      (∀ ρ : Reading ι, confSetSymVal G s value ρ = (true, ρ.modify s f)) ∧
        ∀ st, G.Stored s σ (f st)

/-- No symbol that `sym_find` takes is before the symbol in its chain. -/
def Foremost (s : ι) : Prop :=
  ∃ before after, G.symbolHash = before ++ s :: after ∧
    ∀ c ∈ before, (G.symbol c).name = (G.symbol s).name → (G.symbol c).flagConst = true

end

/-! ### Lines -/

theorem isWordChar_ne {c d : Char} (h : isWordChar c = true) (hd : isWordChar d = false) : c ≠ d := by
  rintro rfl
  rw [h] at hd
  cases hd

theorem strchr_append {c : Char} {name rest : Text} (h : c ∉ name) :
    strchr c (name ++ c :: rest) = some (name, rest) := by
  have hne : ∀ d ∈ name, decide (d ≠ c) = true := fun d hd =>
    decide_eq_true fun heq => h (heq ▸ hd)
  have hdrop : (c :: rest).dropWhile (fun a => decide (a ≠ c)) = c :: rest :=
    List.dropWhile_cons_of_neg (by simp)
  have htake : (c :: rest).takeWhile (fun a => decide (a ≠ c)) = [] :=
    List.takeWhile_cons_of_neg (by simp)
  unfold strchr
  rw [List.dropWhile_append_of_pos hne, hdrop]
  simp only
  rw [List.takeWhile_append_of_pos hne, htake, List.append_nil]

theorem chomp_append {value : Text} (h : '\n' ∉ value) (hlast : value.getLast? ≠ some '\r') :
    chomp (value ++ ['\n']) = value := by
  unfold chomp
  rw [strchr_append h]
  exact if_neg hlast

theorem confLines_append {line : Text} (h : '\n' ∉ line) (rest : Text) :
    confLines (line ++ ['\n'] ++ rest) = (line ++ ['\n']) :: confLines rest := by
  induction line with
  | nil => rw [List.nil_append, List.singleton_append, confLines, if_pos rfl]
  | cons c line ih =>
    rw [List.mem_cons, not_or] at h
    rw [List.cons_append, List.cons_append, confLines, if_neg (Ne.symm h.1), ih h.2]

theorem parseLine_assign {name value : Text} (hname : IsWord name) (h : '\n' ∉ value)
    (hlast : value.getLast? ≠ some '\r') :
    parseLine (name ++ '=' :: value ++ ['\n']) = .assign name value := by
  have heq : '=' ∉ name := fun hmem => absurd (hname.2 '=' hmem) (by decide)
  obtain ⟨c, cs, rfl⟩ := List.exists_cons_of_ne_nil hname.1
  have hc : c ≠ '#' := isWordChar_ne (hname.2 c List.mem_cons_self) (by decide)
  have hchr : strchr '=' (c :: cs ++ '=' :: value ++ ['\n']) = some (c :: cs, value ++ ['\n']) := by
    rw [List.append_assoc, List.cons_append]
    exact strchr_append heq
  unfold parseLine
  split
  · next hline => exact absurd (List.cons.inj hline).1 hc
  · next hline => exact absurd (List.cons.inj hline).1 hc
  · rw [hchr]
    simp only [chomp_append h hlast]

theorem parseLine_unset {name : Text} (hname : IsWord name) :
    parseLine (['#', ' '] ++ name ++ ' ' :: isNotSet ++ ['\n']) = .unset name := by
  have hblank : ' ' ∉ name := fun hmem => absurd (hname.2 ' ' hmem) (by decide)
  have hchr : strchr ' ' (name ++ ' ' :: isNotSet ++ ['\n']) = some (name, isNotSet ++ ['\n']) := by
    rw [List.append_assoc, List.cons_append]
    exact strchr_append hblank
  have hline : ['#', ' '] ++ name ++ ' ' :: isNotSet ++ ['\n'] =
      '#' :: ' ' :: (name ++ ' ' :: isNotSet ++ ['\n']) := by simp
  rw [hline, parseLine, hchr]
  rfl

theorem unescape_escape (v rest : Text) : unescape (escape v ++ '"' :: rest) = some v := by
  induction v with
  | nil => rfl
  | cons c v ih =>
    rw [escape]
    split
    · rw [List.cons_append, List.cons_append, unescape, ih]
      rfl
    · next hc =>
      rw [not_or] at hc
      rw [List.cons_append, unescape, ih]
      · rfl
      · exact hc.1
      · exact fun hb => absurd hb hc.2
      · exact fun _ _ hb => absurd hb hc.2

theorem not_mem_escape {c : Char} {v : Text} (h : c ∉ v) (hb : c ≠ '\\') : c ∉ escape v := by
  induction v with
  | nil => exact h
  | cons d v ih =>
    rw [List.mem_cons, not_or] at h
    rw [escape]
    split
    · rw [List.mem_cons, List.mem_cons, not_or, not_or]
      exact ⟨hb, h.1, ih h.2⟩
    · rw [List.mem_cons, not_or]
      exact ⟨h.1, ih h.2⟩

/-! ### Numbers are words -/

theorem isWordChar_of_isXDigit {c : Char} (h : isXDigit c = true) : isWordChar c = true := by
  simp only [isXDigit, Bool.or_eq_true, Bool.and_eq_true, decide_eq_true_eq] at h
  simp only [isWordChar, Bool.or_eq_true, Bool.and_eq_true, decide_eq_true_eq]
  rcases h with (h | ⟨h1, h2⟩) | ⟨h1, h2⟩
  · exact .inl (.inl (.inl (.inl (.inl (.inl h)))))
  · exact .inl (.inl (.inl (.inl (.inl (.inr ⟨h1, Nat.le_trans h2 (by decide : 102 ≤ 122)⟩)))))
  · exact .inl (.inl (.inl (.inl (.inr ⟨h1, Nat.le_trans h2 (by decide : 70 ≤ 90)⟩))))

theorem isWordChar_of_isDigit {c : Char} (h : isDigit c = true) : isWordChar c = true :=
  isWordChar_of_isXDigit (by rw [isXDigit, h, Bool.true_or, Bool.true_or])

theorem isWordChar_of_intValid {str : Text} (h : intValid str = true) :
    ∀ c ∈ str, isWordChar c = true := by
  have hdigits {str : Text} (h : intDigitsValid str = true) : ∀ c ∈ str, isWordChar c = true := by
    cases str with
    | nil => exact nofun
    | cons d cs =>
      simp only [intDigitsValid, Bool.and_eq_true, List.all_eq_true] at h
      intro c hc
      rcases List.mem_cons.mp hc with rfl | hc
      · exact isWordChar_of_isDigit h.1.1
      · exact isWordChar_of_isDigit (h.2 c hc)
  unfold intValid at h
  split at h
  · intro c hc
    rcases List.mem_cons.mp hc with rfl | hc
    · decide
    · exact hdigits h c hc
  · exact hdigits h

theorem isWordChar_of_hexValid {str : Text} (h : hexValid str = true) :
    ∀ c ∈ str, isWordChar c = true := by
  simp only [hexValid, Bool.and_eq_true, List.all_eq_true] at h
  have hdigits : ∀ c ∈ hexDigits str, isWordChar c = true := fun c hc =>
    isWordChar_of_isXDigit (h.2 c hc)
  unfold hexDigits at hdigits
  split at hdigits
  · intro c hc
    rcases List.mem_cons.mp hc with rfl | hc
    · decide
    rcases List.mem_cons.mp hc with rfl | hc
    · decide
    · exact hdigits c hc
  · intro c hc
    rcases List.mem_cons.mp hc with rfl | hc
    · decide
    rcases List.mem_cons.mp hc with rfl | hc
    · decide
    · exact hdigits c hc
  · exact hdigits

/-! ### Reading a line -/

section
variable {G : SymbolTable ι} {s t : ι} {σ : State ι}

omit [DecidableEq ι] in
theorem warnOverride_state (s : ι) (ρ : Reading ι) : (ρ.warnOverride s).state = ρ.state := by
  unfold Reading.warnOverride
  split <;> rfl

theorem tellChoice_sym (ρ : Reading ι) (h : ¬(G.isChoiceValue s ∧ G.choiceOf s = some t)) :
    (tellChoice G s ρ).state.sym t = ρ.state.sym t := by
  unfold tellChoice
  split
  · next cs hval hcs =>
    have hne : t ≠ cs := fun heq => h ⟨hval, heq ▸ hcs⟩
    cases htri : (ρ.state.sym s).defUser.tri
    all_goals
      simp only [Reading.modify_state, State.modify_sym_of_ne _ _ hne]
    · split
      · simp only [Reading.modify_state, State.modify_sym_of_ne _ _ hne, Reading.warn]
      · rfl
    · split <;> rfl
  · rfl

theorem flagDefUser_of_modify {ρ : Reading ι} {c : ι} {f : SymState ι → SymState ι}
    (h : ((ρ.modify c f).state.sym t).flagDefUser = true)
    (hf : ∀ st, (f st).flagDefUser = true → st.flagDefUser = true) :
    (ρ.state.sym t).flagDefUser = true := by
  rw [Reading.modify_state, State.modify_sym] at h
  split at h
  · exact hf _ h
  · exact h

/-- What the choice is told does not mark it as set by the user. -/
theorem flagDefUser_of_tellChoice {ρ : Reading ι}
    (h : ((tellChoice G s ρ).state.sym t).flagDefUser = true) :
    (ρ.state.sym t).flagDefUser = true := by
  unfold tellChoice at h
  split at h
  · simp only at h
    have h1 := flagDefUser_of_modify h fun _ hst => hst
    cases htri : (ρ.state.sym s).defUser.tri with
    | no =>
      rw [htri] at h1
      exact h1
    | mod =>
      rw [htri] at h1
      simp only at h1
      split at h1
      · exact flagDefUser_of_modify h1 fun _ hst => Bool.noConfusion hst
      · exact h1
    | yes =>
      rw [htri] at h1
      simp only at h1
      have h2 := flagDefUser_of_modify h1 fun _ hst => hst
      split at h2
      · exact h2
      · exact h2
  · exact h

theorem confSetSymVal_sym_of_ne (p : Text) (ρ : Reading ι) (h : t ≠ s) :
    (confSetSymVal G s p ρ).2.state.sym t = ρ.state.sym t := by
  have htri (tri : Tristate) : (ρ.setTri s tri).state.sym t = ρ.state.sym t := by
    rw [Reading.setTri, Reading.modify_state, State.modify_sym_of_ne _ _ h]
  have hval (val : Text) : (ρ.setVal s val).state.sym t = ρ.state.sym t := by
    rw [Reading.setVal, Reading.modify_state, State.modify_sym_of_ne _ _ h]
  unfold confSetSymVal
  split
  · split
    · exact htri _
    · exact htri _
    · exact htri _
    · rfl
  · split
    · exact htri _
    · exact htri _
    · rfl
  · split
    · split
      · exact hval _
      · rfl
    · rfl
  · split
    · exact hval _
    · rfl
  · split
    · exact hval _
    · rfl
  · rfl

omit [DecidableEq ι] in
/-- A member of a choice is not its own choice. -/
theorem Finalized.choiceOf_ne_self (hG : G.Finalized) (s : ι) :
    ¬(G.isChoiceValue s ∧ G.choiceOf s = some s) := by
  rintro ⟨hval, hself⟩
  obtain ⟨hmem, hchoice⟩ := hG.memberOf s s hval hself
  rw [(hG.memberType s s hchoice hmem).2.2] at hchoice
  cases hchoice

theorem readsBack_of_modify (hG : G.Finalized) {line : Text} (f : SymState ι → SymState ι)
    (hone : ∀ rest, confLines (line ++ rest) = line :: confLines rest)
    (hread : ∀ ρ, readLine G ρ line = tellChoice G s ((ρ.warnOverride s).modify s f))
    (hf : ∀ st, G.Stored s σ (f st)) : G.ReadsBack s σ line := by
  refine ⟨hone, fun ρ => ?_, fun ρ t ht hchoice => ?_⟩
  · rw [hread, tellChoice_sym _ (hG.choiceOf_ne_self s), Reading.modify_state,
      State.modify_sym_self]
    exact hf _
  · rw [hread, tellChoice_sym _ hchoice, Reading.modify_state, State.modify_sym_of_ne _ _ ht,
      warnOverride_state]

variable {name : Text}

/-- An assignment to a symbol that `sym_find` finds. -/
theorem readsBack_of_assign (hG : G.Finalized) (hname : IsWord name)
    (hfind : symFind G name = some s) {value : Text} (h : '\n' ∉ value)
    (hlast : value.getLast? ≠ some '\r') (f : SymState ι → SymState ι)
    (hset : ∀ ρ, confSetSymVal G s value ρ = (true, ρ.modify s f))
    (hf : ∀ st, G.Stored s σ (f st)) :
    G.ReadsBack s σ (name ++ '=' :: value ++ ['\n']) := by
  have hline : '\n' ∉ name ++ '=' :: value := by
    rw [List.mem_append, List.mem_cons, not_or, not_or]
    exact ⟨fun hmem => absurd (hname.2 _ hmem) (by decide), by decide, h⟩
  refine readsBack_of_modify hG f (confLines_append hline) (fun ρ => ?_) hf
  rw [readLine, parseLine_assign hname h hlast]
  simp only [hfind, hset, if_true]

theorem readsBack_of_unset (hG : G.Finalized) (hname : IsWord name)
    (hfind : symFind G name = some s) (htype : G.type s = .boolean ∨ G.type s = .tristate)
    (htri : (σ.sym s).curr.tri = .no) :
    G.ReadsBack s σ (['#', ' '] ++ name ++ ' ' :: isNotSet ++ ['\n']) := by
  have hline : '\n' ∉ ['#', ' '] ++ name ++ ' ' :: isNotSet := by
    rw [List.mem_append, List.mem_append, not_or, not_or]
    exact ⟨⟨by decide, fun hmem => absurd (hname.2 _ hmem) (by decide)⟩, by decide⟩
  refine readsBack_of_modify hG
    (fun st => { st with defUser := { st.defUser with tri := .no }, flagDefUser := true })
    (confLines_append hline) (fun ρ => ?_) fun st => ⟨rfl, ?_⟩
  · rw [readLine, parseLine_unset hname]
    simp only [hfind, if_pos htype]
    rfl
  · rcases htype with htype | htype <;> rw [htype] <;> exact htri.symm

theorem printedLine_eq (σ : State ι) (hname : (G.symbol s).name = some name)
    (hother : G.type s ≠ .other) (hunknown : G.type s ≠ .unknown) :
    G.printedLine s σ = if G.type s = .string then
        printSymbol name .string
          ('"' :: escape (symGetStringValue G (symCalcValue G) s σ).1 ++ ['"'])
      else printSymbol name (G.type s) (symGetStringValue G (symCalcValue G) s σ).1 := by
  unfold printedLine confWriteSymbol
  split
  · next h => exact absurd h hother
  · next h => exact absurd h hunknown
  · simp only [List.flatMap_cons, List.flatMap_nil, List.append_nil, printItem, hname,
      Option.getD_some]

/-- The line of a value that does not begin with `n`, or of a symbol that is no boolean one. -/
theorem printSymbol_assign {type : SymType} {value : Text}
    (h : ¬((type = .boolean ∨ type = .tristate) ∧ value.head? = some 'n')) :
    printSymbol name type value = name ++ '=' :: value ++ ['\n'] := if_neg h

theorem prints_string (hname : (G.symbol s).name = some name) (htype : G.type s = .string)
    (hvalid : '\n' ∉ (σ.sym s).curr.val.text) : G.Prints name s σ (G.printedLine s σ) := by
  have hvalue : (symGetStringValue G (symCalcValue G) s σ).1 = (σ.sym s).curr.val.text := by
    rw [symGetStringValue, htype]
  refine .inr ⟨'"' :: escape (σ.sym s).curr.val.text ++ ['"'], fun st => { st with
    defUser := { st.defUser with val := .str (σ.sym s).curr.val.text }, flagDefUser := true },
    ?_, ?_, ?_, fun ρ => ?_, fun st => ⟨rfl, ?_⟩⟩
  · rw [printedLine_eq σ hname (by rw [htype]; decide) (by rw [htype]; decide), if_pos htype, hvalue]
    apply printSymbol_assign
    rintro ⟨h | h, -⟩ <;> cases h
  · rw [List.cons_append, List.mem_cons, List.mem_append, List.mem_singleton, not_or, not_or]
    exact ⟨by decide, not_mem_escape hvalid (by decide), by decide⟩
  · rw [List.getLast?_concat]
    decide
  · unfold confSetSymVal
    rw [htype]
    simp only [List.cons_append, unescape_escape]
    rfl
  · rw [htype]

theorem prints_number (hname : (G.symbol s).name = some name)
    (htype : G.type s = .int ∨ G.type s = .hex)
    (hvalid : symStringValid (G.type s) (σ.sym s).curr.val.text = true) :
    G.Prints name s σ (G.printedLine s σ) := by
  have hvalue : (symGetStringValue G (symCalcValue G) s σ).1 = (σ.sym s).curr.val.text := by
    rcases htype with htype | htype <;> rw [symGetStringValue, htype]
  have hchars : ∀ c ∈ (σ.sym s).curr.val.text, isWordChar c = true := by
    rcases htype with htype | htype <;> rw [htype] at hvalid
    · exact isWordChar_of_intValid hvalid
    · exact isWordChar_of_hexValid hvalid
  have hne : G.type s ≠ .other ∧ G.type s ≠ .unknown ∧ G.type s ≠ .string ∧
      ¬(G.type s = .boolean ∨ G.type s = .tristate) := by
    rcases htype with htype | htype <;> rw [htype] <;> decide
  refine .inr ⟨(σ.sym s).curr.val.text, fun st => { st with
    defUser := { st.defUser with val := .str (σ.sym s).curr.val.text }, flagDefUser := true },
    ?_, ?_, ?_, fun ρ => ?_, fun st => ⟨rfl, ?_⟩⟩
  · rw [printedLine_eq σ hname hne.1 hne.2.1, if_neg hne.2.2.1, hvalue]
    exact printSymbol_assign fun h => hne.2.2.2 h.1
  · exact fun hmem => absurd (hchars _ hmem) (by decide)
  · exact fun hlast => absurd (hchars _ (List.mem_of_getLast? hlast)) (by decide)
  · unfold confSetSymVal
    rcases htype with htype | htype <;> rw [htype] at hvalid ⊢ <;> simp only [hvalid] <;> rfl
  · rcases htype with htype | htype <;> rw [htype]

/-- A tristate is printed as a letter. -/
theorem prints_tri (hname : (G.symbol s).name = some name)
    (htype : G.type s = .boolean ∨ G.type s = .tristate) {c : Char}
    (hvalue : (symGetStringValue G (symCalcValue G) s σ).1 = [c])
    (hc : (c = 'n' ∧ (σ.sym s).curr.tri = .no) ∨ (c = 'y' ∧ (σ.sym s).curr.tri = .yes) ∨
      (c = 'm' ∧ (σ.sym s).curr.tri = .mod ∧ G.type s = .tristate)) :
    G.Prints name s σ (G.printedLine s σ) := by
  have hne : G.type s ≠ .other ∧ G.type s ≠ .unknown ∧ G.type s ≠ .string := by
    rcases htype with htype | htype <;> rw [htype] <;> decide
  have hprint : G.printedLine s σ = printSymbol name (G.type s) [c] := by
    rw [printedLine_eq σ hname hne.1 hne.2.1, if_neg hne.2.2, hvalue]
  have hassign (tri : Tristate) (hcn : c ≠ 'n') (hnl : c ≠ '\n') (hcr : c ≠ '\r')
      (hset : ∀ ρ : Reading ι, confSetSymVal G s [c] ρ = (true, ρ.setTri s tri))
      (htri : (σ.sym s).curr.tri = tri) : G.Prints name s σ (G.printedLine s σ) := by
    have hhead : ¬((G.type s = .boolean ∨ G.type s = .tristate) ∧ [c].head? = some 'n') :=
      fun h => hcn (Option.some.inj h.2)
    rw [hprint, printSymbol_assign hhead]
    refine .inr ⟨[c], fun st => { st with
      defUser := { st.defUser with tri := tri }, flagDefUser := true }, rfl, ?_, ?_, hset,
      fun st => ⟨rfl, ?_⟩⟩
    · exact fun hmem => hnl (List.mem_singleton.mp hmem).symm
    · exact fun hlast => hcr (Option.some.inj hlast)
    · rcases htype with htype | htype <;> rw [htype] <;> exact htri.symm
  rcases hc with ⟨rfl, htri⟩ | ⟨rfl, htri⟩ | ⟨rfl, htri, htristate⟩
  · refine .inl ⟨?_, htype, htri⟩
    rw [hprint, printSymbol, if_pos ⟨htype, rfl⟩]
  · refine hassign .yes (by decide) (by decide) (by decide) (fun ρ => ?_) htri
    unfold confSetSymVal
    rcases htype with htype | htype <;> rw [htype] <;> rfl
  · refine hassign .mod (by decide) (by decide) (by decide) (fun ρ => ?_) htri
    unfold confSetSymVal
    rw [htristate]
    rfl

/-- A valid value is printed so that it can be read. -/
theorem prints_printedLine (hname : (G.symbol s).name = some name) (hvalid : G.ValidValue s σ) :
    G.Prints name s σ (G.printedLine s σ) := by
  unfold ValidValue at hvalid
  cases htype : G.type s with
  | string =>
    rw [htype] at hvalid
    exact prints_string hname htype hvalid.1
  | int =>
    rw [htype] at hvalid
    exact prints_number hname (.inl htype) (by rw [htype]; exact hvalid)
  | hex =>
    rw [htype] at hvalid
    exact prints_number hname (.inr htype) (by rw [htype]; exact hvalid)
  | boolean =>
    rw [htype] at hvalid
    cases htri : (σ.sym s).curr.tri with
    | no =>
      have hvalue : (symGetStringValue G (symCalcValue G) s σ).1 = ['n'] := by
        simp only [symGetStringValue, htype, htri]
      exact prints_tri hname (.inl htype) hvalue (.inl ⟨rfl, htri⟩)
    | yes =>
      have hvalue : (symGetStringValue G (symCalcValue G) s σ).1 = ['y'] := by
        simp only [symGetStringValue, htype, htri]
      exact prints_tri hname (.inl htype) hvalue (.inr (.inl ⟨rfl, htri⟩))
    | mod => exact absurd htri hvalid
  | tristate =>
    rw [htype] at hvalid
    cases htri : (σ.sym s).curr.tri with
    | no =>
      have hvalue : (symGetStringValue G (symCalcValue G) s σ).1 = ['n'] := by
        simp only [symGetStringValue, htype, htri]
      exact prints_tri hname (.inr htype) hvalue (.inl ⟨rfl, htri⟩)
    | yes =>
      have hvalue : (symGetStringValue G (symCalcValue G) s σ).1 = ['y'] := by
        simp only [symGetStringValue, htype, htri]
      exact prints_tri hname (.inr htype) hvalue (.inr (.inl ⟨rfl, htri⟩))
    | mod =>
      have hvalue : (symGetStringValue G (symCalcValue G) s σ).1 = ['m'] := by
        simp only [symGetStringValue, htype, htri, if_neg (hvalid htri)]
      exact prints_tri hname (.inr htype) hvalue (.inr (.inr ⟨rfl, htri, htype⟩))
  | unknown | other =>
    rw [htype] at hvalid
    exact hvalid.elim

theorem Prints.readsBack (hG : G.Finalized) (hword : IsWord name) (hfind : symFind G name = some s)
    {line : Text} (h : G.Prints name s σ line) : G.ReadsBack s σ line := by
  obtain ⟨rfl, htype, htri⟩ | ⟨value, f, rfl, hnl, hcr, hset, hf⟩ := h
  · exact readsBack_of_unset hG hword hfind htype htri
  · exact readsBack_of_assign hG hword hfind hnl hcr f hset hf

/-- The line names the symbol. -/
theorem Prints.name_eq (hword : IsWord name) {line : Text} (h : G.Prints name s σ line) {n : Text}
    (hparse : parseLine line = .unset n ∨ ∃ v, parseLine line = .assign n v) : n = name := by
  obtain ⟨rfl, htype, htri⟩ | ⟨value, f, rfl, hnl, hcr, hset, hf⟩ := h
  · rw [parseLine_unset hword] at hparse
    rcases hparse with heq | ⟨v, heq⟩ <;> cases heq
    rfl
  · rw [parseLine_assign hword hnl hcr] at hparse
    rcases hparse with heq | ⟨v, heq⟩ <;> cases heq
    rfl

/-! ### The symbol that is found -/

omit [DecidableEq ι] in
theorem symFind_eq_some_iff (hname : (G.symbol s).name = some name)
    (hconst : (G.symbol s).flagConst = false)
    (hplain : name ≠ ['y'] ∧ name ≠ ['m'] ∧ name ≠ ['n']) :
    symFind G name = some s ↔ G.Foremost s := by
  have hfind : symFind G name =
      G.symbolHash.find? fun s => (G.symbol s).name = some name ∧ ¬(G.symbol s).flagConst := by
    unfold symFind
    split
    · exact absurd rfl hplain.1
    · exact absurd rfl hplain.2.1
    · exact absurd rfl hplain.2.2
    · rfl
  rw [hfind, List.find?_eq_some_iff_append]
  unfold Foremost
  constructor
  · rintro ⟨-, before, after, heq, hbefore⟩
    refine ⟨before, after, heq, fun c hc hsame => ?_⟩
    have hnot := hbefore c hc
    rw [Bool.not_eq_true', decide_eq_false_iff_not, not_and_not_right] at hnot
    exact hnot (hsame.trans hname)
  · rintro ⟨before, after, heq, hbefore⟩
    refine ⟨decide_eq_true ⟨hname, by rw [hconst]; exact Bool.false_ne_true⟩, before, after, heq,
      fun c hc => ?_⟩
    rw [Bool.not_eq_true', decide_eq_false_iff_not, not_and_not_right]
    exact fun hsame => hbefore c hc (hsame.trans hname.symm)

/-- A line of another symbol does not set the value of this one. -/
theorem flagDefUser_of_readLine {line : Text} {ρ : Reading ι}
    (hne : ∀ name, parseLine line = .unset name ∨ (∃ v, parseLine line = .assign name v) →
      symFind G name ≠ some s)
    (h : ((readLine G ρ line).state.sym s).flagDefUser = true) :
    (ρ.state.sym s).flagDefUser = true := by
  unfold readLine at h
  split at h
  · exact h
  · next name hline =>
    split at h
    · exact h
    · next t ht =>
      have hts : s ≠ t := fun heq => hne name (.inl hline) (heq ▸ ht)
      have h1 := flagDefUser_of_tellChoice h
      split at h1
      · rwa [Reading.setTri, Reading.modify_state, State.modify_sym_of_ne _ _ hts,
          warnOverride_state] at h1
      · rwa [warnOverride_state] at h1
  · next name value hline =>
    split at h
    · exact h
    · next t ht =>
      have hts : s ≠ t := fun heq => hne name (.inr ⟨value, hline⟩) (heq ▸ ht)
      have hset := confSetSymVal_sym_of_ne (G := G) value (ρ.warnOverride t) hts
      simp only at h
      split at h
      · have h1 := flagDefUser_of_tellChoice h
        rwa [hset, warnOverride_state] at h1
      · rwa [hset, warnOverride_state] at h

/-- When the line of a value is read back; no line is read beyond its end. -/
theorem valueLine_iff_foremost (hG : G.Finalized) (hname : (G.symbol s).name = some name)
    (hword : IsWord name) (hplain : name ≠ ['y'] ∧ name ≠ ['m'] ∧ name ≠ ['n'])
    (hconst : (G.symbol s).flagConst = false) (hvalid : G.ValidValue s σ) :
    (G.ReadsBack s σ (G.printedLine s σ) ∧
        ∀ type p, nul ∉ p → (LineBuffer.confSetSymVal type (p ++ [nul])).isSome) ↔
      G.Foremost s := by
  have hprints := prints_printedLine hname hvalid
  rw [← symFind_eq_some_iff hname hconst hplain]
  constructor
  · rintro ⟨hreads, -⟩
    by_contra hfind
    have hstored := (hreads.stored ⟨⟨fun _ => {}, .no, 0⟩, 0⟩).1
    have hset := flagDefUser_of_readLine (fun n hn => hprints.name_eq hword hn ▸ hfind) hstored
    cases hset
  · intro hfind
    exact ⟨hprints.readsBack hG hword hfind, fun type p hp => LineBuffer.isSome_confSetSymVal type hp⟩

end
end SymbolTable

namespace NamedChoice

/-- The symbols of a tree with a string `FOO` and a choice of the same name. -/
inductive Name
  | y | m | n | foo | choice
  deriving DecidableEq

open Name

/-- The tree with the chain of the hash table that holds both. -/
def table (chain : List Name) : SymbolTable Name where
  symbolYes := y
  symbolMod := m
  symbolNo := n
  symbolHash := chain
  modulesSym := n
  symbol
    | y => { name := some ['y'], type := .unknown, flagConst := true }
    | m => { name := some ['m'], type := .unknown, flagConst := true }
    | n => { name := some ['n'], type := .unknown, flagConst := true }
    | foo =>
      { name := some ['F', 'O', 'O']
        type := .string
        prop := [{ type := .symbol, expr := .expr (.symbol foo), menu := some 1 }]
        flagOptional := true }
    | choice =>
      { name := some ['F', 'O', 'O']
        type := .boolean
        prop := [{ type := .choice, expr := .list [], menu := some 2 }]
        flagChoice := true }

def state : State Name where
  sym
    | y => { curr := ⟨.str ['y'], .yes⟩, flagValid := true }
    | m => { curr := ⟨.str ['m'], .mod⟩, flagValid := true }
    | n => { curr := ⟨.str ['n'], .no⟩, flagValid := true }
    | foo => { curr := ⟨.str ['a', '"'], .no⟩, flagValid := true, flagWrite := true }
    | choice => {}
  modulesVal := .no
  changeCount := 0

theorem finalized {chain : List Name} (h : chain = [foo, choice] ∨ chain = [choice, foo]) :
    (table chain).Finalized where
  complete s := by rcases h with rfl | rfl <;> cases s <;> simp [SymbolTable.symbols, table]
  yes_not_mem := by rcases h with rfl | rfl <;> simp [table]
  mod_not_mem := by rcases h with rfl | rfl <;> simp [table]
  no_not_mem := by rcases h with rfl | rfl <;> simp [table]
  constants := by simp [table]
  modules := .inl rfl
  type_ne_other s := by cases s <;> simp [SymbolTable.type, table]
  choiceType s hs := by cases s <;> simp [SymbolTable.type, SymbolTable.isChoice, table] at hs ⊢
  choice_mem c hc := by
    rcases h with rfl | rfl <;> cases c <;> simp [SymbolTable.isChoice, table] at hc ⊢
  memberOf s c hs := by cases s <;> simp [SymbolTable.isChoiceValue, table] at hs
  member c s hc hs := by
    cases c <;> simp [SymbolTable.isChoice, table] at hc
    exact absurd hs List.not_mem_nil
  memberType c s hc hs := by
    cases c <;> simp [SymbolTable.isChoice, table] at hc
    exact absurd hs List.not_mem_nil

theorem isWord : IsWord ['F', 'O', 'O'] := isWord_of_all (by decide) (by decide)

theorem validValue (chain : List Name) : (table chain).ValidValue foo state :=
  ⟨by decide, by decide⟩

/-- A choice that is behind the symbol. -/
theorem valueLine_choice_first :
    ((table [foo, choice]).ReadsBack foo state ((table [foo, choice]).printedLine foo state) ∧
        ∀ type p, nul ∉ p → (LineBuffer.confSetSymVal type (p ++ [nul])).isSome) ↔
      (table [foo, choice]).Foremost foo :=
  SymbolTable.valueLine_iff_foremost (finalized (.inl rfl)) rfl isWord (by decide) rfl
    (validValue [foo, choice])

/-- The line of a symbol is read into a choice that is in front of it. -/
theorem not_readsBack :
    ¬∀ (G : SymbolTable Name) (s : Name) (σ : State Name) (name : Text), G.Finalized →
      (G.symbol s).name = some name → IsWord name → name ≠ ['y'] ∧ name ≠ ['m'] ∧ name ≠ ['n'] →
      (G.symbol s).flagConst = false → G.ValidValue s σ →
      G.ReadsBack s σ (G.printedLine s σ) ∧
        ∀ type p, nul ∉ p → (LineBuffer.confSetSymVal type (p ++ [nul])).isSome := by
  intro h
  have hreads := (h (table [choice, foo]) foo state ['F', 'O', 'O'] (finalized (.inr rfl)) rfl isWord
    (by decide) rfl (validValue [choice, foo])).1
  have hstored := (hreads.stored ⟨state, 0⟩).1
  revert hstored
  decide

end NamedChoice
end OpenADK.Kconfig
