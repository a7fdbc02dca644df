import OpenADK.Library.CString

/-!
# Texts of whole lines

What a file consists of whose lines all end with a newline, and what `splitOn` and `fgets` read
from it.
-/

namespace CString

section
variable {α : Type} [DecidableEq α] {nl : α}

def unlines (nl : α) (lines : List (List α)) : List α := lines.flatMap fun line => line ++ [nl]

theorem splitOn_unlines {lines : List (List α)} (h : ∀ line ∈ lines, nl ∉ line) :
    (unlines nl lines).splitOn nl = lines ++ [[]] := by
  induction lines with
  | nil => exact List.splitOn_nil nl
  | cons line lines ih =>
    obtain ⟨hline, hlines⟩ := List.forall_mem_cons.mp h
    have htext : unlines nl (line :: lines) = line ++ nl :: unlines nl lines := by
      rw [unlines, List.flatMap_cons, List.append_assoc, List.singleton_append]
      rfl
    rw [htext, List.splitOn_append_cons_self_of_not_mem hline, ih hlines, List.cons_append]

theorem not_mem_of_mem_splitOn {line text : List α} (h : line ∈ text.splitOn nl) : nl ∉ line := by
  induction hn : text.length using Nat.strong_induction_on generalizing text with
  | _ n ih =>
    by_cases hnl : nl ∈ text
    · obtain ⟨before, after, rfl, hbefore⟩ := List.eq_append_cons_of_mem hnl
      rw [List.splitOn_append_cons_self_of_not_mem hbefore] at h
      rcases List.mem_cons.mp h with rfl | h
      · exact hbefore
      · exact ih after.length (by subst hn; simp; omega) h rfl
    · rw [List.splitOn_eq_singleton hnl] at h
      rwa [List.mem_singleton.mp h]

/-- `fgets` reads lines that fit into its buffer one by one. -/
theorem readLines_unlines {n : ℕ} {lines : List (List α)} (h : ∀ line ∈ lines, Fits nl n line) :
    readLines nl n (unlines nl lines) = lines.map fun line => line ++ [nl] := by
  rw [unlines, List.flatMap_def]
  apply readLines_flatten
  intro piece hpiece
  obtain ⟨line, hline, rfl⟩ := List.mem_map.mp hpiece
  exact ⟨line, rfl, h line hline⟩

omit [DecidableEq α] in
theorem isPrefix_of_append_cons {c : α} {start text rest : List α} (h : start <+: text ++ c :: rest)
    (hc : c ∉ start) : start <+: text := by
  rcases List.prefix_or_prefix_of_prefix h (List.prefix_append text _) with h' | ⟨tail, rfl⟩
  · exact h'
  · cases tail with
    | nil => simp
    | cons d tail =>
      obtain ⟨rfl, -⟩ := List.cons_prefix_cons.mp ((List.prefix_append_right_inj text).mp h)
      exact absurd (List.mem_append_right _ List.mem_cons_self) hc

theorem eq_of_append_cons {c : α} {text text' rest rest' : List α} (h : c ∉ text)
    (h' : c ∉ text') (heq : text ++ c :: rest = text' ++ c :: rest') : text = text' := by
  have hsplit := congrArg (List.splitOn c) heq
  rw [List.splitOn_append_cons_self_of_not_mem h,
    List.splitOn_append_cons_self_of_not_mem h'] at hsplit
  exact (List.cons.inj hsplit).1

end

end CString
