import OpenADK.Cfgfs.Status

/-!
# The comparison of `cfgfs status`

Both texts get a line for each name, so that after the sort the names of the two texts are the same.
Then the exit status depends on the checksums only.
-/

namespace OpenADK.Cfgfs

section
variable {a b : List Bytes} {x y z : Bytes}

/-! ### `comm` -/

theorem lt_trans_list (hxy : x < y) (hyz : y < z) : x < z := List.lt_trans hxy hyz

/-- The lines of a sorted list that are not in the other one. -/
theorem mem_comm (ha : a.Pairwise (· < ·)) (hb : b.Pairwise (· < ·)) :
    z ∈ comm a b ↔ z ∈ a ∧ z ∉ b := by
  induction a, b using comm.induct with
  | case1 b => simp [comm]
  | case2 a hnil =>
    rw [comm]
    · simp
    · exact hnil
  | case3 xs x ys ih =>
    obtain ⟨hx, hxs⟩ := List.pairwise_cons.mp ha
    obtain ⟨-, hys⟩ := List.pairwise_cons.mp hb
    rw [comm, if_pos rfl, ih hxs hys, List.mem_cons, List.mem_cons]
    constructor
    · rintro ⟨hz, hz'⟩
      have hne : z ≠ x := by
        rintro rfl
        exact List.lt_irrefl _ (hx z hz)
      exact ⟨.inr hz, not_or.mpr ⟨hne, hz'⟩⟩
    · rintro ⟨hz, hz'⟩
      obtain ⟨hne, hz'⟩ := not_or.mp hz'
      exact ⟨hz.resolve_left hne, hz'⟩
  | case4 x xs y ys hne hlt ih =>
    obtain ⟨-, hxs⟩ := List.pairwise_cons.mp ha
    obtain ⟨hy, -⟩ := List.pairwise_cons.mp hb
    have hx : x ∉ y :: ys := by
      intro h
      obtain rfl | h := List.mem_cons.mp h
      · exact hne rfl
      · exact List.lt_irrefl _ (lt_trans_list hlt (hy x h))
    rw [comm, if_neg hne, if_pos hlt, List.mem_cons, ih hxs hb, List.mem_cons (l := xs),
      or_and_right]
    refine or_congr_left ⟨?_, And.left⟩
    rintro rfl
    exact ⟨rfl, hx⟩
  | case5 x xs y ys hne hlt ih =>
    obtain ⟨hx, -⟩ := List.pairwise_cons.mp ha
    obtain ⟨-, hys⟩ := List.pairwise_cons.mp hb
    have hlt' : y < x := lt_of_le_of_ne_list (List.not_lt.mp hlt) (Ne.symm hne)
    have hy : y ∉ x :: xs := by
      intro h
      obtain rfl | h := List.mem_cons.mp h
      · exact hne rfl
      · exact List.lt_irrefl _ (lt_trans_list hlt' (hx y h))
    rw [comm, if_neg hne, if_neg hlt, ih ha hys, List.mem_cons (l := ys), not_or]
    refine and_congr_right fun hz => ⟨fun h => ⟨?_, h⟩, And.right⟩
    rintro rfl
    exact hy hz

theorem comm_sublist (a b : List Bytes) : (comm a b).Sublist a := by
  induction a, b using comm.induct with
  | case1 b => rw [comm]
  | case2 a hnil =>
    rw [comm]
    exact hnil
  | case3 xs x ys ih =>
    rw [comm, if_pos rfl]
    exact ih.cons x
  | case4 x xs y ys hne hlt ih =>
    rw [comm, if_neg hne, if_pos hlt]
    exact ih.cons_cons x
  | case5 x xs y ys hne hlt ih =>
    rw [comm, if_neg hne, if_neg hlt]
    exact ih

theorem nodup_of_lt (ha : a.Pairwise (· < ·)) : a.Nodup := by
  refine ha.imp fun {x y} h => ?_
  rintro rfl
  exact List.lt_irrefl _ h

/-- With what is missing, both lists are the same up to order. -/
theorem append_comm_perm (ha : a.Pairwise (· < ·)) (hb : b.Pairwise (· < ·)) :
    (a ++ comm b a).Perm (b ++ comm a b) := by
  have hnodup {a b : List Bytes} (ha : a.Pairwise (· < ·)) (hb : b.Pairwise (· < ·)) :
      (a ++ comm b a).Nodup := by
    refine List.nodup_append.mpr ⟨nodup_of_lt ha, (nodup_of_lt hb).sublist (comm_sublist b a), ?_⟩
    rintro x hx y hy rfl
    exact ((mem_comm hb ha).mp hy).2 hx
  refine (List.perm_ext_iff_of_nodup (hnodup ha hb) (hnodup hb ha)).mpr fun z => ?_
  rw [List.mem_append, List.mem_append, mem_comm hb ha, mem_comm ha hb]
  by_cases hza : z ∈ a <;> by_cases hzb : z ∈ b <;> simp [hza, hzb]

end

/-! ### The lines -/

def sumLine (r : Bytes × Bytes) : Bytes := r.1 ++ 32 :: r.2

/-- The name in the line for the input has a blank before it. -/
def unblank (x : Bytes) : Bytes := if x = ascii " -" then ascii "-" else x

def IsWord (s : Bytes) : Prop := Clean s ∧ s ≠ []

def IsRecord (r : Bytes × Bytes) : Prop := IsWord r.1 ∧ (IsWord r.2 ∨ r.2 = ascii " -")

def pairOf (line : Bytes) : Bytes × Bytes := readPair (line.map (·, false))

section
variable {s x : Bytes} {r r' : Bytes × Bytes}

theorem IsWord.ne_dash (h : IsWord x) : x ≠ ascii " -" := by
  rintro rfl
  exact absurd h.1 (by decide)

theorem unblank_word (h : IsWord x) : unblank x = x := if_neg h.ne_dash

theorem isWord_unblank (h : IsWord x ∨ x = ascii " -") : IsWord (unblank x) := by
  obtain h | rfl := h
  · rw [unblank_word h]
    exact h
  · exact ⟨by decide, by decide⟩

/-- The last character of a name is not blank. -/
theorem getLast_name (h : IsWord x ∨ x = ascii " -") (hne : x ≠ []) : x.getLast hne ≠ 32 := by
  obtain h | rfl := h
  · exact (h.1.ne (List.getLast_mem hne)).1
  · change (45 : UInt8) ≠ 32
    decide

theorem dropWhile_isSep_name (h : IsWord x ∨ x = ascii " -") :
    (x.map (·, false)).dropWhile isSep = (unblank x).map (·, false) := by
  obtain h | rfl := h
  · obtain ⟨b, x, rfl⟩ := List.exists_cons_of_ne_nil h.2
    have hb : ¬isSep (b, false) = true := fun hsep =>
      (h.1.ne List.mem_cons_self).1 (congrArg Prod.fst (of_decide_eq_true hsep))
    rw [unblank_word h, List.map_cons, List.dropWhile_cons_of_neg hb]
  · rfl

/-- The two variables get the checksum and the name. -/
theorem pairOf_sumLine (h : IsRecord r) : pairOf (sumLine r) = (r.1, unblank r.2) := by
  obtain ⟨s, x⟩ := r
  obtain ⟨⟨hs, hne⟩, hx⟩ := h
  have hsep : ∀ c ∈ s.map (·, false), (!isSep c) = true := by
    intro c hc
    obtain ⟨b, hb, rfl⟩ := List.mem_map.mp hc
    rw [Bool.not_eq_true', isSep, decide_eq_false_iff_not]
    exact fun h => (hs.ne hb).1 (congrArg Prod.fst h)
  have hfront : ((s ++ 32 :: x).map (·, false)).dropWhile isSep =
      (s ++ 32 :: x).map (·, false) := by
    obtain ⟨b, s, rfl⟩ := List.exists_cons_of_ne_nil hne
    rw [List.cons_append, List.map_cons]
    exact List.dropWhile_cons_of_neg fun h =>
      absurd (hsep (b, false) List.mem_cons_self) (by rw [h]; decide)
  have hnil : x ≠ [] := by
    rintro rfl
    have hdash : ([] : Bytes) ≠ ascii " -" := by decide
    exact hx.elim (fun h => h.2 rfl) hdash
  have hback : ((s ++ 32 :: x).map (·, false)).rdropWhile isSep =
      (s ++ 32 :: x).map (·, false) := by
    rw [List.rdropWhile_eq_self_iff]
    intro _ h
    rw [List.getLast_map, List.getLast_append_of_ne_nil _ (List.cons_ne_nil 32 x),
      List.getLast_cons hnil] at h
    exact getLast_name hx hnil (congrArg Prod.fst (of_decide_eq_true h))
  have hblank : (!isSep (32, false)) = false := by decide
  have hid (z : Bytes) : (z.map (·, false)).map Prod.fst = z := by
    rw [List.map_map]
    exact List.map_id z
  simp only [pairOf, sumLine, readPair]
  rw [hfront, hback, List.map_append, List.takeWhile_append_of_pos hsep,
    List.dropWhile_append_of_pos hsep, List.map_cons,
    List.takeWhile_cons_of_neg (by rw [hblank]; decide),
    List.dropWhile_cons_of_neg (by rw [hblank]; decide), List.append_nil, hid,
    List.dropWhile_cons_of_pos (by decide), dropWhile_isSep_name hx, hid]

theorem stripBlanks_name (h : IsWord x ∨ x = ascii " -") :
    stripBlanks (x.map (·, false)) = unblank x := by
  obtain h | rfl := h
  · rw [unblank_word h]
    apply stripBlanks_of_getLast
    · intro c hc
      have hne := h.1.ne (List.mem_of_mem_head? hc)
      exact ⟨hne.1, hne.2.1⟩
    · intro c hc
      have hne := h.1.ne (List.mem_of_mem_getLast? hc)
      exact ⟨hne.1, hne.2.1⟩
  · rfl

theorem readNames_unlines {names : List Bytes} (h : ∀ x ∈ names, IsWord x ∨ x = ascii " -") :
    readNames false [] (unlines names) = names.map unblank := by
  induction names with
  | nil => rfl
  | cons x names ih =>
    obtain ⟨hx, hnames⟩ := List.forall_mem_cons.mp h
    have hplain : newline ∉ x ∧ 92 ∉ x := by
      obtain hword | rfl := hx
      · exact ⟨fun hb => (hword.1.ne hb).2.2.1 rfl, fun hb => (hword.1.ne hb).2.2.2 rfl⟩
      · decide
    rw [unlines, List.flatMap_cons, List.append_assoc, List.singleton_append,
      readNames_append [] hplain.1 hplain.2, List.nil_append, stripBlanks_name hx]
    exact congrArg _ (ih hnames)

theorem sortKey_sumLine (h : IsRecord r) : sortKey (sumLine r) = 32 :: r.2 := by
  obtain ⟨s, x⟩ := r
  obtain ⟨⟨hs, hne⟩, -⟩ := h
  have hblank {b : UInt8} (hb : b ∈ s) : (b = 32 || b = 9) = false := by
    obtain ⟨h32, h9, -, -⟩ := hs.ne hb
    rw [decide_eq_false h32, decide_eq_false h9]
    rfl
  have hfront : (s ++ 32 :: x).dropWhile (fun b => b = 32 || b = 9) = s ++ 32 :: x := by
    obtain ⟨b, s, rfl⟩ := List.exists_cons_of_ne_nil hne
    exact List.dropWhile_cons_of_neg (by rw [hblank List.mem_cons_self]; exact Bool.false_ne_true)
  simp only [sortKey, sumLine]
  rw [hfront, List.dropWhile_append_of_pos fun b hb => by rw [hblank hb]; rfl]
  rfl

/-- The lines are in the order of what stands for the names. -/
theorem le_of_keyLe (h : IsRecord r) (h' : IsRecord r')
    (hle : keyLe (sumLine r) (sumLine r') = true) :
    r.2 ≤ r'.2 := by
  rw [keyLe, sortKey_sumLine h, sortKey_sumLine h', Bool.or_eq_true, Bool.and_eq_true,
    decide_eq_true_eq, decide_eq_true_eq] at hle
  obtain hlt | ⟨heq, -⟩ := hle
  · exact (List.cons_le_cons_iff.mp (List.le_of_lt hlt)).elim
      (fun h => absurd h (by decide)) And.right
  · rw [(List.cons.inj heq).2]
    exact List.le_refl _

theorem keyLe_trans {x y z : Bytes} (hxy : keyLe x y = true) (hyz : keyLe y z = true) :
    keyLe x z = true := by
  rw [keyLe, Bool.or_eq_true, Bool.and_eq_true, decide_eq_true_eq, decide_eq_true_eq,
    decide_eq_true_eq] at hxy hyz ⊢
  obtain hxy | ⟨hxy, hxy'⟩ := hxy
  · obtain hyz | ⟨hyz, -⟩ := hyz
    · exact .inl (lt_trans_list hxy hyz)
    · exact .inl (hyz ▸ hxy)
  · obtain hyz | ⟨hyz, hyz'⟩ := hyz
    · exact .inl (hxy ▸ hyz)
    · exact .inr ⟨hxy.trans hyz, List.le_trans hxy' hyz'⟩

theorem keyLe_total (x y : Bytes) : (keyLe x y || keyLe y x) = true := by
  simp only [keyLe, Bool.or_eq_true, Bool.and_eq_true, decide_eq_true_eq]
  by_cases heq : sortKey x = sortKey y
  · exact (List.le_total x y).imp (fun h => .inr ⟨heq, h⟩) fun h => .inr ⟨heq.symm, h⟩
  · by_cases hlt : sortKey x < sortKey y
    · exact .inl (.inl hlt)
    · exact .inr (.inl (lt_of_le_of_ne_list (List.not_lt.mp hlt) (Ne.symm heq)))

theorem pairwise_keyLe (lines : List Bytes) :
    (lines.mergeSort keyLe).Pairwise fun line line' => keyLe line line' = true :=
  @List.pairwise_mergeSort _ keyLe (fun _ _ _ => keyLe_trans) keyLe_total lines

end

/-! ### The loop -/

section
variable {quiet : Bool} {olds news : List (Bytes × Bytes)} {gotany : ℕ}

theorem compareLoop_of_names (hnames : olds.map Prod.snd = news.map Prod.snd) :
    compareLoop quiet olds news gotany = if olds = news then gotany else 8 := by
  induction olds generalizing news gotany with
  | nil =>
    have hnil : news = [] := List.map_eq_nil_iff.mp hnames.symm
    rw [compareLoop, hnil, if_pos rfl]
  | cons old olds ih =>
    cases news with
    | nil => exact absurd hnames (List.cons_ne_nil _ _)
    | cons new news =>
      obtain ⟨hname, hnames⟩ := List.cons.inj hnames
      rw [compareLoop, if_neg (not_not.mpr hname)]
      by_cases hsum : old.1 = new.1
      · have hold : old = new := Prod.ext hsum hname
        rw [if_pos hsum, ih hnames, hold]
        simp only [List.cons.injEq, true_and]
      · have hne : old :: olds ≠ new :: news := fun h =>
          hsum (congrArg Prod.fst (List.cons.inj h).1)
        rw [if_neg hsum, if_neg hne]
        cases quiet with
        | true => rfl
        | false => rw [if_neg Bool.false_ne_true, ih hnames, ite_self]

/-- All names are compared unless `-q` is given. -/
theorem compareLoop_of_ne (hlength : olds.length = news.length)
    (hnames : olds.map Prod.snd ≠ news.map Prod.snd) :
    compareLoop false olds news gotany = 255 := by
  induction olds generalizing news gotany with
  | nil =>
    have hnil : news = [] := List.length_eq_zero_iff.mp hlength.symm
    exact absurd (by rw [hnil]) hnames
  | cons old olds ih =>
    cases news with
    | nil => exact absurd hlength (Nat.succ_ne_zero _)
    | cons new news =>
      rw [compareLoop]
      by_cases hname : old.2 = new.2
      · have hrest : olds.map Prod.snd ≠ news.map Prod.snd := fun h =>
          hnames (congrArg₂ List.cons hname h)
        have hlength := Nat.succ.inj hlength
        rw [if_neg (not_not.mpr hname), ih hlength hrest, if_neg Bool.false_ne_true,
          ih hlength hrest, ite_self]
      · rw [if_pos hname]

end

/-! ### The records of a text -/

/-- The lines of one text, and what is added for the other one. -/
def records (d : Digest) (F G : RegularFiles) : List (Bytes × Bytes) :=
  (lineNames F).map (fun x => (sumOf d F x, x)) ++
    (comm (lineNames G) (lineNames F)).map fun y => (ascii "<NULL>", unblank y)

def pairs (d : Digest) (F G : RegularFiles) : List (Bytes × Bytes) :=
  readPairs ((completed (statusLines d F) (statusLines d G)).mergeSort keyLe)

theorem status_eq (d : Digest) (quiet : Bool) (saved current : RegularFiles) :
    status d quiet saved current =
      compareLoop quiet (pairs d saved current) (pairs d current saved) 0 := rfl

theorem isWord_hash (d : Digest) (data : Bytes) : IsWord (d.hash data) := by
  refine ⟨clean_hash d data, fun h => ?_⟩
  have hlength := d.length_hash data
  rw [h] at hlength
  exact absurd hlength (by decide)

theorem isWord_null : IsWord (ascii "<NULL>") := ⟨clean_null, by decide⟩

section
variable {d : Digest} {F G : RegularFiles} {x : Bytes} {r : Bytes × Bytes}

theorem isWord_sumOf : IsWord (sumOf d F x) := by
  unfold sumOf
  split
  · exact isWord_hash d _
  · exact isWord_hash d _

theorem lineNames_of_nil (h : keptNames F = []) : lineNames F = [ascii " -"] := if_pos h

theorem lineNames_of_ne (h : keptNames F ≠ []) : lineNames F = keptNames F := if_neg h

variable (hF : ∀ p ∈ keptNames F, IsWord p) (hG : ∀ p ∈ keptNames G, IsWord p)
include hF

theorem isWord_lineNames (hx : x ∈ lineNames F) : IsWord x ∨ x = ascii " -" := by
  by_cases hnil : keptNames F = []
  · rw [lineNames_of_nil hnil] at hx
    exact .inr (List.mem_singleton.mp hx)
  · rw [lineNames_of_ne hnil] at hx
    exact .inl (hF x hx)

theorem stripSum_statusLines : (statusLines d F).map stripSum = lineNames F := by
  rw [statusLines_eq fun p hp => (hF p hp).1, List.map_map]
  refine (List.map_congr_left fun x _ => ?_).trans (List.map_id _)
  change stripSum (sumOf d F x ++ 32 :: x) = x
  unfold sumOf
  split
  · exact stripSum_hash d _ x
  · exact stripSum_hash d _ x

include hG

theorem isRecord_records (hr : r ∈ records d F G) : IsRecord r := by
  obtain hr | hr := List.mem_append.mp hr
  · obtain ⟨x, hx, rfl⟩ := List.mem_map.mp hr
    exact ⟨isWord_sumOf, isWord_lineNames hF hx⟩
  · obtain ⟨y, hy, rfl⟩ := List.mem_map.mp hr
    have hmem := (comm_sublist _ _).mem hy
    exact ⟨isWord_null, .inl (isWord_unblank (isWord_lineNames hG hmem))⟩

theorem completed_eq : completed (statusLines d F) (statusLines d G) =
    (records d F G).map sumLine := by
  rw [completed, stripSum_statusLines hF, stripSum_statusLines hG,
    readNames_unlines fun y hy => isWord_lineNames hG ((comm_sublist _ _).mem hy),
    statusLines_eq fun p hp => (hF p hp).1, records, List.map_append, List.map_map, List.map_map,
    List.map_map]
  rfl

/-- The loop reads the records in the order of their lines. -/
theorem pairs_eq : pairs d F G =
    (((records d F G).map sumLine).mergeSort keyLe).map pairOf := by
  have hplain : ∀ line ∈ ((records d F G).map sumLine).mergeSort keyLe,
      ∀ b ∈ line, b ≠ newline ∧ b ≠ 92 := by
    intro line hline b hb
    obtain ⟨r, hr, rfl⟩ := List.mem_map.mp (List.mem_mergeSort.mp hline)
    obtain ⟨⟨hs, -⟩, hx⟩ := isRecord_records hF hG hr
    obtain hb | hb := List.mem_append.mp hb
    · exact (hs.ne hb).2.2
    · obtain rfl | hb := List.mem_cons.mp hb
      · decide
      · obtain hword | hdash := hx
        · exact (hword.1.ne hb).2.2
        · rw [hdash] at hb
          have hall : (ascii " -").all (fun b => b ≠ newline ∧ b ≠ 92) = true := by decide
          exact of_decide_eq_true (List.all_eq_true.mp hall b hb)
  rw [pairs, completed_eq hF hG, readPairs, readRaw_unlines hplain, List.map_map]
  rfl

theorem pairs_perm : (pairs d F G).Perm ((records d F G).map fun r => (r.1, unblank r.2)) := by
  have hperm := (List.mergeSort_perm ((records d F G).map sumLine) keyLe).map pairOf
  have hmap : ((records d F G).map sumLine).map pairOf =
      (records d F G).map fun r => (r.1, unblank r.2) := by
    rw [List.map_map]
    exact List.map_congr_left fun r hr => pairOf_sumLine (isRecord_records hF hG hr)
  rw [pairs_eq hF hG]
  rwa [hmap] at hperm

/-- Each text has the names of both. -/
theorem names_perm_append : ((pairs d F G).map Prod.snd).Perm
    ((lineNames F ++ comm (lineNames G) (lineNames F)).map unblank) := by
  have hnames : ((records d F G).map fun r => (r.1, unblank r.2)).map Prod.snd =
      (lineNames F ++ comm (lineNames G) (lineNames F)).map unblank := by
    rw [List.map_map, records, List.map_append, List.map_append, List.map_map, List.map_map]
    exact congrArg _ (List.map_congr_left fun y hy =>
      unblank_word (isWord_unblank (isWord_lineNames hG ((comm_sublist _ _).mem hy))))
  exact hnames ▸ (pairs_perm hF hG).map Prod.snd

theorem names_perm : ((pairs d F G).map Prod.snd).Perm ((pairs d G F).map Prod.snd) :=
  ((names_perm_append hF hG).trans
    ((append_comm_perm (pairwise_lineNames F) (pairwise_lineNames G)).map unblank)).trans
    (names_perm_append hG hF).symm

/-- The names are sorted if taking the blank away does not change the order. -/
theorem pairwise_names (horder : ∀ r ∈ records d F G, ∀ r' ∈ records d F G,
    r.2 ≤ r'.2 → unblank r.2 ≤ unblank r'.2) :
    ((pairs d F G).map Prod.snd).Pairwise (· ≤ ·) := by
  rw [pairs_eq hF hG, List.map_map, List.pairwise_map]
  refine (pairwise_keyLe _).imp_of_mem fun {line line'} hline hline' hle => ?_
  obtain ⟨r, hr, rfl⟩ := List.mem_map.mp (List.mem_mergeSort.mp hline)
  obtain ⟨r', hr', rfl⟩ := List.mem_map.mp (List.mem_mergeSort.mp hline')
  have hrecord := isRecord_records hF hG hr
  have hrecord' := isRecord_records hF hG hr'
  rw [Function.comp_apply, Function.comp_apply, pairOf_sumLine hrecord, pairOf_sumLine hrecord']
  exact horder r hr r' hr' (le_of_keyLe hrecord hrecord' hle)

end

end OpenADK.Cfgfs
