import OpenADK.Cfgfs.Compare

/-!
# When `cfgfs status` is right
-/

namespace OpenADK.Cfgfs

/-! ### The names that are kept -/

section
variable {d : Digest} {F G : RegularFiles} {p y : Bytes} {r : Bytes × Bytes}

def AllTame (F : RegularFiles) : Prop := ∀ e ∈ F.entries, Tame e.1

theorem dropped_of_excepted (h : Excepted p) : dropped (ascii "./" ++ p) = true := by
  obtain ⟨rest, rfl⟩ | rfl := h
  · have hprefix : ascii "cfgfs" <+: ascii "cfgfs" ++ rest := List.prefix_append _ _
    change (decide (slash = slash) && (decide (ascii "cfgfs" <+: ascii "cfgfs" ++ rest) ||
      decide (ascii "cfgfs" ++ rest = ascii "rnd"))) = true
    rw [decide_eq_true rfl, decide_eq_true hprefix]
    rfl
  · decide

theorem mem_keptNames_of_tame (hF : AllTame F) :
    p ∈ keptNames F ↔ (∃ data, (p, data) ∈ F.entries) ∧ ¬Excepted p := by
  rw [mem_keptNames]
  refine and_congr_right fun ⟨data, hentry⟩ => ⟨fun hdropped hexcepted => ?_, fun hexcepted => ?_⟩
  · rw [dropped_of_excepted hexcepted] at hdropped
    exact absurd hdropped (by decide)
  · exact ((hF _ hentry).resolve_left hexcepted).2

theorem isWord_keptNames (hF : AllTame F) : ∀ p ∈ keptNames F, IsWord p := by
  intro p hp
  obtain ⟨⟨data, hentry⟩, hexcepted⟩ := (mem_keptNames_of_tame hF).mp hp
  exact ⟨((hF _ hentry).resolve_left hexcepted).1, (F.isName _ hentry).1⟩

theorem keptNames_eq_nil_iff (hF : AllTame F) : keptNames F = [] ↔ NoFiles F := by
  rw [List.eq_nil_iff_forall_not_mem]
  constructor
  · intro h e he
    by_contra hexcepted
    exact h e.1 ((mem_keptNames_of_tame hF).mpr ⟨⟨e.2, he⟩, hexcepted⟩)
  · intro h p hp
    obtain ⟨⟨data, hentry⟩, hexcepted⟩ := (mem_keptNames_of_tame hF).mp hp
    exact hexcepted (h _ hentry)

theorem hasEarly_of_mem (hF : AllTame F) (hy : y ∈ keptNames F) (hearly : IsEarly y) :
    HasEarly F := by
  obtain ⟨⟨data, hentry⟩, hexcepted⟩ := (mem_keptNames_of_tame hF).mp hy
  exact ⟨_, hentry, hexcepted, hearly⟩

/-! ### The same state -/

theorem statusLines_of_sameState (hF : AllTame F) (hG : AllTame G) (h : SameState F G) :
    statusLines d F = statusLines d G := by
  have hmem (p : Bytes) : p ∈ keptNames F ↔ p ∈ keptNames G := by
    rw [mem_keptNames_of_tame hF, mem_keptNames_of_tame hG]
    exact and_congr_left fun hexcepted => exists_congr fun data => h p data hexcepted
  have hkept : keptNames F = keptNames G :=
    ((List.perm_ext_iff_of_nodup (nodup_of_lt (pairwise_keptNames F))
      (nodup_of_lt (pairwise_keptNames G))).mpr hmem).eq_of_pairwise
      (fun _ _ _ _ hlt hlt' => absurd (lt_trans_list hlt hlt') (List.lt_irrefl _))
      (pairwise_keptNames F) (pairwise_keptNames G)
  have hlines : lineNames F = lineNames G := by rw [lineNames, lineNames, hkept]
  rw [statusLines_eq fun p hp => (isWord_keptNames hF p hp).1,
    statusLines_eq fun p hp => (isWord_keptNames hG p hp).1, ← hlines]
  refine List.map_congr_left fun x hx => ?_
  by_cases hnil : keptNames F = []
  · rw [sumOf, sumOf, ← hkept, if_pos hnil, if_pos hnil]
  · rw [lineNames_of_ne hnil] at hx
    obtain ⟨⟨data, hentry⟩, hexcepted⟩ := (mem_keptNames_of_tame hF).mp hx
    rw [sumOf, sumOf, ← hkept, if_neg hnil, if_neg hnil, contentOf_eq hentry,
      contentOf_eq ((h x data hexcepted).mp hentry)]

/-! ### The records if there is no file -/

theorem records_of_nil (hG : AllTame G) (hnil : keptNames F = []) (hr : r ∈ records d F G) :
    r = (d.hash [], ascii " -") ∨ ∃ y ∈ keptNames G, r = (ascii "<NULL>", y) := by
  obtain hr | hr := List.mem_append.mp hr
  · obtain ⟨x, hx, rfl⟩ := List.mem_map.mp hr
    rw [lineNames_of_nil hnil] at hx
    rw [List.mem_singleton.mp hx, sumOf, if_pos hnil]
    exact .inl rfl
  · obtain ⟨y, hy, rfl⟩ := List.mem_map.mp hr
    rw [mem_comm (pairwise_lineNames G) (pairwise_lineNames F), lineNames_of_nil hnil,
      List.mem_singleton] at hy
    obtain ⟨hy, hdash⟩ := hy
    by_cases hnil' : keptNames G = []
    · rw [lineNames_of_nil hnil', List.mem_singleton] at hy
      exact absurd hy hdash
    · rw [lineNames_of_ne hnil'] at hy
      exact .inr ⟨y, hy, by rw [unblank_word (isWord_keptNames hG y hy)]⟩

theorem records_of_ne (hF : AllTame F) (hG : AllTame G) (hne : keptNames F ≠ [])
    (hr : r ∈ records d F G) : IsWord r.2 := by
  obtain hr | hr := List.mem_append.mp hr
  · obtain ⟨x, hx, rfl⟩ := List.mem_map.mp hr
    rw [lineNames_of_ne hne] at hx
    exact isWord_keptNames hF x hx
  · obtain ⟨y, hy, rfl⟩ := List.mem_map.mp hr
    exact isWord_unblank (isWord_lineNames (isWord_keptNames hG) ((comm_sublist _ _).mem hy))

/-! ### The order of the names -/

theorem dash_le_iff (hy : IsWord y) (hearly : ¬IsEarly y) :
    (ascii " -" ≤ y → ascii "-" ≤ y) ∧ (y ≤ ascii " -" → y ≤ ascii "-") := by
  obtain ⟨b, y, rfl⟩ := List.exists_cons_of_ne_nil hy.2
  have hblank : b ≠ 32 := (hy.1.ne List.mem_cons_self).1
  have hb : ¬(32 < b ∧ b < 45) := fun h => hearly ⟨b, rfl, h⟩
  change (32 :: [45] ≤ b :: y → 45 :: [] ≤ b :: y) ∧ (b :: y ≤ 32 :: [45] → b :: y ≤ 45 :: [])
  simp only [List.cons_le_cons_iff]
  constructor
  · rintro (hlt | ⟨heq, -⟩)
    · obtain rfl | hne := eq_or_ne b 45
      · exact .inr ⟨rfl, List.nil_le y⟩
      · exact .inl (UInt8.lt_of_le_of_ne (UInt8.not_lt.mp fun h => hb ⟨hlt, h⟩) (Ne.symm hne))
    · exact absurd heq.symm hblank
  · rintro (hlt | ⟨heq, -⟩)
    · exact .inl (UInt8.lt_trans hlt (by decide))
    · exact absurd heq hblank

theorem order_records (hF : AllTame F) (hG : AllTame G)
    (hearly : keptNames F = [] → ∀ y ∈ keptNames G, ¬IsEarly y) :
    ∀ r ∈ records d F G, ∀ r' ∈ records d F G, r.2 ≤ r'.2 → unblank r.2 ≤ unblank r'.2 := by
  intro r hr r' hr' hle
  by_cases hnil : keptNames F = []
  · have hdash : unblank (ascii " -") = ascii "-" := rfl
    obtain rfl | ⟨y, hy, rfl⟩ := records_of_nil hG hnil hr
    · obtain rfl | ⟨y', hy', rfl⟩ := records_of_nil hG hnil hr'
      · exact List.le_refl _
      · have hword := isWord_keptNames hG y' hy'
        rw [hdash, unblank_word hword]
        exact (dash_le_iff hword (hearly hnil y' hy')).1 hle
    · have hword := isWord_keptNames hG y hy
      obtain rfl | ⟨y', hy', rfl⟩ := records_of_nil hG hnil hr'
      · rw [hdash, unblank_word hword]
        exact (dash_le_iff hword (hearly hnil y hy)).2 hle
      · rw [unblank_word hword, unblank_word (isWord_keptNames hG y' hy')]
        exact hle
  · rw [unblank_word (records_of_ne hF hG hnil hr), unblank_word (records_of_ne hF hG hnil hr')]
    exact hle

/-- Both texts have the same names in the same order. -/
theorem names_eq (hF : AllTame F) (hG : AllTame G)
    (hearly : keptNames F = [] → ∀ y ∈ keptNames G, ¬IsEarly y)
    (hearly' : keptNames G = [] → ∀ y ∈ keptNames F, ¬IsEarly y) :
    (pairs d F G).map Prod.snd = (pairs d G F).map Prod.snd :=
  (names_perm (isWord_keptNames hF) (isWord_keptNames hG)).eq_of_pairwise
    (fun _ _ _ _ hle hle' => List.le_antisymm hle hle')
    (pairwise_names (isWord_keptNames hF) (isWord_keptNames hG) (order_records hF hG hearly))
    (pairwise_names (isWord_keptNames hG) (isWord_keptNames hF) (order_records hG hF hearly'))

/-- If there is no file in one state, its line comes before all names, also before those that begin
with an early character. -/
theorem names_ne (hF : AllTame F) (hG : AllTame G) (hnil : keptNames F = []) (hy : y ∈ keptNames G)
    (hearly : IsEarly y) : (pairs d F G).map Prod.snd ≠ (pairs d G F).map Prod.snd := by
  intro heq
  have hwordF := isWord_keptNames hF
  have hwordG := isWord_keptNames hG
  have hsorted : ((pairs d F G).map Prod.snd).Pairwise (· ≤ ·) := by
    rw [heq]
    exact pairwise_names hwordG hwordF
      (order_records hG hF fun h => absurd (h ▸ hy) List.not_mem_nil)
  rw [pairs_eq hwordF hwordG, List.map_map, List.pairwise_map] at hsorted
  have hword := hwordG y hy
  have hinput : (d.hash [], ascii " -") ∈ records d F G := by
    refine List.mem_append_left _ (List.mem_map.mpr ⟨ascii " -", ?_, ?_⟩)
    · rw [lineNames_of_nil hnil]
      exact List.mem_singleton_self _
    · rw [sumOf, if_pos hnil]
  have hnull : (ascii "<NULL>", y) ∈ records d F G := by
    refine List.mem_append_right _ (List.mem_map.mpr ⟨y, ?_, by rw [unblank_word hword]⟩)
    rw [mem_comm (pairwise_lineNames G) (pairwise_lineNames F), lineNames_of_nil hnil,
      List.mem_singleton, lineNames_of_ne (List.ne_nil_of_mem hy)]
    exact ⟨hy, hword.ne_dash⟩
  have hrecord := isRecord_records hwordF hwordG hinput
  have hrecord' := isRecord_records hwordF hwordG hnull
  have hline {r : Bytes × Bytes} (hr : r ∈ records d F G) :
      sumLine r ∈ ((records d F G).map sumLine).mergeSort keyLe :=
    List.mem_mergeSort.mpr (List.mem_map_of_mem hr)
  have hne : sumLine (d.hash [], ascii " -") ≠ sumLine (ascii "<NULL>", y) := by
    intro h
    have hkey := congrArg sortKey h
    rw [sortKey_sumLine hrecord, sortKey_sumLine hrecord'] at hkey
    exact hword.ne_dash (List.cons.inj hkey).2.symm
  obtain ⟨b, y, rfl⟩ := List.exists_cons_of_ne_nil hword.2
  obtain ⟨b', hb', hb⟩ := hearly
  obtain rfl : b = b' := Option.some.inj hb'
  -- the line for the input is one of the two, and it comes first
  let R (line line' : Bytes) : Prop :=
    (keyLe line line' = true ∧ (pairOf line).2 ≤ (pairOf line').2) ∨
      keyLe line' line = true ∧ (pairOf line').2 ≤ (pairOf line).2
  have hsymm : Std.Symm R := ⟨fun _ _ => Or.symm⟩
  have hpairwise : (((records d F G).map sumLine).mergeSort keyLe).Pairwise R :=
    ((pairwise_keyLe _).and hsorted).imp .inl
  obtain ⟨-, hle⟩ | ⟨hkey, -⟩ := hpairwise.forall (hline hinput) (hline hnull) hne
  · rw [pairOf_sumLine hrecord, pairOf_sumLine hrecord', unblank_word hword] at hle
    obtain hlt | ⟨heq, -⟩ := List.cons_le_cons_iff.mp hle
    · exact absurd (UInt8.lt_trans hb.2 hlt) (UInt8.lt_irrefl _)
    · exact absurd (heq ▸ hb.2) (UInt8.lt_irrefl _)
  · obtain hlt | ⟨heq, -⟩ := List.cons_le_cons_iff.mp (le_of_keyLe hrecord' hrecord hkey)
    · exact absurd (UInt8.lt_trans hb.1 hlt) (UInt8.lt_irrefl _)
    · exact absurd (heq ▸ hb.1) (UInt8.lt_irrefl _)

/-! ### Different states -/

theorem hash_ne_null (d : Digest) (data : Bytes) : d.hash data ≠ ascii "<NULL>" := by
  intro h
  have hlength := d.length_hash data
  rw [h] at hlength
  exact absurd hlength (by decide)

theorem mem_pairs (hF : AllTame F) (hG : AllTame G) (hp : p ∈ keptNames F) :
    (d.hash (contentOf F p), p) ∈ pairs d F G := by
  have hne := List.ne_nil_of_mem hp
  have hword := isWord_keptNames hF
  rw [(pairs_perm hword (isWord_keptNames hG)).mem_iff, List.mem_map]
  refine ⟨_, List.mem_append_left _ (List.mem_map_of_mem ((lineNames_of_ne hne).symm ▸ hp)), ?_⟩
  rw [sumOf, if_neg hne, unblank_word (hword p hp)]

/-- A checksum is that of a file or of the input. -/
theorem of_mem_pairs {data : Bytes} (hF : AllTame F) (hG : AllTame G)
    (h : (d.hash data, p) ∈ pairs d F G) :
    p ∈ keptNames F ∧ d.hash data = d.hash (contentOf F p) ∨
      keptNames F = [] ∧ p = ascii "-" ∧ d.hash data = d.hash [] := by
  rw [(pairs_perm (isWord_keptNames hF) (isWord_keptNames hG)).mem_iff] at h
  obtain ⟨r, hr, heq⟩ := List.mem_map.mp h
  obtain ⟨hsum, hname⟩ := Prod.mk.inj heq
  obtain hr | hr := List.mem_append.mp hr
  · obtain ⟨x, hx, rfl⟩ := List.mem_map.mp hr
    by_cases hnil : keptNames F = []
    · rw [lineNames_of_nil hnil, List.mem_singleton] at hx
      rw [sumOf, if_pos hnil] at hsum
      rw [hx] at hname
      exact .inr ⟨hnil, hname.symm, hsum.symm⟩
    · rw [lineNames_of_ne hnil] at hx
      rw [sumOf, if_neg hnil] at hsum
      rw [unblank_word (isWord_keptNames hF x hx)] at hname
      subst hname
      exact .inl ⟨hx, hsum.symm⟩
  · obtain ⟨y, -, rfl⟩ := List.mem_map.mp hr
    exact absurd hsum.symm (hash_ne_null d data)

theorem mergeSort_pair {α : Type} {le : α → α → Bool} {a b : α} (h : le a b = false) :
    [a, b].mergeSort le = [b, a] := by
  simp [List.mergeSort, h]

/-- Not even a file named `-` with no content looks like the line for the input. -/
theorem pairs_ne (hF : AllTame F) (hG : AllTame G) (hnil : keptNames F = [])
    (hne : keptNames G ≠ []) : pairs d F G ≠ pairs d G F := by
  intro heq
  have hdash (y : Bytes) (hy : y ∈ keptNames G) :
      y = ascii "-" ∧ d.hash (contentOf G y) = d.hash [] := by
    obtain ⟨hy', -⟩ | ⟨-, h⟩ := of_mem_pairs hF hG (heq ▸ mem_pairs hG hF hy)
    · exact absurd (hnil ▸ hy') List.not_mem_nil
    · exact h
  have hkept : keptNames G = [ascii "-"] := by
    obtain ⟨y, names, hcons⟩ := List.exists_cons_of_ne_nil hne
    have hnodup := nodup_of_lt (pairwise_keptNames G)
    rw [hcons] at hnodup hdash
    obtain ⟨rfl, -⟩ := hdash y List.mem_cons_self
    have hnames : names = [] := List.eq_nil_iff_forall_not_mem.mpr fun z hz => by
      obtain ⟨rfl, -⟩ := hdash z (List.mem_cons_of_mem _ hz)
      exact (List.nodup_cons.mp hnodup).1 hz
    rw [hcons, hnames]
  have hsum : sumOf d G (ascii "-") = d.hash [] := by
    rw [sumOf, if_neg hne]
    exact (hdash _ (hkept ▸ List.mem_singleton_self _)).2
  have hlt : ascii " -" < ascii "-" := by decide
  have hrecords : records d F G = [(d.hash [], ascii " -"), (ascii "<NULL>", ascii "-")] := by
    rw [records, lineNames_of_nil hnil, lineNames_of_ne hne, hkept, comm, if_neg (by decide),
      if_neg (by decide), comm, List.map_singleton, sumOf, if_pos hnil]
    · rfl
    · exact List.cons_ne_nil _ _
  have hrecords' : records d G F = [(d.hash [], ascii "-"), (ascii "<NULL>", ascii "-")] := by
    rw [records, lineNames_of_nil hnil, lineNames_of_ne hne, hkept, comm, if_neg (by decide),
      if_pos hlt, comm, List.map_singleton, hsum]
    rfl
  have hpairs : pairs d F G = [(d.hash [], ascii "-"), (ascii "<NULL>", ascii "-")] := by
    have hle : keyLe (sumLine (d.hash [], ascii " -")) (sumLine (ascii "<NULL>", ascii "-")) =
        true := by
      rw [d.hash_nil]
      decide
    rw [pairs_eq (isWord_keptNames hF) (isWord_keptNames hG), hrecords,
      List.map_cons, List.map_singleton, List.mergeSort_of_pairwise (List.pairwise_pair.mpr hle)]
    rw [d.hash_nil]
    rfl
  have hpairs' : pairs d G F = [(ascii "<NULL>", ascii "-"), (d.hash [], ascii "-")] := by
    have hle : keyLe (sumLine (d.hash [], ascii "-")) (sumLine (ascii "<NULL>", ascii "-")) =
        false := by
      rw [d.hash_nil]
      decide
    rw [pairs_eq (isWord_keptNames hG) (isWord_keptNames hF), hrecords', List.map_cons,
      List.map_singleton, mergeSort_pair hle]
    rw [d.hash_nil]
    rfl
  rw [hpairs, hpairs'] at heq
  exact hash_ne_null d [] (Prod.mk.inj (List.cons.inj heq).1).1

/-- A file of one state is in the other one if the loop finds no difference. -/
theorem entry_of_pairs_eq {data : Bytes} (hF : AllTame F) (hG : AllTame G)
    (hfree : CollisionFree d F G) (heq : pairs d F G = pairs d G F) (hexcepted : ¬Excepted p)
    (hentry : (p, data) ∈ F.entries) : (p, data) ∈ G.entries := by
  have hp : p ∈ keptNames F := (mem_keptNames_of_tame hF).mpr ⟨⟨data, hentry⟩, hexcepted⟩
  have hmem := mem_pairs (d := d) hF hG hp
  rw [heq, contentOf_eq hentry] at hmem
  obtain ⟨hp', hsum⟩ | ⟨hnil, -⟩ := of_mem_pairs hG hF hmem
  · obtain ⟨⟨data', hentry'⟩, -⟩ := (mem_keptNames_of_tame hG).mp hp'
    rw [contentOf_eq hentry'] at hsum
    have hdata := hfree _ (List.mem_append_left _ hentry) _ (List.mem_append_right _ hentry') hsum
    change data = data' at hdata
    rwa [hdata]
  · exact absurd heq.symm (pairs_ne hG hF hnil (List.ne_nil_of_mem hp))

theorem CollisionFree.symm (h : CollisionFree d F G) : CollisionFree d G F := by
  intro e he e' he'
  exact h e (List.mem_append.mpr (List.mem_append.mp he).symm) e'
    (List.mem_append.mpr (List.mem_append.mp he').symm)

theorem sameState_of_pairs_eq (hF : AllTame F) (hG : AllTame G) (hfree : CollisionFree d F G)
    (heq : pairs d F G = pairs d G F) : SameState F G := fun _ _ hexcepted =>
  ⟨entry_of_pairs_eq hF hG hfree heq hexcepted,
    entry_of_pairs_eq hG hF hfree.symm heq.symm hexcepted⟩

theorem not_isEarly_of_aligned (hF : AllTame F) (hG : AllTame G) (h : Aligned F G)
    (hnil : keptNames F = []) : ∀ y ∈ keptNames G, ¬IsEarly y := by
  intro y hy hearly
  obtain hiff | ⟨-, hlate⟩ := h
  · have hempty := (keptNames_eq_nil_iff hG).mpr (hiff.mp ((keptNames_eq_nil_iff hF).mp hnil))
    exact absurd (hempty ▸ hy) List.not_mem_nil
  · exact hlate (hasEarly_of_mem hG hy hearly)

theorem Aligned.symm (h : Aligned F G) : Aligned G F := h.imp Iff.symm And.symm

/-- The names are compared in the same order. -/
theorem right_of_aligned (hF : AllTame F) (hG : AllTame G) (hfree : CollisionFree d F G)
    (h : Aligned F G) : Right d F G := by
  intro quiet
  have hnames : (pairs d F G).map Prod.snd = (pairs d G F).map Prod.snd :=
    names_eq hF hG (not_isEarly_of_aligned hF hG h) (not_isEarly_of_aligned hG hF h.symm)
  rw [status_eq, compareLoop_of_names hnames]
  constructor
  · intro hsame
    have heq : pairs d F G = pairs d G F := by
      rw [pairs, pairs, statusLines_of_sameState hF hG hsame]
    rw [if_pos heq]
  · intro hdiffer
    rw [if_neg fun heq => hdiffer (sameState_of_pairs_eq hF hG hfree heq)]

theorem not_right_of_names_ne (hF : AllTame F) (hG : AllTame G)
    (hne : (pairs d F G).map Prod.snd ≠ (pairs d G F).map Prod.snd) : ¬Right d F G := by
  intro hright
  have hlength : (pairs d F G).length = (pairs d G F).length := by
    have hperm := (names_perm (d := d) (isWord_keptNames hF) (isWord_keptNames hG)).length_eq
    rwa [List.length_map, List.length_map] at hperm
  obtain ⟨hsame, hdiffer⟩ := hright false
  rw [status_eq, compareLoop_of_ne hlength hne] at hsame hdiffer
  by_cases h : SameState F G
  · exact absurd (hsame h) (by decide)
  · exact absurd (hdiffer h) (by decide)

/-- If all names go through the tools, only the order of the lines matters. -/
theorem right_iff_of_tame (hF : AllTame F) (hG : AllTame G) (hfree : CollisionFree d F G) :
    Right d F G ↔ Aligned F G := by
  have hnoFiles {F : RegularFiles} (hF : AllTame F) (hnone : NoFiles F) : ¬HasEarly F :=
    fun ⟨e, he, hexcepted, _⟩ => hexcepted (hnone e he)
  have hwrong {F G : RegularFiles} (hF : AllTame F) (hG : AllTame G) (hnone : NoFiles F)
      (hearly : HasEarly G) : (pairs d F G).map Prod.snd ≠ (pairs d G F).map Prod.snd := by
    obtain ⟨e, he, hexcepted, hearly⟩ := hearly
    exact names_ne hF hG ((keptNames_eq_nil_iff hF).mpr hnone)
      ((mem_keptNames_of_tame hG).mpr ⟨⟨e.2, he⟩, hexcepted⟩) hearly
  refine ⟨fun hright => ?_, right_of_aligned hF hG hfree⟩
  by_contra haligned
  obtain ⟨hiff, hearly⟩ := not_or.mp haligned
  by_cases hnone : NoFiles F
  · have hearly' : HasEarly G := by
      by_contra h
      exact hearly ⟨hnoFiles hF hnone, h⟩
    exact not_right_of_names_ne hF hG (hwrong hF hG hnone hearly') hright
  · have hnone' : NoFiles G := by
      by_contra h
      exact hiff (iff_of_false hnone h)
    have hearly' : HasEarly F := by
      by_contra h
      exact hearly ⟨h, hnoFiles hG hnone'⟩
    exact not_right_of_names_ne hF hG (hwrong hG hF hnone' hearly').symm hright

end

/-! ### The other names -/

def letters (text : Bytes) : ℕ := text.countP (· ≠ newline)

section
variable {s p text : Bytes} {c : UInt8} {args : List Bytes} {word : Option Bytes}

theorem letters_append (s s' : Bytes) : letters (s ++ s') = letters s + letters s' :=
  List.countP_append

theorem letters_cons (c : UInt8) (s : Bytes) : letters (c :: s) = letters [c] + letters s :=
  letters_append [c] s

theorem letters_singleton (hc : c ≠ newline) : letters [c] = 1 := by
  rw [letters, List.countP_singleton, if_pos (decide_eq_true hc)]

theorem flatten_toList (word : Option Bytes) : word.toList.flatten = word.getD [] := by
  cases word with
  | none => rfl
  | some s => exact List.append_nil s

theorem letters_xargs_space
    (h : (xargs none none false text).map (word.toList ++ ·) = some args)
    (hrest : ∀ rest, xargs none none false text = some rest → letters rest.flatten ≤ letters text) :
    letters args.flatten ≤ letters (word.getD []) + letters text := by
  obtain ⟨rest, hargs, rfl⟩ := Option.map_eq_some_iff.mp h
  rw [List.flatten_append, letters_append, flatten_toList]
  exact Nat.add_le_add_left (hrest rest hargs) _

/-- No character is in two arguments. -/
theorem letters_xargs {quote : Option UInt8} {escape : Bool}
    (h : xargs word quote escape text = some args) :
    letters args.flatten ≤ letters (word.getD []) + letters text := by
  induction text generalizing word quote escape args with
  | nil =>
    rw [xargs] at h
    split at h
    · exact absurd h.symm (Option.some_ne_none _)
    · rw [← Option.some.inj h, flatten_toList]
      exact Nat.le_add_right _ _
  | cons c text ih =>
    have hpush {quote : Option UInt8} {escape : Bool}
        (h : xargs (some (word.getD [] ++ [c])) quote escape text = some args) :
        letters args.flatten ≤ letters (word.getD []) + letters (c :: text) := by
      have hle := ih h
      rw [Option.getD_some, letters_append] at hle
      rw [letters_cons]
      omega
    have hskip {word' : Option Bytes} {quote : Option UInt8} {escape : Bool}
        (hword : word'.getD [] = word.getD []) (h : xargs word' quote escape text = some args) :
        letters args.flatten ≤ letters (word.getD []) + letters (c :: text) := by
      have hle := ih h
      rw [hword] at hle
      rw [letters_cons]
      omega
    cases quote with
    | some q =>
      rw [xargs] at h
      split at h
      · exact hpush h
      · split at h
        · exact hskip rfl h
        · split at h
          · exact absurd h.symm (Option.some_ne_none _)
          · exact hpush h
    | none =>
      rw [xargs] at h
      split at h
      · exact hpush h
      · split at h
        · exact hskip (by rfl) h
        · split at h
          · exact hskip (by rfl) h
          · split at h
            · have hle := letters_xargs_space h fun rest hrest =>
                (ih hrest).trans_eq (Nat.zero_add _)
              rw [letters_cons]
              omega
            · exact hpush h

/-- A character that is not clean gets lost. -/
theorem letters_xargs_cons (hc : ¬Clean [c])
    (h : xargs (some s) none false (c :: text) = some args) :
    letters args.flatten ≤ letters s + letters text := by
  rw [xargs, if_neg Bool.false_ne_true] at h
  split at h
  · exact letters_xargs h
  · split at h
    · exact letters_xargs h
    · split at h
      · exact letters_xargs_space h fun rest hrest =>
          (letters_xargs hrest).trans_eq (Nat.zero_add _)
      · rename_i hback hquotes hspace
        refine absurd (fun b hb => ?_) hc
        rw [List.mem_singleton.mp hb]
        obtain ⟨hdouble, hsingle⟩ := not_or.mp hquotes
        exact ⟨Bool.eq_false_of_not_eq_true hspace, hdouble, hsingle, hback⟩

theorem exists_first_of_not_clean (h : ¬Clean p) :
    ∃ s c rest, p = s ++ c :: rest ∧ Clean s ∧ ¬Clean [c] := by
  induction p with
  | nil => exact absurd (fun b hb => absurd hb List.not_mem_nil) h
  | cons b p ih =>
    by_cases hb : Clean [b]
    · have hp : ¬Clean p := fun hp => h (hb.append hp)
      obtain ⟨s, c, rest, rfl, hs, hc⟩ := ih hp
      exact ⟨b :: s, c, rest, rfl, hb.append hs, hc⟩
    · exact ⟨[], b, p, rfl, fun c hc => absurd hc List.not_mem_nil, hb⟩

/-- The path of such a name is not among the arguments. -/
theorem path_not_mem_xargs (hp : newline ∉ p) (hclean : ¬Clean p)
    (hargs : xargs none none false (ascii "./" ++ p ++ [newline]) = some args) :
    ascii "./" ++ p ∉ args := by
  intro hmem
  obtain ⟨s, c, rest, rfl, hs, hc⟩ := exists_first_of_not_clean hclean
  have hne : c ≠ newline := by
    rintro rfl
    exact hp (List.mem_append_right s List.mem_cons_self)
  have hsplit : ascii "./" ++ (s ++ c :: rest) ++ [newline] =
      (ascii "./" ++ s) ++ c :: (rest ++ [newline]) := by
    rw [List.append_assoc, List.append_assoc, List.append_assoc, List.cons_append]
  rw [hsplit, xargs_clean none (clean_dot.append hs)
    (List.append_ne_nil_of_left_ne_nil (by decide) s), Option.getD_none, List.nil_append] at hargs
  have hlost := letters_xargs_cons hc hargs
  have hkept : letters (ascii "./" ++ (s ++ c :: rest)) ≤ letters args.flatten :=
    (List.sublist_flatten_of_mem hmem).countP_le
  have hnewline : letters [newline] = 0 := rfl
  rw [letters_append rest, hnewline] at hlost
  rw [← List.append_assoc, letters_append, letters_cons, letters_singleton hne] at hkept
  omega

end

/-! ### One file -/

section
variable {d : Digest} {F G : RegularFiles} {p : Bytes}

/-- A directory with one file, which is the only one that can be read. -/
def single (p data : Bytes) (hp : IsName p) : RegularFiles where
  entries := [(p, data)]
  nodup := List.nodup_singleton p
  isName e he := List.mem_singleton.mp he ▸ hp
  look path := if path = ascii "./" ++ p then some data else none
  look_entry e he := by rw [List.mem_singleton.mp he, if_pos rfl]
  options _ := []

theorem xargsMd5sum_congr {text : Bytes} (hoptions : F.options = G.options)
    (hlook : ∀ args, xargs none none false text = some args → ∀ arg ∈ args,
      F.look arg = G.look arg) : xargsMd5sum d F text = xargsMd5sum d G text := by
  have hlines : ∀ args, xargs none none false text = some args →
      args.filterMap (md5sumLine d F) = args.filterMap (md5sumLine d G) := by
    intro args hargs
    refine List.filterMap_congr fun arg harg => ?_
    rw [md5sumLine, md5sumLine, hlook args hargs arg harg]
  rw [xargsMd5sum, xargsMd5sum, hoptions]
  split
  · rfl
  · rfl
  · rename_i args _ hargs
    rw [hlines args hargs]

/-- The content of a file with any other name is not in the text. -/
theorem statusLines_single (hp : IsName p) (h : ¬Tame p) (data data' : Bytes) :
    statusLines d (single p data hp) = statusLines d (single p data' hp) := by
  have htext (data : Bytes) : ((single p data hp).entries.map fun e => ascii "./" ++ e.1) =
      [ascii "./" ++ p] := rfl
  rw [statusLines, statusLines, htext, htext]
  congr 1
  refine xargsMd5sum_congr (F := single p data hp) (G := single p data' hp) rfl ?_
  intro args hargs arg harg
  have hne : arg ≠ ascii "./" ++ p := by
    rintro rfl
    by_cases hdropped : dropped (ascii "./" ++ p) = true
    · rw [List.filter_cons_of_neg (by rw [hdropped]; decide), List.filter_nil, sorted,
        List.mergeSort_nil] at hargs
      have hnil : args = [] := (Option.some.inj hargs).symm
      exact absurd (hnil ▸ harg) List.not_mem_nil
    · have hdropped := Bool.eq_false_of_not_eq_true hdropped
      have hclean : ¬Clean p := fun hclean => h (.inr ⟨hclean, hdropped⟩)
      rw [List.filter_cons_of_pos (by rw [hdropped]; decide), List.filter_nil, sorted,
        List.mergeSort_singleton, unlines, List.flatMap_singleton] at hargs
      exact path_not_mem_xargs hp.2.2 hclean hargs harg
  change (if arg = ascii "./" ++ p then some data else none) =
    if arg = ascii "./" ++ p then some data' else none
  rw [if_neg hne, if_neg hne]

theorem status_of_statusLines_eq (quiet : Bool) (h : statusLines d F = statusLines d G) :
    status d quiet F G = 0 := by
  have heq : pairs d F G = pairs d G F := by rw [pairs, pairs, h]
  rw [status_eq, compareLoop_of_names (congrArg _ heq), if_pos heq]

theorem status_single (hp : IsName p) (h : ¬Tame p) (quiet : Bool) (data data' : Bytes) :
    status d quiet (single p data hp) (single p data' hp) = 0 :=
  status_of_statusLines_eq quiet (statusLines_single hp h data data')

theorem not_sameState_single (hp : IsName p) (h : ¬Excepted p) {data data' : Bytes}
    (hne : data ≠ data') : ¬SameState (single p data hp) (single p data' hp) := by
  intro hsame
  have hmem := (hsame p data h).mp (List.mem_singleton_self _)
  exact hne (Prod.mk.inj (List.mem_singleton.mp hmem)).2

theorem collisionFree_single (d : Digest) (hp : IsName p) :
    CollisionFree d (single p [] hp) (single p [0] hp) := by
  have hne : d.hash [] ≠ d.hash [0] := by
    rw [d.hash_nil, d.hash_zero]
    decide
  intro e he e' he' hsum
  change e ∈ [(p, []), (p, [0])] at he
  change e' ∈ [(p, []), (p, [0])] at he'
  rw [List.mem_pair] at he he'
  obtain rfl | rfl := he <;> obtain rfl | rfl := he'
  · rfl
  · exact absurd hsum hne
  · exact absurd hsum.symm hne
  · rfl

/-- For states with given names, the exit status is right exactly for aligned states if and only if
all of the names go through the tools. -/
theorem status_right_iff (d : Digest) (names : Bytes → Prop) :
    (∀ saved current : RegularFiles, (∀ e ∈ saved.entries ++ current.entries, names e.1) →
      CollisionFree d saved current → (Right d saved current ↔ Aligned saved current)) ↔
      ∀ p, names p → IsName p → Tame p := by
  constructor
  · intro hright p hnames hp
    by_contra htame
    have hexcepted : ¬Excepted p := fun h => htame (.inl h)
    have hnames' : ∀ e ∈ (single p [] hp).entries ++ (single p [0] hp).entries, names e.1 := by
      intro e he
      obtain rfl | rfl := List.mem_pair.mp he
      · exact hnames
      · exact hnames
    have haligned : Aligned (single p [] hp) (single p [0] hp) := by
      have hnone (data : Bytes) : ¬NoFiles (single p data hp) := fun h =>
        hexcepted (h _ (List.mem_singleton_self _))
      exact .inl (iff_of_false (hnone []) (hnone [0]))
    have hstatus := (hright _ _ hnames' (collisionFree_single d hp)).mpr haligned
    have hdiffer := (hstatus false).2 (not_sameState_single hp hexcepted (by decide))
    rw [status_single hp htame] at hdiffer
    exact absurd hdiffer (by decide)
  · intro htame saved current hnames hfree
    have hall (e : Bytes × Bytes) (he : e ∈ saved.entries ++ current.entries) (hp : IsName e.1) :
        Tame e.1 := htame e.1 (hnames e he) hp
    apply right_iff_of_tame
    · exact fun e he => hall e (List.mem_append_left _ he) (saved.isName e he)
    · exact fun e he => hall e (List.mem_append_right _ he) (current.isName e he)
    · exact hfree

end

namespace Samples

/-- The checksums of two contents, and no others. -/
def digest : Digest where
  hash data :=
    if data = [] then ascii "d41d8cd98f00b204e9800998ecf8427e"
    else if data = [0] then ascii "93b885adfe0da089cdf634904fd59f71"
    else ascii "00000000000000000000000000000000"
  hex data := by
    have hdigits {s : Bytes} (h : s.all (· ∈ ascii "0123456789abcdef") = true) :
        ∀ b ∈ s, b ∈ ascii "0123456789abcdef" := fun b hb =>
      of_decide_eq_true (List.all_eq_true.mp h b hb)
    split
    · exact hdigits (by decide)
    · split
      · exact hdigits (by decide)
      · exact hdigits (by decide)
  length_hash data := by
    split
    · rfl
    · split <;> rfl
  hash_nil := rfl
  hash_zero := rfl

theorem isName_blank : IsName (ascii "a b") := by decide

/-- The change of a file with a blank in its name is not seen. -/
theorem status_of_blank :
    CollisionFree digest (single (ascii "a b") [] isName_blank)
        (single (ascii "a b") [0] isName_blank) ∧
      ¬SameState (single (ascii "a b") [] isName_blank) (single (ascii "a b") [0] isName_blank) ∧
      status digest false (single (ascii "a b") [] isName_blank)
        (single (ascii "a b") [0] isName_blank) = 0 := by
  have hexcepted : ¬Excepted (ascii "a b") := by
    unfold Excepted
    decide
  have hclean : ¬Clean (ascii "a b") := by decide
  have htame : ¬Tame (ascii "a b") := not_or.mpr ⟨hexcepted, fun h => hclean h.1⟩
  exact ⟨collisionFree_single _ _, not_sameState_single _ hexcepted (by decide),
    status_single _ htame false _ _⟩

end Samples

end OpenADK.Cfgfs
