import OpenADK.Disk.Install

/-!
# The layout of the partitions

Without a boot partition the partitions fill the disk in their order. With one its size is taken
from the system partition twice.
-/

namespace OpenADK.Disk
variable {v : Call} {track : Image}

def endOf (entry : List UInt8) : ℕ := offsetOf entry + countOf entry

namespace Call

/-- The entries of the partitions in the order boot, system, data, cfgfs. -/
def slots (v : Call) : List ℕ :=
  (if v.target.boots then [0] else []) ++ [v.syspartno] ++
    (if v.datafssz ≠ 0 then [v.syspartno + 1] else []) ++ [3]

def nextSlot (v : Call) : ℕ := if v.datafssz ≠ 0 then v.syspartno + 1 else 3

end Call

structure Layout (v : Call) (track : Image) : Prop where
  nonempty : ∀ slot ∈ v.slots, 0 < countOf (track.entry slot) ∨ slot = 3 ∧ v.cfgfs = 0
  inside : ∀ slot ∈ v.slots, endOf (track.entry slot) ≤ v.dksz
  /-- Each ends before the next ones begin, so no two of them overlap. -/
  ordered : v.slots.Pairwise fun a b => endOf (track.entry a) ≤ offsetOf (track.entry b)
  adjacent : endOf (track.entry v.syspartno) = offsetOf (track.entry v.nextSlot)
  unused : ∀ slot < 4, slot ∉ v.slots → track.entry slot = List.replicate 16 0

/-! ## The entries in the track -/

theorem Image.entry_patch_self (t : Image) {slot seek : ℕ} {bs : List UInt8}
    (hseek : seek = 0x1BE + 16 * slot) (hlen : bs.length = 16) :
    (t.patch seek bs).entry slot = bs := by
  rw [Image.entry, ← hseek, ← hlen]
  exact t.slice_patch_self seek bs

/-- The first sector of another image takes its partition table along. -/
theorem Image.entry_patch_sector (t t' : Image) {slot : ℕ} (hslot : slot < 4) :
    (t.patch 0 (t'.slice 0 512)).entry slot = t'.entry slot := by
  have hcopy : (t.patch 0 (t'.slice 0 512)).slice (0 + (0x1BE + 16 * slot)) 16 =
      t'.slice (0 + (0x1BE + 16 * slot)) 16 := t.slice_patch_slice t' (by omega)
  rwa [Nat.zero_add] at hcopy

theorem Image.entry_patch_of_disjoint (t : Image) {slot seek : ℕ} {bs : List UInt8}
    (h : 0x1BE + 16 * slot + 16 ≤ seek ∨ seek + bs.length ≤ 0x1BE + 16 * slot) :
    (t.patch seek bs).entry slot = t.entry slot :=
  t.slice_patch_of_disjoint h

namespace Call

@[simp] theorem length_cfgfsEntry : v.cfgfsEntry.length = 16 := length_emit _
@[simp] theorem length_dataEntry : v.dataEntry.length = 16 := length_emit _
@[simp] theorem length_bootEntry : v.bootEntry.length = 16 := length_emit _

theorem entry_sign (t : Image) (slot : ℕ) : (v.sign t).entry slot = t.entry slot := by
  have hsignature : 0x1B8 + (v.signature.slice 0 4).length ≤ 0x1BE + 16 * slot := by
    rw [Image.length_slice]
    omega
  have hzeros : 0x1BC + ([0, 0] : List UInt8).length ≤ 0x1BE + 16 * slot :=
    Nat.le_add_right _ _
  rw [sign, Image.entry_patch_of_disjoint _ (.inr hzeros),
    Image.entry_patch_of_disjoint _ (.inr hsignature)]

theorem entry_addBoot_of_not (h : v.target.boots = false) (t : Image) (slot : ℕ) :
    (v.addBoot t).entry slot = t.entry slot := by
  rw [addBoot, h, if_neg Bool.false_ne_true]

theorem entry_addBoot_three (t : Image) : (v.addBoot t).entry 3 = t.entry 3 := by
  rw [addBoot]
  split
  · rw [Image.entry_patch_of_disjoint _ (.inr (by rw [length_bootEntry]; omega)),
      Image.entry_patch_of_disjoint _ (.inr (by rw [Image.length_slice]))]
  · rfl

/-- The first two entries are moved by one. -/
theorem entry_addBoot_succ (h : v.target.boots = true) (t : Image) {slot : ℕ} (hslot : slot < 2) :
    (v.addBoot t).entry (slot + 1) = t.entry slot := by
  rw [addBoot, if_pos h,
    Image.entry_patch_of_disjoint _ (.inr (by rw [length_bootEntry]; omega)), Image.entry,
    show 0x1BE + 16 * (slot + 1) = 0x1CE + 16 * slot by omega]
  exact t.slice_patch_slice t (by omega)

theorem entry_addBoot (t : Image) {slot : ℕ} (hslot : slot < 2) :
    (v.addBoot t).entry (v.syspartno + slot) = t.entry slot := by
  cases h : v.target.boots with
  | false => rw [entry_addBoot_of_not h, syspartno, h, if_neg Bool.false_ne_true, Nat.zero_add]
  | true => rw [syspartno, if_pos h, Nat.add_comm, entry_addBoot_succ h t hslot]

theorem entry_addData (h : v.datafssz ≠ 0) (t : Image) : (v.addData t).entry 1 = v.dataEntry := by
  rw [addData, if_pos h]
  exact Image.entry_patch_self _ rfl length_dataEntry

theorem entry_addData_of_ne (t : Image) {slot : ℕ} (h : slot ≠ 1) :
    (v.addData t).entry slot = t.entry slot := by
  rw [addData]
  split
  · exact Image.entry_patch_of_disjoint _ (by rw [length_dataEntry]; omega)
  · rfl

theorem addData_of_zero (h : v.datafssz = 0) (t : Image) : v.addData t = t := by
  rw [addData, h, if_neg (not_not_intro rfl)]

theorem entry_addCfgfs_three (t : Image) : (v.addCfgfs t).entry 3 = v.cfgfsEntry :=
  Image.entry_patch_self _ rfl length_cfgfsEntry

theorem entry_addCfgfs_of_ne (t : Image) {slot : ℕ} (h : slot < 3) :
    (v.addCfgfs t).entry slot = t.entry slot :=
  Image.entry_patch_of_disjoint _ (by omega)

theorem entry_addCore (t : Image) {slot : ℕ} (h : slot < 4) :
    (v.addCore t).entry slot = t.entry slot := by
  have hstart : 0x1BE + 16 * slot + 16 ≤ 512 * v.corestartsec := by
    unfold corestartsec
    split <;> omega
  have hpatch : 0x1BE + 16 * slot + 16 ≤ v.corepatchofs := by
    unfold corepatchofs
    split <;> omega
  rw [addCore]
  split
  · rfl
  · rw [Image.entry_patch_of_disjoint _ (.inl hpatch),
      Image.entry_patch_of_disjoint _ (.inl hstart)]

theorem entry_addSystem {thecode : Image} (h : v.systemPartition = some thecode) (t : Image)
    {slot : ℕ} (hslot : slot < 4) : (v.addSystem t).entry slot = thecode.entry slot := by
  rw [addSystem, h]
  exact t.entry_patch_sector thecode hslot

end Call

/-! ## Shell arithmetic -/

theorem toInt_add_emod (x y : Int32) : (x + y).toInt % 2 ^ 32 = (x.toInt + y.toInt) % 2 ^ 32 := by
  rw [Int32.toInt_add]
  exact_mod_cast Int.bmod_emod (x := x.toInt + y.toInt) (m := 2 ^ 32)

theorem toInt_sub_emod (x y : Int32) : (x - y).toInt % 2 ^ 32 = (x.toInt - y.toInt) % 2 ^ 32 := by
  rw [Int32.toInt_sub]
  exact_mod_cast Int.bmod_emod (x := x.toInt - y.toInt) (m := 2 ^ 32)

theorem toInt_mul_emod (x y : Int32) : (x * y).toInt % 2 ^ 32 = (x.toInt * y.toInt) % 2 ^ 32 := by
  rw [Int32.toInt_mul]
  exact_mod_cast Int.bmod_emod (x := x.toInt * y.toInt) (m := 2 ^ 32)

/-- The sectors of so many cylinders. -/
theorem toInt_sectors_emod (x : Int32) :
    (x * heads * secs).toInt % 2 ^ 32 = x.toInt * 2048 % 2 ^ 32 := by
  have hheads : heads.toInt = 64 := rfl
  have hsecs : secs.toInt = 32 := rfl
  have h1 := toInt_mul_emod x heads
  have h2 := toInt_mul_emod (x * heads) secs
  rw [hheads] at h1
  rw [hsecs] at h2
  omega

theorem toInt_eq_of_emod {x : Int32} {y : ℤ} (h : x.toInt % 2 ^ 32 = y % 2 ^ 32)
    (hlow : -2 ^ 31 ≤ y) (hhigh : y < 2 ^ 31) : x.toInt = y := by
  have hx := x.toInt_lt
  have hx' := x.le_toInt
  omega

/-- The table that `bootgrub` writes for a geometry within its bounds. -/
theorem bootgrub_eq (code : Image) {cyls : Int32} (mbrptp pofs : Int32)
    (hpos : 0 < cyls.toInt) (hsize : cyls.toInt < 2 ^ 21) :
    ∃ thecode : Image, bootgrub code ⟨cyls, heads, secs⟩ 1 mbrptp pofs =
        some (thecode.patch 0x1BE (emit (partitionEntry 0x80 mbrptp ⟨cyls, heads, secs⟩ cyls
          (cyls * heads * secs) pofs))) ∧
      ∀ slot < 4, thecode.entry slot = List.replicate 16 0 := by
  have hne : cyls * heads * secs ≠ 0 := by
    intro h
    have hsectors := toInt_sectors_emod cyls
    rw [h] at hsectors
    change (0 : ℤ) % _ = _ at hsectors
    omega
  have hsign : ¬(cyls < 0 ∨ heads < 0 ∨ secs < 0) := by
    rintro (h | h | h)
    · have h := Int32.lt_iff_toInt_lt.mp h
      change _ < (0 : ℤ) at h
      omega
    · exact absurd h (by decide)
    · exact absurd h (by decide)
  have hbounds : ¬(cyls < 1 ∨ heads < 1 ∨ heads > 256 ∨ secs < 1 ∨ secs > 63) := by
    rintro (h | h)
    · have h := Int32.lt_iff_toInt_lt.mp h
      change _ < (1 : ℤ) at h
      omega
    · exact absurd h (by decide)
  have hproduct : ¬cyls.toInt * heads.toInt * secs.toInt > 4294967295 := by
    change ¬cyls.toInt * 64 * 32 > 4294967295
    omega
  unfold bootgrub
  rw [if_neg hsign]
  simp only [if_neg hbounds, if_neg hproduct, if_neg hne]
  refine ⟨_, rfl, fun slot hslot => ?_⟩
  rw [Image.entry_patch_of_disjoint _ (.inl (by omega))]
  apply List.ext_getElem
  · rw [Image.entry, Image.length_slice, List.length_replicate]
  · intro i hi hi'
    simp only [Image.entry, Image.slice, List.getElem_map, List.getElem_range,
      List.getElem_replicate]
    exact if_neg (by omega)

/-! ## The sectors of the entries -/

namespace Call

theorem toInt_cyls (h : v.dksz < 2 ^ 31) : v.cyls.toInt = v.dksz / 2048 := by
  have hheads : heads.toInt = 64 := rfl
  have hsecs : secs.toInt = 32 := rfl
  have hsmall (x : ℤ) (hx : 0 ≤ x) (hx' : x < 2 ^ 31) : x.bmod (2 ^ 32) = x :=
    Int.bmod_eq_of_le (by omega) (by omega)
  have htracks : (Int32.ofNat v.dksz / heads).toInt = v.dksz / 64 := by
    rw [Int32.toInt_div, Int32.toInt_ofNat_of_lt h, hheads,
      Int.tdiv_eq_ediv_of_nonneg (Int.natCast_nonneg _)]
    exact hsmall _ (by omega) (by omega)
  have hcyls : (v.dksz / 64 : ℤ).tdiv 32 = v.dksz / 2048 := by
    rw [Int.tdiv_eq_ediv_of_nonneg (by omega)]
    omega
  rw [cyls, Int32.toInt_div, htracks, hsecs, hcyls]
  exact hsmall _ (by omega) (by omega)

theorem offsetOf_cfgfsEntry :
    (offsetOf v.cfgfsEntry : ℤ) = (v.cyls.toInt - v.cfgfs.toInt) * 2048 % 2 ^ 32 := by
  have hsub := toInt_sub_emod v.cyls v.cfgfs
  have hsectors := toInt_sectors_emod (v.cyls - v.cfgfs)
  rw [cfgfsEntry, offsetOf_partitionEntry]
  omega

theorem countOf_cfgfsEntry : (countOf v.cfgfsEntry : ℤ) = v.cfgfs.toInt * 2048 % 2 ^ 32 := by
  have hsub := toInt_sub_emod v.cyls v.cfgfs
  have hsectors := toInt_sectors_emod (v.cyls - v.cfgfs)
  have hsectors' := toInt_sectors_emod v.cyls
  rw [cfgfsEntry, countOf_partitionEntry]
  omega

theorem offsetOf_dataEntry : (offsetOf v.dataEntry : ℤ) =
    (v.cyls.toInt - v.cfgfs.toInt - v.datafssz.toInt) * 2048 % 2 ^ 32 := by
  have hsub := toInt_sub_emod v.cyls v.cfgfs
  have hsub' := toInt_sub_emod (v.cyls - v.cfgfs) v.datafssz
  have hsectors := toInt_sectors_emod (v.cyls - v.cfgfs - v.datafssz)
  rw [dataEntry, offsetOf_partitionEntry]
  omega

theorem countOf_dataEntry : (countOf v.dataEntry : ℤ) = v.datafssz.toInt * 2048 % 2 ^ 32 := by
  have hsub := toInt_sub_emod (v.cyls - v.cfgfs) v.datafssz
  have hsectors := toInt_sectors_emod (v.cyls - v.cfgfs - v.datafssz)
  have hsectors' := toInt_sectors_emod (v.cyls - v.cfgfs)
  rw [dataEntry, countOf_partitionEntry]
  omega

/-- The number of cylinders that `bootgrub` is told. -/
theorem toInt_systemCyls (h : v.dksz < 2 ^ 31)
    (hpos : 0 ≤ v.cyls.toInt - v.bootfssz.toInt - v.cfgfs.toInt - v.datafssz.toInt)
    (hboot : 0 ≤ v.bootfssz.toInt) (hcfgfs : 0 ≤ v.cfgfs.toInt) (hdata : 0 ≤ v.datafssz.toInt) :
    (v.cyls - v.bootfssz - v.cfgfs - v.datafssz).toInt =
      v.cyls.toInt - v.bootfssz.toInt - v.cfgfs.toInt - v.datafssz.toInt := by
  have hcyls := toInt_cyls h
  have h1 := toInt_sub_emod v.cyls v.bootfssz
  have h2 := toInt_sub_emod (v.cyls - v.bootfssz) v.cfgfs
  have h3 := toInt_sub_emod (v.cyls - v.bootfssz - v.cfgfs) v.datafssz
  exact toInt_eq_of_emod (by omega) (by omega) (by omega)

/-- The conditions under which a call gets as far as writing the first track. -/
theorem of_firsttrack (h : v.firsttrack = some track) :
    (0 ≤ v.cfgfs.toInt ∧ v.cfgfs.toInt ≤ 16) ∧ 0 ≤ v.datafssz.toInt ∧
      (v.bootfssz + v.cfgfs + v.datafssz + 2).toInt ≤ v.cyls.toInt ∧
      track = v.sign (v.addBoot (v.addData (v.addCfgfs
        (v.addCore (v.addSystem fun _ => 0))))) := by
  unfold firsttrack at h
  split_ifs at h with h1 h2 h3 h4 h5
  have hlow : ¬v.cfgfs < 0 := fun hlt => h1 (.inl hlt)
  have hhigh : ¬v.cfgfs > 16 := fun hlt => h1 (.inr hlt)
  rw [Int32.lt_iff_toInt_lt, Int.not_lt] at hlow h2 h4
  rw [gt_iff_lt, Int32.lt_iff_toInt_lt, Int.not_lt] at hhigh
  exact ⟨⟨hlow, hhigh⟩, h2, h4, (Option.some.inj h).symm⟩

section
variable (h : v.firsttrack = some track)
include h

theorem entry_three : track.entry 3 = v.cfgfsEntry := by
  obtain ⟨-, -, -, rfl⟩ := of_firsttrack h
  rw [entry_sign, entry_addBoot_three, entry_addData_of_ne _ (by omega), entry_addCfgfs_three]

theorem entry_data (hdata : v.datafssz ≠ 0) : track.entry (v.syspartno + 1) = v.dataEntry := by
  obtain ⟨-, -, -, rfl⟩ := of_firsttrack h
  rw [entry_sign, entry_addBoot _ (by omega), entry_addData hdata]

/-- The entry of the system partition as `bootgrub` computes it. -/
theorem entry_system (hpos : 0 < (v.cyls - v.bootfssz - v.cfgfs - v.datafssz).toInt)
    (hsize : (v.cyls - v.bootfssz - v.cfgfs - v.datafssz).toInt < 2 ^ 20) :
    (offsetOf (track.entry v.syspartno) : ℤ) = v.spartofs.toInt % 2 ^ 32 ∧
      (countOf (track.entry v.syspartno) : ℤ) =
        ((v.cyls - v.bootfssz - v.cfgfs - v.datafssz).toInt * 2048 - v.spartofs.toInt) %
          2 ^ 32 := by
  obtain ⟨-, -, -, rfl⟩ := of_firsttrack h
  obtain ⟨thecode, hsystem, -⟩ := bootgrub_eq v.code 0x83 v.spartofs hpos (by omega)
  have hmove := entry_addBoot (v := v) (v.addData (v.addCfgfs (v.addCore (v.addSystem fun _ => 0))))
    (by omega : 0 < 2)
  have hsectors := toInt_sectors_emod (v.cyls - v.bootfssz - v.cfgfs - v.datafssz)
  rw [Nat.add_zero] at hmove
  rw [entry_sign, hmove, entry_addData_of_ne _ (by omega), entry_addCfgfs_of_ne _ (by omega),
    entry_addCore _ (by omega), entry_addSystem hsystem _ (by omega),
    @Image.entry_patch_self thecode 0 0x1BE _ rfl (length_emit _), offsetOf_partitionEntry,
    countOf_partitionEntry]
  exact ⟨rfl, by omega⟩

/-- Nothing is left in the other entries. -/
theorem entry_unused (hpos : 0 < (v.cyls - v.bootfssz - v.cfgfs - v.datafssz).toInt)
    (hsize : (v.cyls - v.bootfssz - v.cfgfs - v.datafssz).toInt < 2 ^ 20) {slot : ℕ}
    (hslot : slot < 4) (hunused : slot ∉ v.slots) : track.entry slot = List.replicate 16 0 := by
  obtain ⟨-, -, -, rfl⟩ := of_firsttrack h
  obtain ⟨thecode, hsystem, hzero⟩ := bootgrub_eq v.code 0x83 v.spartofs hpos (by omega)
  have hrest {k : ℕ} (hk : 0 < k) (hk' : k < 3) (hdata : k = 1 → v.datafssz = 0) :
      (v.addData (v.addCfgfs (v.addCore (v.addSystem fun _ => 0)))).entry k =
        List.replicate 16 0 := by
    have hbase : (v.addCfgfs (v.addCore (v.addSystem fun _ => 0))).entry k =
        List.replicate 16 0 := by
      rw [entry_addCfgfs_of_ne _ hk', entry_addCore _ (by omega),
        entry_addSystem hsystem _ (by omega),
        Image.entry_patch_of_disjoint _ (.inr (by rw [length_emit, length_partitionEntry]; omega))]
      exact hzero k (by omega)
    by_cases hone : k = 1
    · rw [addData_of_zero (hdata hone), hbase]
    · rw [entry_addData_of_ne _ hone, hbase]
  rw [entry_sign]
  cases hboots : v.target.boots with
  | false =>
    simp only [slots, syspartno, hboots, Bool.false_eq_true, if_false, List.nil_append,
      List.mem_append, List.mem_singleton, not_or, List.mem_ite_nil_right, not_and] at hunused
    rw [entry_addBoot_of_not hboots]
    exact hrest (by omega) (by omega) fun hone => by
      by_contra hne
      exact hunused.1.2 hne hone
  | true =>
    simp only [slots, syspartno, hboots, if_true, List.mem_append, List.mem_singleton, not_or,
      List.mem_ite_nil_right, not_and] at hunused
    obtain rfl : slot = 1 + 1 := by omega
    rw [entry_addBoot_succ hboots _ (by omega)]
    exact hrest (by omega) (by omega) fun _ => by
      by_contra hne
      exact hunused.1.2 hne rfl

/-- The sector after the system partition, if there is no gap. -/
theorem offsetOf_nextSlot : (offsetOf (track.entry v.nextSlot) : ℤ) =
    (v.cyls.toInt - v.cfgfs.toInt - v.datafssz.toInt) * 2048 % 2 ^ 32 := by
  unfold nextSlot
  split
  case isTrue hdata => rw [entry_data h hdata, offsetOf_dataEntry]
  case isFalse hdata =>
    have hzero : v.datafssz.toInt = 0 := by rw [not_not.mp hdata]; rfl
    rw [entry_three h, offsetOf_cfgfsEntry, hzero, Int.sub_zero]

/-- A sum that overflows puts the data partition outside of the disk. -/
theorem sum_lt_of_layout (hdisk : v.dksz < 2 ^ 31) (hlayout : Layout v track) :
    v.bootfssz.toInt + v.cfgfs.toInt + v.datafssz.toInt + 2 < 2 ^ 31 := by
  obtain ⟨⟨-, hhigh⟩, -, -⟩ := of_firsttrack h
  have hboot : v.bootfssz.toInt ≤ 100 := by
    unfold bootfssz
    split <;> decide
  by_contra! hover
  have hdata : v.datafssz ≠ 0 := by
    intro hzero
    rw [hzero] at hover
    change _ ≤ _ + (0 : ℤ) + 2 at hover
    omega
  have hmem : v.syspartno + 1 ∈ v.slots := by
    unfold slots
    rw [if_pos hdata]
    simp only [List.mem_append, List.mem_singleton, true_or, or_true]
  have hend := hlayout.inside _ hmem
  have hcount := v.countOf_dataEntry
  have hlt := v.datafssz.toInt_lt
  rw [entry_data h hdata, endOf] at hend
  omega

end

end Call

/-- The partitions are laid out as intended if and only if the target has no boot partition and
the sizes asked for can be added up. -/
theorem firsttrack_layout (hdisk : v.dksz < 2 ^ 31) (h : v.firsttrack = some track) :
    Layout v track ↔
      v.target.boots = false ∧ v.cfgfs.toInt + v.datafssz.toInt + 2 < 2 ^ 31 := by
  obtain ⟨⟨hlow, hhigh⟩, hdata, hfit, -⟩ := Call.of_firsttrack h
  have hcyls := Call.toInt_cyls hdisk
  have hboot : 0 ≤ v.bootfssz.toInt := by
    unfold Call.bootfssz
    split <;> decide
  have hsum : (v.bootfssz + v.cfgfs + v.datafssz + 2).toInt % 2 ^ 32 =
      (v.bootfssz.toInt + v.cfgfs.toInt + v.datafssz.toInt + 2) % 2 ^ 32 := by
    have h1 := toInt_add_emod v.bootfssz v.cfgfs
    have h2 := toInt_add_emod (v.bootfssz + v.cfgfs) v.datafssz
    have h3 := toInt_add_emod (v.bootfssz + v.cfgfs + v.datafssz) 2
    change _ = (_ + (2 : ℤ)) % _ at h3
    omega
  -- What holds once the sizes add up, whether or not there is a boot partition.
  have hsystem (hlt : v.bootfssz.toInt + v.cfgfs.toInt + v.datafssz.toInt + 2 < 2 ^ 31) :
      (v.cyls - v.bootfssz - v.cfgfs - v.datafssz).toInt =
          v.cyls.toInt - v.bootfssz.toInt - v.cfgfs.toInt - v.datafssz.toInt ∧
        2 ≤ v.cyls.toInt - v.bootfssz.toInt - v.cfgfs.toInt - v.datafssz.toInt := by
    have hfit' := toInt_eq_of_emod hsum (by omega) hlt
    exact ⟨Call.toInt_systemCyls hdisk (by omega) hboot hlow hdata, by omega⟩
  have hnext := Call.offsetOf_nextSlot h
  constructor
  · intro hlayout
    have hlt := Call.sum_lt_of_layout h hdisk hlayout
    obtain ⟨hcount, hfit'⟩ := hsystem hlt
    obtain ⟨hstart, hsize⟩ := Call.entry_system h (by omega) (by omega)
    have hadjacent := hlayout.adjacent
    rw [endOf] at hadjacent
    cases hboots : v.target.boots with
    | false => exact ⟨rfl, by omega⟩
    | true =>
      have hb : v.bootfssz.toInt = 100 := by rw [Call.bootfssz, if_pos hboots]; rfl
      have hs : v.spartofs.toInt = 206848 := by rw [Call.spartofs, if_pos hboots]; rfl
      omega
  · rintro ⟨hboots, hlt⟩
    have hb : v.bootfssz.toInt = 0 := by rw [Call.bootfssz, hboots]; rfl
    have hs : v.spartofs.toInt = 2048 := by rw [Call.spartofs, hboots]; rfl
    obtain ⟨hcount, hfit'⟩ := hsystem (by omega)
    obtain ⟨hstart, hsize⟩ := Call.entry_system h (by omega) (by omega)
    have hslot : v.syspartno = 0 := by rw [Call.syspartno, hboots]; rfl
    have hunused (slot : ℕ) (hlt : slot < 4) (hmem : slot ∉ v.slots) :
        track.entry slot = List.replicate 16 0 :=
      Call.entry_unused h (by omega) (by omega) hlt hmem
    have hthree := Call.entry_three h
    have hstart3 := v.offsetOf_cfgfsEntry
    have hsize3 := v.countOf_cfgfsEntry
    rw [← hthree] at hstart3 hsize3
    have hlast : endOf (track.entry 3) ≤ v.dksz ∧
        (0 < countOf (track.entry 3) ∨ 3 = 3 ∧ v.cfgfs = 0) := by
      refine ⟨by unfold endOf; omega, ?_⟩
      by_cases hzero : v.cfgfs = 0
      · exact .inr ⟨rfl, hzero⟩
      · have hne : v.cfgfs.toInt ≠ 0 := fun h0 => hzero (Int32.toInt_inj.mp h0)
        exact .inl (by omega)
    rw [hslot] at hstart hsize
    by_cases hzero : v.datafssz = 0
    · have hd : v.datafssz.toInt = 0 := by rw [hzero]; rfl
      have hslots : v.slots = [0, 3] := by
        rw [Call.slots, hboots, hslot, hzero]
        rfl
      have hend : endOf (track.entry 0) = offsetOf (track.entry 3) := by
        unfold endOf
        omega
      refine ⟨?_, ?_, ?_, ?_, hunused⟩
      · rw [hslots]
        exact List.forall_mem_cons.mpr ⟨.inl (by omega), List.forall_mem_singleton.mpr hlast.2⟩
      · rw [hslots]
        exact List.forall_mem_cons.mpr ⟨by unfold endOf at hend hlast ⊢; omega,
          List.forall_mem_singleton.mpr hlast.1⟩
      · rw [hslots]
        exact List.pairwise_cons.mpr ⟨List.forall_mem_singleton.mpr hend.le,
          List.pairwise_singleton _ _⟩
      · rw [hslot, Call.nextSlot, if_neg (not_not_intro hzero), hend]
    · have hslots : v.slots = [0, 1, 3] := by
        rw [Call.slots, hboots, hslot, if_pos hzero]
        rfl
      have hone := Call.entry_data h hzero
      have hstart1 := v.offsetOf_dataEntry
      have hsize1 := v.countOf_dataEntry
      rw [hslot, Nat.zero_add] at hone
      rw [← hone] at hstart1 hsize1
      have hd : v.datafssz.toInt ≠ 0 := fun h0 => hzero (Int32.toInt_inj.mp h0)
      have hend : endOf (track.entry 0) = offsetOf (track.entry 1) := by
        unfold endOf
        omega
      have hend1 : endOf (track.entry 1) = offsetOf (track.entry 3) := by
        unfold endOf
        omega
      refine ⟨?_, ?_, ?_, ?_, hunused⟩
      · rw [hslots]
        exact List.forall_mem_cons.mpr ⟨.inl (by omega), List.forall_mem_cons.mpr
          ⟨.inl (by omega), List.forall_mem_singleton.mpr hlast.2⟩⟩
      · rw [hslots]
        exact List.forall_mem_cons.mpr ⟨by unfold endOf at hend hlast ⊢; omega,
          List.forall_mem_cons.mpr ⟨by unfold endOf at hend1 hlast ⊢; omega,
            List.forall_mem_singleton.mpr hlast.1⟩⟩
      · rw [hslots]
        refine List.pairwise_cons.mpr ⟨List.forall_mem_cons.mpr ⟨hend.le,
          List.forall_mem_singleton.mpr ?_⟩, List.pairwise_cons.mpr
          ⟨List.forall_mem_singleton.mpr hend1.le, List.pairwise_singleton _ _⟩⟩
        unfold endOf at hend hend1 ⊢
        omega
      · rw [hslot, Call.nextSlot, if_pos hzero, hslot, hend]

namespace Samples

/-- A disk of 7580 MiB, with the default sizes of cfgfs and of the data partition. -/
def call (target : Target) : Call where
  target := target
  cfgfs := 1
  datafssz := 0
  dksz := 15523840
  core := none
  svnd := false
  code := fun _ => 0
  signature := fun _ => 0

theorem firsttrack_layout_default :
    ∃ track, (call .default).firsttrack = some track ∧ Layout (call .default) track :=
  ⟨_, rfl, (firsttrack_layout (by decide) rfl).mpr (by decide)⟩

/-- The system partition of a Raspberry Pi ends 100 MiB before cfgfs. -/
theorem not_layout :
    ∃ track, (call .raspberryPi).firsttrack = some track ∧ ¬Layout (call .raspberryPi) track := by
  refine ⟨_, rfl, fun hlayout => ?_⟩
  obtain ⟨hstart, hsize⟩ := Call.entry_system (v := call .raspberryPi) rfl (by decide) (by decide)
  have hnext := Call.offsetOf_nextSlot (v := call .raspberryPi) rfl
  have hadjacent := congrArg (Nat.cast : ℕ → ℤ) hlayout.adjacent
  rw [endOf, Nat.cast_add, hstart, hsize, hnext] at hadjacent
  exact absurd hadjacent (by decide)

end Samples
end OpenADK.Disk
