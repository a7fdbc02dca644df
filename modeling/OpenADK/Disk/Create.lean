import OpenADK.Disk.Layout

/-!
# The image of `create.sh`

The image is the first track, the root filesystem and cfgfs, one after the other. The entry of the
root partition comes from `bootgrub.mksh`, and that of cfgfs from the same computation in the
script.
-/

namespace OpenADK.Disk

/-- The arguments of `create.sh`, `core.img` when GRUB is to be installed, and the boot code. -/
structure Creation where
  cfgfs : Int32
  tgtmib : Int32
  core : Option (List UInt8)
  code : Image

/-- A raw image: the first track, and the lengths of its parts. -/
structure RawImage where
  firsttrack : Image
  tracksz : ℕ
  fsimgsz : ℕ
  cfgfssz : ℕ

namespace Creation
variable (v : Creation)

def coreimgsz : Int32 := (v.core.map fun core => Int32.ofNat core.length).getD 1
def coreendsec : Int32 := (v.coreimgsz + 511) / 512

/-- At least `coreendsec + 1`, but aligned on a multiple of the sectors of a track. -/
def partofs : Int32 := (v.coreendsec / secs + 1) * secs

/-- The size of the root filesystem in KiB is computed without signs. -/
def partfssz : UInt32 :=
  ((v.tgtmib - v.cfgfs).toUInt32 * 64 * 32 - v.partofs.toUInt32) / 2

def rootPartition : Option Image :=
  bootgrub v.code ⟨v.tgtmib - v.cfgfs, heads, secs⟩ 1 0x83 v.partofs

def addRoot (t : Image) : Image :=
  match v.rootPartition with
  | none => t
  | some thecode => t.patch 0 (thecode.slice 0 512)

def addCore (t : Image) : Image :=
  match v.core with
  | none => t
  | some core => (t.patch 512 core).patch 0x414 [0, 0, 0, 0]

def pofs : Int32 := (v.tgtmib - v.cfgfs) * heads * secs

/-- The entry of cfgfs, with its size computed on its own. -/
def cfgfsEntry : List UInt8 :=
  emit ((partitionEntry 0x00 0x88 ⟨v.tgtmib, heads, secs⟩ v.tgtmib 0 v.pofs).take 12 ++
    lba (v.cfgfs * heads * secs))

def firsttrack : Image := (v.addCore (v.addRoot fun _ => 0)).patch 0x1CE v.cfgfsEntry

/-- `dd` extends the track when `core.img` does not fit. -/
def tracksz : ℕ :=
  max (512 * v.partofs.toNatClampNeg) ((v.core.map fun core => 512 + core.length).getD 0)

/-- The image that is left by a run that gets to its end. The sizes are compared with those that
`bc` computes. -/
def create : Option RawImage :=
  if v.cfgfs < 0 ∨ v.cfgfs > 5 then none
  else if v.tgtmib < 7 ∨ v.tgtmib > 2097150 then none
  else if v.core.isSome ∧ (v.coreimgsz < 1024 ∨ v.coreimgsz > 65024) then none
  else
    let raw : RawImage :=
      ⟨v.firsttrack, v.tracksz, v.partfssz.toNat * 1024, v.cfgfs.toNatClampNeg * 1048576⟩
    if (raw.tracksz + raw.fsimgsz + raw.cfgfssz : ℤ) = v.tgtmib.toInt * 1048576 then some raw
    else none

end Creation

/-! ### What the image should be -/

/-- The address of the first sector in an entry: cylinder, head and sector. -/
def startOf (entry : List UInt8) : ℕ × ℕ × ℕ :=
  ((entry.getD 2 0).toNat / 64 * 256 + (entry.getD 3 0).toNat, (entry.getD 1 0).toNat,
    (entry.getD 2 0).toNat % 64)

def chs (sector : ℕ) : ℕ × ℕ × ℕ := (sector / 2048, sector / 32 % 64, sector % 32 + 1)

/-- The start of the entry is the address of its first sector, as far as there are cylinders. -/
def Addressed (entry : List UInt8) : Prop :=
  if 1023 < (chs (offsetOf entry)).1 then (startOf entry).1 = 1023
  else startOf entry = chs (offsetOf entry)

structure Tiled (v : Creation) (raw : RawImage) : Prop where
  size : (raw.tracksz + raw.fsimgsz + raw.cfgfssz : ℤ) = v.tgtmib.toInt * 1048576
  root : 512 * offsetOf (raw.firsttrack.entry 0) = raw.tracksz
  cfgfs : 512 * offsetOf (raw.firsttrack.entry 1) = raw.tracksz + raw.fsimgsz
  adjacent : endOf (raw.firsttrack.entry 0) = offsetOf (raw.firsttrack.entry 1)
  last : (endOf (raw.firsttrack.entry 1) : ℤ) = v.tgtmib.toInt * 2048
  /-- The core image ends before the root partition. -/
  core : ∀ core ∈ v.core, 512 + core.length ≤ 512 * offsetOf (raw.firsttrack.entry 0)
  addressed : Addressed (raw.firsttrack.entry 0) ∧ Addressed (raw.firsttrack.entry 1)

/-! ### The bytes of an address -/

/-- Two bits of the cylinder are stored above the sector. -/
theorem masked_cylinder (x : Int32) :
    ∃ a < 4, x.toBitVec.toNat / 256 % 4 = a ∧ x &&& 0x0300 = Int32.ofNat (256 * a) := by
  refine ⟨x.toBitVec.toNat / 256 % 4, Nat.mod_lt _ (by omega), rfl, ?_⟩
  have hmask : ∀ m < 1024, m &&& 768 = m / 256 % 4 * 256 := by decide +kernel
  have hbits : x.toBitVec.toNat &&& 768 = x.toBitVec.toNat / 256 % 4 * 256 := by
    have hsmall : x.toBitVec.toNat &&& 768 < 1024 :=
      (Nat.and_le_right).trans_lt (by omega)
    have hmod := @Nat.and_mod_two_pow x.toBitVec.toNat 768 10
    rw [Nat.mod_eq_of_lt hsmall] at hmod
    rw [hmod, hmask _ (Nat.mod_lt _ (by omega))]
    omega
  apply Int32.toBitVec_inj.mp
  apply BitVec.eq_of_toNat_eq
  rw [Int32.toBitVec_and, BitVec.toNat_and]
  have hvalue : ∀ a < 4, a * 256 = (Int32.ofNat (256 * a)).toBitVec.toNat := by decide
  exact hbits.trans (hvalue _ (Nat.mod_lt _ (by omega)))

/-- The address of the first sector of a cylinder. -/
theorem startOf_entry (boot head first : Int32) (rest : List Int32) :
    startOf (emit (boot :: head :: ((1 : Int32) ||| ((first &&& 0x0300) >>> 2)) ::
        (first &&& 0x00FF) :: rest)) =
      (first.toBitVec.toNat % 1024, head.toBitVec.toNat % 256, 1) := by
  obtain ⟨a, ha, hdiv, hmasked⟩ := masked_cylinder first
  have hlow := toNat_emit_byte first first (k := 0) (by omega) (BitVec.sshiftRight_zero).symm
  rw [Nat.pow_zero, Nat.div_one] at hlow
  have hhigh : ∀ a < 4,
      ((1 : Int32) ||| (Int32.ofNat (256 * a) >>> 2)).toUInt32.toUInt8.toNat = 64 * a + 1 := by
    decide
  have hsector : ((1 : Int32) ||| ((first &&& 0x0300) >>> 2)).toUInt32.toUInt8.toNat =
      64 * a + 1 := by
    rw [hmasked]
    exact hhigh a ha
  simp only [startOf, emit, List.map_cons, List.getD_cons_succ, List.getD_cons_zero]
  rw [hsector, hlow]
  apply Prod.ext
  · change (64 * a + 1) / 64 * 256 + first.toBitVec.toNat % 256 = first.toBitVec.toNat % 1024
    omega
  · apply Prod.ext
    · exact UInt32.toNat_toUInt8 _
    · change (64 * a + 1) % 64 = 1
      omega

/-! ### The sizes -/

namespace Creation
variable {v : Creation} {raw : RawImage}

/-- The size of `core.img` that is computed with. -/
def coreLength (v : Creation) : ℕ := (v.core.map List.length).getD 1

structure Accepted (v : Creation) : Prop where
  cfgfs : 0 ≤ v.cfgfs.toInt ∧ v.cfgfs.toInt ≤ 5
  tgtmib : 7 ≤ v.tgtmib.toInt ∧ v.tgtmib.toInt ≤ 2097150
  core : ∀ core ∈ v.core, 1024 ≤ core.length ∧ core.length ≤ 65024

theorem Accepted.coreLength (h : v.Accepted) : 1 ≤ v.coreLength ∧ v.coreLength ≤ 65024 := by
  unfold Creation.coreLength
  cases hcore : v.core with
  | none => exact ⟨le_rfl, by decide⟩
  | some core =>
    have hlen := h.core core hcore
    exact ⟨by change 1 ≤ core.length; omega, hlen.2⟩

theorem Accepted.toInt_cyls (h : v.Accepted) :
    (v.tgtmib - v.cfgfs).toInt = v.tgtmib.toInt - v.cfgfs.toInt := by
  have hcfgfs := h.cfgfs
  have htgtmib := h.tgtmib
  exact toInt_eq_of_emod (toInt_sub_emod _ _) (by omega) (by omega)

theorem Accepted.toInt_coreimgsz (h : v.Accepted) : v.coreimgsz.toInt = v.coreLength := by
  have hlen := h.coreLength
  unfold coreimgsz
  unfold Creation.coreLength at hlen ⊢
  cases hcore : v.core with
  | none => rfl
  | some core =>
    rw [hcore] at hlen
    exact Int32.toInt_ofNat_of_lt (hlen.2.trans_lt (by decide))

/-- A division of a number that is not negative. -/
theorem toInt_div_of_nonneg {x y : Int32} (hx : 0 ≤ x.toInt) (hy : 0 < y.toInt) :
    (x / y).toInt = x.toInt / y.toInt := by
  have hlt := x.toInt_lt
  have hle : x.toInt / y.toInt ≤ x.toInt := Int.ediv_le_self _ hx
  have hnonneg : 0 ≤ x.toInt / y.toInt := Int.ediv_nonneg hx hy.le
  rw [Int32.toInt_div, Int.tdiv_eq_ediv_of_nonneg hx]
  exact Int.bmod_eq_of_le (by omega) (by omega)

theorem Accepted.toInt_partofs (h : v.Accepted) :
    v.partofs.toInt = ((v.coreLength + 511) / 512 / 32 + 1) * 32 := by
  have hlen := h.coreLength
  have hsum : (v.coreimgsz + 511).toInt = v.coreLength + 511 := by
    have hadd := toInt_add_emod v.coreimgsz 511
    rw [h.toInt_coreimgsz] at hadd
    change _ = (_ + (511 : ℤ)) % _ at hadd
    exact toInt_eq_of_emod hadd (by omega) (by omega)
  have hend : v.coreendsec.toInt = (v.coreLength + 511) / 512 := by
    rw [coreendsec, toInt_div_of_nonneg (by omega) (by decide), hsum]
    rfl
  have htracks : (v.coreendsec / secs).toInt = (v.coreLength + 511) / 512 / 32 := by
    rw [toInt_div_of_nonneg (by omega) (by decide), hend]
    rfl
  have hadd := toInt_add_emod (v.coreendsec / secs) 1
  have hmul := toInt_mul_emod (v.coreendsec / secs + 1) secs
  change _ = (_ + (1 : ℤ)) % _ at hadd
  change _ = (_ * (32 : ℤ)) % _ at hmul
  rw [htracks] at hadd
  exact toInt_eq_of_emod (by rw [partofs]; omega) (by omega) (by omega)

/-- The root partition begins on a track, after the core image. -/
theorem Accepted.partofs_cases (h : v.Accepted) :
    v.partofs = 32 ∨ v.partofs = 64 ∨ v.partofs = 96 ∨ v.partofs = 128 := by
  have hlen := h.coreLength
  have hofs := h.toInt_partofs
  have hval (y : Int32) (hy : v.partofs.toInt = y.toInt) : v.partofs = y := Int32.toInt_inj.mp hy
  have hcases : v.partofs.toInt = 32 ∨ v.partofs.toInt = 64 ∨ v.partofs.toInt = 96 ∨
      v.partofs.toInt = 128 := by omega
  exact hcases.imp (hval 32) (Or.imp (hval 64) (Or.imp (hval 96) (hval 128)))

theorem toNat_toUInt32 {x : Int32} (hx : 0 ≤ x.toInt) : (x.toUInt32.toNat : ℤ) = x.toInt := by
  have hx : (0 : Int32) ≤ x := Int32.le_iff_toInt_le.mpr hx
  rw [Int32.toNat_toUInt32_of_le hx, Int32.cast_toNatClampNeg x hx]

theorem Accepted.toNat_partfssz (h : v.Accepted) :
    (v.partfssz.toNat : ℤ) * 2 =
      (v.tgtmib.toInt - v.cfgfs.toInt) * 2048 - v.partofs.toInt := by
  have hcfgfs := h.cfgfs
  have htgtmib := h.tgtmib
  have hcyls := toNat_toUInt32 (x := v.tgtmib - v.cfgfs) (by rw [h.toInt_cyls]; omega)
  have hofs : (v.partofs.toUInt32.toNat : ℤ) = v.partofs.toInt := toNat_toUInt32 (by
    rcases h.partofs_cases with hofs | hofs | hofs | hofs <;> rw [hofs] <;> decide)
  have heven : v.partofs.toInt % 32 = 0 ∧ 0 ≤ v.partofs.toInt ∧ v.partofs.toInt ≤ 128 := by
    rcases h.partofs_cases with hofs | hofs | hofs | hofs <;> rw [hofs] <;> decide
  rw [h.toInt_cyls] at hcyls
  have hheads : (64 : UInt32).toNat = 64 := rfl
  have hsecs : (32 : UInt32).toNat = 32 := rfl
  have htwo : (2 : UInt32).toNat = 2 := rfl
  rw [partfssz, UInt32.toNat_div, UInt32.toNat_sub, UInt32.toNat_mul, UInt32.toNat_mul, hheads,
    hsecs, htwo]
  omega

/-! ### The entries -/

theorem entry_addCore (t : Image) {slot : ℕ} (h : slot < 4) :
    (v.addCore t).entry slot = t.entry slot := by
  rw [addCore]
  split
  · rfl
  · rw [Image.entry_patch_of_disjoint _ (.inl (by omega)),
      Image.entry_patch_of_disjoint _ (.inl (by omega))]

theorem entry_addRoot {thecode : Image} (h : v.rootPartition = some thecode) (t : Image) {slot : ℕ}
    (hslot : slot < 4) : (v.addRoot t).entry slot = thecode.entry slot := by
  rw [addRoot, h]
  exact t.entry_patch_sector thecode hslot

theorem Accepted.entry_root (h : v.Accepted) : v.firsttrack.entry 0 =
    emit (partitionEntry 0x80 0x83 ⟨v.tgtmib - v.cfgfs, heads, secs⟩ (v.tgtmib - v.cfgfs)
      ((v.tgtmib - v.cfgfs) * heads * secs) v.partofs) := by
  have hcfgfs := h.cfgfs
  have htgtmib := h.tgtmib
  have hcyls := h.toInt_cyls
  obtain ⟨thecode, hroot, -⟩ := bootgrub_eq v.code 0x83 v.partofs
    (by rw [hcyls]; omega) (by rw [hcyls]; omega)
  rw [firsttrack, Image.entry_patch_of_disjoint _ (.inl (by omega)), entry_addCore _ (by omega),
    entry_addRoot hroot _ (by omega)]
  exact Image.entry_patch_self _ rfl (length_emit _)

theorem entry_cfgfs (v : Creation) : v.firsttrack.entry 1 = v.cfgfsEntry :=
  Image.entry_patch_self _ rfl (length_emit _)

theorem offsetOf_cfgfsEntry (v : Creation) : (offsetOf v.cfgfsEntry : ℤ) = v.pofs.toInt % 2 ^ 32 :=
  ofBytes_emit_lba v.pofs

theorem countOf_cfgfsEntry (v : Creation) :
    (countOf v.cfgfsEntry : ℤ) = v.cfgfs.toInt * 2048 % 2 ^ 32 :=
  (ofBytes_emit_lba _).trans (toInt_sectors_emod v.cfgfs)

/-- Sectors that make up whole cylinders, on either side of zero. -/
theorem cylinder_of_sectors {x : Int32} {c : ℤ} (h : x.toInt = 2048 * c) :
    x % secs = 0 ∧ x / secs % heads = 0 ∧ (x / secs / heads).toInt = c := by
  have hx := x.toInt_lt
  have hx' := x.le_toInt
  have hheads : heads.toInt = 64 := rfl
  have hsecs : secs.toInt = 32 := rfl
  have hsplit : (2048 * c : ℤ) = 32 * (64 * c) := by omega
  have hbmod (y : ℤ) (hlow : -2 ^ 31 ≤ y) (hhigh : y < 2 ^ 31) : y.bmod (2 ^ 32) = y :=
    Int.bmod_eq_of_le (by omega) (by omega)
  have htrack : (x / secs).toInt = 64 * c := by
    rw [Int32.toInt_div, h, hsecs, hsplit, Int.mul_tdiv_cancel_left _ (by decide)]
    exact hbmod _ (by omega) (by omega)
  refine ⟨Int32.toInt_inj.mp ?_, Int32.toInt_inj.mp ?_, ?_⟩
  · rw [Int32.toInt_mod, h, hsecs, hsplit, Int.mul_tmod_right]
    rfl
  · rw [Int32.toInt_mod, htrack, hheads, Int.mul_tmod_right]
    rfl
  · rw [Int32.toInt_div, htrack, hheads, Int.mul_tdiv_cancel_left _ (by decide)]
    exact hbmod _ (by omega) (by omega)

theorem toInt_cylno {x : Int32} (hx : x.toInt ≤ 2 ^ 30) (hx' : -2 ^ 30 ≤ x.toInt) :
    (cylno (x + 1)).toInt = if 1024 ≤ x.toInt then 1023 else x.toInt := by
  have hadd := toInt_add_emod x 1
  change _ = (_ + (1 : ℤ)) % _ at hadd
  have hadd := toInt_eq_of_emod hadd (by omega) (by omega)
  have hsub := toInt_sub_emod (x + 1) 1
  change _ = (_ - (1 : ℤ)) % _ at hsub
  have hsub := toInt_eq_of_emod hsub (by omega) (by omega)
  have hgt : x + 1 > 1024 ↔ 1024 ≤ x.toInt := by
    rw [gt_iff_lt, Int32.lt_iff_toInt_lt, hadd]
    exact Int.lt_add_one_iff
  unfold cylno
  by_cases hlarge : 1024 ≤ x.toInt
  · rw [if_pos (hgt.mpr hlarge), if_pos hlarge]
    rfl
  · rw [if_neg (hgt.not.mpr hlarge), if_neg hlarge]
    omega

theorem startOf_partitionEntry (boot ptype cyls endcyl psz : Int32) {x : Int32}
    (h : x % secs = 0) :
    startOf (emit (partitionEntry boot ptype ⟨cyls, heads, secs⟩ endcyl psz x)) =
      ((cylno (x / secs / heads + 1)).toBitVec.toNat % 1024,
        (x / secs % heads + 1 - 1).toBitVec.toNat % 256, 1) := by
  have hsector : x % secs + 1 = 1 := by rw [h]; rfl
  simp only [partitionEntry, hsector]
  exact startOf_entry _ _ _ _

theorem Accepted.startOf_root (h : v.Accepted) :
    startOf (v.firsttrack.entry 0) = (0, (v.partofs.toInt / 32).toNat, 1) := by
  rw [h.entry_root]
  rcases h.partofs_cases with hofs | hofs | hofs | hofs <;>
  · rw [hofs, startOf_partitionEntry _ _ _ _ _ rfl]
    rfl

/-- The number of cylinders before cfgfs, as it is computed from the sectors. -/
theorem Accepted.toInt_pofs (h : v.Accepted) : v.pofs.toInt = 2048 *
    ((v.tgtmib - v.cfgfs).toInt - if (v.tgtmib - v.cfgfs).toInt < 2 ^ 20 then 0 else 2 ^ 21) := by
  have hcfgfs := h.cfgfs
  have htgtmib := h.tgtmib
  have hcyls := h.toInt_cyls
  have hsectors := toInt_sectors_emod (v.tgtmib - v.cfgfs)
  refine toInt_eq_of_emod (x := v.pofs) (by rw [pofs]; split <;> omega) ?_ ?_ <;> split <;> omega

theorem Accepted.startOf_cfgfs (h : v.Accepted) : startOf v.cfgfsEntry =
    ((if 1023 < (v.tgtmib - v.cfgfs).toInt ∧ (v.tgtmib - v.cfgfs).toInt < 2 ^ 20 then 1023
      else (v.tgtmib - v.cfgfs).toInt % 1024).toNat, 0, 1) := by
  have hcfgfs := h.cfgfs
  have htgtmib := h.tgtmib
  have hcyls := h.toInt_cyls
  obtain ⟨hsector, hhead, hcyl⟩ := cylinder_of_sectors h.toInt_pofs
  have hcylno := toInt_cylno (x := v.pofs / secs / heads) (by omega) (by omega)
  have hstored := toInt_emod (cylno (v.pofs / secs / heads + 1))
  have hstart := startOf_partitionEntry 0x00 0x88 v.tgtmib v.tgtmib 0 hsector
  rw [hhead] at hstart
  refine hstart.trans (Prod.ext ?_ rfl)
  rw [hcyl] at hcylno
  split_ifs at hcylno <;> split_ifs <;> omega

/-! ### The image -/

theorem Accepted.tracksz_eq (h : v.Accepted) : (v.tracksz : ℤ) = 512 * v.partofs.toInt := by
  have hofs := h.toInt_partofs
  have hlen := h.coreLength
  have hnat : (v.partofs.toNatClampNeg : ℤ) = v.partofs.toInt :=
    Int32.cast_toNatClampNeg _ (Int32.le_iff_toInt_le.mpr (by change (0 : ℤ) ≤ _; omega))
  have hfits : (v.core.map fun core => 512 + core.length).getD 0 ≤
      512 * v.partofs.toNatClampNeg := by
    unfold Creation.coreLength at hofs
    cases hcore : v.core with
    | none => exact Nat.zero_le _
    | some core =>
      rw [hcore] at hofs
      change _ = (((core.length : ℕ) + 511 : ℤ) / 512 / 32 + 1) * 32 at hofs
      change 512 + core.length ≤ _
      omega
  rw [tracksz, Nat.max_eq_left hfits]
  omega

/-- The parts have the size asked for, so the check at the end passes. -/
theorem Accepted.create_eq (h : v.Accepted) : v.create = some
    ⟨v.firsttrack, v.tracksz, v.partfssz.toNat * 1024, v.cfgfs.toNatClampNeg * 1048576⟩ := by
  have hcfgfs := h.cfgfs
  have htgtmib := h.tgtmib
  have htrack := h.tracksz_eq
  have hroot := h.toNat_partfssz
  have hnat : (v.cfgfs.toNatClampNeg : ℤ) = v.cfgfs.toInt :=
    Int32.cast_toNatClampNeg _ (Int32.le_iff_toInt_le.mpr hcfgfs.1)
  have hlt (x y : Int32) : x < y ↔ x.toInt < y.toInt := Int32.lt_iff_toInt_lt
  have hbounds : ¬(v.cfgfs < 0 ∨ v.cfgfs > 5) := by
    rw [gt_iff_lt, hlt, hlt]
    change ¬(_ < (0 : ℤ) ∨ (5 : ℤ) < _)
    omega
  have hbounds' : ¬(v.tgtmib < 7 ∨ v.tgtmib > 2097150) := by
    rw [gt_iff_lt, hlt, hlt]
    change ¬(_ < (7 : ℤ) ∨ (2097150 : ℤ) < _)
    omega
  have hcore : ¬(v.core.isSome ∧ (v.coreimgsz < 1024 ∨ v.coreimgsz > 65024)) := by
    have hsize := h.toInt_coreimgsz
    unfold Creation.coreLength at hsize
    rintro ⟨hsome, hcore⟩
    obtain ⟨core, heq⟩ := Option.isSome_iff_exists.mp hsome
    have hlen := h.core core heq
    rw [heq] at hsize
    change _ = ((core.length : ℕ) : ℤ) at hsize
    rw [gt_iff_lt, hlt, hlt] at hcore
    change _ < (1024 : ℤ) ∨ (65024 : ℤ) < _ at hcore
    omega
  unfold create
  rw [if_neg hbounds, if_neg hbounds', if_neg hcore]
  refine if_pos ?_
  push_cast
  omega

theorem Accepted.offsetOf_root (h : v.Accepted) :
    (offsetOf (v.firsttrack.entry 0) : ℤ) = v.partofs.toInt := by
  have hofs := h.toInt_partofs
  have hlen := h.coreLength
  rw [h.entry_root, offsetOf_partitionEntry]
  omega

theorem Accepted.offsetOf_cfgfs (h : v.Accepted) :
    (offsetOf (v.firsttrack.entry 1) : ℤ) = (v.tgtmib.toInt - v.cfgfs.toInt) * 2048 := by
  have hcfgfs := h.cfgfs
  have htgtmib := h.tgtmib
  have hpofs := h.toInt_pofs
  rw [h.toInt_cyls] at hpofs
  rw [v.entry_cfgfs, offsetOf_cfgfsEntry]
  split_ifs at hpofs <;> omega

theorem Accepted.endOf_root (h : v.Accepted) :
    (endOf (v.firsttrack.entry 0) : ℤ) = (v.tgtmib.toInt - v.cfgfs.toInt) * 2048 := by
  have hcfgfs := h.cfgfs
  have htgtmib := h.tgtmib
  have hofs := h.toInt_partofs
  have hlen := h.coreLength
  have hstart := h.offsetOf_root
  have hsectors := toInt_sectors_emod (v.tgtmib - v.cfgfs)
  have hcount : (countOf (v.firsttrack.entry 0) : ℤ) =
      (((v.tgtmib - v.cfgfs) * heads * secs).toInt - v.partofs.toInt) % 2 ^ 32 := by
    rw [h.entry_root]
    exact countOf_partitionEntry _ _ _ _ _ _
  rw [h.toInt_cyls] at hsectors
  unfold endOf
  omega

theorem Accepted.endOf_cfgfs (h : v.Accepted) :
    (endOf (v.firsttrack.entry 1) : ℤ) = v.tgtmib.toInt * 2048 := by
  have hcfgfs := h.cfgfs
  have hstart := h.offsetOf_cfgfs
  have hcount := v.countOf_cfgfsEntry
  rw [← v.entry_cfgfs] at hcount
  unfold endOf
  omega

theorem Accepted.addressed_root (h : v.Accepted) : Addressed (v.firsttrack.entry 0) := by
  have hofs := h.toInt_partofs
  have hlen := h.coreLength
  have hstart := h.offsetOf_root
  have haddress : chs (offsetOf (v.firsttrack.entry 0)) = (0, (v.partofs.toInt / 32).toNat, 1) := by
    apply Prod.ext
    · change offsetOf (v.firsttrack.entry 0) / 2048 = 0
      omega
    · apply Prod.ext
      · change offsetOf (v.firsttrack.entry 0) / 32 % 64 = (v.partofs.toInt / 32).toNat
        omega
      · change offsetOf (v.firsttrack.entry 0) % 32 + 1 = 1
        omega
  rw [Addressed, h.startOf_root, haddress]
  rfl

/-- From `2 ^ 20` cylinders on the number of sectors is negative, and so is the cylinder. -/
theorem Accepted.addressed_cfgfs (h : v.Accepted) : Addressed (v.firsttrack.entry 1) ↔
    v.tgtmib.toInt - v.cfgfs.toInt < 2 ^ 20 ∨
      (v.tgtmib.toInt - v.cfgfs.toInt) % 1024 = 1023 := by
  have hcfgfs := h.cfgfs
  have htgtmib := h.tgtmib
  have hoffset := h.offsetOf_cfgfs
  have hstart := h.startOf_cfgfs
  have haddress : chs (offsetOf (v.firsttrack.entry 1)) =
      ((v.tgtmib.toInt - v.cfgfs.toInt).toNat, 0, 1) := by
    apply Prod.ext
    · change offsetOf (v.firsttrack.entry 1) / 2048 = (v.tgtmib.toInt - v.cfgfs.toInt).toNat
      omega
    · apply Prod.ext
      · change offsetOf (v.firsttrack.entry 1) / 32 % 64 = 0
        omega
      · change offsetOf (v.firsttrack.entry 1) % 32 + 1 = 1
        omega
  rw [h.toInt_cyls, ← v.entry_cfgfs] at hstart
  rw [Addressed, hstart, haddress]
  by_cases hlarge : 1023 < (v.tgtmib.toInt - v.cfgfs.toInt).toNat
  · rw [if_pos hlarge]
    change Int.toNat _ = 1023 ↔ _
    split_ifs <;> omega
  · rw [if_neg hlarge, if_neg (by omega)]
    have hsmall : (v.tgtmib.toInt - v.cfgfs.toInt) % 1024 = v.tgtmib.toInt - v.cfgfs.toInt := by
      omega
    rw [hsmall]
    exact ⟨fun _ => .inl (by omega), fun _ => rfl⟩

/-- All the rest is as intended whatever the size. -/
theorem Accepted.tiled (h : v.Accepted) (hcfgfs : Addressed (v.firsttrack.entry 1)) :
    Tiled v ⟨v.firsttrack, v.tracksz, v.partfssz.toNat * 1024,
      v.cfgfs.toNatClampNeg * 1048576⟩ := by
  have htrack := h.tracksz_eq
  have hfs := h.toNat_partfssz
  have hcfgfssz : (v.cfgfs.toNatClampNeg : ℤ) = v.cfgfs.toInt :=
    Int32.cast_toNatClampNeg _ (Int32.le_iff_toInt_le.mpr h.cfgfs.1)
  have hstart := h.offsetOf_root
  have hend := h.endOf_root
  have hstart' := h.offsetOf_cfgfs
  have hroot : 512 * offsetOf (v.firsttrack.entry 0) = v.tracksz := by omega
  refine ⟨?size, hroot, ?cfgfs, ?adjacent, h.endOf_cfgfs, ?core, h.addressed_root, hcfgfs⟩
  case size =>
    push_cast
    omega
  case cfgfs =>
    change 512 * offsetOf (v.firsttrack.entry 1) = v.tracksz + v.partfssz.toNat * 1024
    omega
  case adjacent =>
    change endOf (v.firsttrack.entry 0) = offsetOf (v.firsttrack.entry 1)
    omega
  case core =>
    intro core hcore
    change 512 + core.length ≤ 512 * offsetOf (v.firsttrack.entry 0)
    rw [hroot, tracksz, Option.mem_def.mp hcore]
    exact Nat.le_max_right _ _

end Creation

/-- The image is laid out as intended if and only if cfgfs starts before the cylinder whose sectors
cannot be counted with signs, or the part of its cylinder that is stored happens to be 1023. -/
theorem create_tiled {v : Creation} (h : v.Accepted) : ∃ raw, v.create = some raw ∧
    (Tiled v raw ↔
      v.tgtmib.toInt - v.cfgfs.toInt < 2 ^ 20 ∨
        (v.tgtmib.toInt - v.cfgfs.toInt) % 1024 = 1023) :=
  ⟨_, h.create_eq, fun htiled => h.addressed_cfgfs.mp htiled.addressed.2,
    fun hcond => h.tiled (h.addressed_cfgfs.mpr hcond)⟩

namespace Samples

def creation (cfgfs tgtmib : Int32) : Creation where
  cfgfs := cfgfs
  tgtmib := tgtmib
  core := none
  code := fun _ => 0

theorem accepted_creation {cfgfs tgtmib : Int32} (hcfgfs : 0 ≤ cfgfs.toInt ∧ cfgfs.toInt ≤ 5)
    (htgtmib : 7 ≤ tgtmib.toInt ∧ tgtmib.toInt ≤ 2097150) : (creation cfgfs tgtmib).Accepted :=
  ⟨hcfgfs, htgtmib, fun _ hcore => nomatch hcore⟩

/-- The largest image whose cfgfs has the address of its sector. -/
theorem create_tiled_terabyte :
    ∃ raw, (creation 1 1048576).create = some raw ∧ Tiled (creation 1 1048576) raw := by
  have haccepted : (creation 1 1048576).Accepted := accepted_creation (by decide) (by decide)
  obtain ⟨raw, hcreate, htiled⟩ := create_tiled haccepted
  exact ⟨raw, hcreate, htiled.mpr (by decide)⟩

/-- With one more cylinder the entry of cfgfs has the address of the first sector of the disk. -/
theorem not_tiled :
    ∃ raw, (creation 1 1048577).create = some raw ∧ ¬Tiled (creation 1 1048577) raw := by
  have haccepted : (creation 1 1048577).Accepted := accepted_creation (by decide) (by decide)
  refine ⟨_, haccepted.create_eq, fun htiled => ?_⟩
  exact absurd (haccepted.addressed_cfgfs.mp htiled.addressed.2) (by decide)

end Samples
end OpenADK.Disk
