import OpenADK.Library.LittleEndian
import Mathlib.Data.List.GetD
import Mathlib.Tactic.Ring

/-!
# Partition entries

The scripts compute the sixteen bytes of a partition entry in the 32-bit arithmetic of the
shell and write them into the image of the first track with `dd`.
-/

namespace OpenADK.Disk
open LittleEndian

/-- The bytes of a file by their offsets. -/
abbrev Image := ℕ → UInt8

namespace Image
variable {t : Image} {bs : List UInt8} {seek skip count : ℕ}

/-- `dd conv=notrunc bs=1 seek=…` -/
def patch (t : Image) (seek : ℕ) (bs : List UInt8) : Image := fun i =>
  if seek ≤ i ∧ i < seek + bs.length then bs.getD (i - seek) 0 else t i

/-- `dd bs=1 skip=… count=…` -/
def slice (t : Image) (skip count : ℕ) : List UInt8 :=
  (List.range count).map fun i => t (skip + i)

@[simp] theorem length_slice (t : Image) (skip count : ℕ) :
    (t.slice skip count).length = count := by
  rw [slice, List.length_map, List.length_range]

theorem slice_congr {t' : Image} (h : ∀ i < count, t (skip + i) = t' (skip + i)) :
    t.slice skip count = t'.slice skip count :=
  List.map_congr_left fun i hi => h i (List.mem_range.mp hi)

theorem slice_patch_of_disjoint (t : Image)
    (h : skip + count ≤ seek ∨ seek + bs.length ≤ skip) :
    (t.patch seek bs).slice skip count = t.slice skip count :=
  slice_congr fun i hi => if_neg (by omega)

theorem slice_patch_self (t : Image) (seek : ℕ) (bs : List UInt8) :
    (t.patch seek bs).slice seek bs.length = bs := by
  refine List.ext_getElem (length_slice _ _ _) fun i hi hi' => ?_
  have hin : seek ≤ seek + i ∧ seek + i < seek + bs.length := by omega
  simp only [slice, patch, List.getElem_map, List.getElem_range, if_pos hin,
    Nat.add_sub_cancel_left]
  exact List.getD_eq_getElem _ _ hi'

theorem slice_patch_slice (t t' : Image) {n k : ℕ} (h : k + count ≤ n) :
    (t.patch seek (t'.slice skip n)).slice (seek + k) count = t'.slice (skip + k) count := by
  refine List.map_congr_left fun i hi => ?_
  have hi := List.mem_range.mp hi
  have hin : seek ≤ seek + k + i ∧ seek + k + i < seek + (t'.slice skip n).length := by
    rw [length_slice]
    omega
  have hsub : seek + k + i - seek = k + i := by omega
  have hlt : k + i < (t'.slice skip n).length := by
    rw [length_slice]
    omega
  rw [patch, if_pos hin, hsub, List.getD_eq_getElem _ _ hlt]
  simp only [slice, List.getElem_map, List.getElem_range, Nat.add_assoc]

end Image

structure Geometry where
  cyls : Int32
  heads : Int32
  secs : Int32

def cylno (cyl : Int32) : Int32 := if cyl > 1024 then 1023 else cyl - 1

/-- The four bytes of a number, `x & 0xFF` first. -/
def lba (x : Int32) : List Int32 :=
  [x &&& 0xFF, (x >>> 8) &&& 0xFF, (x >>> 16) &&& 0xFF, (x >>> 24) &&& 0xFF]

/-- The entry of a partition from the sector `pofs` up to `psz`. Where it ends is computed
from `endcyl`, the number of cylinders up to there. -/
def partitionEntry (boot ptype : Int32) (g : Geometry) (endcyl psz pofs : Int32) : List Int32 :=
  let sector := pofs % g.secs + 1
  let track := pofs / g.secs
  let cyl := track / g.heads + 1
  let head := track % g.heads + 1
  let first := cylno cyl
  let last := cylno endcyl
  [boot, head - 1, sector ||| ((first &&& 0x0300) >>> 2), first &&& 0x00FF,
    ptype, g.heads - 1, g.secs ||| ((last &&& 0x0300) >>> 2), last &&& 0x00FF] ++
  lba pofs ++ lba (psz - pofs)

/-- `print -n` of the bytes in octal; each of them is in the range of a byte. -/
def emit (thecode : List Int32) : List UInt8 := thecode.map fun x => x.toUInt32.toUInt8

@[simp] theorem length_emit (thecode : List Int32) : (emit thecode).length = thecode.length :=
  List.length_map _

@[simp] theorem length_partitionEntry (boot ptype : Int32) (g : Geometry)
    (endcyl psz pofs : Int32) : (partitionEntry boot ptype g endcyl psz pofs).length = 16 := rfl

def offsetOf (entry : List UInt8) : ℕ := ofBytes ((entry.drop 8).take 4)

def countOf (entry : List UInt8) : ℕ := ofBytes ((entry.drop 12).take 4)

def Image.entry (t : Image) (slot : ℕ) : List UInt8 := t.slice (0x1BE + 16 * slot) 16

theorem toNat_emit_byte (x y : Int32) {k : ℕ} (hk : k + 8 ≤ 32)
    (hy : y.toBitVec = x.toBitVec.sshiftRight k) :
    (y &&& 0xFF).toUInt32.toUInt8.toNat = x.toBitVec.toNat / 2 ^ k % 256 := by
  have hbits : (y &&& 0xFF).toBitVec.setWidth 8 = (x.toBitVec >>> k).setWidth 8 := by
    ext i hi
    have hmask : ∀ j < 8, (0xFF#32).getLsbD j = true := by decide
    rw [Int32.toBitVec_and, hy, BitVec.getElem_setWidth, BitVec.getElem_setWidth,
      BitVec.getLsbD_and, BitVec.getLsbD_sshiftRight, BitVec.getLsbD_ushiftRight,
      if_pos (by omega), show (0xFF : Int32).toBitVec = 0xFF#32 from rfl, hmask i hi]
    simp only [show ¬32 ≤ i by omega, decide_false, Bool.not_false, Bool.true_and, Bool.and_true]
  have h := congrArg BitVec.toNat hbits
  rw [BitVec.toNat_setWidth, BitVec.toNat_setWidth, BitVec.toNat_ushiftRight,
    Nat.shiftRight_eq_div_pow] at h
  rw [UInt32.toNat_toUInt8]
  exact h

theorem toInt_emod (x : Int32) : x.toInt % 2 ^ 32 = x.toBitVec.toNat := by
  have hmod : ((x.toBitVec.toNat : ℤ).bmod (2 ^ 32)) % 2 ^ 32 = x.toBitVec.toNat % 2 ^ 32 := by
    exact_mod_cast Int.bmod_emod (x := x.toBitVec.toNat) (m := 2 ^ 32)
  rw [← Int32.toInt_toBitVec, BitVec.toInt_eq_toNat_bmod, hmod]
  exact Int.emod_eq_of_lt (Int.natCast_nonneg _) (by exact_mod_cast x.toBitVec.isLt)

/-- The stored number is the one computed modulo `2 ^ 32`. -/
theorem ofBytes_emit_lba (x : Int32) : (ofBytes (emit (lba x)) : ℤ) = x.toInt % 2 ^ 32 := by
  have h0 := toNat_emit_byte x x (k := 0) (by omega) (BitVec.sshiftRight_zero).symm
  have h1 := toNat_emit_byte x (x >>> 8) (k := 8) (by omega) rfl
  have h2 := toNat_emit_byte x (x >>> 16) (k := 16) (by omega) rfl
  have h3 := toNat_emit_byte x (x >>> 24) (k := 24) (by omega) rfl
  have hlt := x.toBitVec.isLt
  simp only [emit, lba, List.map_cons, List.map_nil, ofBytes, h0, h1, h2, h3, toInt_emod]
  omega

section
variable (boot ptype : Int32) (g : Geometry) (endcyl psz pofs : Int32)

theorem offsetOf_partitionEntry :
    (offsetOf (emit (partitionEntry boot ptype g endcyl psz pofs)) : ℤ) = pofs.toInt % 2 ^ 32 :=
  ofBytes_emit_lba pofs

theorem countOf_partitionEntry :
    (countOf (emit (partitionEntry boot ptype g endcyl psz pofs)) : ℤ) =
      (psz.toInt - pofs.toInt) % 2 ^ 32 := by
  have hsub : (psz.toInt - pofs.toInt).bmod (2 ^ 32) % 2 ^ 32 =
      (psz.toInt - pofs.toInt) % 2 ^ 32 := by
    exact_mod_cast Int.bmod_emod (x := psz.toInt - pofs.toInt) (m := 2 ^ 32)
  rw [← hsub, ← Int32.toInt_sub]
  exact ofBytes_emit_lba (psz - pofs)

end

end OpenADK.Disk
