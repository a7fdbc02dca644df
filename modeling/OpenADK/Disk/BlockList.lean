import OpenADK.Library.Runs
import OpenADK.Disk.Layout
import Mathlib.Data.Nat.Digits.Lemmas
import Mathlib.Logic.Function.Basic

/-!
# The block list of `bootgrub.mksh`

The script reads extents of blocks, gathers them into runs of sectors, and writes a table of
records after the boot code, which the boot code reads when it loads the sectors.
-/

namespace OpenADK.Disk
open LittleEndian Runs

/-- The boot code in its array, and the variables of the block list. -/
structure Bootxx where
  thecode : Int32 → Int32
  curptr : Int32
  wnum : Int32
  wofs : Int32
  wrec : Int32

namespace Bootxx

/-- `thecode[curptr++]=…` -/
def put (s : Bootxx) (x : Int32) : Bootxx :=
  { s with thecode := Function.update s.thecode s.curptr x, curptr := s.curptr + 1 }

def putAddress : ℕ → Int32 → Bootxx → Bootxx
  | 0, _, s => s
  | n + 1, y, s => putAddress n (y >>> 8) (s.put (y &&& 0xFF))

/-- The number of bytes of an address after the first. -/
def addressWidth (blk : Int32) : ℕ :=
  if blk < 0x00000100 then 0 else if blk < 0x00010000 then 1 else if blk < 0x01000000 then 2 else 3

def pieceLength (cnt : Int32) : Int32 := if cnt < 33 then cnt else 32

theorem natAbs_sub_pieceLength {cnt : Int32} (h : cnt ≠ 0) :
    (cnt - pieceLength cnt).toInt.natAbs < cnt.toInt.natAbs := by
  have hne : cnt.toInt ≠ 0 := fun hzero => h (Int32.toInt_inj.mp hzero)
  unfold pieceLength
  split
  case isTrue =>
    rw [Int32.sub_self]
    exact Int.natAbs_pos.mpr hne
  case isFalse hlt =>
    rw [Int32.lt_iff_toInt_lt] at hlt
    change ¬_ < (33 : ℤ) at hlt
    have hsub := toInt_sub_emod cnt 32
    change _ = (_ - (32 : ℤ)) % _ at hsub
    have hmax := cnt.toInt_lt
    rw [toInt_eq_of_emod hsub (by omega) (by omega)]
    omega

def recordPiece (blk x : Int32) (s : Bootxx) : Bootxx :=
  let n := addressWidth blk
  putAddress (n + 1) blk (({ s with wrec := s.wrec + 1 }).put
    ((Int32.ofNat n <<< 5) ||| (x - 1)))

def recordPieces (blk cnt : Int32) (s : Bootxx) : Bootxx :=
  if cnt = 0 then s
  else
    recordPieces (blk + pieceLength cnt) (cnt - pieceLength cnt)
      (recordPiece blk (pieceLength cnt) s)
termination_by cnt.toInt.natAbs
decreasing_by exact natAbs_sub_pieceLength ‹_›

def doRecord (blk cnt : Int32) (s : Bootxx) : Bootxx :=
  if blk = 0 ∨ cnt = 0 then s else recordPieces blk cnt s

def recordBlock (sscale blk : Int32) (s : Bootxx) : Bootxx :=
  let s :=
    if blk = 0 ∨ s.wofs ≠ 0 ∧ blk ≠ s.wofs + s.wnum then
      { (if s.wnum ≠ 0 then doRecord s.wofs s.wnum s else s) with wofs := 0, wnum := 0 }
    else s
  if blk ≠ 0 then
    { s with wofs := if s.wofs = 0 then blk else s.wofs, wnum := s.wnum + (1 <<< sscale) }
  else s

def readExtent (sscale : Int32) : ℕ → Int32 → Int32 → Bootxx → Option Bootxx
  | 0, _, _, _ => none
  | fuel + 1, firstblock, lastblock, s =>
    if firstblock ≤ lastblock then
      readExtent sscale fuel (firstblock + 1) lastblock
        (recordBlock sscale (firstblock <<< sscale) s)
    else some s

def readExtents (sscale : Int32) (fuel : ℕ) : List (Int32 × Int32) → Bootxx → Option Bootxx
  | [], s => some s
  | extent :: extents, s =>
    (readExtent sscale fuel extent.1 extent.2 s).bind (readExtents sscale fuel extents)

end Bootxx

/-- The options, within the bounds that are checked, and what they come to. -/
structure Options where
  sscale : Int32
  numheads : Int32
  numsecs : Int32
  partp : Int32
  bsh : Int32
  mbrpno : Fin 5
  mbrptp : Int32
  pofs : Int32
  geometry : Geometry
  sscale_mem : 0 ≤ sscale.toInt ∧ sscale.toInt ≤ 24
  numheads_mem : 0 ≤ numheads.toInt ∧ numheads.toInt ≤ 256
  numsecs_mem : 0 ≤ numsecs.toInt ∧ numsecs.toInt ≤ 63
  partp_mem : 0 ≤ partp.toInt ∧ partp.toInt ≤ 255
  bsh_mem : 9 ≤ bsh.toInt ∧ bsh.toInt ≤ 15

/-- A call of `bootgrub.mksh`: the options, the boot code up to the table, the extents, and the
random numbers that are left after the table. -/
structure Bootgrub extends Options where
  code : List UInt8
  extents : List (Int32 × Int32)
  random : Int32 → Int32
  length_code : code.length = 360

/-- A string of `\0ooo`: up to three octal digits make up a byte, and any others are text. -/
def octal (x : Int32) : List UInt8 :=
  let digits := (Nat.digits 8 x.toUInt32.toNat).reverse
  UInt8.ofNat (Nat.ofDigits 8 (digits.take 3).reverse) ::
    (digits.drop 3).map fun digit => UInt8.ofNat (48 + digit)

inductive Bootgrub.Outcome
  | tooManyBlocks
  | written (bootxx : List UInt8)

namespace Bootgrub
variable (v : Bootgrub)

def psz : Int32 :=
  if v.geometry.cyls < 1 ∨ v.geometry.heads < 1 ∨ v.geometry.heads > 256 ∨ v.geometry.secs < 1 ∨
      v.geometry.secs > 63 then 0
  else if v.geometry.cyls.toInt * v.geometry.heads.toInt * v.geometry.secs.toInt > 4294967295 then 0
  else v.geometry.cyls * v.geometry.heads * v.geometry.secs

/-- The number of the partition; the last one when there is just a geometry. -/
def partno : Fin 5 := if v.psz ≠ 0 ∧ v.mbrpno = 0 then 4 else v.mbrpno

def bkend : Int32 := if v.partno ≠ 0 then 0x1BE else 0x1FE

def initial : Bootxx where
  thecode i := Int32.ofNat (v.code.getD i.toNatClampNeg 0).toNat
  curptr := 360
  wnum := 0
  wofs := 0
  wrec := 0

/-- The rest of the table is filled up, and nothing is random in the types of the partitions. -/
def fillTable (s : Bootxx) : Int32 → Int32 := fun i =>
  if s.curptr ≤ i ∧ i < v.bkend then
    if i &&& 0xFCF = 0x1C2 then 0 else v.random i &&& 0xFF
  else s.thecode i

/-- `thecode[…]=…` for one index after the other. -/
def store (thecode : Int32 → Int32) (k : Int32) : List Int32 → Int32 → Int32
  | [] => thecode
  | x :: xs => store (Function.update thecode k x) (k + 1) xs

def fillIn (wrec : Int32) (thecode : Int32 → Int32) : Int32 → Int32 :=
  let thecode := store thecode 510 [0x55, 0xAA]
  let thecode := store thecode 61 [wrec, v.numheads &&& 0xFF, v.numheads >>> 8, v.numsecs]
  let thecode := store thecode 66 [v.partp]
  store thecode 234 [1 <<< (v.bsh - 8)]

def ptype : Int32 :=
  if v.mbrptp ≠ 0 then v.mbrptp else if v.partp ≠ 0 then v.partp else 0x27

def addPartition (thecode : Int32 → Int32) : Int32 → Int32 :=
  if v.psz ≠ 0 then
    store thecode (Int32.ofNat (0x1BE + (v.partno - 1) * 16))
      (partitionEntry 0x80 v.ptype v.geometry v.geometry.cyls v.psz v.pofs)
  else thecode

/-- `print -n` of the whole sector. -/
def output (thecode : Int32 → Int32) : List UInt8 :=
  (List.range 512).flatMap fun i => octal (thecode (Int32.ofNat i))

def finish (s : Bootxx) : Outcome :=
  if s.curptr > v.bkend then .tooManyBlocks
  else .written (output (v.addPartition (v.fillIn s.wrec (v.fillTable s))))

/-- The whole run, if its loops end with so much fuel. -/
def run (fuel : ℕ) : Option Outcome :=
  (Bootxx.readExtents v.sscale fuel v.extents v.initial).map fun s =>
    v.finish (s.recordBlock v.sscale 0)

end Bootgrub

/-! ### What the table should be -/

def addressBytes (blk : ℕ) : ℕ :=
  if blk < 2 ^ 8 then 1 else if blk < 2 ^ 16 then 2 else if blk < 2 ^ 24 then 3 else 4

def encodePiece (piece : ℕ × ℕ) : List UInt8 :=
  UInt8.ofNat ((addressBytes piece.1 - 1) * 32 + (piece.2 - 1)) ::
    toBytes (addressBytes piece.1) piece.1

def encode (table : List (ℕ × ℕ)) : List UInt8 := table.flatMap encodePiece

/-- The pieces of runs, each of at most 32 sectors. -/
def cut (runs : List (ℕ × ℕ)) : List (ℕ × ℕ) := runs.flatMap fun run => pieces 32 run.1 run.2

/-- The sectors of so many records as the boot code reads them, and what comes after these. -/
def readRecords : ℕ → List UInt8 → Option (List ℕ × List UInt8)
  | 0, bs => some ([], bs)
  | _ + 1, [] => none
  | n + 1, b :: bs =>
    if bs.length < b.toNat / 32 + 1 then none
    else
      (readRecords n (bs.drop (b.toNat / 32 + 1))).map fun (sectors, rest) =>
        (List.range' (ofBytes (bs.take (b.toNat / 32 + 1))) (b.toNat % 32 + 1) ++ sectors, rest)

namespace Bootgrub

/-- The sectors of an extent with blocks of `2 ^ scale` sectors. -/
def sectorsOf (scale : ℕ) (extent : Int32 × Int32) : List ℕ :=
  List.range' (extent.1.toInt.toNat * 2 ^ scale)
    ((extent.2.toInt + 1 - extent.1.toInt).toNat * 2 ^ scale)

def sectors (v : Bootgrub) : List ℕ := v.extents.flatMap (sectorsOf v.sscale.toInt.toNat)

def table (v : Bootgrub) : List (ℕ × ℕ) := cut (runs v.sectors)

/-- The boot code finds the sectors in its table, which ends in time. -/
def Loads (v : Bootgrub) (bootxx : List UInt8) : Prop :=
  ∃ rest, readRecords (bootxx.getD 61 0).toNat (bootxx.drop 360) = some (v.sectors, rest) ∧
    (bootxx.length - rest.length : ℤ) ≤ v.bkend.toInt

/-- The blocks are not zero, and the numbers of the sectors have 31 bits. -/
structure Numbered (v : Bootgrub) : Prop where
  first : ∀ extent ∈ v.extents, 0 < extent.1.toInt
  last : ∀ extent ∈ v.extents, extent.1 ≤ extent.2 →
    (extent.2.toInt + 1) * 2 ^ v.sscale.toInt.toNat ≤ 2 ^ 31

/-- The table is written so that it can be read, or there is no place for it. -/
def Outcome.Right (v : Bootgrub) : Outcome → Prop
  | .tooManyBlocks => v.bkend.toInt < 360 + (encode v.table).length
  | .written bootxx => v.Loads bootxx

end Bootgrub

/-! ### Numbers that have no sign -/

theorem ofNat_inj_of_lt {a b : ℕ} (ha : a < 2 ^ 32) (hb : b < 2 ^ 32) :
    Int32.ofNat a = Int32.ofNat b ↔ a = b := by
  rw [← Int32.toBitVec_inj]
  change BitVec.ofNat 32 a = BitVec.ofNat 32 b ↔ _
  rw [← BitVec.toNat_inj, BitVec.toNat_ofNat, BitVec.toNat_ofNat, Nat.mod_eq_of_lt ha,
    Nat.mod_eq_of_lt hb]

theorem ofNat_eq_zero_of_lt {a : ℕ} (ha : a < 2 ^ 32) : Int32.ofNat a = 0 ↔ a = 0 :=
  ofNat_inj_of_lt ha (by decide)

theorem eq_ofNat_of_nonneg {x : Int32} (hx : 0 ≤ x.toInt) : x = Int32.ofNat x.toInt.toNat := by
  have hlt := x.toInt_lt
  apply Int32.toInt_inj.mp
  rw [Int32.toInt_ofNat_of_lt (by omega), Int.toNat_of_nonneg hx]

theorem ofNat_and_byte (a : ℕ) : Int32.ofNat a &&& 0xFF = Int32.ofNat (a % 256) := by
  apply Int32.toBitVec_inj.mp
  apply BitVec.eq_of_toNat_eq
  rw [Int32.toBitVec_and, BitVec.toNat_and]
  change a % 2 ^ 32 &&& (2 ^ 8 - 1) = a % 256 % 2 ^ 32
  rw [Nat.and_two_pow_sub_one_eq_mod]
  omega

theorem ofNat_shiftRight_byte {a : ℕ} (ha : a < 2 ^ 31) :
    Int32.ofNat a >>> 8 = Int32.ofNat (a / 256) := by
  apply Int32.toBitVec_inj.mp
  apply BitVec.eq_of_toNat_eq
  have hmsb : (BitVec.ofNat 32 a).msb = false := by
    rw [BitVec.msb_eq_false_iff_two_mul_lt, BitVec.toNat_ofNat]
    omega
  change ((BitVec.ofNat 32 a).sshiftRight 8).toNat = (a / 256) % 2 ^ 32
  rw [BitVec.sshiftRight_eq_of_msb_false hmsb, BitVec.toNat_ushiftRight, BitVec.toNat_ofNat,
    Nat.shiftRight_eq_div_pow]
  omega

theorem ofNat_shiftLeft (a : ℕ) {k : ℕ} (hk : k < 32) :
    Int32.ofNat a <<< Int32.ofNat k = Int32.ofNat (a * 2 ^ k) := by
  have hsmod : ∀ k < 32, ((Int32.ofNat k).toBitVec.smod 32).toNat = k := by decide
  apply Int32.toBitVec_inj.mp
  apply BitVec.eq_of_toNat_eq
  rw [Int32.toBitVec_shiftLeft, BitVec.shiftLeft_eq', hsmod k hk, BitVec.toNat_shiftLeft,
    Nat.shiftLeft_eq]
  change a % 2 ^ 32 * 2 ^ k % 2 ^ 32 = a * 2 ^ k % 2 ^ 32
  rw [Nat.mod_mul_mod]

/-! ### Writing the table -/

namespace Bootxx
variable {s : Bootxx} {bytes : List UInt8}

/-- The boot code and as much of the table as there is. -/
structure Written (s : Bootxx) (bytes : List UInt8) : Prop where
  curptr : s.curptr = Int32.ofNat bytes.length
  thecode : bytes.length ≤ 512 → ∀ i (h : i < bytes.length),
    s.thecode (Int32.ofNat i) = Int32.ofNat bytes[i].toNat

/-- The variables of the cache are left alone. -/
structure SameCache (s s' : Bootxx) : Prop where
  wnum : s'.wnum = s.wnum
  wofs : s'.wofs = s.wofs

theorem SameCache.refl (s : Bootxx) : SameCache s s := ⟨rfl, rfl⟩

theorem SameCache.trans {s s' s'' : Bootxx} (h : SameCache s s') (h' : SameCache s' s'') :
    SameCache s s'' :=
  ⟨h'.wnum.trans h.wnum, h'.wofs.trans h.wofs⟩

theorem Written.put (h : Written s bytes) (b : UInt8) :
    Written (s.put (Int32.ofNat b.toNat)) (bytes ++ [b]) := by
  refine ⟨?_, fun hlen i hi => ?_⟩
  · rw [List.length_append, List.length_singleton, Int32.ofNat_add, ← h.curptr]
    rfl
  · rw [List.length_append, List.length_singleton] at hlen hi
    change Function.update s.thecode s.curptr _ (Int32.ofNat i) = _
    rcases Nat.lt_succ_iff_lt_or_eq.mp hi with hlt | rfl
    · have hne : Int32.ofNat i ≠ s.curptr := by
        rw [h.curptr, Ne, ofNat_inj_of_lt (by omega) (by omega)]
        omega
      rw [Function.update_of_ne hne, h.thecode (by omega) i hlt, List.getElem_append_left hlt]
    · rw [← h.curptr, Function.update_self, List.getElem_concat_length rfl]

theorem sameCache_put (s : Bootxx) (x : Int32) : SameCache s (s.put x) := ⟨rfl, rfl⟩

theorem toBytes_succ_natCast (n a : ℕ) :
    toBytes (n + 1) a = UInt8.ofNat (a % 256) :: toBytes n (a / 256 : ℕ) := rfl

theorem Written.putAddress (h : Written s bytes) (n : ℕ) {a : ℕ} (ha : a < 2 ^ 31) :
    Written (putAddress n (Int32.ofNat a) s) (bytes ++ toBytes n a) := by
  induction n generalizing s bytes a with
  | zero => rwa [toBytes, List.append_nil]
  | succ n ih =>
    have hbyte : Int32.ofNat a &&& 0xFF = Int32.ofNat (UInt8.ofNat (a % 256)).toNat := by
      have hlt : a % 256 < 2 ^ 8 := by omega
      rw [ofNat_and_byte, UInt8.toNat_ofNat', Nat.mod_eq_of_lt hlt]
    have hput := h.put (UInt8.ofNat (a % 256))
    rw [Bootxx.putAddress, ofNat_shiftRight_byte ha, hbyte, toBytes_succ_natCast,
      List.append_cons]
    exact ih hput (by omega)

theorem sameCache_putAddress (n : ℕ) (y : Int32) (s : Bootxx) : SameCache s (putAddress n y s) := by
  induction n generalizing y s with
  | zero => exact SameCache.refl s
  | succ n ih => exact (sameCache_put s _).trans (ih _ _)

theorem wrec_putAddress (n : ℕ) (y : Int32) (s : Bootxx) : (putAddress n y s).wrec = s.wrec := by
  induction n generalizing y s with
  | zero => rfl
  | succ n ih => exact ih _ _

theorem addressWidth_ofNat {b : ℕ} (hb : b < 2 ^ 31) :
    addressWidth (Int32.ofNat b) + 1 = addressBytes b := by
  have h8 : Int32.ofNat b < 0x00000100 ↔ b < 2 ^ 8 := Int32.ofNat_lt_iff_lt hb (by decide)
  have h16 : Int32.ofNat b < 0x00010000 ↔ b < 2 ^ 16 := Int32.ofNat_lt_iff_lt hb (by decide)
  have h24 : Int32.ofNat b < 0x01000000 ↔ b < 2 ^ 24 := Int32.ofNat_lt_iff_lt hb (by decide)
  unfold addressWidth addressBytes
  simp only [h8, h16, h24]
  split_ifs <;> rfl

theorem pieceLength_ofNat {c : ℕ} (hc : c < 2 ^ 31) :
    pieceLength (Int32.ofNat c) = Int32.ofNat (min c 32) := by
  have hlt : Int32.ofNat c < 33 ↔ c < 33 := Int32.ofNat_lt_iff_lt hc (by decide)
  unfold pieceLength
  by_cases h : c < 33
  · rw [if_pos (hlt.mpr h), Nat.min_eq_left (by omega)]
  · rw [if_neg (hlt.not.mpr h), Nat.min_eq_right (by omega)]
    rfl

/-- The first byte of a record. -/
theorem header_ofNat {n k : ℕ} (hn : n < 4) (hk : 0 < k) (hk' : k ≤ 32) :
    (Int32.ofNat n <<< 5) ||| (Int32.ofNat k - 1) =
      Int32.ofNat (UInt8.ofNat (n * 32 + (k - 1))).toNat := by
  have hall : ∀ n < 4, ∀ j < 32, (Int32.ofNat n <<< 5) ||| (Int32.ofNat (j + 1) - 1) =
      Int32.ofNat (UInt8.ofNat (n * 32 + j)).toNat := by decide +kernel
  obtain ⟨j, rfl⟩ := Nat.exists_eq_add_one_of_ne_zero hk.ne'
  exact hall n hn j (by omega)

theorem Written.recordPiece (h : Written s bytes) {b k : ℕ} (hb : b < 2 ^ 31) (hk : 0 < k)
    (hk' : k ≤ 32) :
    Written (recordPiece (Int32.ofNat b) (Int32.ofNat k) s) (bytes ++ encodePiece (b, k)) := by
  have hwidth := addressWidth_ofNat hb
  have hlt : addressWidth (Int32.ofNat b) < 4 := by
    have hbytes : addressBytes b ≤ 4 := by
      unfold addressBytes
      split_ifs <;> omega
    omega
  have hcount : Written { s with wrec := s.wrec + 1 } bytes := ⟨h.curptr, h.thecode⟩
  have hput := hcount.put (UInt8.ofNat (addressWidth (Int32.ofNat b) * 32 + (k - 1)))
  simp only [Bootxx.recordPiece, encodePiece]
  rw [header_ofNat hlt hk hk', ← hwidth, Nat.add_sub_cancel, List.append_cons]
  exact hput.putAddress _ hb

theorem sameCache_recordPiece (blk x : Int32) (s : Bootxx) :
    SameCache s (recordPiece blk x s) := by
  have hput := sameCache_put { s with wrec := s.wrec + 1 }
    ((Int32.ofNat (addressWidth blk) <<< 5) ||| (x - 1))
  exact SameCache.trans ⟨hput.wnum, hput.wofs⟩ (sameCache_putAddress _ _ _)

theorem wrec_recordPiece (blk x : Int32) (s : Bootxx) : (recordPiece blk x s).wrec = s.wrec + 1 :=
  wrec_putAddress _ _ _

theorem recordPieces_of_pos {b c : ℕ} (hc : 0 < c) (hc' : c < 2 ^ 31) (s : Bootxx) :
    recordPieces (Int32.ofNat b) (Int32.ofNat c) s =
      recordPieces (Int32.ofNat (b + min c 32)) (Int32.ofNat (c - min c 32))
        (recordPiece (Int32.ofNat b) (Int32.ofNat (min c 32)) s) := by
  have hzero : Int32.ofNat c ≠ 0 := (ofNat_eq_zero_of_lt (by omega)).not.mpr hc.ne'
  conv_lhs => rw [recordPieces]
  rw [if_neg hzero, pieceLength_ofNat hc', ← Int32.ofNat_add,
    ← Int32.ofNat_sub _ _ (Nat.min_le_left c 32)]

/-- A run is written in its pieces. -/
theorem recordPieces_spec (h : Written s bytes) {b c : ℕ} (hend : b + c ≤ 2 ^ 31) (hb : 0 < b) :
    Written (recordPieces (Int32.ofNat b) (Int32.ofNat c) s) (bytes ++ encode (pieces 32 b c)) ∧
      (recordPieces (Int32.ofNat b) (Int32.ofNat c) s).wrec =
        s.wrec + Int32.ofNat (pieces 32 b c).length ∧
      SameCache s (recordPieces (Int32.ofNat b) (Int32.ofNat c) s) := by
  induction c using Nat.strong_induction_on generalizing s bytes b with
  | _ c ih =>
    rcases Nat.eq_zero_or_pos c with rfl | hc
    · rw [pieces_zero, recordPieces, if_pos (show Int32.ofNat 0 = 0 from rfl), encode,
        List.flatMap_nil, List.append_nil]
      exact ⟨h, (Int32.add_zero _).symm, SameCache.refl s⟩
    · have hpiece := h.recordPiece (k := min c 32) (by omega : b < 2 ^ 31) (by omega) (by omega)
      obtain ⟨hwritten, hwrec, hcache⟩ :=
        ih (c - min c 32) (by omega) hpiece (b := b + min c 32) (by omega) (by omega)
      rw [recordPieces_of_pos hc (by omega), pieces_of_pos hc (by omega), encode, List.flatMap_cons,
        ← List.append_assoc]
      refine ⟨hwritten, ?_, (sameCache_recordPiece _ _ _).trans hcache⟩
      rw [hwrec, wrec_recordPiece, List.length_cons, Int32.ofNat_add, Int32.add_assoc,
        Int32.add_comm 1]
      rfl

/-! ### The cache -/

structure Holds (s : Bootxx) (code : List UInt8) (table : List (ℕ × ℕ)) : Prop where
  written : s.Written (code ++ encode table)
  wrec : s.wrec = Int32.ofNat table.length

structure Caches (s : Bootxx) (ofs num : ℕ) : Prop where
  ofs_pos : 0 < ofs
  num_pos : 0 < num
  le : ofs + num ≤ 2 ^ 31
  wofs : s.wofs = Int32.ofNat ofs
  wnum : s.wnum = Int32.ofNat num

/-- The records written, the run in the cache and the sectors still to come make up the table. -/
def Covers (s : Bootxx) (code : List UInt8) (table : List (ℕ × ℕ)) (rest : List ℕ) : Prop :=
  ∃ written, s.Holds code written ∧
    ((s.wofs = 0 ∧ s.wnum = 0) ∧ table = written ++ cut (runs rest) ∨
      ∃ ofs num, s.Caches ofs num ∧ table = written ++ cut (runsFrom ofs num rest))

variable {code : List UInt8} {table written : List (ℕ × ℕ)} {rest : List ℕ}

theorem encode_append (table table' : List (ℕ × ℕ)) :
    encode (table ++ table') = encode table ++ encode table' := List.flatMap_append

theorem cut_cons (ofs num : ℕ) (runs : List (ℕ × ℕ)) :
    cut ((ofs, num) :: runs) = pieces 32 ofs num ++ cut runs := List.flatMap_cons

theorem cut_nil : cut [] = [] := rfl

theorem Holds.congr {s' : Bootxx} (h : s.Holds code written) (hcode : s'.thecode = s.thecode)
    (hptr : s'.curptr = s.curptr) (hrec : s'.wrec = s.wrec) : s'.Holds code written := by
  refine ⟨⟨hptr.trans h.written.curptr, fun hlen i hi => ?_⟩, hrec.trans h.wrec⟩
  rw [hcode]
  exact h.written.thecode hlen i hi

/-- The run in the cache is written. -/
theorem Holds.flush {ofs num : ℕ} (h : s.Holds code written) (hcache : s.Caches ofs num) :
    (doRecord s.wofs s.wnum s).Holds code (written ++ pieces 32 ofs num) := by
  have hle := hcache.le
  have hcond : ¬(Int32.ofNat ofs = 0 ∨ Int32.ofNat num = 0) := by
    rw [ofNat_eq_zero_of_lt (by omega), ofNat_eq_zero_of_lt (by omega)]
    have hofs := hcache.ofs_pos
    have hnum := hcache.num_pos
    omega
  obtain ⟨hwritten, hwrec, -⟩ := recordPieces_spec h.written hcache.le hcache.ofs_pos
  rw [doRecord, hcache.wofs, hcache.wnum, if_neg hcond]
  rw [List.append_assoc, ← encode_append] at hwritten
  refine ⟨hwritten, ?_⟩
  rw [hwrec, h.wrec, List.length_append, Int32.ofNat_add]

theorem Holds.flushed {ofs num : ℕ} (h : s.Holds code written) (hcache : s.Caches ofs num) :
    ({ doRecord s.wofs s.wnum s with wofs := 0, wnum := 0 } : Bootxx).Holds code
      (written ++ pieces 32 ofs num) :=
  (h.flush hcache).congr rfl rfl rfl

/-- The first step of `record_block`, when there is a run to be written. -/
theorem recordBlock_flush {sscale blk : Int32} {ofs num : ℕ} (hcache : s.Caches ofs num)
    (hblk : blk = 0 ∨ blk ≠ Int32.ofNat (ofs + num)) :
    s.recordBlock sscale blk =
      ({ doRecord s.wofs s.wnum s with wofs := 0, wnum := 0 } : Bootxx).recordBlock sscale blk := by
  have hle := hcache.le
  have hofs : s.wofs ≠ 0 := by
    rw [hcache.wofs, Ne, ofNat_eq_zero_of_lt (by omega)]
    exact hcache.ofs_pos.ne'
  have hnum : s.wnum ≠ 0 := by
    rw [hcache.wnum, Ne, ofNat_eq_zero_of_lt (by omega)]
    exact hcache.num_pos.ne'
  have hcond : blk = 0 ∨ s.wofs ≠ 0 ∧ blk ≠ s.wofs + s.wnum := by
    rw [hcache.wofs, hcache.wnum, ← Int32.ofNat_add, ← hcache.wofs]
    exact hblk.imp_right fun hne => ⟨hofs, hne⟩
  unfold recordBlock
  rw [if_pos hcond, if_pos hnum]
  simp only [ne_eq, not_true_eq_false, false_and, or_false, if_false, ite_self]

/-- A block that begins a run. -/
theorem Holds.begin {b k : ℕ} (h : s.Holds code written) (hofs : s.wofs = 0) (hnum : s.wnum = 0)
    (hb : 0 < b) (hk : k < 32) (hend : b + 2 ^ k ≤ 2 ^ 31) :
    (s.recordBlock (Int32.ofNat k) (Int32.ofNat b)).Holds code written ∧
      (s.recordBlock (Int32.ofNat k) (Int32.ofNat b)).Caches b (2 ^ k) := by
  have hpos := Nat.two_pow_pos k
  have hblk : Int32.ofNat b ≠ 0 := (ofNat_eq_zero_of_lt (by omega)).not.mpr hb.ne'
  have hone : (1 : Int32) <<< Int32.ofNat k = Int32.ofNat (2 ^ k) := by
    have hshift := ofNat_shiftLeft 1 hk
    rwa [Nat.one_mul] at hshift
  have hcond : ¬(Int32.ofNat b = 0 ∨ s.wofs ≠ 0 ∧ Int32.ofNat b ≠ s.wofs + s.wnum) := by
    rw [hofs]
    exact not_or.mpr ⟨hblk, fun h => h.1 rfl⟩
  unfold recordBlock
  rw [if_neg hcond, if_pos hblk]
  refine ⟨h.congr rfl rfl rfl, hb, Nat.two_pow_pos k, hend, if_pos hofs, ?_⟩
  change s.wnum + _ = _
  rw [hnum, hone, Int32.zero_add]

/-- A block that continues the run in the cache. -/
theorem Holds.continue {ofs num k : ℕ} (h : s.Holds code written) (hcache : s.Caches ofs num)
    (hk : k < 32) (hend : ofs + num + 2 ^ k ≤ 2 ^ 31) :
    (s.recordBlock (Int32.ofNat k) (Int32.ofNat (ofs + num))).Holds code written ∧
      (s.recordBlock (Int32.ofNat k) (Int32.ofNat (ofs + num))).Caches ofs (num + 2 ^ k) := by
  have hpos := hcache.ofs_pos
  have hpow := Nat.two_pow_pos k
  have hblk : Int32.ofNat (ofs + num) ≠ 0 := by
    rw [Ne, ofNat_eq_zero_of_lt (by omega)]
    omega
  have hofs : s.wofs ≠ 0 := by
    rw [hcache.wofs, Ne, ofNat_eq_zero_of_lt (by omega)]
    omega
  have hone : (1 : Int32) <<< Int32.ofNat k = Int32.ofNat (2 ^ k) := by
    have hshift := ofNat_shiftLeft 1 hk
    rwa [Nat.one_mul] at hshift
  have hcond : ¬(Int32.ofNat (ofs + num) = 0 ∨
      s.wofs ≠ 0 ∧ Int32.ofNat (ofs + num) ≠ s.wofs + s.wnum) := by
    rw [hcache.wofs, hcache.wnum, ← Int32.ofNat_add]
    exact not_or.mpr ⟨hblk, fun h => h.2 rfl⟩
  unfold recordBlock
  rw [if_neg hcond, if_pos hblk]
  refine ⟨h.congr rfl rfl rfl, hpos, by positivity, by omega, (if_neg hofs).trans hcache.wofs, ?_⟩
  change s.wnum + _ = _
  rw [hcache.wnum, hone, ← Int32.ofNat_add]

theorem Covers.recordBlock {b k : ℕ} (h : s.Covers code table (List.range' b (2 ^ k) ++ rest))
    (hb : 0 < b) (hk : k < 32) (hend : b + 2 ^ k ≤ 2 ^ 31) :
    (s.recordBlock (Int32.ofNat k) (Int32.ofNat b)).Covers code table rest := by
  have hpos := Nat.two_pow_pos k
  obtain ⟨written, hholds, ⟨⟨hofs, hnum⟩, htable⟩ | ⟨ofs, num, hcache, htable⟩⟩ := h
  · obtain ⟨hholds', hcache⟩ := hholds.begin hofs hnum hb hk hend
    rw [runs_begun hpos] at htable
    exact ⟨written, hholds', .inr ⟨b, 2 ^ k, hcache, htable⟩⟩
  · by_cases hnext : b = ofs + num
    · subst hnext
      obtain ⟨hholds', hcache'⟩ := hholds.continue hcache hk hend
      rw [runsFrom_continued] at htable
      exact ⟨written, hholds', .inr ⟨ofs, num + 2 ^ k, hcache', htable⟩⟩
    · have hle := hcache.le
      have hblk : Int32.ofNat b ≠ Int32.ofNat (ofs + num) := by
        rw [Ne, ofNat_inj_of_lt (by omega) (by omega)]
        exact hnext
      obtain ⟨hholds', hcache'⟩ := (hholds.flushed hcache).begin rfl rfl hb hk hend
      rw [runsFrom_interrupted hnext hpos, cut_cons, ← List.append_assoc] at htable
      rw [recordBlock_flush hcache (.inr hblk)]
      exact ⟨_, hholds', .inr ⟨b, 2 ^ k, hcache', htable⟩⟩

/-- At the end the cache is emptied. -/
theorem Covers.holds (h : s.Covers code table []) (sscale : Int32) :
    (s.recordBlock sscale 0).Holds code table := by
  have hempty (s : Bootxx) (hofs : s.wofs = 0) (hnum : s.wnum = 0) {written : List (ℕ × ℕ)}
      (hholds : s.Holds code written) : (s.recordBlock sscale 0).Holds code written := by
    have hcond : (0 : Int32) = 0 ∨ s.wofs ≠ 0 ∧ 0 ≠ s.wofs + s.wnum := .inl rfl
    unfold Bootxx.recordBlock
    rw [if_pos hcond, hnum]
    exact hholds.congr rfl rfl rfl
  obtain ⟨written, hholds, ⟨⟨hofs, hnum⟩, htable⟩ | ⟨ofs, num, hcache, htable⟩⟩ := h
  · rw [htable, runs, cut_nil, List.append_nil]
    exact hempty s hofs hnum hholds
  · rw [htable, runsFrom, cut_cons, cut_nil, List.append_nil, recordBlock_flush hcache (.inl rfl)]
    exact hempty _ rfl rfl (hholds.flushed hcache)

/-! ### The extents -/

theorem range'_blocks (a m k : ℕ) : List.range' (a * 2 ^ k) ((m + 1) * 2 ^ k) =
    List.range' (a * 2 ^ k) (2 ^ k) ++ List.range' ((a + 1) * 2 ^ k) (m * 2 ^ k) := by
  rw [Nat.add_one_mul a, List.range'_append_1]
  congr 1
  ring

variable {lastblock : Int32} {s' : Bootxx}

/-- What the loop over an extent has put into the table and the cache when it ends. -/
theorem readExtent_covers {k : ℕ} (hk : k < 32) (fuel : ℕ) {a : ℕ} (ha : 0 < a)
    (hlt : a < 2 ^ 31) (hlast : lastblock.toInt < 2 ^ 31 - 1)
    (hend : (a : ℤ) ≤ lastblock.toInt → (lastblock.toInt + 1) * 2 ^ k ≤ 2 ^ 31)
    (hread : readExtent (Int32.ofNat k) fuel (Int32.ofNat a) lastblock s = some s')
    (h : s.Covers code table
      (List.range' (a * 2 ^ k) ((lastblock.toInt + 1 - a).toNat * 2 ^ k) ++ rest)) :
    s'.Covers code table rest := by
  induction fuel generalizing a s with
  | zero => exact nomatch hread
  | succ fuel ih =>
    have hle : Int32.ofNat a ≤ lastblock ↔ (a : ℤ) ≤ lastblock.toInt := by
      rw [Int32.le_iff_toInt_le, Int32.toInt_ofNat_of_lt hlt]
    rw [readExtent] at hread
    by_cases hmore : (a : ℤ) ≤ lastblock.toInt
    · obtain ⟨m, hm⟩ : ∃ m : ℕ, lastblock.toInt + 1 - a = m + 1 :=
        ⟨(lastblock.toInt - a).toNat, by omega⟩
      have hm' : (lastblock.toInt + 1 - a).toNat = m + 1 := by omega
      have hnext : (lastblock.toInt + 1 - (a + 1 : ℕ)).toNat = m := by omega
      have hblock : a * 2 ^ k + 2 ^ k ≤ 2 ^ 31 := by
        have hmul : ((a : ℤ) + 1) * 2 ^ k ≤ (lastblock.toInt + 1) * 2 ^ k :=
          mul_le_mul_of_nonneg_right (by omega) (by positivity)
        have hcast : (((a * 2 ^ k + 2 ^ k : ℕ) : ℤ)) ≤ ((2 ^ 31 : ℕ) : ℤ) := by
          push_cast
          linarith [hend hmore]
        exact_mod_cast hcast
      have hfirst : Int32.ofNat a + 1 = Int32.ofNat (a + 1) := (Int32.ofNat_add a 1).symm
      rw [hm', range'_blocks, List.append_assoc] at h
      rw [if_pos (hle.mpr hmore), ofNat_shiftLeft a hk, hfirst] at hread
      apply ih (Nat.succ_pos a) (by omega) (fun _ => hend hmore) hread
      rw [hnext]
      exact h.recordBlock (by positivity) hk hblock
    · have hnone : (lastblock.toInt + 1 - a).toNat = 0 := by omega
      rw [if_neg (hle.not.mpr hmore)] at hread
      rw [hnone, Nat.zero_mul] at h
      exact Option.some.inj hread ▸ h

theorem isSome_readExtent (sscale : Int32) {fuel a : ℕ} (hlt : a < 2 ^ 31)
    (hlast : lastblock.toInt < 2 ^ 31 - 1) (hfuel : (lastblock.toInt + 1 - a).toNat < fuel)
    (s : Bootxx) : (readExtent sscale fuel (Int32.ofNat a) lastblock s).isSome := by
  induction fuel generalizing a s with
  | zero => exact absurd hfuel (Nat.not_lt_zero _)
  | succ fuel ih =>
    have hle : Int32.ofNat a ≤ lastblock ↔ (a : ℤ) ≤ lastblock.toInt := by
      rw [Int32.le_iff_toInt_le, Int32.toInt_ofNat_of_lt hlt]
    rw [readExtent]
    split
    case isTrue hmore =>
      have hfirst : Int32.ofNat a + 1 = Int32.ofNat (a + 1) := (Int32.ofNat_add a 1).symm
      rw [hle] at hmore
      rw [hfirst]
      exact ih (by omega) (by omega) _
    case isFalse => rfl

/-- Nothing is greater than the largest number. -/
theorem readExtent_eq_none (sscale firstblock : Int32) (hlast : lastblock.toInt = 2 ^ 31 - 1)
    (fuel : ℕ) (s : Bootxx) : readExtent sscale fuel firstblock lastblock s = none := by
  induction fuel generalizing firstblock s with
  | zero => rfl
  | succ fuel ih =>
    have hle : firstblock ≤ lastblock := by
      rw [Int32.le_iff_toInt_le, hlast]
      have hlt := firstblock.toInt_lt
      omega
    rw [readExtent, if_pos hle]
    exact ih _ _

theorem readExtents_eq_none {sscale : Int32} {extents : List (Int32 × Int32)}
    (h : ∃ extent ∈ extents, extent.2.toInt = 2 ^ 31 - 1) (fuel : ℕ) (s : Bootxx) :
    readExtents sscale fuel extents s = none := by
  induction extents generalizing s with
  | nil => exact (List.not_mem_nil h.choose_spec.1).elim
  | cons extent extents ih =>
    obtain ⟨last, hmem, hlast⟩ := h
    rw [readExtents]
    rcases List.mem_cons.mp hmem with rfl | hmem
    · rw [readExtent_eq_none _ _ hlast]
      rfl
    · cases readExtent sscale fuel extent.1 extent.2 s with
      | none => rfl
      | some s => exact ih ⟨last, hmem, hlast⟩ s

end Bootxx

/-! ### The emitted sector -/

theorem octal_byte (b : UInt8) : octal (Int32.ofNat b.toNat) = [b] := by
  have hb := b.toNat_lt
  have hnat : (Int32.ofNat b.toNat).toUInt32.toNat = b.toNat :=
    Nat.mod_eq_of_lt (hb.trans (by decide))
  have hlen : (Nat.digits 8 b.toNat).reverse.length ≤ 3 := by
    rw [List.length_reverse, Nat.digits_length_le_iff (by omega)]
    omega
  unfold octal
  rw [hnat]
  simp only [List.take_of_length_le hlen, List.drop_eq_nil_of_le hlen, List.reverse_reverse,
    Nat.ofDigits_digits, UInt8.ofNat_toNat, List.map_nil]

/-- As far as there are bytes, they are what is written. -/
theorem output_eq {thecode : Int32 → Int32} {bytes : List UInt8} (hlen : bytes.length ≤ 512)
    (h : ∀ i (hi : i < bytes.length), thecode (Int32.ofNat i) = Int32.ofNat bytes[i].toNat) :
    ∃ rest, Bootgrub.output thecode = bytes ++ rest := by
  have hbytes : (List.range bytes.length).flatMap (fun i => octal (thecode (Int32.ofNat i))) =
      bytes := by
    have hoctal : ∀ i ∈ List.range bytes.length,
        octal (thecode (Int32.ofNat i)) = [bytes.getD i 0] := fun i hi => by
      have hi := List.mem_range.mp hi
      rw [h i hi, octal_byte, List.getD_eq_getElem _ _ hi]
    rw [List.flatMap_congr hoctal, ← List.map_eq_flatMap]
    apply List.ext_getElem
    · rw [List.length_map, List.length_range]
    · intro i hi hi'
      rw [List.getElem_map, List.getElem_range, List.getD_eq_getElem _ _ hi']
  obtain ⟨m, hm⟩ := Nat.exists_eq_add_of_le hlen
  rw [Bootgrub.output, hm, List.range_add, List.flatMap_append, hbytes]
  exact ⟨_, rfl⟩

def IsByte (x : Int32) : Prop := ∃ b : UInt8, x = Int32.ofNat b.toNat

theorem isByte_of_toInt {x : Int32} (h : 0 ≤ x.toInt ∧ x.toInt < 256) : IsByte x := by
  refine ⟨UInt8.ofNat x.toInt.toNat, ?_⟩
  rw [UInt8.toNat_ofNat', Nat.mod_eq_of_lt (by omega : x.toInt.toNat < 2 ^ 8)]
  exact eq_ofNat_of_nonneg h.1

namespace Bootgrub

theorem isByte_store {thecode : Int32 → Int32} {k i : Int32} {xs : List Int32}
    (hxs : ∀ x ∈ xs, IsByte x) (h : IsByte (thecode i)) : IsByte (store thecode k xs i) := by
  induction xs generalizing thecode k with
  | nil => exact h
  | cons x xs ih =>
    obtain ⟨hx, hxs⟩ := List.forall_mem_cons.mp hxs
    apply ih hxs
    by_cases hki : i = k
    · rwa [hki, Function.update_self]
    · rwa [Function.update_of_ne hki]

theorem store_of_disjoint (thecode : Int32 → Int32) {a i : ℕ} {xs : List Int32}
    (h : i < a ∨ a + xs.length ≤ i) (ha : a + xs.length < 2 ^ 32) (hi : i < 2 ^ 32) :
    store thecode (Int32.ofNat a) xs (Int32.ofNat i) = thecode (Int32.ofNat i) := by
  induction xs generalizing thecode a with
  | nil => rfl
  | cons x xs ih =>
    rw [List.length_cons] at h ha
    have hnext : Int32.ofNat a + 1 = Int32.ofNat (a + 1) := (Int32.ofNat_add a 1).symm
    have hne : Int32.ofNat i ≠ Int32.ofNat a := by
      rw [Ne, ofNat_inj_of_lt hi (by omega)]
      omega
    rw [store, hnext, ih _ (by omega) (by omega), Function.update_of_ne hne]

variable {v : Bootgrub} {s : Bootxx} {table : List (ℕ × ℕ)}

theorem bkend_cases (v : Bootgrub) :
    v.bkend = 0x1FE ∧ v.psz = 0 ∨ v.bkend = 0x1BE := by
  by_cases hno : v.partno = 0
  · refine .inl ⟨by rw [bkend, if_neg (not_not_intro hno)], ?_⟩
    by_contra hpsz
    unfold partno at hno
    split at hno
    case isTrue => exact absurd hno (by decide)
    case isFalse h => exact h ⟨hpsz, hno⟩
  · exact .inr (if_pos hno)

/-- The entry of the partition is written after the table. -/
theorem addPartition_of_lt (thecode : Int32 → Int32) {i : ℕ} (hi : (i : ℤ) < v.bkend.toInt) :
    v.addPartition thecode (Int32.ofNat i) = thecode (Int32.ofNat i) := by
  unfold addPartition
  split
  case isTrue hpsz =>
    rcases v.bkend_cases with ⟨-, hzero⟩ | hend
    · exact absurd hzero hpsz
    · have hlast : (v.partno : ℕ) < 5 := v.partno.isLt
      rw [hend] at hi
      change (i : ℤ) < 446 at hi
      exact store_of_disjoint _ (.inl (by omega)) (by rw [length_partitionEntry]; omega) (by omega)
  case isFalse => rfl

section
variable (v) (wrec : Int32) (thecode : Int32 → Int32)

/-- The other data is written before the table. -/
theorem fillIn_of_le {i : ℕ} (hlow : 360 ≤ i) (hi : i < 510) :
    v.fillIn wrec thecode (Int32.ofNat i) = thecode (Int32.ofNat i) := by
  have hone {k : ℕ} (hk : k < 360) (t : Int32 → Int32) (x : Int32) :
      store t (Int32.ofNat k) [x] (Int32.ofNat i) = t (Int32.ofNat i) :=
    store_of_disjoint t (.inr (by rw [List.length_singleton]; omega))
      (by rw [List.length_singleton]; omega) (by omega)
  have h61 (t : Int32 → Int32) (x y z w : Int32) :
      store t 61 [x, y, z, w] (Int32.ofNat i) = t (Int32.ofNat i) :=
    store_of_disjoint (a := 61) t (.inr (by simp only [List.length_cons, List.length_nil]; omega))
      (by simp only [List.length_cons, List.length_nil]; omega) (by omega)
  have h510 (t : Int32 → Int32) (x y : Int32) :
      store t 510 [x, y] (Int32.ofNat i) = t (Int32.ofNat i) :=
    store_of_disjoint (a := 510) t (.inl hi)
      (by simp only [List.length_cons, List.length_nil]; omega) (by omega)
  have h234 := hone (k := 234) (by omega)
  have h66 := hone (k := 66) (by omega)
  exact (h234 _ _).trans ((h66 _ _).trans ((h61 _ _ _ _ _).trans (h510 _ _ _)))

theorem fillIn_wrec : v.fillIn wrec thecode 61 = wrec := by
  have hone {k : ℕ} (hk : 61 < k) (hk' : k < 512) (t : Int32 → Int32) (x : Int32) :
      store t (Int32.ofNat k) [x] 61 = t 61 :=
    store_of_disjoint (i := 61) t (.inl hk) (by rw [List.length_singleton]; omega) (by omega)
  have hrest (t : Int32 → Int32) (y z w : Int32) : store t 62 [y, z, w] 61 = t 61 :=
    store_of_disjoint (a := 62) (i := 61) t (.inl (by omega))
      (by simp only [List.length_cons, List.length_nil]; omega) (by omega)
  have h234 := hone (k := 234) (by omega) (by omega)
  have h66 := hone (k := 66) (by omega) (by omega)
  exact (h234 _ _).trans ((h66 _ _).trans ((hrest _ _ _ _).trans (Function.update_self _ _ _)))

/-- Everything that is filled in is a byte. -/
theorem isByte_fillIn (hwrec : IsByte wrec) {i : Int32} (h : IsByte (thecode i)) :
    IsByte (v.fillIn wrec thecode i) := by
  have hheads := v.numheads_mem
  have hsecs := v.numsecs_mem
  have hpartp := v.partp_mem
  have hbsh := v.bsh_mem
  have hnat {x : Int32} (hx : 0 ≤ x.toInt) : ∃ a : ℕ, x = Int32.ofNat a ∧ (a : ℤ) = x.toInt :=
    ⟨x.toInt.toNat, eq_ofNat_of_nonneg hx, Int.toNat_of_nonneg hx⟩
  obtain ⟨a, ha, hnumheads⟩ := hnat hheads.1
  obtain ⟨k, hk, hshift⟩ := hnat (x := v.bsh) (by omega)
  have hbyte {n : ℕ} (hn : n < 256) : IsByte (Int32.ofNat n) :=
    isByte_of_toInt (by rw [Int32.toInt_ofNat_of_lt (by omega)]; omega)
  have hlow : IsByte (v.numheads &&& 0xFF) := by
    rw [ha, ofNat_and_byte]
    exact hbyte (Nat.mod_lt _ (by omega))
  have hhigh : IsByte (v.numheads >>> 8) := by
    rw [ha, ofNat_shiftRight_byte (by omega)]
    exact hbyte (by omega)
  have hsize : IsByte (1 <<< (v.bsh - 8)) := by
    have hcases : ∀ k < 16, 9 ≤ k → 0 ≤ ((1 : Int32) <<< (Int32.ofNat k - 8)).toInt ∧
        ((1 : Int32) <<< (Int32.ofNat k - 8)).toInt < 256 := by decide
    rw [hk]
    exact isByte_of_toInt (hcases k (by omega) (by omega))
  unfold fillIn
  refine isByte_store ?_ (isByte_store ?_ (isByte_store ?_ (isByte_store ?_ h)))
  · exact List.forall_mem_singleton.mpr hsize
  · exact List.forall_mem_singleton.mpr (isByte_of_toInt (by omega))
  · exact List.forall_mem_cons.mpr ⟨hwrec, List.forall_mem_cons.mpr ⟨hlow,
      List.forall_mem_cons.mpr ⟨hhigh, List.forall_mem_singleton.mpr (isByte_of_toInt (by omega))⟩⟩⟩
  · exact List.forall_mem_cons.mpr ⟨⟨0x55, rfl⟩, List.forall_mem_singleton.mpr ⟨0xAA, rfl⟩⟩

end

theorem length_encodePiece (piece : ℕ × ℕ) :
    2 ≤ (encodePiece piece).length ∧ (encodePiece piece).length ≤ 5 := by
  rw [encodePiece, List.length_cons, length_toBytes, addressBytes]
  split_ifs <;> omega

theorem length_encode (table : List (ℕ × ℕ)) :
    2 * table.length ≤ (encode table).length ∧ (encode table).length ≤ 5 * table.length := by
  induction table with
  | nil => exact ⟨le_rfl, le_rfl⟩
  | cons piece table ih =>
    have hpiece := length_encodePiece piece
    rw [encode, List.flatMap_cons, List.length_append, List.length_cons]
    change 2 * (table.length + 1) ≤ _ + (encode table).length ∧
      _ + (encode table).length ≤ 5 * (table.length + 1)
    omega

theorem bkend_le (v : Bootgrub) : 446 ≤ v.bkend.toInt ∧ v.bkend.toInt ≤ 510 := by
  rcases v.bkend_cases with ⟨hend, -⟩ | hend <;> rw [hend] <;> decide

/-- The sector that is written when the table fits. -/
theorem exists_output (h : s.Holds v.code table)
    (hfit : (360 + (encode table).length : ℤ) ≤ v.bkend.toInt) :
    ∃ head rest, head.length = 360 ∧ (head.getD 61 0).toNat = table.length ∧
      output (v.addPartition (v.fillIn s.wrec (v.fillTable s))) =
        (head ++ encode table) ++ rest := by
  have hbkend := v.bkend_le
  have hcount := length_encode table
  have hcode := v.length_code
  have hlength : (v.code ++ encode table).length = 360 + (encode table).length := by
    rw [List.length_append, v.length_code]
  have hptr : s.curptr = Int32.ofNat (360 + (encode table).length) := by
    rw [h.written.curptr, hlength]
  -- Nothing below the end of the table is random.
  have hfill {i : ℕ} (hi : i < 360 + (encode table).length) :
      v.fillTable s (Int32.ofNat i) = s.thecode (Int32.ofNat i) := by
    have hlt : ¬s.curptr ≤ Int32.ofNat i := by
      rw [hptr, Int32.ofNat_le_iff_le (by omega) (by omega)]
      omega
    exact if_neg fun hin => hlt hin.1
  have hthecode {i : ℕ} (hi : i < (v.code ++ encode table).length) :
      v.fillTable s (Int32.ofNat i) = Int32.ofNat (v.code ++ encode table)[i].toNat := by
    rw [hfill (hlength ▸ hi)]
    exact h.written.thecode (by omega) i hi
  have hwrec : IsByte s.wrec := by
    rw [h.wrec]
    exact isByte_of_toInt (by rw [Int32.toInt_ofNat_of_lt (by omega)]; omega)
  have hbyte {i : ℕ} (hi : i < 360 + (encode table).length) :
      IsByte (v.fillIn s.wrec (v.fillTable s) (Int32.ofNat i)) :=
    v.isByte_fillIn _ _ hwrec ⟨_, hthecode (hlength.symm ▸ hi)⟩
  choose byte hhead using fun i : Fin 360 => hbyte (i := i) (by omega)
  have hlen : (List.ofFn byte).length = 360 := List.length_ofFn
  have hprinted (i : ℕ) (hi : i < (List.ofFn byte ++ encode table).length) :
      v.addPartition (v.fillIn s.wrec (v.fillTable s)) (Int32.ofNat i) =
        Int32.ofNat (List.ofFn byte ++ encode table)[i].toNat := by
    rw [List.length_append, hlen] at hi
    rw [addPartition_of_lt _ (by omega)]
    rcases Nat.lt_or_ge i 360 with hlow | hlow
    · rw [List.getElem_append_left (by omega), List.getElem_ofFn]
      exact hhead ⟨i, hlow⟩
    · rw [fillIn_of_le _ _ _ hlow (by omega), hthecode (by omega),
        List.getElem_append_right (by omega), List.getElem_append_right (by omega)]
      simp only [hlen, v.length_code]
  obtain ⟨rest, hrest⟩ := output_eq (by rw [List.length_append, hlen]; omega) hprinted
  refine ⟨List.ofFn byte, rest, hlen, ?_, hrest⟩
  have hstored := hhead ⟨61, by omega⟩
  have hbytelt := (byte ⟨61, by omega⟩).toNat_lt
  change v.fillIn s.wrec (v.fillTable s) 61 = _ at hstored
  rw [fillIn_wrec, h.wrec, ofNat_inj_of_lt (by omega) (by omega)] at hstored
  rw [List.getD_eq_getElem _ _ (by omega), List.getElem_ofFn, hstored]

/-! ### The records as they are read -/

def Readable (piece : ℕ × ℕ) : Prop := 0 < piece.2 ∧ piece.2 ≤ 32 ∧ piece.1 < 2 ^ 31

theorem toNat_header {piece : ℕ × ℕ} (h : Readable piece) :
    (UInt8.ofNat ((addressBytes piece.1 - 1) * 32 + (piece.2 - 1))).toNat =
      (addressBytes piece.1 - 1) * 32 + (piece.2 - 1) := by
  obtain ⟨hpos, hle, -⟩ := h
  have hbytes : addressBytes piece.1 ≤ 4 := by
    unfold addressBytes
    split_ifs <;> omega
  have hlt : (addressBytes piece.1 - 1) * 32 + (piece.2 - 1) < 2 ^ 8 := by omega
  rw [UInt8.toNat_ofNat', Nat.mod_eq_of_lt hlt]

theorem ofBytes_address {blk : ℕ} (h : blk < 2 ^ 31) :
    ofBytes (toBytes (addressBytes blk) blk) = blk := by
  apply ofBytes_toBytes_of_lt
  unfold addressBytes
  split_ifs <;> omega

theorem readRecords_encode {table : List (ℕ × ℕ)} (h : ∀ piece ∈ table, Readable piece)
    (rest : List UInt8) :
    readRecords table.length (encode table ++ rest) = some (table.flatMap expand, rest) := by
  induction table with
  | nil => rfl
  | cons piece table ih =>
    obtain ⟨hpiece, htable⟩ := List.forall_mem_cons.mp h
    have hbytes : 0 < addressBytes piece.1 := by
      unfold addressBytes
      split_ifs <;> omega
    have hpos := hpiece.1
    have hle := hpiece.2.1
    have hwidth : ((addressBytes piece.1 - 1) * 32 + (piece.2 - 1)) / 32 + 1 =
        addressBytes piece.1 := by omega
    have hlength : ((addressBytes piece.1 - 1) * 32 + (piece.2 - 1)) % 32 + 1 = piece.2 := by omega
    have hlen : (toBytes (addressBytes piece.1) piece.1).length = addressBytes piece.1 :=
      length_toBytes _ _
    have hfits : ¬(toBytes (addressBytes piece.1) piece.1 ++ (encode table ++ rest)).length <
        addressBytes piece.1 := by
      rw [List.length_append, hlen]
      omega
    have hencode : encode (piece :: table) ++ rest =
        UInt8.ofNat ((addressBytes piece.1 - 1) * 32 + (piece.2 - 1)) ::
          (toBytes (addressBytes piece.1) piece.1 ++ (encode table ++ rest)) := by
      rw [encode, List.flatMap_cons, encodePiece, List.append_assoc, List.cons_append]
      rfl
    rw [hencode, List.length_cons, readRecords, toNat_header hpiece, hwidth, hlength, if_neg hfits,
      List.take_left' hlen, List.drop_left' hlen, ofBytes_address hpiece.2.2, ih htable]
    rfl

theorem length_readRecords {n : ℕ} {bs rest : List UInt8} {sectors : List ℕ}
    (h : readRecords n bs = some (sectors, rest)) : sectors.length ≤ 32 * n := by
  induction n generalizing bs sectors with
  | zero =>
    obtain ⟨rfl, -⟩ := Prod.mk.inj (Option.some.inj h)
    exact Nat.zero_le _
  | succ n ih =>
    cases bs with
    | nil => exact nomatch h
    | cons b bs =>
      rw [readRecords] at h
      split at h
      case isTrue => exact nomatch h
      case isFalse =>
        obtain ⟨⟨sectors', rest'⟩, hread, heq⟩ := Option.map_eq_some_iff.mp h
        obtain ⟨rfl, rfl⟩ := Prod.mk.inj heq
        have hrest := ih hread
        rw [List.length_append, List.length_range']
        omega

theorem flatMap_table (v : Bootgrub) : v.table.flatMap expand = v.sectors := by
  have hrun : ∀ run ∈ runs v.sectors, (pieces 32 run.1 run.2).flatMap expand = expand run :=
    fun run _ => flatMap_pieces (by omega) _ _
  rw [table, cut, List.flatMap_assoc, List.flatMap_congr hrun, flatMap_runs]

/-- There are no more records than sectors. -/
theorem length_table_le (v : Bootgrub) : v.table.length ≤ v.sectors.length := by
  have hpieces : ∀ piece ∈ v.table, 1 ≤ (expand piece).length := fun piece hpiece => by
    obtain ⟨run, -, hmem⟩ := List.mem_flatMap.mp hpiece
    rw [expand, List.length_range']
    exact (of_mem_pieces hmem).1
  rw [← v.flatMap_table, List.length_flatMap, ← List.length_map fun p => (expand p).length]
  apply List.length_le_sum_of_one_le
  intro n hn
  obtain ⟨piece, hpiece, rfl⟩ := List.mem_map.mp hn
  exact hpieces piece hpiece

theorem Numbered.sectors_lt (h : v.Numbered) : ∀ sector ∈ v.sectors, sector < 2 ^ 31 := by
  intro sector hmem
  obtain ⟨extent, hextent, hsector⟩ := List.mem_flatMap.mp hmem
  obtain ⟨hlow, hhigh⟩ := List.mem_range'_1.mp hsector
  have hfirst := h.first extent hextent
  have hle : extent.1.toInt ≤ extent.2.toInt := by
    by_contra hgt
    have hnone : (extent.2.toInt + 1 - extent.1.toInt).toNat = 0 := by omega
    rw [hnone, Nat.zero_mul] at hhigh
    omega
  have hlast := h.last extent hextent (Int32.le_iff_toInt_le.mpr hle)
  have hend : extent.1.toInt.toNat * 2 ^ v.sscale.toInt.toNat +
      (extent.2.toInt + 1 - extent.1.toInt).toNat * 2 ^ v.sscale.toInt.toNat =
      (extent.2.toInt + 1).toNat * 2 ^ v.sscale.toInt.toNat := by
    rw [← Nat.add_mul]
    congr 1
    omega
  have hcast : (((extent.2.toInt + 1).toNat * 2 ^ v.sscale.toInt.toNat : ℕ) : ℤ) ≤ 2 ^ 31 := by
    rw [Nat.cast_mul, Int.toNat_of_nonneg (by omega)]
    exact_mod_cast hlast
  have hnat : (extent.2.toInt + 1).toNat * 2 ^ v.sscale.toInt.toNat ≤ 2 ^ 31 := by
    exact_mod_cast hcast
  omega

theorem Numbered.readable (h : v.Numbered) : ∀ piece ∈ v.table, Readable piece := by
  intro piece hpiece
  obtain ⟨run, -, hmem⟩ := List.mem_flatMap.mp hpiece
  obtain ⟨hpos, hle, -⟩ := of_mem_pieces hmem
  have hfirst : piece.1 ∈ v.sectors := by
    rw [← v.flatMap_table]
    exact List.mem_flatMap.mpr ⟨piece, hpiece, List.mem_range'_1.mpr ⟨le_rfl, by omega⟩⟩
  exact ⟨hpos, hle, h.sectors_lt _ hfirst⟩

/-! ### The whole run -/

theorem sscale_eq (v : Bootgrub) : v.sscale = Int32.ofNat v.sscale.toInt.toNat :=
  eq_ofNat_of_nonneg v.sscale_mem.1

theorem covers_initial (v : Bootgrub) : v.initial.Covers v.code v.table v.sectors := by
  have hcode := v.length_code
  refine ⟨[], ⟨⟨?_, fun _ i hi => ?_⟩, rfl⟩, .inl ⟨⟨rfl, rfl⟩, rfl⟩⟩
  · rw [encode, List.flatMap_nil, List.append_nil, v.length_code]
    rfl
  · rw [encode, List.flatMap_nil, List.append_nil] at hi
    simp only [encode, List.flatMap_nil, List.append_nil]
    change Int32.ofNat (v.code.getD (Int32.ofNat i).toNatClampNeg 0).toNat = _
    rw [Int32.toNatClampNeg_ofNat_of_lt (by omega), List.getD_eq_getElem _ _ hi]

theorem readExtents_covers {k fuel : ℕ} (hk : k < 32) {extents : List (Int32 × Int32)}
    {code : List UInt8} {s s' : Bootxx} (hfirst : ∀ extent ∈ extents, 0 < extent.1.toInt)
    (hend : ∀ extent ∈ extents, extent.1 ≤ extent.2 → (extent.2.toInt + 1) * 2 ^ k ≤ 2 ^ 31)
    (hlast : ∀ extent ∈ extents, extent.2.toInt < 2 ^ 31 - 1)
    (h : s.Covers code table (extents.flatMap (sectorsOf k)))
    (hread : Bootxx.readExtents (Int32.ofNat k) fuel extents s = some s') :
    s'.Covers code table [] := by
  induction extents generalizing s with
  | nil => exact Option.some.inj hread ▸ h
  | cons extent extents ih =>
    obtain ⟨hfirst, hfirsts⟩ := List.forall_mem_cons.mp hfirst
    obtain ⟨hend, hends⟩ := List.forall_mem_cons.mp hend
    obtain ⟨hlast, hlasts⟩ := List.forall_mem_cons.mp hlast
    obtain ⟨s₁, hextent, hrest⟩ := Option.bind_eq_some_iff.mp hread
    have hlt := extent.1.toInt_lt
    have ha := eq_ofNat_of_nonneg hfirst.le
    have hcast : ((extent.1.toInt.toNat : ℕ) : ℤ) = extent.1.toInt :=
      Int.toNat_of_nonneg hfirst.le
    have hcovers : s₁.Covers code table (extents.flatMap (sectorsOf k)) := by
      rw [ha] at hextent
      rw [List.flatMap_cons, sectorsOf] at h
      apply Bootxx.readExtent_covers hk fuel (by omega) (by omega) hlast ?_ hextent
      · rwa [hcast]
      · intro hle
        exact hend (Int32.le_iff_toInt_le.mpr (hcast ▸ hle))
    exact ih hfirsts hends hlasts hcovers hrest

theorem isSome_readExtents (sscale : Int32) {extents : List (Int32 × Int32)}
    (hfirst : ∀ extent ∈ extents, 0 < extent.1.toInt)
    (hlast : ∀ extent ∈ extents, extent.2.toInt < 2 ^ 31 - 1) (s : Bootxx) :
    (Bootxx.readExtents sscale (2 ^ 31) extents s).isSome := by
  induction extents generalizing s with
  | nil => rfl
  | cons extent extents ih =>
    obtain ⟨hfirst, hfirsts⟩ := List.forall_mem_cons.mp hfirst
    obtain ⟨hlast, hlasts⟩ := List.forall_mem_cons.mp hlast
    have hlt := extent.1.toInt_lt
    have ha := eq_ofNat_of_nonneg hfirst.le
    have hsome : (Bootxx.readExtent sscale (2 ^ 31) (Int32.ofNat extent.1.toInt.toNat) extent.2
        s).isSome := Bootxx.isSome_readExtent sscale (by omega) hlast (by omega) s
    rw [← ha] at hsome
    obtain ⟨s₁, hread⟩ := Option.isSome_iff_exists.mp hsome
    rw [Bootxx.readExtents, hread]
    exact ih hfirsts hlasts s₁

/-- The table is complete when it is checked for its length. -/
theorem holds_of_run (h : v.Numbered) (hlast : ∀ extent ∈ v.extents, extent.2.toInt < 2 ^ 31 - 1)
    {fuel : ℕ} {outcome : Outcome} (hrun : v.run fuel = some outcome) :
    ∃ s : Bootxx, s.Holds v.code v.table ∧ outcome = v.finish s := by
  obtain ⟨s, hread, rfl⟩ := Option.map_eq_some_iff.mp hrun
  have hscale := v.sscale_mem
  rw [v.sscale_eq] at hread
  have hcovers := readExtents_covers (by omega) h.first h.last hlast v.covers_initial hread
  exact ⟨_, hcovers.holds v.sscale, rfl⟩

theorem finish_of_holds (h : s.Holds v.code v.table) :
    (v.bkend.toInt < (Int32.ofNat (360 + (encode v.table).length)).toInt ∧
      v.finish s = .tooManyBlocks) ∨
    ((Int32.ofNat (360 + (encode v.table).length)).toInt ≤ v.bkend.toInt ∧
      v.finish s = .written (output (v.addPartition (v.fillIn s.wrec (v.fillTable s))))) := by
  have hptr : s.curptr = Int32.ofNat (360 + (encode v.table).length) := by
    rw [h.written.curptr, List.length_append, v.length_code]
  have hgt : s.curptr > v.bkend ↔
      v.bkend.toInt < (Int32.ofNat (360 + (encode v.table).length)).toInt := by
    rw [gt_iff_lt, Int32.lt_iff_toInt_lt, hptr]
  unfold finish
  by_cases hlt : s.curptr > v.bkend
  · exact .inl ⟨hgt.mp hlt, if_pos hlt⟩
  · exact .inr ⟨Int.not_lt.mp (hgt.not.mp hlt), if_neg hlt⟩

theorem loads_of_fit (h : v.Numbered) (hs : s.Holds v.code v.table)
    (hfit : (360 + (encode v.table).length : ℤ) ≤ v.bkend.toInt) :
    v.Loads (output (v.addPartition (v.fillIn s.wrec (v.fillTable s)))) := by
  obtain ⟨head, rest, hlen, hcount, houtput⟩ := exists_output hs hfit
  refine ⟨rest, ?_, ?_⟩
  · rw [houtput, List.append_assoc, List.drop_left' hlen, List.getD_append _ _ _ _ (by omega),
      hcount, readRecords_encode h.readable, flatMap_table]
  · rw [houtput, List.length_append, List.length_append, hlen]
    push_cast
    omega

/-- So many records that their length overflows are more than can be counted in a byte. -/
theorem not_loads_of_overflow (hlong : 2 ^ 31 ≤ 360 + (encode v.table).length)
    (bootxx : List UInt8) : ¬v.Loads bootxx := by
  rintro ⟨rest, hread, -⟩
  have hcount := length_readRecords hread
  have hbyte := (bootxx.getD 61 0).toNat_lt
  have hrecords := v.length_table_le
  have hlength := length_encode v.table
  omega

end Bootgrub

/-- A run ends, and what it leaves is right, if and only if no extent ends with the largest number
and the end of the table is compared without an overflow. -/
theorem run_right {v : Bootgrub} (h : v.Numbered) :
    (∃ fuel, (v.run fuel).isSome) ∧
      (∀ fuel outcome, v.run fuel = some outcome → outcome.Right v) ↔
    (∀ extent ∈ v.extents, extent.2.toInt < 2 ^ 31 - 1) ∧
      ((360 + (encode v.table).length : ℤ) ≤ v.bkend.toInt ∨
        v.bkend.toInt < (Int32.ofNat (360 + (encode v.table).length)).toInt) := by
  have hbkend := v.bkend_le
  constructor
  · rintro ⟨⟨fuel, hsome⟩, hright⟩
    obtain ⟨outcome, hrun⟩ := Option.isSome_iff_exists.mp hsome
    have hlast : ∀ extent ∈ v.extents, extent.2.toInt < 2 ^ 31 - 1 := by
      by_contra! hover
      obtain ⟨extent, hextent, hlast⟩ := hover
      have hlt := extent.2.toInt_lt
      have hnone : Bootxx.readExtents v.sscale fuel v.extents v.initial = none :=
        Bootxx.readExtents_eq_none ⟨extent, hextent, by omega⟩ fuel v.initial
      rw [Bootgrub.run, hnone] at hrun
      exact nomatch hrun
    refine ⟨hlast, ?_⟩
    obtain ⟨s, hs, rfl⟩ := Bootgrub.holds_of_run h hlast hrun
    by_contra! hover
    obtain ⟨hlong, hwrapped⟩ := hover
    rcases Bootgrub.finish_of_holds hs with ⟨hlt, -⟩ | ⟨-, hwritten⟩
    · omega
    · have hloads := hright fuel _ hrun
      rw [hwritten] at hloads
      refine Bootgrub.not_loads_of_overflow ?_ _ hloads
      by_contra! hsmall
      rw [Int32.toInt_ofNat_of_lt hsmall] at hwrapped
      omega
  · rintro ⟨hlast, hfits⟩
    refine ⟨⟨2 ^ 31, ?_⟩, fun fuel outcome hrun => ?_⟩
    · obtain ⟨s, hread⟩ := Option.isSome_iff_exists.mp
        (Bootgrub.isSome_readExtents v.sscale h.first hlast v.initial)
      rw [Bootgrub.run, hread]
      rfl
    · obtain ⟨s, hs, rfl⟩ := Bootgrub.holds_of_run h hlast hrun
      rcases Bootgrub.finish_of_holds hs with ⟨hlt, hfinish⟩ | ⟨hle, hfinish⟩
      · rw [hfinish]
        change v.bkend.toInt < 360 + (encode v.table).length
        by_contra! hfit
        rw [Int32.toInt_ofNat_of_lt (by omega)] at hlt
        omega
      · rw [hfinish]
        exact Bootgrub.loads_of_fit h hs (by omega)

namespace Samples

def bootSector (extents : List (Int32 × Int32)) : Bootgrub where
  sscale := 0
  numheads := 16
  numsecs := 63
  partp := 0
  bsh := 9
  mbrpno := 0
  mbrptp := 0
  pofs := 0
  geometry := ⟨0, 0, 0⟩
  sscale_mem := by decide
  numheads_mem := by decide
  numsecs_mem := by decide
  partp_mem := by decide
  bsh_mem := by decide
  code := List.replicate 360 0
  extents := extents
  random _ := 0
  length_code := List.length_replicate

theorem numbered_bootSector {first last : Int32} (hfirst : 0 < first.toInt) :
    (bootSector [(first, last)]).Numbered := by
  refine ⟨List.forall_mem_singleton.mpr hfirst, List.forall_mem_singleton.mpr fun _ => ?_⟩
  change (last.toInt + 1) * 1 ≤ 2 ^ 31
  have hlt := last.toInt_lt
  omega

/-- A kernel of five sectors. -/
theorem run_right_kernel :
    (∃ fuel, ((bootSector [(5, 9)]).run fuel).isSome) ∧
      ∀ fuel outcome, (bootSector [(5, 9)]).run fuel = some outcome →
        outcome.Right (bootSector [(5, 9)]) := by
  refine (run_right (numbered_bootSector (by decide))).mpr
    ⟨List.forall_mem_singleton.mpr (by decide), .inl ?_⟩
  have hlength := Bootgrub.length_encode (bootSector [(5, 9)]).table
  have hrecords := (bootSector [(5, 9)]).length_table_le
  have hsectors : (bootSector [(5, 9)]).sectors.length = 5 := rfl
  have hend : (bootSector [(5, 9)]).bkend.toInt = 510 := rfl
  omega

/-- The loop over the block `2 ^ 31 - 1` does not end. -/
theorem run_not_ending : (bootSector [(2147483647, 2147483647)]).Numbered ∧
    ∀ fuel, (bootSector [(2147483647, 2147483647)]).run fuel = none := by
  refine ⟨numbered_bootSector (by decide), fun fuel => ?_⟩
  have hnone : Bootxx.readExtents 0 fuel [(2147483647, 2147483647)]
      (bootSector [(2147483647, 2147483647)]).initial = none :=
    Bootxx.readExtents_eq_none ⟨_, List.mem_singleton_self _, rfl⟩ fuel _
  rw [Bootgrub.run]
  exact congrArg _ hnone

end Samples
end OpenADK.Disk
