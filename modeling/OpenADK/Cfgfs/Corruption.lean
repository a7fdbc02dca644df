import OpenADK.Cfgfs.Adler
import OpenADK.Cfgfs.Chunks
import Mathlib.Tactic.NormNum.Prime

/-!
# Corruption is detected

The checksum covers everything before it, and two images with the same checksum differ at more
than two places, or at two places whose distance is a multiple of the base.
-/

namespace OpenADK.Cfgfs
open LittleEndian WeightedSum
variable {compressors : UInt8 → Option Compressor} {bytes bytes' : Bytes} {outer : ℕ}

def Checks (bytes : Bytes) (outer : ℕ) : Prop :=
  (adlerSums bytes (outer - 4)).1.toNat = loadw (bytes.drop (outer - 4)) ∧
    (adlerSums bytes (outer - 4)).2.toNat = loadw (bytes.drop (outer - 2))

/-- An image with a wrong checksum is rejected. -/
theorem judge_error (houter : 4 ≤ loadt (bytes.drop 4))
    (h : ¬Checks bytes (loadt (bytes.drop 4))) :
    ∃ message, judge compressors bytes = .error (.err message) := by
  unfold judge
  dsimp only
  split
  · exact ⟨_, rfl⟩
  · split
    · exact ⟨_, rfl⟩
    · rw [if_neg (by omega), unpackImage, if_neg (by omega)]
      rw [Checks, Classical.not_and_iff_not_or_not] at h
      rw [if_pos h]
      exact ⟨_, rfl⟩

theorem fwcfUnpack_error {limits : List ℕ} (houter : 4 ≤ loadt (bytes.drop 4))
    (h : ¬Checks bytes (loadt (bytes.drop 4))) :
    ∃ message, fwcfUnpack compressors ⟨bytes, limits⟩ = .error (.err message) := by
  by_cases hwhole : Whole ⟨bytes, limits⟩
  · obtain ⟨message, hjudge⟩ := @judge_error compressors _ houter h
    rw [← fwcfUnpack_of_whole hwhole] at hjudge
    cases hunpack : fwcfUnpack compressors ⟨bytes, limits⟩ with
    | error e =>
      rw [hunpack] at hjudge
      cases hjudge
      exact ⟨message, rfl⟩
    | ok u =>
      rw [hunpack] at hjudge
      cases hjudge
  · exact fwcfUnpack_of_not_whole hwhole

/-! ### Images with the same checksum -/

theorem values_adlerSums (data : Bytes) (len : ℕ) :
    values (adlerSums data len) = residues base (1, 0) (numbers (data.take len)) :=
  (adlerCalc_eq (data.take len) (1, 0) reduced_init).2.2

/-- The same data have the same checksum. -/
theorem take_eq_of_checks (h : Checks bytes outer) (h' : Checks bytes' outer) (houter : 4 ≤ outer)
    (hlen : outer ≤ bytes.length) (hlen' : outer ≤ bytes'.length)
    (hdata : bytes.take (outer - 4) = bytes'.take (outer - 4)) :
    bytes.take outer = bytes'.take outer := by
  have hsums : adlerSums bytes (outer - 4) = adlerSums bytes' (outer - 4) := by
    rw [adlerSums, adlerSums, hdata]
  have hlow := h.1.symm.trans ((congrArg (fun s : Sums => s.1.toNat) hsums).trans h'.1)
  have hhigh := h.2.symm.trans ((congrArg (fun s : Sums => s.2.toNat) hsums).trans h'.2)
  have hword (k : ℕ) (hk : k + 2 ≤ outer) (heq : loadw (bytes.drop k) = loadw (bytes'.drop k)) :
      (bytes.drop k).take 2 = (bytes'.drop k).take 2 := by
    refine ofBytes_injective ?_ heq
    rw [List.length_take, List.length_take, List.length_drop, List.length_drop]
    omega
  have hsplit (b : Bytes) (hb : outer ≤ b.length) : b.take outer =
      b.take (outer - 4) ++ ((b.drop (outer - 4)).take 2 ++ (b.drop (outer - 2)).take 2) := by
    have h1 : outer = outer - 4 + (2 + 2) := by omega
    have h2 : outer - 2 = outer - 4 + 2 := by omega
    rw [h2, ← List.drop_drop, ← List.take_add, ← List.take_add, ← h1]
  rw [hsplit bytes hlen, hsplit bytes' hlen', hdata, hword _ (by omega) hlow,
    hword _ (by omega) hhigh]

/-- The same checksum belongs to data with the same sums. -/
theorem sums_eq_of_checks (h : Checks bytes outer) (h' : Checks bytes' outer) (houter : 4 ≤ outer)
    (hlen : bytes.length = bytes'.length)
    (htrailer : bytes.drop (outer - 4) = bytes'.drop (outer - 4)) :
    (numbers (bytes.take (outer - 4))).sum % base = (numbers (bytes'.take (outer - 4))).sum % base ∧
      weighted (numbers (bytes.take (outer - 4))) % base =
        weighted (numbers (bytes'.take (outer - 4))) % base := by
  have hhigh : bytes.drop (outer - 2) = bytes'.drop (outer - 2) := by
    have h2 : outer - 2 = outer - 4 + 2 := by omega
    rw [h2, ← List.drop_drop, ← List.drop_drop, htrailer]
  have hvalues : values (adlerSums bytes (outer - 4)) = values (adlerSums bytes' (outer - 4)) := by
    rw [values, values, h.1, h.2, h'.1, h'.2, htrailer, hhigh]
  rw [values_adlerSums, values_adlerSums] at hvalues
  obtain ⟨h1, h2⟩ := Prod.mk.inj hvalues
  have hlength : (numbers (bytes.take (outer - 4))).length =
      (numbers (bytes'.take (outer - 4))).length := by
    simp only [numbers, List.length_map, List.length_take, hlen]
  rw [hlength] at h2
  exact ⟨Nat.ModEq.add_left_cancel' 1 h1, Nat.ModEq.add_left_cancel' _ h2⟩

/-! ### Changed bytes -/

variable {i j : ℕ} {b c : UInt8}

theorem toNat_lt_base (b : UInt8) : b.toNat < base :=
  lt_trans b.toNat_lt (by decide)

theorem numbers_set (h : i < bytes.length) (b : UInt8) : numbers (bytes.set i b) =
    numbers (bytes.take i) ++ b.toNat :: numbers (bytes.drop (i + 1)) := by
  rw [List.set_eq_take_append_cons_drop, if_pos h]
  simp only [numbers, List.map_append, List.map_cons]

theorem numbers_set_set (hij : i < j) (hj : j < bytes.length) (b c : UInt8) :
    numbers ((bytes.set i b).set j c) =
      numbers (bytes.take i) ++ b.toNat :: (numbers ((bytes.drop (i + 1)).take (j - i - 1)) ++
        c.toNat :: numbers (bytes.drop (j + 1))) := by
  have hrest : (bytes.set j c).drop (i + 1) = (bytes.drop (i + 1)).set (j - i - 1) c := by
    rw [List.drop_set, if_neg (by omega)]
    congr 1
  have hafter : (bytes.drop (i + 1)).drop (j - i - 1 + 1) = bytes.drop (j + 1) := by
    rw [List.drop_drop]
    congr 1
    omega
  rw [List.set_comm _ _ (by omega), numbers_set (by rw [List.length_set]; omega),
    List.take_set_of_le (by omega), hrest, numbers_set (by rw [List.length_drop]; omega), hafter]

/-- One byte before the end of the checksum. -/
theorem getElem?_of_set (h : Checks bytes outer) (h' : Checks (bytes.set i b) outer)
    (houter : 4 ≤ outer) (hlen : outer ≤ bytes.length) (hi : i < outer) :
    bytes[i]? = some b := by
  have hi' : i < bytes.length := by omega
  rw [List.getElem?_eq_getElem hi']
  by_cases hbody : i < outer - 4
  · obtain ⟨hsum, -⟩ := sums_eq_of_checks h h' houter List.length_set.symm
      (List.drop_set_of_lt hbody).symm
    have hlength : i < (bytes.take (outer - 4)).length := by
      rw [List.length_take]
      omega
    have hself := numbers_set hlength (bytes.take (outer - 4))[i]
    rw [List.set_getElem_self] at hself
    rw [List.take_set, numbers_set hlength, hself] at hsum
    have hnat := eq_of_sum_mod (toNat_lt_base _) (toNat_lt_base _) hsum
    rw [List.getElem_take] at hnat
    rw [UInt8.toNat_inj.mp hnat]
  · have hdata : bytes.take (outer - 4) = (bytes.set i b).take (outer - 4) :=
      (List.take_set_of_le (by omega)).symm
    have htake := take_eq_of_checks h h' houter hlen (by rw [List.length_set]; exact hlen) hdata
    have hget := congrArg (fun l : Bytes => l[i]?) htake
    simp only [List.getElem?_take_of_lt hi, List.getElem?_set_self hi'] at hget
    rw [← hget, List.getElem?_eq_getElem hi']

/-- Two bytes before the checksum, whose distance the base does not divide. -/
theorem getElem?_of_set_set (h : Checks bytes outer)
    (h' : Checks ((bytes.set i b).set j c) outer) (houter : 4 ≤ outer)
    (hlen : outer ≤ bytes.length) (hij : i < j) (hj : j < outer - 4) (hdist : ¬base ∣ j - i) :
    bytes[i]? = some b := by
  obtain ⟨hsum, hweighted⟩ := sums_eq_of_checks h h' houter
    (by rw [List.length_set, List.length_set])
    (by rw [List.drop_set_of_lt hj, List.drop_set_of_lt (by omega)])
  generalize hdata : bytes.take (outer - 4) = data at hsum hweighted
  have hlength : j < data.length := by
    rw [← hdata, List.length_take]
    omega
  have hself := numbers_set_set hij hlength data[i] data[j]
  rw [List.set_getElem_self, List.set_getElem_self] at hself
  rw [List.take_set, List.take_set, hdata, numbers_set_set hij hlength, hself] at hsum hweighted
  have hbetween : (numbers ((data.drop (i + 1)).take (j - i - 1))).length + 1 = j - i := by
    rw [numbers, List.length_map, List.length_take, List.length_drop]
    omega
  have hprime : base.Prime := by
    have hbase : base = 65521 := rfl
    rw [hbase]
    norm_num
  have hnat := eq_of_weighted_mod hprime (toNat_lt_base _) (toNat_lt_base _)
    (by rw [hbetween]; exact hdist) hsum hweighted
  have hi : i < bytes.length := by omega
  have hget : data[i] = bytes[i] := by
    simp only [← hdata, List.getElem_take]
  rw [List.getElem?_eq_getElem hi, ← hget, UInt8.toNat_inj.mp hnat]

/-! ### Packed images -/

/-- A packed image has its outer length at its place, and its checksum. -/
theorem checks_fwcfPack {rndata : ∀ n, List.Vector UInt8 n} {odata image : Bytes} {algo : UInt8}
    (hpack : fwcfPack compressors rndata odata algo = .ok image) :
    16 ≤ loadt (image.drop 4) ∧ loadt (image.drop 4) ≤ image.length ∧
      Checks image (loadt (image.drop 4)) := by
  obtain ⟨c, cdata, m, -, -, -, -, houter, rfl⟩ := fwcfPack_eq hpack
  dsimp only
  generalize hheader : headerBytes (cdata.length + m + 16) odata.length algo ++
    (cdata ++ List.replicate m 0) = data
  generalize (rndata _).toList = rest
  have hlen : data.length = cdata.length + m + 12 := by
    rw [← hheader, List.length_append, length_headerBytes, List.length_append,
      List.length_replicate]
    omega
  have hbody : cdata.length + m + 16 - 4 = data.length := by omega
  obtain ⟨hw1, hw2⟩ := loadw_trailer data data.length rest
  have htail : (trailerBytes (adlerSums data data.length) ++ rest).length = 4 + rest.length := by
    rw [List.length_append, length_trailerBytes]
  revert hw1 hw2 htail
  generalize trailerBytes (adlerSums data data.length) ++ rest = tail
  intro hw1 hw2 htail
  have hload : loadt ((data ++ tail).drop 4) = cdata.length + m + 16 := by
    rw [← hheader, List.append_assoc]
    exact loadt_append houter (1 :: (toBytes 3 odata.length ++ [algo] ++
      (cdata ++ List.replicate m 0 ++ tail)))
  have hsums : adlerSums (data ++ tail) data.length = adlerSums data data.length := by
    rw [adlerSums, adlerSums, List.take_left, List.take_length]
  rw [hload]
  refine ⟨by omega, by rw [List.length_append]; omega, ?_⟩
  rw [Checks, hbody, hsums, List.drop_left, hw1]
  have htwo : cdata.length + m + 16 - 2 = data.length + 2 := by omega
  rw [htwo, ← List.drop_drop, List.drop_left, hw2]
  exact ⟨rfl, rfl⟩

/-- The outer length is at its place still if none of its bytes is changed. -/
theorem loadt_set (h : i < 4 ∨ 7 ≤ i) (b : UInt8) :
    loadt ((bytes.set i b).drop 4) = loadt (bytes.drop 4) := by
  rw [loadt, loadt, load, load]
  rcases h with h | h
  · rw [List.drop_set_of_lt h]
  · rw [List.drop_set, if_neg (by omega), List.take_set_of_le (by omega)]

/-- A change of one byte but for those of the outer length, or of two bytes whose distance is not
a multiple of the base, is noticed, however the stream is delivered. -/
theorem fwcfUnpack_rejects {compressors' : UInt8 → Option Compressor}
    {rndata : ∀ n, List.Vector UInt8 n} {odata image : Bytes} {algo : UInt8}
    (hpack : fwcfPack compressors rndata odata algo = .ok image) (limits : List ℕ) :
    let outer := loadt (image.drop 4)
    (∀ i < outer, ¬(4 ≤ i ∧ i ≤ 6) → ∀ b, image[i]? ≠ some b →
      ∃ message, fwcfUnpack compressors' ⟨image.set i b, limits⟩ = .error (.err message)) ∧
    ∀ i j, 7 ≤ i → i < j → j ≤ outer - 5 → ¬65521 ∣ j - i → ∀ b c, image[i]? ≠ some b →
      image[j]? ≠ some c →
        ∃ message, fwcfUnpack compressors' ⟨(image.set i b).set j c, limits⟩ =
          .error (.err message) := by
  obtain ⟨houter, hlen, hchecks⟩ := checks_fwcfPack hpack
  dsimp only
  refine ⟨fun i hi hplace b hb => ?_, fun i j hi hij hj hdist b c hb hc => ?_⟩
  · have hload : loadt ((image.set i b).drop 4) = loadt (image.drop 4) :=
      loadt_set (by omega) b
    apply fwcfUnpack_error (by rw [hload]; omega)
    rw [hload]
    exact fun hchecks' => hb (getElem?_of_set hchecks hchecks' (by omega) hlen hi)
  · have hload : loadt (((image.set i b).set j c).drop 4) = loadt (image.drop 4) :=
      (loadt_set (.inr (by omega)) c).trans (loadt_set (.inr hi) b)
    apply fwcfUnpack_error (by rw [hload]; omega)
    rw [hload]
    exact fun hchecks' => hb
      (getElem?_of_set_set hchecks hchecks' (by omega) hlen hij (by omega) hdist)

namespace Samples

/-- The last byte of the checksum of the empty filesystem. -/
theorem fwcfUnpack_rejects_null : ∃ image,
    fwcfPack nullOnly (fun n => List.Vector.replicate n 7) [0] 0 = .ok image ∧
      ∀ b, image[loadt (image.drop 4) - 1]? ≠ some b → ∃ message,
        fwcfUnpack nullOnly ⟨image.set (loadt (image.drop 4) - 1) b, []⟩ =
          .error (.err message) := by
  obtain ⟨image, himage⟩ : ∃ image,
      fwcfPack nullOnly (fun n => List.Vector.replicate n 7) [0] 0 = .ok image := ⟨_, rfl⟩
  obtain ⟨houter, -⟩ := checks_fwcfPack himage
  refine ⟨image, himage, fun b hb => ?_⟩
  exact (fwcfUnpack_rejects himage []).1 _ (by omega) (by omega) b hb

end Samples

end OpenADK.Cfgfs
