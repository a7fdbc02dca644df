import OpenADK.Cfgfs.Wraps

/-!
# The container is read back

The decoder finds the lengths, the checksum and the data where the encoder has put them.
-/

namespace OpenADK.Cfgfs
open LittleEndian
variable {algo : UInt8} {data odata image : Bytes} {outer inner n k : ℕ}

/-! ### The header -/

/-- The header of an image whose lengths fit into 24 bits. -/
def headerBytes (outer inner : ℕ) (algo : UInt8) : Bytes :=
  [70, 87, 67, 70] ++ (toBytes 3 outer ++ [1]) ++ (toBytes 3 inner ++ [algo])

theorem length_headerBytes (outer inner : ℕ) (algo : UInt8) :
    (headerBytes outer inner algo).length = 12 := by
  simp [headerBytes]

/-- A length below a byte that goes above it. -/
theorem toBytes_four {x : ℕ} (hx : x < 2 ^ 24) (b : UInt8) :
    toBytes 4 ((x % 2 ^ 24 + b.toNat * 2 ^ 24 : ℕ) : ℤ) = toBytes 3 x ++ [b] := by
  have hsum : ((x % 2 ^ 24 + b.toNat * 2 ^ 24 : ℕ) : ℤ) = x + 256 ^ 3 * (b.toNat : ℤ) := by
    rw [Nat.mod_eq_of_lt hx]
    push_cast
    ring
  have hhigh : ((x : ℤ) + 256 ^ 3 * (b.toNat : ℤ)) / 256 ^ 3 = b.toNat := by omega
  rw [hsum, toBytes_add 3 1, toBytes_add_mul, hhigh, toBytes_one, UInt8.ofNat_toNat]

theorem store_of_le {x : ℤ} {h : Header} (hk : k ≤ h.left) :
    store k x h = some ⟨h.bytes ++ toBytes k x, h.left - k⟩ :=
  if_neg (by omega)

theorem mkheader_eq (algo : UInt8) {hdrsize : ℕ} (h : 12 ≤ hdrsize) (houter : outer < 2 ^ 24)
    (hinner : inner < 2 ^ 24) :
    (mkheader hdrsize outer inner algo).map Header.bytes = some (headerBytes outer inner algo) := by
  have hver : fwcfVer = (1 : UInt8).toNat := rfl
  unfold mkheader storeb stored
  rw [store_of_le (by simp only; omega), Option.bind_some, store_of_le (by simp only; omega),
    Option.bind_some, store_of_le (by simp only; omega), Option.bind_some,
    store_of_le (by simp only; omega), Option.bind_some, store_of_le (by simp only; omega),
    Option.bind_some, store_of_le (by simp only; omega), hver, toBytes_four houter,
    toBytes_four hinner]
  simp only [Option.map_some, headerBytes, List.nil_append, List.append_assoc]
  rfl

theorem loadt_append (h : outer < 2 ^ 24) (rest : Bytes) :
    loadt (toBytes 3 outer ++ rest) = outer := by
  have htake := @List.take_left _ (toBytes 3 outer) rest
  rw [length_toBytes] at htake
  rw [loadt, load, htake, ofBytes_toBytes_of_lt h]

/-! ### The checksum -/

theorem adlerCalc_lt (buf : Bytes) (s : Sums) (h : s.1.toNat < 2 ^ 16 ∧ s.2.toNat < 2 ^ 16) :
    (adlerCalc buf s).1.toNat < 2 ^ 16 ∧ (adlerCalc buf s).2.toNat < 2 ^ 16 := by
  have hmod : ∀ x : UInt32, (x % adlerBase).toNat < 2 ^ 16 := by
    intro x
    have hlt := Nat.mod_lt x.toNat (by decide : 0 < adlerBase.toNat)
    rw [UInt32.toNat_mod]
    exact lt_trans hlt (by decide)
  induction buf, s using adlerCalc.induct with
  | case1 s => rwa [adlerCalc, if_pos rfl]
  | case2 buf s hne t ih =>
    rw [adlerCalc, if_neg hne]
    exact ih ⟨hmod _, hmod _⟩

theorem loadw_append (h : n < 2 ^ 16) (rest : Bytes) : loadw (toBytes 2 n ++ rest) = n := by
  have htake := @List.take_left _ (toBytes 2 n) rest
  rw [length_toBytes] at htake
  rw [loadw, load, htake, ofBytes_toBytes_of_lt h]

def trailerBytes (sums : Sums) : Bytes := toBytes 2 sums.1.toNat ++ toBytes 2 sums.2.toNat

theorem length_trailerBytes (sums : Sums) : (trailerBytes sums).length = 4 := by
  simp [trailerBytes]

theorem mktrailer_eq (data : Bytes) (len : ℕ) :
    (mktrailer data len).map Header.bytes = some (trailerBytes (adlerSums data len)) := by
  unfold mktrailer storew
  rw [store_of_le (by simp only; omega), Option.bind_some, store_of_le (by simp only; omega)]
  rfl

/-- The checksum in a trailer is the one that was stored. -/
theorem loadw_trailer (data : Bytes) (len : ℕ) (rest : Bytes) :
    loadw (trailerBytes (adlerSums data len) ++ rest) = (adlerSums data len).1.toNat ∧
      loadw ((trailerBytes (adlerSums data len) ++ rest).drop 2) = (adlerSums data len).2.toNat := by
  obtain ⟨h1, h2⟩ := adlerCalc_lt (data.take len) (1, 0) (by decide)
  have hdrop := @List.drop_left _ (toBytes 2 (adlerSums data len).1.toNat)
    (toBytes 2 (adlerSums data len).2.toNat ++ rest)
  rw [length_toBytes] at hdrop
  rw [trailerBytes, List.append_assoc, hdrop]
  exact ⟨loadw_append h1 _, loadw_append h2 _⟩

/-! ### The padding -/

/-- The padding are up to three zero bytes. -/
theorem padded_eq (data : Bytes) :
    ∃ m ≤ 3, padded data = data ++ List.replicate m 0 ∧
      data.length + m = (data.length + 3) / 4 * 4 := by
  have hstep : ∀ n, ∀ data : Bytes, (4 - data.length % 4) % 4 = n →
      padded data = data ++ List.replicate n 0 := by
    intro n
    induction n with
    | zero =>
      intro data hn
      rw [padded, if_pos (by omega), List.replicate_zero, List.append_nil]
    | succ n ih =>
      intro data hn
      have hlen : (data ++ [(0 : UInt8)]).length = data.length + 1 := by
        rw [List.length_append, List.length_singleton]
      rw [padded, if_neg (by omega), ih (data ++ [0]) (by omega), List.append_assoc,
        List.singleton_append, List.replicate_succ]
  exact ⟨(4 - data.length % 4) % 4, by omega, hstep _ data rfl, by omega⟩

/-! ### The round trip -/

/-- What `fwcf_pack` accepts, and the image that it writes. -/
theorem fwcfPack_eq {compressors : UInt8 → Option Compressor}
    {rndata : ∀ n, List.Vector UInt8 n} (hpack : fwcfPack compressors rndata odata algo = .ok image) :
    ∃ c cdata m, compressorGet compressors algo = .ok c ∧ c.compress odata = some cdata ∧ m ≤ 3 ∧
      odata.length < 2 ^ 24 ∧ cdata.length + m + 16 < 2 ^ 24 ∧
      image =
        let data := headerBytes (cdata.length + m + 16) odata.length algo ++
          (cdata ++ List.replicate m 0)
        data ++ (trailerBytes (adlerSums data data.length) ++
          (rndata ((cdata.length + m + 16 + (flashBlock - 1)) / flashBlock * flashBlock -
            (cdata.length + m + 16))).toList) := by
  unfold fwcfPack at hpack
  split_ifs at hpack with hinner
  cases hget : compressorGet compressors algo with
  | error e => simp [hget] at hpack
  | ok c =>
    cases hcompress : c.compress odata with
    | none => simp [hget, hcompress] at hpack
    | some cdata =>
      simp only [hget, hcompress] at hpack
      split_ifs at hpack with houter
      obtain ⟨m, hm, hpadded, hlen⟩ :=
        padded_eq (headerBytes ((cdata.length + 19) / 4 * 4) odata.length algo ++ cdata)
      rw [List.length_append, length_headerBytes] at hlen
      have hk : (cdata.length + 19) / 4 * 4 = cdata.length + m + 16 := by omega
      have hpart : cdata.length + m + 16 < 2 ^ 24 := by
        rw [hk, flashPart] at houter
        omega
      have hsize : 12 ≤ (cdata.length + m + 16 + (flashBlock - 1)) / flashBlock * flashBlock := by
        unfold flashBlock
        omega
      have hheader := mkheader_eq algo hsize hpart (by omega : odata.length < 2 ^ 24)
      refine ⟨c, cdata, m, rfl, hcompress, hm, by omega, hpart, ?_⟩
      rw [hk, List.append_assoc] at hpadded
      rw [hk, hheader, mktrailer_eq, Option.getD_some, Option.getD_some, hpadded,
        Except.ok.injEq] at hpack
      have hlength : ∀ sums, (headerBytes (cdata.length + m + 16) odata.length algo ++
          (cdata ++ List.replicate m 0) ++ trailerBytes sums).length = cdata.length + m + 16 := by
        intro sums
        simp only [List.length_append, length_headerBytes, length_trailerBytes,
          List.length_replicate]
        omega
      rw [hlength] at hpack
      rw [← hpack, List.append_assoc _ (trailerBytes _)]

/-- Up to three zero bytes behind the compressed data do not matter. -/
def Inverts (c : Compressor) : Prop :=
  ∀ odata cdata, c.compress odata = some cdata → ∀ m ≤ 3,
    c.decompress odata.length (cdata ++ List.replicate m 0) = some odata

/-- The header, the padded data, the checksum and what comes after are found again. -/
theorem fwcfUnpack_image {compressors : UInt8 → Option Compressor} {c : Compressor}
    {body rest udata : Bytes} (hget : compressorGet compressors algo = .ok c)
    (hdecompress : c.decompress inner body = some udata) (hinner : inner < 2 ^ 24)
    (hudata : udata.length = inner) (houter : body.length + 16 < 2 ^ 24)
    (hdata : data = headerBytes (body.length + 16) inner algo ++ body)
    (hrest : body.length + 16 + rest.length =
      (body.length + 16 + (flashBlock - 1)) / flashBlock * flashBlock) :
    fwcfUnpack compressors { bytes := data ++ (trailerBytes (adlerSums data data.length) ++ rest) } =
      .ok ⟨udata, inner, rest⟩ := by
  have hlen : data.length = 12 + body.length := by
    rw [hdata, List.length_append, length_headerBytes]
  have htail : (trailerBytes (adlerSums data data.length) ++ rest).length = 4 + rest.length := by
    rw [List.length_append, length_trailerBytes]
  obtain ⟨hw1, hw2⟩ := loadw_trailer data data.length rest
  revert htail hw1 hw2
  generalize htrailer : trailerBytes (adlerSums data data.length) ++ rest = tail
  intro htail hw1 hw2
  have hread1 : (data ++ tail).take 12 = headerBytes (body.length + 16) inner algo := by
    have h := @List.take_left _ (headerBytes (body.length + 16) inner algo) (body ++ tail)
    rwa [length_headerBytes, ← List.append_assoc, ← hdata] at h
  have hread2 : (data ++ tail).drop 12 = body ++ tail := by
    have h := @List.drop_left _ (headerBytes (body.length + 16) inner algo) (body ++ tail)
    rwa [length_headerBytes, ← List.append_assoc, ← hdata] at h
  have hfull : (body ++ tail).take
      ((body.length + 16 + (flashBlock - 1)) / flashBlock * flashBlock - 12) = body ++ tail := by
    rw [List.take_of_length_le]
    rw [List.length_append]
    omega
  have hcdata : headerBytes (body.length + 16) inner algo ++ (body ++ tail) = data ++ tail := by
    rw [hdata, List.append_assoc]
  have hlen' : body.length + 16 - 4 = data.length := by omega
  have hsums : adlerSums (data ++ tail) data.length = adlerSums data data.length := by
    rw [adlerSums, adlerSums, List.take_left, List.take_length]
  have hdrop : (data ++ tail).drop (body.length + 16 - 2) = tail.drop 2 := by
    rw [show body.length + 16 - 2 = data.length + 2 by omega, ← List.drop_drop, List.drop_left]
  have hbody : (body ++ tail).take (body.length + 16 - 16) = body := by
    rw [Nat.add_sub_cancel, List.take_left]
  have hrndata : (data ++ tail).drop (body.length + 16) = rest := by
    have h := @List.drop_left _ (trailerBytes (adlerSums data data.length)) rest
    rw [length_trailerBytes] at h
    rw [show body.length + 16 = data.length + 4 by omega, ← List.drop_drop, List.drop_left,
      ← htrailer, h]
  unfold fwcfUnpack
  simp only [Fd.read_unlimited, hread1, hread2]
  have hmagic : (headerBytes (body.length + 16) inner algo).take 4 = [70, 87, 67, 70] := rfl
  have hver : ((headerBytes (body.length + 16) inner algo).getD 7 0).toNat = fwcfVer := rfl
  have hcode : (headerBytes (body.length + 16) inner algo).getD 11 0 = algo := rfl
  have houter' : loadt ((headerBytes (body.length + 16) inner algo).drop 4) = body.length + 16 :=
    loadt_append houter (1 :: (toBytes 3 inner ++ [algo]))
  have hinner' : loadt ((headerBytes (body.length + 16) inner algo).drop 8) = inner :=
    loadt_append hinner [algo]
  rw [length_headerBytes, if_neg (not_not.mpr rfl), hmagic, if_neg (not_not.mpr rfl), hver,
    if_neg (lt_irrefl _), houter', hinner', hcode, hfull]
  rw [if_neg (by unfold flashBlock; omega), if_neg (by rw [List.length_append]; omega),
    if_neg (by omega), hcdata, hlen', hsums, List.drop_left, hdrop, hw1, hw2, if_neg (by simp),
    hget]
  simp only
  rw [if_neg (by omega), hread2, hbody, hdecompress]
  simp only
  rw [if_neg (not_not.mpr hudata), hrndata]

/-- A compressor that is got has been loaded. -/
theorem compressorGet_ok {compressors : UInt8 → Option Compressor} {c : Compressor}
    (h : compressorGet compressors algo = .ok c) : compressors algo = some c := by
  unfold compressorGet at h
  split at h
  · cases h
  · split_ifs at h
    cases h
    assumption

/-- `fwcf_unpack` gives back what `fwcf_pack` was given, and the random padding. -/
theorem fwcfUnpack_fwcfPack {compressors : UInt8 → Option Compressor}
    {rndata : ∀ n, List.Vector UInt8 n}
    (hinverts : ∀ c, compressors algo = some c → Inverts c)
    (hpack : fwcfPack compressors rndata odata algo = .ok image) :
    ∃ n, fwcfUnpack compressors { bytes := image } =
      .ok ⟨odata, odata.length, (rndata n).toList⟩ := by
  obtain ⟨c, cdata, m, hget, hcompress, hm, hinner, houter, rfl⟩ := fwcfPack_eq hpack
  have hloaded := compressorGet_ok hget
  have hbody : cdata.length + m = (cdata ++ List.replicate m (0 : UInt8)).length := by
    rw [List.length_append, List.length_replicate]
  have hle : cdata.length + m + 16 ≤
      (cdata.length + m + 16 + (flashBlock - 1)) / flashBlock * flashBlock := by
    unfold flashBlock
    omega
  refine ⟨_, fwcfUnpack_image hget (hinverts c hloaded _ _ hcompress m hm) hinner rfl (by omega)
    (by rw [hbody]) ?_⟩
  rw [← hbody, List.Vector.toList_length]
  omega

/-! ### The plug-in `null` -/

theorem inverts_cNull : Inverts cNull := by
  intro odata cdata h m hm
  cases h
  have hmin : min (odata ++ List.replicate m (0 : UInt8)).length odata.length = odata.length := by
    rw [List.length_append]
    omega
  show some ((odata ++ List.replicate m 0).take (min _ odata.length)) = some odata
  rw [hmin, List.take_left]

namespace Samples

def nullOnly (algo : UInt8) : Option Compressor := if algo = 0 then some cNull else none

/-- The empty filesystem of `mkfwcf -e`. -/
theorem fwcfUnpack_fwcfPack_null :
    ∃ image n, fwcfPack nullOnly (fun n => List.Vector.replicate n 7) [0] 0 = .ok image ∧
      fwcfUnpack nullOnly { bytes := image } =
        .ok ⟨[0], 1, (List.Vector.replicate n (7 : UInt8)).toList⟩ := by
  obtain ⟨image, himage⟩ : ∃ image,
      fwcfPack nullOnly (fun n => List.Vector.replicate n 7) [0] 0 = .ok image := ⟨_, rfl⟩
  have hinverts : ∀ c, nullOnly 0 = some c → Inverts c := by
    rintro c ⟨⟩
    exact inverts_cNull
  obtain ⟨n, hn⟩ := fwcfUnpack_fwcfPack hinverts himage
  exact ⟨image, n, himage, hn⟩

end Samples
end OpenADK.Cfgfs
