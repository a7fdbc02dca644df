import OpenADK.Nand.Write
import Mathlib.Data.List.GetD
import Mathlib.Data.List.Infix

/-!
# When the whole image is on the device

The good pages below `mtdoffset` hold what has been taken from the input. A page write
appends to them; a failed one takes back the pages of its block.
-/

namespace OpenADK.Nand
variable {d : MtdInfo} {src : Source} {s s' : State} {p : Page} {n k : ℕ}

/-- The bytes below `n` in the erase blocks that are not bad. -/
def goodBytes (d : MtdInfo) (w : World) (n : ℕ) : Bytes :=
  ((List.range n).filter fun a => !w.bad (a / d.erasesize)).map w.flash

def paddedImage (d : MtdInfo) (image : Bytes) : Bytes :=
  image ++ List.replicate ((d.writesize - image.length % d.writesize) % d.writesize) 0xff

def Complete (d : MtdInfo) (image : Bytes) (w : World) : Prop :=
  paddedImage d image <+: goodBytes d w d.size

/-! ### Good bytes -/

theorem goodBytes_congr {w w' : World} (hflash : ∀ a < n, w.flash a = w'.flash a)
    (hbad : ∀ a < n, w.bad (a / d.erasesize) = w'.bad (a / d.erasesize)) :
    goodBytes d w n = goodBytes d w' n := by
  have hfilter : ((List.range n).filter fun a => !w.bad (a / d.erasesize)) =
      (List.range n).filter fun a => !w'.bad (a / d.erasesize) :=
    List.filter_congr fun a ha => by rw [hbad a (List.mem_range.mp ha)]
  rw [goodBytes, goodBytes, hfilter]
  exact List.map_congr_left fun a ha => hflash a (List.mem_range.mp (List.mem_filter.mp ha).1)

theorem goodBytes_add (w : World) (n k : ℕ) :
    goodBytes d w (n + k) = goodBytes d w n ++
      (((List.range k).map (n + ·)).filter fun a => !w.bad (a / d.erasesize)).map w.flash := by
  rw [goodBytes, List.range_add, List.filter_append, List.map_append]
  rfl

theorem goodBytes_prefix (w : World) (h : n ≤ k) : goodBytes d w n <+: goodBytes d w k := by
  obtain ⟨m, rfl⟩ := Nat.exists_eq_add_of_le h
  rw [goodBytes_add]
  exact List.prefix_append _ _

/-- The bytes of a good block. -/
theorem goodBytes_add_of_good (w : World)
    (h : ∀ i < k, w.bad ((n + i) / d.erasesize) = false) :
    goodBytes d w (n + k) = goodBytes d w n ++ (List.range k).map fun i => w.flash (n + i) := by
  have hall : (((List.range k).map (n + ·)).filter fun a => !w.bad (a / d.erasesize)) =
      (List.range k).map (n + ·) := by
    rw [List.filter_eq_self]
    intro a ha
    obtain ⟨i, hi, rfl⟩ := List.mem_map.mp ha
    rw [h i (List.mem_range.mp hi)]
    rfl
  rw [goodBytes_add, hall, List.map_map]
  rfl

/-- A bad block has no good bytes. -/
theorem goodBytes_add_of_bad (w : World) (h : ∀ i < k, w.bad ((n + i) / d.erasesize) = true) :
    goodBytes d w (n + k) = goodBytes d w n := by
  have hnone : (((List.range k).map (n + ·)).filter fun a => !w.bad (a / d.erasesize)) = [] := by
    rw [List.filter_eq_nil_iff]
    intro a ha
    obtain ⟨i, hi, rfl⟩ := List.mem_map.mp ha
    rw [h i (List.mem_range.mp hi)]
    exact Bool.false_ne_true
  rw [goodBytes_add, hnone, List.map_nil, List.append_nil]

theorem put_of_lt (flash : ℕ → UInt8) (off : ℕ) (bytes : Bytes) {a : ℕ} (h : a < off) :
    put flash off bytes a = flash a :=
  if_neg (by omega)

theorem map_put (flash : ℕ → UInt8) (off : ℕ) (bytes : Bytes) :
    ((List.range bytes.length).map fun i => put flash off bytes (off + i)) = bytes := by
  apply List.ext_getElem
  · rw [List.length_map, List.length_range]
  · intro i hi hi'
    rw [List.getElem_map, List.getElem_range, put, if_pos ⟨by omega, by omega⟩,
      Nat.add_sub_cancel_left, List.getD_eq_getElem _ _ hi']

/-! ### Blocks -/

theorem div_of_block {b : ℕ} (hb : d.erasesize ∣ b) (h : n < d.erasesize) :
    (b + n) / d.erasesize = b / d.erasesize := by
  obtain ⟨c, rfl⟩ := hb
  rw [Nat.mul_add_div d.erasesize_pos, Nat.div_eq_of_lt h, Nat.mul_div_cancel_left _ d.erasesize_pos,
    Nat.add_zero]

theorem dvd_blockOf (d : MtdInfo) (n : ℕ) : d.erasesize ∣ blockOf d n := Nat.dvd_mul_left _ _

theorem blockOf_div (d : MtdInfo) (n : ℕ) : blockOf d n / d.erasesize = n / d.erasesize :=
  Nat.mul_div_cancel _ d.erasesize_pos

/-- A page does not cross the end of its block. -/
theorem page_le (hdvd : d.writesize ∣ n) : n + d.writesize ≤ blockOf d n + d.erasesize := by
  obtain ⟨q, hq⟩ := hdvd
  obtain ⟨r, hr⟩ := d.writesize_dvd
  have hlt := lt_blockOf_add d n
  have hblock : blockOf d n = d.writesize * (r * (n / d.erasesize)) := by
    rw [blockOf, Nat.mul_comm, ← Nat.mul_assoc, ← hr]
  rw [hblock, hr, hq, ← Nat.mul_add] at hlt ⊢
  rw [← Nat.mul_succ]
  exact Nat.mul_le_mul_left _ (Nat.lt_of_mul_lt_mul_left hlt)

/-! ### Failures -/

/-- A failed write of a page that was read in full can be made good. -/
def Failure.Tolerated : Failure → Prop
  | .write readlen tinycnt => tinycnt = readlen
  | .read | .getBadBlock | .seek | .erase | .setBadBlock | .negativeLength => False

def State.Tolerated (s : State) : Prop := ∀ f ∈ s.failures, f.Tolerated

theorem State.Tolerated.of_fail {f : Failure} (h : (s.fail f).Tolerated) :
    s.Tolerated ∧ f.Tolerated :=
  ⟨fun g hg => h g (List.mem_append_left _ hg),
    h f (List.mem_append_right _ (List.mem_singleton.mpr rfl))⟩

/-! ### The invariant -/

/-- What the good blocks below `mtdoffset` hold between two pages. -/
structure Inv (d : MtdInfo) (src : Source) (s : State) : Prop where
  dvd : d.writesize ∣ s.mtdoffset
  le : s.mtdoffset ≤ d.size
  good : s.blockstart = some (blockOf d s.mtdoffset) → s.bad (s.mtdoffset / d.erasesize) = false
  aligned : s.blockstart ≠ some (blockOf d s.mtdoffset) → d.erasesize ∣ s.mtdoffset
  finished : s.imglen = 0 → goodBytes d s.toWorld s.mtdoffset = paddedImage d src.image
  taken : s.imglen ≠ 0 → goodBytes d s.toWorld s.mtdoffset = src.image.take s.pos
  pos_dvd : s.imglen ≠ 0 → d.writesize ∣ s.pos
  pos_le : s.imglen ≠ 0 → s.pos ≤ src.image.length
  file : src.stdin = false → s.imglen ≠ 0 → s.imglen = src.image.length - s.pos
  stdin : 0 ≤ s.imglen
  buffer : d.writesize ≤ s.writebuf.length

/-- How the loop can be left: everything has been written, or there is no room left. -/
def Ended (d : MtdInfo) (src : Source) (s : State) : Prop :=
  (∃ n ≤ d.size, goodBytes d s.toWorld n = paddedImage d src.image) ∨
    ∃ k ≤ src.image.length, d.writesize ∣ k ∧ goodBytes d s.toWorld d.size = src.image.take k

theorem paddedImage_of_dvd {image : Bytes} (h : d.writesize ∣ image.length) :
    paddedImage d image = image := by
  rw [paddedImage, Nat.mod_eq_zero_of_dvd h, Nat.sub_zero, Nat.mod_self, List.replicate_zero,
    List.append_nil]

/-- The image is complete if the good blocks have room for it. -/
theorem Ended.complete (h : Ended d src s)
    (hroom : src.image.length ≤ (goodBytes d s.toWorld d.size).length) :
    Complete d src.image s.toWorld := by
  rcases h with ⟨n, hn, hgood⟩ | ⟨k, hk, hdvd, hgood⟩
  · rw [Complete, ← hgood]
    exact goodBytes_prefix _ hn
  · rw [hgood, List.length_take] at hroom
    have hlen : k = src.image.length := by omega
    rw [Complete, hgood, hlen, List.take_length, paddedImage_of_dvd (hlen ▸ hdvd)]

/-- A good block has been found. -/
structure Found (d : MtdInfo) (src : Source) (s : State) : Prop extends Inv d src s where
  start : s.blockstart = some (blockOf d s.mtdoffset)
  lt : s.mtdoffset < d.size

theorem blockOf_of_dvd (h : d.erasesize ∣ n) : blockOf d n = n := Nat.div_mul_cancel h

theorem add_erasesize_le (h : d.erasesize ∣ n) (hlt : n < d.size) : n + d.erasesize ≤ d.size := by
  obtain ⟨q, rfl⟩ := h
  obtain ⟨r, hr⟩ := d.erasesize_dvd
  rw [hr] at hlt ⊢
  rw [← Nat.mul_succ]
  exact Nat.mul_le_mul_left _ (Nat.lt_of_mul_lt_mul_left hlt)

theorem skipBad_correct (h : Inv d src s) (hlen : s.imglen ≠ 0)
    (hlt : s.blockstart = some (blockOf d s.mtdoffset) → s.mtdoffset < d.size) :
    match skipBad d s with
    | .ok s' => Found d src s' ∧ s'.imglen = s.imglen ∧ s'.failures = s.failures
    | .error s' => s'.Tolerated → Ended d src s' := by
  induction s using skipBad.induct d with
  | case1 s hb =>
    rw [skipBad, if_pos hb]
    exact ⟨⟨h, hb, hlt hb⟩, rfl, rfl⟩
  | case2 s hb hsize =>
    rw [skipBad, if_neg hb, if_pos hsize]
    intro _
    have hfull : s.mtdoffset = d.size := le_antisymm h.le (hsize.trans (blockOf_le d _))
    refine .inr ⟨s.pos, h.pos_le hlen, h.pos_dvd hlen, ?_⟩
    rw [← hfull]
    exact h.taken hlen
  | case3 s hb hsize hfail =>
    rw [skipBad, if_neg hb, if_neg hsize, if_pos hfail]
    exact fun htol => absurd htol.of_fail.2 id
  | case4 s hb hsize hfail hbad ih =>
    rw [skipBad, if_neg hb, if_neg hsize, if_neg hfail, if_pos hbad]
    have hdvd := h.aligned hb
    have hblock := blockOf_of_dvd hdvd
    rw [hblock] at hbad hsize ih ⊢
    have hne : some s.mtdoffset ≠ some (blockOf d (s.mtdoffset + d.erasesize)) := by
      rw [blockOf_of_dvd (Nat.dvd_add hdvd (Nat.dvd_refl _)), ne_eq, Option.some.injEq]
      have := d.erasesize_pos
      omega
    have hstart : (enter d s).blockstart = some s.mtdoffset := congrArg some hblock
    have hskipped : goodBytes d s.toWorld (s.mtdoffset + d.erasesize) =
        goodBytes d s.toWorld s.mtdoffset :=
      goodBytes_add_of_bad _ fun i hi => by rw [div_of_block hdvd hi]; exact hbad
    refine ih ?_ hlen fun hstart' => absurd (hstart.symm.trans hstart') hne
    exact {
      dvd := Nat.dvd_add h.dvd d.writesize_dvd
      le := add_erasesize_le hdvd (not_le.mp hsize)
      good := fun hstart' => absurd (hstart.symm.trans hstart') hne
      aligned := fun _ => Nat.dvd_add hdvd (Nat.dvd_refl _)
      finished := fun hzero => absurd hzero hlen
      taken := fun hne' => hskipped.trans (h.taken hne')
      pos_dvd := h.pos_dvd
      pos_le := h.pos_le
      file := h.file
      stdin := h.stdin
      buffer := h.buffer }
  | case5 s hb hsize hfail hbad =>
    rw [skipBad, if_neg hb, if_neg hsize, if_neg hfail, if_neg hbad]
    have hblock := blockOf_of_dvd (h.aligned hb)
    rw [blockOf_div, Bool.not_eq_true] at hbad
    refine ⟨⟨⟨h.dvd, h.le, fun _ => hbad, fun hne => absurd rfl hne, h.finished, h.taken, h.pos_dvd,
      h.pos_le, h.file, h.stdin, h.buffer⟩, rfl, ?_⟩, rfl, rfl⟩
    rw [hblock] at hsize
    exact not_le.mp hsize

/-! ### Reading -/

/-- What a loop of reads that has not failed has taken: what comes next in the image. -/
structure Took (image : Bytes) (pos need : ℕ) (got : Bytes) (m : ℕ) (out : Got) : Prop where
  le : m ≤ need
  bytes : out.bytes = got ++ (image.drop pos).take m
  new_pos : out.pos = pos + m
  pos_le : pos + m ≤ image.length
  full : out.ended = .full → m = need
  eof : out.ended = .eof → m < need ∧ pos + m = image.length

theorem readLoop_correct (image : Bytes) (reads : List (Option ℕ)) :
    ∀ pos need got, pos ≤ image.length →
      ∃ m, Took image pos need got m (readLoop image reads pos need got) := by
  induction reads with
  | nil =>
    intro pos need got hpos
    have hlen : ((image.drop pos).take need).length = min need (image.length - pos) := by
      rw [List.length_take, List.length_drop]
    refine ⟨min need (image.length - pos), min_le_left _ _, ?_, ?_, by omega, ?_, ?_⟩
    · have htake : (image.drop pos).take need = (image.drop pos).take
          (min need (image.length - pos)) := by
        rw [List.take_eq_take_iff, List.length_drop]
        omega
      exact congrArg (got ++ ·) htake
    · exact congrArg (pos + ·) hlen
    · intro h
      rw [readLoop] at h
      simp only [hlen] at h
      split_ifs at h
      omega
    · intro h
      rw [readLoop] at h
      simp only [hlen] at h
      split_ifs at h
      omega
  | cons answer reads ih =>
    intro pos need got hpos
    by_cases hneed : need = 0
    · refine ⟨0, Nat.zero_le _, ?_, ?_, hpos, fun _ => hneed.symm, fun h => ?_⟩
      all_goals simp_all [readLoop]
    cases answer with
    | none =>
      refine ⟨0, Nat.zero_le _, ?_, ?_, hpos, fun h => ?_, fun h => ?_⟩
      all_goals simp_all [readLoop]
    | some k =>
      have hlen : ((image.drop pos).take (min (k + 1) need)).length =
          min (min (k + 1) need) (image.length - pos) := by
        rw [List.length_take, List.length_drop]
      by_cases hempty : (image.drop pos).take (min (k + 1) need) = []
      · rw [hempty, List.length_nil] at hlen
        refine ⟨0, Nat.zero_le _, ?_, ?_, hpos, fun h => ?_, fun _ => ⟨by omega, by omega⟩⟩
        all_goals simp_all [readLoop]
      · obtain ⟨m, hm⟩ := ih (pos + ((image.drop pos).take (min (k + 1) need)).length)
          (need - ((image.drop pos).take (min (k + 1) need)).length)
          (got ++ (image.drop pos).take (min (k + 1) need)) (by omega)
        have hloop : readLoop image (some k :: reads) pos need got =
            readLoop image reads (pos + ((image.drop pos).take (min (k + 1) need)).length)
              (need - ((image.drop pos).take (min (k + 1) need)).length)
              (got ++ (image.drop pos).take (min (k + 1) need)) := by
          rw [readLoop, if_neg hneed]
          exact if_neg hempty
        rw [hloop]
        obtain ⟨hle, hbytes, hnew, hposle, hfull, heof⟩ := hm
        rw [hlen] at hle hnew hposle hfull heof hbytes
        refine ⟨min (min (k + 1) need) (image.length - pos) + m, by omega, ?_, ?_, by omega,
          fun h => ?_, fun h => ?_⟩
        · rw [hlen, hbytes, List.append_assoc, List.take_add, List.drop_drop]
          congr 2
          rw [List.take_eq_take_iff, List.length_drop]
          omega
        · rw [hlen, hnew, Nat.add_assoc]
        · rw [hlen] at h
          have := hfull h
          omega
        · rw [hlen] at h
          have := heof h
          omega

theorem eraseBuffer_drop {buf : Bytes} (h : n ≤ buf.length) (k : ℕ) :
    (eraseBuffer buf n k).drop n = List.replicate k 0xff ++ buf.drop (n + k) := by
  have hlen : (buf.take n).length = n := by
    rw [List.length_take]
    omega
  have hdrop := @List.drop_left _ (buf.take n) (List.replicate k 0xff ++ buf.drop (n + k))
  rw [hlen] at hdrop
  rw [eraseBuffer, List.append_assoc, hdrop]

theorem eraseBuffer_take (got rest : Bytes) (k : ℕ) :
    (eraseBuffer (got ++ rest) got.length k).take (got.length + k) =
      got ++ List.replicate k 0xff := by
  have hlen : (got ++ List.replicate k (0xff : UInt8)).length = got.length + k := by
    rw [List.length_append, List.length_replicate]
  rw [eraseBuffer, List.take_left, ← hlen, List.take_left]

theorem le_length_eraseBuffer (buf : Bytes) (n k : ℕ) : buf.length ≤ (eraseBuffer buf n k).length := by
  simp only [eraseBuffer, List.length_append, List.length_take, List.length_replicate,
    List.length_drop]
  omega

/-- A page that has been read into the buffer, and what the rest of the state is. -/
structure Loaded (d : MtdInfo) (src : Source) (s : State) (p : Page) : Prop where
  flash : p.state.flash = s.flash
  bad : p.state.bad = s.bad
  mtdoffset : p.state.mtdoffset = s.mtdoffset
  blockstart : p.state.blockstart = s.blockstart
  tinycnt_pos : 0 < p.tinycnt
  tinycnt_le : p.tinycnt ≤ d.writesize
  page : p.state.writebuf.take d.writesize = (src.image.drop s.pos).take p.tinycnt ++
    List.replicate (d.writesize - p.tinycnt) 0xff
  buffer : d.writesize ≤ p.state.writebuf.length
  pos : p.state.pos = s.pos + p.tinycnt
  pos_le : s.pos + p.tinycnt ≤ src.image.length
  last : p.tinycnt < d.writesize → s.pos + p.tinycnt = src.image.length
  file : src.stdin = false → p.tinycnt = p.readlen ∧ p.state.imglen = s.imglen
  readlen : src.stdin = true → p.readlen = d.writesize
  full : src.stdin = true → p.tinycnt = d.writesize → p.state.imglen = s.imglen
  short : src.stdin = true → p.tinycnt < d.writesize → p.state.imglen = 0
  min : src.stdin = false → (p.readlen : ℤ) = min s.imglen d.writesize

theorem readStdin_correct (h : Found d src s) (hlen : s.imglen ≠ 0) (hstdin : src.stdin = true) :
    match readStdin d src s with
    | .ok p => Loaded d src s p
    | .error s' => s'.Tolerated → Ended d src s' := by
  obtain ⟨m, hm⟩ := readLoop_correct src.image s.reads s.pos d.writesize [] (h.pos_le hlen)
  have hbytes : (readLoop src.image s.reads s.pos d.writesize []).bytes =
    (src.image.drop s.pos).take m := hm.bytes
  have hlength : ((src.image.drop s.pos).take m).length = m := by
    rw [List.length_take, List.length_drop]
    have := hm.pos_le
    omega
  have hnot : src.stdin ≠ false := by rw [hstdin]; exact Bool.noConfusion
  have hbuf : d.writesize ≤ ((src.image.drop s.pos).take m ++ s.writebuf.drop m).length := by
    have := h.buffer
    rw [List.length_append, hlength, List.length_drop]
    omega
  unfold readStdin
  simp only [hbytes, hlength]
  cases hended : (readLoop src.image s.reads s.pos d.writesize []).ended with
  | error => exact fun htol => absurd htol.of_fail.2 id
  | full =>
    have hfull := hm.full hended
    have htake := @List.take_left _ ((src.image.drop s.pos).take m) (s.writebuf.drop m)
    rw [hlength] at htake
    exact {
      flash := rfl
      bad := rfl
      mtdoffset := rfl
      blockstart := rfl
      tinycnt_pos := hfull ▸ writesize_pos d
      tinycnt_le := hm.le
      page := by
        rw [← hfull, Nat.sub_self, List.replicate_zero, List.append_nil]
        exact htake
      buffer := hbuf
      pos := hm.new_pos
      pos_le := hm.pos_le
      last := fun hlt => absurd hlt (not_lt.mpr hfull.ge)
      file := fun hfile => absurd hfile hnot
      readlen := fun _ => rfl
      full := fun _ _ => rfl
      short := fun _ hlt => absurd hlt (not_lt.mpr hfull.ge)
      min := fun hfile => absurd hfile hnot }
  | eof =>
    obtain ⟨hlt, hend⟩ := hm.eof hended
    simp only
    split_ifs with hzero
    · intro _
      have hpos : s.pos = src.image.length := by omega
      have hdvd := h.pos_dvd hlen
      refine .inl ⟨s.mtdoffset, h.le, ?_⟩
      rw [paddedImage_of_dvd (hpos ▸ hdvd)]
      exact (h.taken hlen).trans (by rw [hpos, List.take_length])
    · have hpage := eraseBuffer_take ((src.image.drop s.pos).take m) (s.writebuf.drop m)
        (d.writesize - m)
      rw [hlength, Nat.add_sub_cancel' hm.le] at hpage
      exact {
        flash := rfl
        bad := rfl
        mtdoffset := rfl
        blockstart := rfl
        tinycnt_pos := Nat.pos_of_ne_zero hzero
        tinycnt_le := hm.le
        page := hpage
        buffer := hbuf.trans (le_length_eraseBuffer _ _ _)
        pos := hm.new_pos
        pos_le := hm.pos_le
        last := fun _ => hend
        file := fun hfile => absurd hfile hnot
        readlen := fun _ => rfl
        full := fun _ heq => absurd heq hlt.ne
        short := fun _ _ => rfl
        min := fun hfile => absurd hfile hnot }

theorem readFile_correct (h : Found d src s) (hlen : s.imglen ≠ 0) (hfile : src.stdin = false) :
    match readFile d src s with
    | .ok p => Loaded d src s p
    | .error s' => s'.Tolerated → Ended d src s' := by
  have himglen := h.file hfile hlen
  have hpos := h.pos_le hlen
  have hbuf := h.buffer
  have hws := writesize_pos d
  have hnot : src.stdin ≠ true := by rw [hfile]; exact Bool.noConfusion
  have hreadlen : (if s.imglen < d.writesize then s.imglen else (d.writesize : ℤ)) =
      min s.imglen d.writesize := by
    split_ifs <;> omega
  obtain ⟨n, hn⟩ : ∃ n : ℕ, min s.imglen (d.writesize : ℤ) = n :=
    ⟨(min s.imglen (d.writesize : ℤ)).toNat, by omega⟩
  obtain ⟨m, hm⟩ := readLoop_correct src.image s.reads s.pos n [] hpos
  have hbytes : (readLoop src.image s.reads s.pos n []).bytes = (src.image.drop s.pos).take m :=
    hm.bytes
  have hlength : ((src.image.drop s.pos).take m).length = m := by
    rw [List.length_take, List.length_drop]
    have := hm.pos_le
    omega
  have hall : (readLoop src.image s.reads s.pos n []).ended ≠ .error → m = n := by
    intro hended
    cases hcase : (readLoop src.image s.reads s.pos n []).ended with
    | error => exact absurd hcase hended
    | full => exact hm.full hcase
    | eof =>
      have := hm.eof hcase
      omega
  unfold readFile
  simp only [hreadlen, hn]
  rw [if_neg (by omega)]
  simp only [Int.toNat_natCast, hbytes, hlength]
  have hloaded : (readLoop src.image s.reads s.pos n []).ended ≠ .error → Loaded d src s
      ⟨{ s with
        pos := (readLoop src.image s.reads s.pos n []).pos
        reads := (readLoop src.image s.reads s.pos n []).reads
        writebuf := (src.image.drop s.pos).take m ++
          (if s.imglen < d.writesize then eraseBuffer s.writebuf n (d.writesize - n)
            else s.writebuf).drop m }, n, m⟩ := by
    intro hended
    obtain rfl := hall hended
    have htake := @List.take_left _ ((src.image.drop s.pos).take m) (s.writebuf.drop m)
    rw [hlength] at htake
    exact {
      flash := rfl
      bad := rfl
      mtdoffset := rfl
      blockstart := rfl
      tinycnt_pos := by
        show 0 < m
        omega
      tinycnt_le := by
        show m ≤ d.writesize
        omega
      page := by
        show ((src.image.drop s.pos).take m ++ _).take d.writesize = _ ++ List.replicate (_ - m) _
        split_ifs with hlt
        · rw [eraseBuffer_drop (by omega), ← List.append_assoc]
          have hlen' : ((src.image.drop s.pos).take m ++
              List.replicate (d.writesize - m) (0xff : UInt8)).length = d.writesize := by
            rw [List.length_append, List.length_replicate, hlength]
            omega
          have h' := @List.take_left _ ((src.image.drop s.pos).take m ++
              List.replicate (d.writesize - m) (0xff : UInt8))
            (s.writebuf.drop (m + (d.writesize - m)))
          rwa [hlen'] at h'
        · have hm' : m = d.writesize := by omega
          rw [← hm', Nat.sub_self, List.replicate_zero, List.append_nil, htake]
      buffer := by
        show d.writesize ≤ ((src.image.drop s.pos).take m ++ _).length
        rw [List.length_append, hlength, List.length_drop]
        split_ifs
        · have := le_length_eraseBuffer s.writebuf m (d.writesize - m)
          omega
        · omega
      pos := hm.new_pos
      pos_le := hm.pos_le
      last := fun hlt => by
        have hlt' : m < d.writesize := hlt
        have hle := hm.pos_le
        show s.pos + m = src.image.length
        omega
      file := fun _ => ⟨rfl, rfl⟩
      readlen := fun hstdin => absurd hstdin hnot
      full := fun hstdin => absurd hstdin hnot
      short := fun hstdin => absurd hstdin hnot
      min := fun _ => hn.symm }
  cases hended : (readLoop src.image s.reads s.pos n []).ended with
  | error => exact fun htol => absurd htol.of_fail.2 id
  | full => exact hloaded (by rw [hended]; exact nofun)
  | eof => exact hloaded (by rw [hended]; exact nofun)

theorem readPage_correct (h : Found d src s) (hlen : s.imglen ≠ 0) :
    match readPage d src s with
    | .ok p => Loaded d src s p
    | .error s' => s'.Tolerated → Ended d src s' := by
  unfold readPage
  split_ifs with hstdin
  · exact readStdin_correct h hlen hstdin
  · exact readFile_correct h hlen (Bool.eq_false_of_not_eq_true hstdin)

/-! ### Writing -/

theorem bad_of_lt_block (hbad : s.bad (n / d.erasesize) = false)
    (hk : n + k ≤ blockOf d n + d.erasesize) :
    ∀ i < k, s.bad ((n + i) / d.erasesize) = false := by
  intro i hi
  have hle := blockOf_le d n
  have hsplit : n + i = blockOf d n + (n + i - blockOf d n) := by omega
  rw [hsplit, div_of_block (dvd_blockOf d n) (by omega), blockOf_div]
  exact hbad

/-- The block at `mtdoffset` and the next one are all that a page can end in. -/
theorem block_next (hdvd : d.writesize ∣ n) :
    blockOf d (n + d.writesize) = blockOf d n ∨
      n + d.writesize = blockOf d n + d.erasesize := by
  rcases (page_le hdvd).lt_or_eq with hlt | heq
  · refine .inl ?_
    have hle := blockOf_le d n
    have hsplit : n + d.writesize = blockOf d n + (n + d.writesize - blockOf d n) := by omega
    rw [blockOf, hsplit, div_of_block (dvd_blockOf d n) (by omega), blockOf_div, blockOf]
  · exact .inr heq

/-- The image up to a page that it ends in. -/
theorem take_append_page {image : Bytes} {pos t : ℕ} (hdvd : d.writesize ∣ pos) (ht : 0 < t)
    (hle : pos + t ≤ image.length) (htw : t ≤ d.writesize)
    (hlast : t < d.writesize → pos + t = image.length) :
    image.take pos ++ ((image.drop pos).take t ++ List.replicate (d.writesize - t) 0xff) =
      if t = d.writesize then image.take (pos + d.writesize) else paddedImage d image := by
  rw [← List.append_assoc, ← List.take_add]
  split_ifs with hfull
  · rw [hfull, Nat.sub_self, List.replicate_zero, List.append_nil]
  · have hlt : t < d.writesize := by omega
    have hmod : image.length % d.writesize = t := by
      obtain ⟨q, rfl⟩ := hdvd
      rw [← hlast hlt, Nat.mul_add_mod, Nat.mod_eq_of_lt hlt]
    rw [paddedImage, hmod, hlast hlt, List.take_length, Nat.mod_eq_of_lt (by omega)]

/-- A page write that succeeds. -/
theorem inv_of_write (h : Found d src s) (hlen : s.imglen ≠ 0) (hp : Loaded d src s p)
    (writes : List (Option Bytes)) :
    Inv d src { p.state with
      writes := writes
      flash := put p.state.flash p.state.mtdoffset (p.state.writebuf.take d.writesize)
      imglen := if src.stdin then p.state.imglen else p.state.imglen - p.readlen
      mtdoffset := p.state.mtdoffset + d.writesize } := by
  have hbuf : (p.state.writebuf.take d.writesize).length = d.writesize := by
    rw [List.length_take]
    exact min_eq_left hp.buffer
  have hstart : blockOf d p.state.mtdoffset = blockOf d s.mtdoffset := by rw [hp.mtdoffset]
  have hdvd : d.writesize ∣ p.state.mtdoffset := hp.mtdoffset ▸ h.dvd
  have hisgood : p.state.bad (p.state.mtdoffset / d.erasesize) = false := by
    rw [hp.bad, hp.mtdoffset]
    exact h.good h.start
  have hgood : goodBytes d { p.state.toWorld with
      writes := writes
      flash := put p.state.flash p.state.mtdoffset (p.state.writebuf.take d.writesize) }
      (p.state.mtdoffset + d.writesize) =
        if p.tinycnt = d.writesize then src.image.take (s.pos + d.writesize)
        else paddedImage d src.image := by
    have hbelow : goodBytes d { p.state.toWorld with
        writes := writes
        flash := put p.state.flash p.state.mtdoffset (p.state.writebuf.take d.writesize) }
        p.state.mtdoffset = src.image.take s.pos := by
      rw [← h.taken hlen, ← hp.mtdoffset]
      refine goodBytes_congr (fun a ha => ?_) fun a _ => by rw [← hp.bad]
      rw [← hp.flash]
      exact put_of_lt _ _ _ ha
    have hput := map_put p.state.flash p.state.mtdoffset (p.state.writebuf.take d.writesize)
    rw [hbuf] at hput
    refine (goodBytes_add_of_good _ ?_).trans ?_
    · exact bad_of_lt_block hisgood (page_le hdvd)
    rw [hbelow, hput, hp.page]
    exact take_append_page (h.pos_dvd hlen) hp.tinycnt_pos hp.pos_le hp.tinycnt_le hp.last
  -- what is left is 0 exactly when this was the last page, unless standard input ends with it
  have hlast : (if src.stdin then p.state.imglen else p.state.imglen - p.readlen) = 0 →
      p.tinycnt = d.writesize → s.pos + d.writesize = src.image.length := by
    intro hzero hfull
    cases hstdin : src.stdin with
    | true =>
      rw [hstdin, if_pos rfl, hp.full hstdin hfull] at hzero
      exact absurd hzero hlen
    | false =>
      obtain ⟨htiny, himglen⟩ := hp.file hstdin
      have hleft := h.file hstdin hlen
      rw [hstdin, if_neg Bool.false_ne_true, himglen] at hzero
      omega
  have hmore : (if src.stdin then p.state.imglen else p.state.imglen - p.readlen) ≠ 0 →
      p.tinycnt = d.writesize := by
    intro hne
    by_contra hshort
    have hlt := lt_of_le_of_ne hp.tinycnt_le hshort
    cases hstdin : src.stdin with
    | true =>
      rw [hstdin, if_pos rfl, hp.short hstdin hlt] at hne
      exact hne rfl
    | false =>
      obtain ⟨htiny, himglen⟩ := hp.file hstdin
      have hmin := hp.min hstdin
      rw [hstdin, if_neg Bool.false_ne_true, himglen] at hne
      omega
  have hnext := block_next hdvd
  have hpage := page_le hdvd
  have hblock := add_erasesize_le (dvd_blockOf d p.state.mtdoffset)
    ((blockOf_le d _).trans_lt (hp.mtdoffset ▸ h.lt))
  have hpstart : p.state.blockstart = some (blockOf d p.state.mtdoffset) := by
    rw [hp.blockstart, hstart]
    exact h.start
  refine ⟨Nat.dvd_add hdvd (Nat.dvd_refl _), hpage.trans hblock, fun hsame => ?_, fun hne => ?_,
    fun hzero => ?_, fun hne => ?_, fun hne => ?_, fun hne => ?_, fun hfile hne => ?_, ?_, ?_⟩
  · have hsame' : blockOf d p.state.mtdoffset = blockOf d (p.state.mtdoffset + d.writesize) :=
      Option.some.inj (hpstart.symm.trans hsame)
    rw [← blockOf_div, ← hsame', blockOf_div]
    exact hisgood
  · rcases hnext with hsame | hend
    · exact absurd (hpstart.trans (congrArg some hsame.symm)) hne
    · exact hend ▸ Nat.dvd_add (dvd_blockOf d _) (Nat.dvd_refl _)
  · refine hgood.trans ?_
    split_ifs with hfull
    · have hend := hlast hzero hfull
      rw [hend, List.take_length, paddedImage_of_dvd]
      exact hend ▸ Nat.dvd_add (h.pos_dvd hlen) (Nat.dvd_refl _)
    · rfl
  · have hfull := hmore hne
    refine hgood.trans ?_
    rw [if_pos hfull, hp.pos, hfull]
  · show d.writesize ∣ p.state.pos
    rw [hp.pos, hmore hne]
    exact Nat.dvd_add (h.pos_dvd hlen) (Nat.dvd_refl _)
  · show p.state.pos ≤ src.image.length
    rw [hp.pos]
    exact hp.pos_le
  · obtain ⟨htiny, himglen⟩ := hp.file hfile
    have hleft := h.file hfile hlen
    have hpos := hp.pos
    show (if src.stdin then p.state.imglen else p.state.imglen - p.readlen) = _ - (p.state.pos : ℤ)
    rw [hfile, if_neg Bool.false_ne_true]
    omega
  · show 0 ≤ (if src.stdin then p.state.imglen else p.state.imglen - p.readlen)
    have hnonneg := h.stdin
    cases hstdin : src.stdin with
    | true =>
      rw [if_pos rfl]
      rcases hp.tinycnt_le.lt_or_eq with hlt | heq
      · rw [hp.short hstdin hlt]
      · rw [hp.full hstdin heq]
        exact hnonneg
    | false =>
      obtain ⟨htiny, himglen⟩ := hp.file hstdin
      have hmin := hp.min hstdin
      rw [if_neg Bool.false_ne_true]
      omega
  · exact hp.buffer

/-- What the good blocks hold once the current block is erased and marked bad. -/
theorem goodBytes_of_marked {flash : ℕ → UInt8} {bad : ℕ → Bool} {w : World} {m : ℕ}
    (hflash : ∀ a < blockOf d m, w.flash a = flash a)
    (hbad : w.bad = Function.update bad (m / d.erasesize) true)
    (hgood : bad (m / d.erasesize) = false) {image : Bytes} {pos : ℕ} (hpos : pos ≤ image.length)
    (htaken : goodBytes d { flash := flash, bad := bad } m = image.take pos) :
    m - blockOf d m ≤ pos ∧
      goodBytes d w (blockOf d m + d.erasesize) = image.take (pos - (m - blockOf d m)) := by
  have hle := blockOf_le d m
  have hsplit : m = blockOf d m + (m - blockOf d m) := by omega
  have hpart : goodBytes d { flash := flash, bad := bad } m =
      goodBytes d { flash := flash, bad := bad } (blockOf d m) ++
        (List.range (m - blockOf d m)).map fun i => flash (blockOf d m + i) := by
    conv_lhs => rw [hsplit]
    refine goodBytes_add_of_good _ ?_
    intro i hi
    have hlt := lt_blockOf_add d m
    rw [div_of_block (dvd_blockOf d m) (by omega), blockOf_div]
    exact hgood
  have hlen := congrArg List.length (hpart.symm.trans htaken)
  rw [List.length_append, List.length_map, List.length_range, List.length_take] at hlen
  refine ⟨by omega, ?_⟩
  have hmarked : ∀ i < d.erasesize, w.bad ((blockOf d m + i) / d.erasesize) = true := by
    intro i hi
    rw [div_of_block (dvd_blockOf d m) hi, blockOf_div, hbad, Function.update_self]
  have hbelow : goodBytes d w (blockOf d m) =
      goodBytes d { flash := flash, bad := bad } (blockOf d m) := by
    refine goodBytes_congr hflash fun a ha => ?_
    have hne : a / d.erasesize ≠ m / d.erasesize := by
      intro heq
      have hdiv := Nat.div_mul_le_self a d.erasesize
      rw [heq] at hdiv
      exact absurd hdiv (not_le.mpr ha)
    rw [hbad, Function.update_of_ne hne]
  have hprefix : goodBytes d { flash := flash, bad := bad } (blockOf d m) =
      (image.take pos).take (pos - (m - blockOf d m)) := by
    rw [← htaken, hpart, List.take_left']
    omega
  rw [goodBytes_add_of_bad _ hmarked, hbelow, hprefix, List.take_take, min_eq_left (by omega)]

/-- A failed write that `nand_write` does not survive: going back or erasing has failed. -/
theorem recover_error (h : recover d src p = .error s') :
    ∃ (t : State) (f : Failure), t.failures = p.state.failures ∧ s' = t.fail f ∧ ¬f.Tolerated := by
  unfold recover at h
  split at h
  · next hseek =>
    unfold rewind at hseek
    split_ifs at hseek
    cases hseek
    cases h
    exact ⟨_, .seek, rfl, rfl, id⟩
  · next s1 h1 =>
    have hs1 : s1.failures = p.state.failures := by rw [(rewind_ok h1).2.2]
    split at h
    · next herase =>
      unfold eraseBlock at herase
      split_ifs at herase
      cases herase
      cases h
      exact ⟨s1.asked, .erase, hs1, rfl, id⟩
    · cases h

theorem not_tolerated_of_recover (h : recover d src p = .error s') : ¬s'.Tolerated := by
  obtain ⟨t, f, -, rfl, hf⟩ := recover_error h
  exact fun htol => hf htol.of_fail.2

/-- The invariant after a block has been given up. -/
theorem inv_of_marked (h : Found d src s) (hlen : s.imglen ≠ 0) (hp : Loaded d src s p)
    (htiny : p.tinycnt = p.readlen)
    (hflash : ∀ a < blockOf d s.mtdoffset, s'.flash a = s.flash a)
    (hbad : s'.bad = Function.update s.bad (s.mtdoffset / d.erasesize) true)
    (hoffset : s'.mtdoffset = blockOf d s.mtdoffset + d.erasesize)
    (hstart : s'.blockstart = some (blockOf d s.mtdoffset))
    (hpos : s'.pos = p.state.pos - (s.mtdoffset - blockOf d s.mtdoffset + p.readlen))
    (himglen : s'.imglen = p.state.imglen + (s.mtdoffset - blockOf d s.mtdoffset : ℕ))
    (hbuf : s'.writebuf = p.state.writebuf) : Inv d src s' := by
  obtain ⟨hle, hgood⟩ := goodBytes_of_marked (w := s'.toWorld) hflash hbad (h.good h.start)
    (h.pos_le hlen) (h.taken hlen)
  have hblock := dvd_blockOf d s.mtdoffset
  have hdvd : d.writesize ∣ s.mtdoffset - blockOf d s.mtdoffset :=
    Nat.dvd_sub h.dvd (d.writesize_dvd.trans hblock)
  have hpos' : s'.pos = s.pos - (s.mtdoffset - blockOf d s.mtdoffset) := by
    have := hp.pos
    omega
  have himglen' : p.state.imglen = s.imglen := by
    cases hstdin : src.stdin with
    | true => exact hp.full hstdin (htiny.trans (hp.readlen hstdin))
    | false => exact (hp.file hstdin).2
  have hnonneg := h.stdin
  have hne : s'.imglen ≠ 0 := by omega
  have hnext : blockOf d s'.mtdoffset = blockOf d s.mtdoffset + d.erasesize := by
    rw [hoffset]
    exact blockOf_of_dvd (Nat.dvd_add hblock (Nat.dvd_refl _))
  have hother : s'.blockstart ≠ some (blockOf d s'.mtdoffset) := by
    rw [hstart, hnext, ne_eq, Option.some.injEq]
    have := d.erasesize_pos
    omega
  exact {
    dvd := hoffset ▸ Nat.dvd_add (d.writesize_dvd.trans hblock) d.writesize_dvd
    le := hoffset ▸ add_erasesize_le hblock ((blockOf_le d _).trans_lt h.lt)
    good := fun hsame => absurd hsame hother
    aligned := fun _ => hoffset ▸ Nat.dvd_add hblock (Nat.dvd_refl _)
    finished := fun hzero => absurd hzero hne
    taken := fun _ => by rw [hoffset, hgood, hpos']
    pos_dvd := fun _ => hpos' ▸ Nat.dvd_sub (h.pos_dvd hlen) hdvd
    pos_le := fun _ => by
      have := h.pos_le hlen
      omega
    file := fun hfile _ => by
      have := h.file hfile hlen
      omega
    stdin := by omega
    buffer := hbuf ▸ hp.buffer }

/-- A page write that fails, in a block that can be erased and marked bad. -/
theorem recover_correct (h : Found d src s) (hlen : s.imglen ≠ 0) (hp : Loaded d src s p)
    {garbage : Bytes} {writes : List (Option Bytes)}
    (hok : recover d src { p with state := { p.state with
      writes := writes
      flash := put p.state.flash p.state.mtdoffset garbage }.fail (.write p.readlen p.tinycnt) } =
        .ok s') (htol : s'.Tolerated) : Inv d src s' := by
  have hpstart : p.state.blockstart.getD 0 = blockOf d p.state.mtdoffset := by
    rw [hp.blockstart, h.start, hp.mtdoffset]
    rfl
  obtain ⟨s1, s2, h1, h2, rfl⟩ := recover_ok hok
  obtain ⟨-, hrewind, rfl⟩ := rewind_ok h1
  rw [eraseBlock_ok h2] at htol ⊢
  have hmtdoffset := hp.mtdoffset
  have hbytes : rewindBytes d p.state = p.state.mtdoffset - blockOf d p.state.mtdoffset := by
    have hdvd : d.writesize ∣ p.state.mtdoffset - blockOf d p.state.mtdoffset :=
      Nat.dvd_sub (hmtdoffset ▸ h.dvd) (d.writesize_dvd.trans (dvd_blockOf d _))
    rw [rewindBytes, hpstart, Nat.div_mul_cancel hdvd]
  unfold markBad at htol ⊢
  split_ifs at htol ⊢ with hanswer
  · have htiny : p.tinycnt = p.readlen :=
      htol (.write p.readlen p.tinycnt) (List.mem_append_right _ (List.mem_singleton.mpr rfl))
    rw [hmtdoffset] at hbytes hpstart
    refine inv_of_marked h hlen hp htiny (fun a ha => ?_) ?_ ?_ ?_ ?_ ?_ rfl
    · show put (put p.state.flash p.state.mtdoffset garbage) (p.state.blockstart.getD 0)
        (List.replicate d.erasesize 0xff) a = s.flash a
      have hlt := ha.trans_le (blockOf_le d _)
      rw [put_of_lt _ _ _ (hpstart ▸ ha), put_of_lt _ _ _ (hmtdoffset ▸ hlt), hp.flash]
    · show Function.update p.state.bad (p.state.mtdoffset / d.erasesize) true = _
      rw [hp.bad, hmtdoffset]
    · exact congrArg (· + d.erasesize) hpstart
    · exact hp.blockstart.trans h.start
    · show p.state.pos - (rewindBytes d p.state + p.readlen) = _
      rw [hbytes]
    · show p.state.imglen + (rewindBytes d p.state : ℤ) = _
      rw [hbytes]
  · exact absurd (htol .setBadBlock (List.mem_append_right _ (List.mem_singleton.mpr rfl))) id

theorem writePage_correct (h : Found d src s) (hlen : s.imglen ≠ 0) (hp : Loaded d src s p) :
    match writePage d src p with
    | .ok s' => s'.Tolerated → Inv d src s'
    | .error s' => s'.Tolerated → Ended d src s' := by
  unfold writePage
  simp only
  cases p.state.writes.headD none with
  | none => exact fun _ => inv_of_write h hlen hp _
  | some garbage =>
    simp only
    split
    · next s' hok => exact recover_correct h hlen hp hok
    · next s' herror => exact fun htol => absurd htol (not_tolerated_of_recover herror)

/-! ### The loop -/

theorem body_correct (h : Inv d src s) (hlen : s.imglen ≠ 0) (hlt : s.mtdoffset < d.size) :
    match body d src s with
    | .ok s' => s'.Tolerated → Inv d src s'
    | .error s' => s'.Tolerated → Ended d src s' := by
  have hskip := skipBad_correct h hlen fun _ => hlt
  unfold body
  cases hs1 : skipBad d s with
  | error s1 =>
    rw [hs1] at hskip
    exact hskip
  | ok s1 =>
    rw [hs1] at hskip
    obtain ⟨hfound, himglen, -⟩ := hskip
    have hread := readPage_correct hfound (himglen ▸ hlen)
    simp only
    cases hp : readPage d src s1 with
    | error s2 =>
      rw [hp] at hread
      exact hread
    | ok p =>
      rw [hp] at hread
      exact writePage_correct hfound (himglen ▸ hlen) hread

/-! ### Failures are never forgotten -/

def stateOf : Except State State → State
  | .ok s => s
  | .error s => s

theorem failures_subset_fail (s : State) (f : Failure) : s.failures ⊆ (s.fail f).failures :=
  List.subset_append_left _ _

theorem failures_skipBad (d : MtdInfo) (s : State) :
    s.failures ⊆ (stateOf (skipBad d s)).failures := by
  induction s using skipBad.induct d with
  | case1 s hb =>
    rw [skipBad, if_pos hb]
    exact List.Subset.refl _
  | case2 s hb hsize =>
    rw [skipBad, if_neg hb, if_pos hsize]
    exact List.Subset.refl _
  | case3 s hb hsize hfail =>
    rw [skipBad, if_neg hb, if_neg hsize, if_pos hfail]
    exact failures_subset_fail _ _
  | case4 s hb hsize hfail hbad ih =>
    rw [skipBad, if_neg hb, if_neg hsize, if_neg hfail, if_pos hbad]
    exact ih
  | case5 s hb hsize hfail hbad =>
    rw [skipBad, if_neg hb, if_neg hsize, if_neg hfail, if_neg hbad]
    exact List.Subset.refl _

theorem failures_readPage (d : MtdInfo) (src : Source) (s : State) :
    match readPage d src s with
    | .ok p => s.failures ⊆ p.state.failures
    | .error s' => s.failures ⊆ s'.failures := by
  unfold readPage
  split_ifs
  · unfold readStdin
    simp only
    cases (readLoop src.image s.reads s.pos d.writesize []).ended with
    | error => exact failures_subset_fail _ _
    | full => exact List.Subset.refl _
    | eof =>
      simp only
      split_ifs
      · exact List.Subset.refl _
      · exact List.Subset.refl _
  · unfold readFile
    simp only
    generalize (if s.imglen < d.writesize then s.imglen else (d.writesize : ℤ)) = readlen
    split_ifs
    · exact failures_subset_fail _ _
    all_goals
      cases (readLoop src.image s.reads s.pos readlen.toNat []).ended with
      | error => exact failures_subset_fail { s with pos := _, reads := _, writebuf := _ } _
      | full => exact List.Subset.refl _
      | eof => exact List.Subset.refl _

theorem failures_writePage (d : MtdInfo) (src : Source) (p : Page) :
    p.state.failures ⊆ (stateOf (writePage d src p)).failures := by
  have hmark : ∀ s : State, s.failures ⊆ (markBad d s).failures := by
    intro s
    unfold markBad
    split_ifs
    · exact List.Subset.refl _
    · exact failures_subset_fail _ _
  have hrecover : ∀ p, p.state.failures ⊆ (stateOf (recover d src p)).failures := by
    intro p
    cases hout : recover d src p with
    | ok s' =>
      obtain ⟨s1, s2, h1, h2, rfl⟩ := recover_ok hout
      have h1' : s1.failures = p.state.failures := by rw [(rewind_ok h1).2.2]
      have h2' : s2.failures = s1.failures := by rw [eraseBlock_ok h2]; rfl
      rw [← h1', ← h2']
      exact hmark s2
    | error s' =>
      obtain ⟨t, f, ht, rfl, -⟩ := recover_error hout
      rw [← ht]
      exact failures_subset_fail t f
  unfold writePage
  simp only
  cases p.state.writes.headD none with
  | none => exact List.Subset.refl _
  | some garbage =>
    simp only
    refine List.Subset.trans ?_ (hrecover _)
    exact failures_subset_fail p.state _

theorem failures_body (d : MtdInfo) (src : Source) (s : State) :
    s.failures ⊆ (stateOf (body d src s)).failures := by
  have hskip := failures_skipBad d s
  unfold body
  cases hs1 : skipBad d s with
  | error s1 =>
    rw [hs1] at hskip
    exact hskip
  | ok s1 =>
    rw [hs1] at hskip
    have hread := failures_readPage d src s1
    simp only
    cases hp : readPage d src s1 with
    | error s2 =>
      rw [hp] at hread
      exact List.Subset.trans hskip hread
    | ok p =>
      rw [hp] at hread
      exact List.Subset.trans (List.Subset.trans hskip hread) (failures_writePage d src p)

theorem writeLoop_of_error (hloop : s.imglen ≠ 0 ∧ s.mtdoffset < d.size)
    (h : body d src s = .error s') : writeLoop d src s = s' := by
  rw [writeLoop, if_pos hloop]
  split
  · next t ht => exact Except.error.inj (ht.symm.trans h)
  · next t ht => rw [ht] at h; cases h

theorem writeLoop_of_ok (hloop : s.imglen ≠ 0 ∧ s.mtdoffset < d.size)
    (h : body d src s = .ok s') : writeLoop d src s = writeLoop d src s' := by
  conv_lhs => rw [writeLoop, if_pos hloop]
  split
  · next t ht => rw [ht] at h; cases h
  · next t ht => rw [Except.ok.inj (ht.symm.trans h)]

theorem failures_writeLoop (d : MtdInfo) (src : Source) (s : State) :
    s.failures ⊆ (writeLoop d src s).failures := by
  induction s using writeLoop.induct d src with
  | case1 s hloop s' hbody =>
    have h := failures_body d src s
    rw [hbody] at h
    rw [writeLoop_of_error hloop hbody]
    exact h
  | case2 s hloop s' hbody ih =>
    have h := failures_body d src s
    rw [hbody] at h
    rw [writeLoop_of_ok hloop hbody]
    exact List.Subset.trans h ih
  | case3 s hloop =>
    rw [writeLoop, if_neg hloop]
    exact List.Subset.refl _

/-- The run of the loop keeps the invariant to its end. -/
theorem writeLoop_correct (h : Inv d src s) (htol : (writeLoop d src s).Tolerated) :
    Ended d src (writeLoop d src s) := by
  induction s using writeLoop.induct d src with
  | case1 s hloop s' hbody =>
    have hstep := body_correct h hloop.1 hloop.2
    rw [hbody] at hstep
    rw [writeLoop_of_error hloop hbody] at htol ⊢
    exact hstep htol
  | case2 s hloop s' hbody ih =>
    have hstep := body_correct h hloop.1 hloop.2
    rw [hbody] at hstep
    rw [writeLoop_of_ok hloop hbody] at htol ⊢
    exact ih (hstep fun f hf => htol f (failures_writeLoop d src s' hf)) htol
  | case3 s hloop =>
    rw [writeLoop, if_neg hloop]
    by_cases hlen : s.imglen = 0
    · exact .inl ⟨s.mtdoffset, h.le, h.finished hlen⟩
    · have hfull : s.mtdoffset = d.size :=
        le_antisymm h.le (not_lt.mp fun hlt => hloop ⟨hlen, hlt⟩)
      refine .inr ⟨s.pos, h.pos_le hlen, h.pos_dvd hlen, ?_⟩
      rw [← hfull]
      exact h.taken hlen

/-! ### `nand_write` -/

theorem initialLength_file (hfile : src.stdin = false) (hlen : src.image.length < 2 ^ 31) :
    initialLength d src = src.image.length := by
  have hmod : (src.image.length : ℤ) % ((2 ^ 32 : ℕ) : ℤ) = src.image.length :=
    Int.emod_eq_of_lt (Int.natCast_nonneg _) (by omega)
  rw [initialLength, hfile, if_neg Bool.false_ne_true, Int.bmod, hmod, if_pos (by omega)]

theorem initialLength_stdin (hstdin : src.stdin = true) : initialLength d src = d.writesize := by
  rw [initialLength, hstdin, if_pos rfl]

theorem length_goodBytes_le (w : World) (n : ℕ) : (goodBytes d w n).length ≤ n := by
  rw [goodBytes, List.length_map]
  exact (List.length_filter_le _ _).trans_eq List.length_range

theorem writesize_le_of_supported (h : d.supported) : d.writesize ≤ 4096 := by
  simp only [MtdInfo.supported, Bool.or_eq_true, Bool.and_eq_true, decide_eq_true_eq] at h
  omega

theorem inv_start {w : World} (hlen : src.stdin = false → src.image.length < 2 ^ 31)
    (hsupported : d.supported) : Inv d src { w with imglen := initialLength d src } := by
  have hws := writesize_pos d
  have hstart : goodBytes d w 0 = [] := rfl
  refine ⟨Nat.dvd_zero _, Nat.zero_le _, nofun, fun _ => Nat.dvd_zero _, fun hzero => ?_,
    fun _ => hstart.trans List.take_zero.symm, fun _ => Nat.dvd_zero _, fun _ => Nat.zero_le _,
    fun hfile _ => ?_, ?_, ?_⟩
  · have hnil : src.image = [] := by
      cases hstdin : src.stdin with
      | true =>
        have hflag := (initialLength_stdin hstdin).symm.trans hzero
        omega
      | false =>
        have hleft := (initialLength_file hstdin (hlen hstdin)).symm.trans hzero
        exact List.length_eq_zero_iff.mp (by exact_mod_cast hleft)
    rw [paddedImage_of_dvd (by rw [hnil]; exact Nat.dvd_zero _), hnil]
    exact hstart
  · exact (initialLength_file hfile (hlen hfile)).trans (by simp)
  · show 0 ≤ initialLength d src
    cases hstdin : src.stdin with
    | true =>
      rw [initialLength_stdin hstdin]
      exact Int.natCast_nonneg _
    | false =>
      rw [initialLength_file hstdin (hlen hstdin)]
      exact Int.natCast_nonneg _
  · show d.writesize ≤ (List.replicate 4096 (0 : UInt8)).length
    rw [List.length_replicate]
    exact writesize_le_of_supported hsupported

/-- An image that does not fit has more bytes than the device. -/
theorem lt_of_not_fits {n : ℕ} (h : ¬fits d n) : d.size < n / d.writesize * d.writesize := by
  have hcast : (n : ℤ).tdiv d.writesize * d.writesize = (n / d.writesize * d.writesize : ℕ) := by
    rw [Int.natCast_tdiv_eq_ediv, Nat.cast_mul, Int.natCast_ediv]
  rw [fits, decide_eq_true_eq, not_le, hcast] at h
  generalize n / d.writesize * d.writesize = v at h ⊢
  omega

theorem nil_of_not_fits {w : World} (hlen : src.stdin = false → src.image.length < 2 ^ 31)
    (hfits : ¬fits d (initialLength d src))
    (hroom : src.image.length ≤ (goodBytes d w d.size).length) : src.image = [] := by
  have hle := hroom.trans (length_goodBytes_le w d.size)
  cases hstdin : src.stdin with
  | true =>
    rw [initialLength_stdin hstdin] at hfits
    have hlt := lt_of_not_fits hfits
    rw [Nat.div_self (writesize_pos d), Nat.one_mul] at hlt
    have hsize : d.size = 0 := by
      by_contra hne
      have hblock := Nat.le_of_dvd (Nat.pos_of_ne_zero hne) d.erasesize_dvd
      have hpage := Nat.le_of_dvd d.erasesize_pos d.writesize_dvd
      omega
    exact List.length_eq_zero_iff.mp (by omega)
  | false =>
    rw [initialLength_file hstdin (hlen hstdin)] at hfits
    have hlt := lt_of_not_fits hfits
    have hfloor := Nat.div_mul_le_self src.image.length d.writesize
    omega

/-- A run that ends in success leaves the whole image on the device, if every system call but
the page writes has succeeded, no page that standard input ended in has failed, and the good
blocks have room for the image. -/
theorem nandWrite_complete {w : World} (h : nandWrite (some d) (some src) w = (.success, s))
    (hlen : src.stdin = false → src.image.length < 2 ^ 31)
    (htol : ∀ f ∈ s.failures, f.Tolerated)
    (hroom : src.image.length ≤ (goodBytes d s.toWorld d.size).length) :
    Complete d src.image s.toWorld := by
  simp only [nandWrite] at h
  split_ifs at h with hsupported hfits
  · cases h
    exact (writeLoop_correct (inv_start hlen hsupported) htol).complete hroom
  · cases h
    have hnil := nil_of_not_fits hlen hfits hroom
    rw [Complete, hnil, paddedImage_of_dvd (by exact Nat.dvd_zero _)]
    exact List.nil_prefix
  · cases h

/-! ### A device with two blocks of one page -/

namespace Samples

def device : MtdInfo where
  size := 512
  erasesize := 256
  writesize := 256
  oobsize := 8
  erasesize_pos := by decide
  writesize_dvd := by decide
  erasesize_dvd := by decide
  size_lt := by decide

def file : Source where
  image := [1, 2]
  stdin := false
  seekable := true

def erased : World where
  flash _ := 0xff
  bad _ := false

/-- The first read is short, and the first page write fails. -/
def failing : World := { erased with reads := [some 0], writes := [some [1]] }

def start (w : World) : State := { w with imglen := initialLength device file }

theorem nandWrite_eq (w : World) :
    nandWrite (some device) (some file) w = (.success, writeLoop device file (start w)) := rfl

theorem skipBad_eq {s : State} (hblock : s.blockstart ≠ some (blockOf device s.mtdoffset))
    (hsize : blockOf device s.mtdoffset < 512) (hanswer : s.answer = true)
    (hgood : s.bad (blockOf device s.mtdoffset / 256) = false) :
    skipBad device s = .ok (enter device s) := by
  have hdevice : ¬device.size ≤ blockOf device s.mtdoffset := not_le.mpr hsize
  have hasked : ¬(2 ^ 31 ≤ blockOf device s.mtdoffset ∨ s.answer = false) := by
    rw [hanswer, not_or]
    exact ⟨by omega, nofun⟩
  rw [skipBad, if_neg hblock, if_neg hdevice, if_neg hasked]
  exact if_neg (by rw [show device.erasesize = 256 from rfl, hgood]; exact Bool.false_ne_true)

/-- The state after a page in a good block. -/
def pageDone (s : State) : State :=
  stateOf (match readPage device file (enter device s) with
    | .error s => .error s
    | .ok p => writePage device file p)

/-- No block has been looked at before the first page. -/
theorem skipBad_start (w : World) (hanswer : (start w).answer = true) (hgood : w.bad 0 = false) :
    skipBad device (start w) = .ok (enter device (start w)) := by
  have hfirst : blockOf device (start w).mtdoffset = 0 := show blockOf device 0 = 0 by decide
  have hnone : (start w).blockstart = none := rfl
  refine skipBad_eq ?_ (by rw [hfirst]; decide) hanswer (by rw [hfirst]; exact hgood)
  rw [hnone]
  exact nofun

/-- The first block becomes bad, and the file goes into the second one. -/
theorem nandWrite_complete_file :
    ∃ s, nandWrite (some device) (some file) failing = (.success, s) ∧
      Complete device [1, 2] s.toWorld := by
  have hfirst : body device file (start failing) = .ok (pageDone (start failing)) := by
    rw [body, skipBad_start _ rfl rfl]
    rfl
  have hskip : skipBad device (pageDone (start failing)) =
      .ok (enter device (pageDone (start failing))) :=
    skipBad_eq (show some 0 ≠ some (blockOf device 256) by decide)
      (show blockOf device 256 < 512 by decide) rfl rfl
  have hsecond : body device file (pageDone (start failing)) =
      .ok (pageDone (pageDone (start failing))) := by
    rw [body, hskip]
    rfl
  have hlen : (pageDone (pageDone (start failing))).imglen = 0 := rfl
  have hloop : writeLoop device file (start failing) = pageDone (pageDone (start failing)) := by
    rw [writeLoop_of_ok (by decide) hfirst, writeLoop_of_ok (by decide) hsecond, writeLoop,
      if_neg fun h => h.1 hlen]
  have hrun := (nandWrite_eq failing).trans (congrArg (Prod.mk _) hloop)
  refine ⟨_, hrun, nandWrite_complete hrun (fun _ => by decide) ?_ ?_⟩
  · have hfailures : (pageDone (pageDone (start failing))).failures = [.write 2 2] := rfl
    rw [hfailures]
    exact fun f hf => List.mem_singleton.mp hf ▸ rfl
  · have hbad : (pageDone (pageDone (start failing))).bad =
        Function.update (fun _ => false) 0 true := rfl
    have hgood := goodBytes_add_of_good (d := device) (n := 256) (k := 256)
      (pageDone (pageDone (start failing))).toWorld fun i hi => by
        have hblock : (256 + i) / device.erasesize = 1 :=
          show (256 + i) / 256 = 1 by omega
        rw [hbad, hblock]
        rfl
    show 2 ≤ (goodBytes device (pageDone (pageDone (start failing))).toWorld (256 + 256)).length
    rw [hgood, List.length_append, List.length_map, List.length_range]
    omega

/-- The first read fails: nothing is written, and the program reports success. -/
theorem not_complete :
    ¬∀ (d : MtdInfo) (src : Source) (w : World) (s : State),
      nandWrite (some d) (some src) w = (.success, s) → Complete d src.image s.toWorld := by
  intro h
  obtain ⟨s, hbody, hflash⟩ : ∃ s, body device file (start { erased with reads := [none] }) =
      .error s ∧ s.flash = fun _ => 0xff := by
    rw [body, skipBad_start _ rfl rfl]
    exact ⟨_, rfl, rfl⟩
  have hloop := writeLoop_of_error (by decide) hbody
  have hcomplete := h device file { erased with reads := [none] } s
    ((nandWrite_eq _).trans (by rw [hloop]))
  have hmem : (1 : UInt8) ∈ goodBytes device s.toWorld device.size :=
    hcomplete.subset (List.mem_append_left _ List.mem_cons_self)
  obtain ⟨a, -, ha⟩ := List.mem_map.mp hmem
  rw [hflash] at ha
  exact absurd ha (show (0xff : UInt8) ≠ 1 by decide)

end Samples
end OpenADK.Nand
