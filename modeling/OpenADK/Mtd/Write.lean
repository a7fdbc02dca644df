import OpenADK.Library.Machine
import Mathlib.Algebra.Order.Ring.Int
import Mathlib.Data.List.Basic
import Mathlib.Data.List.TakeDrop
import Mathlib.Order.Lattice

/-!
# Writing to a flash device

`mtd_write` copies what is in its buffer and then its input to the device, and erases each block
before the first byte is written to it. It is a machine whose system calls are answered.
-/

namespace OpenADK.Mtd
open Machine

/-- A byte of the device during the call: not erased yet, erased, or written. -/
inductive Cell
  | stale
  | blank
  | data (b : UInt8)

/-- The device, and the bits of a `size_t`. -/
structure Device where
  size : ℕ
  erasesize : ℕ
  bits : ℕ
  size_lt : size < 2 ^ 32
  erasesize_pos : 0 < erasesize
  bits_le : 32 ≤ bits

def bufsize : ℕ := 16 * 1024

inductive Place
  | read
  | erase
  | write
  | closed
  | exited
  deriving DecidableEq

/-- The variables, the offset in the device and its bytes. Also kept are the input that has been
read and whether a `read` has failed. -/
structure State where
  place : Place
  r : ℕ
  w : ℕ
  e : ℕ
  buf : List UInt8
  buflen : ℕ
  pos : ℕ
  flash : ℕ → Cell
  input : List UInt8
  failed : Bool

inductive Answer
  | readData (bs : List UInt8)
  | readError
  | eraseDone
  | eraseError
  | written (n : ℕ)
  | writeError

namespace Device
variable (d : Device)

def sizeT (x : ℤ) : ℕ := (x % 2 ^ d.bits).toNat

def ssizeT (x : ℕ) : ℤ := Int.bmod x (2 ^ d.bits)

def nextPlace (doErase : Bool) (w e : ℕ) : Place := if doErase ∧ w > e then .erase else .write

def afterRead (doErase : Bool) (result : ℤ) (s : State) : State :=
  let r := d.sizeT (s.buflen + result)
  let w := d.sizeT (s.w + r)
  { s with r, w, place := if r ≤ 0 then .closed else nextPlace doErase w s.e }

def start (s : State) : ℕ := s.e % 2 ^ 32

def afterErase (doErase : Bool) (s : State) : State :=
  let e := d.sizeT (s.e + d.erasesize)
  { s with
    e
    flash := fun i => if start s ≤ i ∧ i < start s + d.erasesize then .blank else s.flash i
    place := nextPlace doErase s.w e }

/-- The bytes are written; the call goes on if there are no less than there should be. -/
def afterWrite (n : ℕ) (s : State) : State :=
  { s with
    pos := s.pos + n
    flash := fun i =>
      if s.pos ≤ i ∧ i < s.pos + n then .data (s.buf.getD (i - s.pos) 0) else s.flash i
    buflen := if (n : ℤ) < d.ssizeT s.r then s.buflen else 0
    place := if (n : ℤ) < d.ssizeT s.r then .exited else .read }

/-- A step with the answer to the system call. The device takes nothing beyond its end, and nothing
whose length is negative as a `ssize_t`. -/
def step (doErase : Bool) (s : State) : Answer → Option State
  | .readData bs =>
    if s.place = .read ∧ bs.length ≤ bufsize - s.buflen then
      some (d.afterRead doErase bs.length
        { s with buf := s.buf.take s.buflen ++ bs, input := s.input ++ bs })
    else none
  | .readError =>
    if s.place = .read then some (d.afterRead doErase (-1) { s with failed := true }) else none
  | .eraseDone =>
    if s.place = .erase ∧ start s + d.erasesize ≤ d.size then some (d.afterErase doErase s)
    else none
  | .eraseError => if s.place = .erase then some { s with place := .exited } else none
  | .written n =>
    if s.place = .write ∧ n ≤ s.r ∧ s.r < 2 ^ (d.bits - 1) ∧ s.pos + n ≤ d.size then
      some (d.afterWrite n s)
    else none
  | .writeError =>
    if s.place = .write then
      some { s with
        buflen := if -1 < d.ssizeT s.r then s.buflen else 0
        place := if -1 < d.ssizeT s.r then .exited else .read }
    else none

end Device

/-- The start of a call with bytes in the buffer. -/
def State.initial (buffer : List UInt8) : State where
  place := .read
  r := 0
  w := 0
  e := 0
  buf := buffer
  buflen := buffer.length
  pos := 0
  flash _ := .stale
  input := []
  failed := false

/-- What holds of the device in a state, and of the next system call. -/
structure Safe (d : Device) (buffer : List UInt8) (s : State) : Prop where
  /-- What may be written has been erased and is not written yet. -/
  writes : s.place = .write → ∀ i, s.pos ≤ i → i < s.pos + s.r → i < d.size → s.flash i = .blank
  erases : s.place = .erase → ∀ i b, Device.start s ≤ i → i < Device.start s + d.erasesize →
    s.flash i ≠ .data b
  content : s.pos ≤ (buffer ++ s.input).length ∧
    ∀ i b, s.flash i = .data b ↔ i < s.pos ∧ (buffer ++ s.input)[i]? = some b
  stops : s.failed = true → s.place ≠ .erase ∧ s.place ≠ .write

/-- A read does not fail unless there is just one byte in the buffer, and the total does not
overflow unless the whole device has been erased. -/
def Sound (d : Device) (s : State) : Answer → Prop
  | .readData bs => s.w + s.buflen + bs.length < 2 ^ d.bits ∨ d.size ≤ s.e
  | .readError => s.buflen = 1
  | _ => True

/-! ### Numbers that fit -/

variable {d : Device} {buffer : List UInt8} {s s' : State}

theorem Device.sizeT_natCast (d : Device) (x : ℕ) : d.sizeT x = x % 2 ^ d.bits := by
  have hmod : ((x : ℤ) % 2 ^ d.bits) = ((x % 2 ^ d.bits : ℕ) : ℤ) := by
    push_cast
    rfl
  rw [sizeT, hmod, Int.toNat_natCast]

theorem Device.sizeT_of_lt {x : ℕ} (h : x < 2 ^ d.bits) : d.sizeT x = x := by
  rw [sizeT_natCast, Nat.mod_eq_of_lt h]

theorem Device.two_pow_le (d : Device) : 2 ^ 32 ≤ 2 ^ d.bits :=
  Nat.pow_le_pow_right (by omega) d.bits_le

theorem Device.ssizeT_of_lt {x : ℕ} (h : x < 2 ^ 31) : d.ssizeT x = x := by
  have hpow := d.two_pow_le
  exact Int.bmod_eq_of_le (by omega) (by omega)

/-! ### The invariant -/

/-- The bytes of the buffer and of the input so far. -/
def State.total (buffer : List UInt8) (s : State) : List UInt8 := buffer ++ s.input

/-- What holds in every state of a run without failures that matter. -/
structure Inv (d : Device) (buffer : List UInt8) (s : State) : Prop where
  pos_le : s.pos ≤ s.e
  e_le : s.e ≤ d.size
  length : s.pos ≤ (s.total buffer).length
  data : ∀ i b, s.flash i = .data b ↔ i < s.pos ∧ (s.total buffer)[i]? = some b
  blank : ∀ i, s.pos ≤ i → i < s.e → s.flash i = .blank
  stale : ∀ i, s.e ≤ i → s.flash i = .stale
  failed : s.failed = true → s.place = .closed
  read : s.place = .read → s.w = s.pos ∧ s.buflen ≤ bufsize ∧
    s.buf.take s.buflen = (s.total buffer).drop s.pos ∧ s.pos + s.buflen = (s.total buffer).length
  chunk : s.place = .erase ∨ s.place = .write → s.r ≤ bufsize ∧
    s.buf = (s.total buffer).drop s.pos ∧ s.pos + s.r = (s.total buffer).length
  erase : s.place = .erase → s.w = s.pos + s.r
  /-- As much as is written is erased, or else the device is too small. -/
  write : s.place = .write → s.w = s.pos + s.r ∧ s.w ≤ s.e ∨ s.e = d.size ∧ d.size < s.pos + s.r

theorem Inv.safe (h : Inv d buffer s) : Safe d buffer s := by
  refine ⟨fun hplace i hlow hhigh hsize => ?_, fun hplace i b hlow hhigh hdata => ?_,
    ⟨h.length, h.data⟩, fun hfailed => ?_⟩
  · apply h.blank i hlow
    have hwrite := h.write hplace
    omega
  · have hstart : Device.start s = s.e :=
      Nat.mod_eq_of_lt (h.e_le.trans_lt d.size_lt)
    have hpos := ((h.data i b).mp hdata).1
    have hle := h.pos_le
    omega
  · rw [h.failed hfailed]
    exact ⟨nofun, nofun⟩

theorem inv_initial (hlen : buffer.length ≤ bufsize) : Inv d buffer (State.initial buffer) := by
  refine ⟨le_rfl, Nat.zero_le _, Nat.zero_le _, fun i b => ?_, fun i _ hi => ?_, fun _ _ => rfl,
    nofun, fun _ => ?_, ?_, nofun, nofun⟩
  · exact ⟨nofun, fun h => absurd h.1 (Nat.not_lt_zero i)⟩
  · exact absurd hi (Nat.not_lt_zero i)
  · refine ⟨rfl, hlen, ?_, ?_⟩
    · change buffer.take buffer.length = (buffer ++ []).drop 0
      rw [List.take_length, List.append_nil, List.drop_zero]
    · change 0 + buffer.length = (buffer ++ []).length
      rw [List.append_nil, Nat.zero_add]
  · exact fun hplace => hplace.elim nofun nofun

/-! ### The steps -/

theorem nextPlace_cases (w e : ℕ) :
    e < w ∧ Device.nextPlace true w e = .erase ∨ w ≤ e ∧ Device.nextPlace true w e = .write := by
  rcases Nat.lt_or_ge e w with hlt | hle
  · exact .inl ⟨hlt, if_pos ⟨rfl, hlt⟩⟩
  · exact .inr ⟨hle, if_neg fun h => absurd h.2 (Nat.not_lt.mpr hle)⟩

theorem not_failed (h : Inv d buffer s) (hplace : s.place ≠ .closed) : s.failed = false :=
  Bool.eq_false_iff.mpr fun hfailed => hplace (h.failed hfailed)

/-- What has been read is written next, if there is anything. -/
theorem Inv.afterRead (h : Inv d buffer s) (hplace : s.place = .read) {bs : List UInt8}
    (hlen : bs.length ≤ bufsize - s.buflen) {w : ℕ} {place : Place}
    (hclosed : place = .closed ∨ place = .erase ∨ place = .write)
    (herase : place = .erase → w = s.pos + (s.buflen + bs.length))
    (hwrite : place = .write → w = s.pos + (s.buflen + bs.length) ∧ w ≤ s.e ∨
      s.e = d.size ∧ d.size < s.pos + (s.buflen + bs.length)) :
    Inv d buffer { s with
      buf := s.buf.take s.buflen ++ bs, input := s.input ++ bs, r := s.buflen + bs.length, w,
      place } := by
  obtain ⟨hw, hbuflen, hbuf, htotal⟩ := h.read hplace
  have hfailed : s.failed = false := not_failed h (by rw [hplace]; exact nofun)
  have happend : buffer ++ (s.input ++ bs) = s.total buffer ++ bs := (List.append_assoc ..).symm
  refine ⟨h.pos_le, h.e_le, ?length, ?data, h.blank, h.stale, ?failed, ?read, ?chunk, herase,
    hwrite⟩
  case length =>
    change s.pos ≤ (buffer ++ (s.input ++ bs)).length
    rw [happend, List.length_append]
    omega
  case data =>
    intro i b
    change _ ↔ i < s.pos ∧ (buffer ++ (s.input ++ bs))[i]? = some b
    rw [h.data, happend]
    exact and_congr_right fun hi => by rw [List.getElem?_append_left (by omega)]
  case failed =>
    intro hfail
    exact absurd (hfailed.symm.trans hfail) Bool.false_ne_true
  case read =>
    intro hread
    rcases hclosed with rfl | rfl | rfl <;> exact nomatch hread
  case chunk =>
    refine fun _ => ⟨by change s.buflen + bs.length ≤ bufsize; omega, ?_, ?_⟩
    · change s.buf.take s.buflen ++ bs = (buffer ++ (s.input ++ bs)).drop s.pos
      rw [happend, List.drop_append_of_le_length (by omega), hbuf]
    · change s.pos + (s.buflen + bs.length) = (buffer ++ (s.input ++ bs)).length
      rw [happend, List.length_append]
      omega

/-- The state after a read. -/
theorem readData_eq (hbuflen : s.buflen ≤ bufsize) {bs : List UInt8}
    (hstep : d.step true s (.readData bs) = some s') : s' = { s with
      buf := s.buf.take s.buflen ++ bs, input := s.input ++ bs, r := s.buflen + bs.length
      w := (s.w + (s.buflen + bs.length)) % 2 ^ d.bits
      place := if s.buflen + bs.length ≤ 0 then .closed
        else Device.nextPlace true ((s.w + (s.buflen + bs.length)) % 2 ^ d.bits) s.e } := by
  obtain ⟨⟨-, hlen⟩, heq⟩ := Option.ite_none_right_eq_some.mp hstep
  have hpow := d.two_pow_le
  have hbufsize : bufsize = 16384 := rfl
  have hr : d.sizeT (s.buflen + bs.length) = s.buflen + bs.length := by
    have hsize := d.sizeT_of_lt (by omega : s.buflen + bs.length < 2 ^ d.bits)
    exact_mod_cast hsize
  have hsum : d.sizeT (s.w + (s.buflen + bs.length : ℕ)) =
      (s.w + (s.buflen + bs.length)) % 2 ^ d.bits := by
    exact_mod_cast d.sizeT_natCast (s.w + (s.buflen + bs.length))
  rw [← Option.some.inj heq, Device.afterRead]
  simp only [hr, hsum]

theorem Inv.readData (h : Inv d buffer s) {bs : List UInt8}
    (hstep : d.step true s (.readData bs) = some s') (hsound : Sound d s (.readData bs)) :
    Inv d buffer s' := by
  obtain ⟨⟨hplace, hlen⟩, -⟩ := Option.ite_none_right_eq_some.mp hstep
  obtain ⟨hw, hbuflen, -, -⟩ := h.read hplace
  have hpow := d.two_pow_le
  have hbufsize : bufsize = 16384 := rfl
  have hsize := d.size_lt
  have hle := h.pos_le
  have hele := h.e_le
  rw [readData_eq hbuflen hstep]
  -- The total is the sum, or it has overflowed and nothing is left to be erased.
  have htotal : s.w + (s.buflen + bs.length) < 2 ^ d.bits ∧
        (s.w + (s.buflen + bs.length)) % 2 ^ d.bits = s.w + (s.buflen + bs.length) ∨
      2 ^ d.bits ≤ s.w + (s.buflen + bs.length) ∧
        (s.w + (s.buflen + bs.length)) % 2 ^ d.bits ≤ s.e ∧ d.size ≤ s.e := by
    rcases Nat.lt_or_ge (s.w + (s.buflen + bs.length)) (2 ^ d.bits) with hlt | hge
    · exact .inl ⟨hlt, Nat.mod_eq_of_lt hlt⟩
    · have hmod : (s.w + (s.buflen + bs.length)) % 2 ^ d.bits =
          s.w + (s.buflen + bs.length) - 2 ^ d.bits := by
        rw [Nat.mod_eq_sub_mod hge, Nat.mod_eq_of_lt (by omega)]
      have herased : d.size ≤ s.e := hsound.resolve_left (by omega)
      exact .inr ⟨hge, by omega, herased⟩
  have hcases := nextPlace_cases ((s.w + (s.buflen + bs.length)) % 2 ^ d.bits) s.e
  apply h.afterRead hplace hlen
  · split
    · exact .inl rfl
    · exact .inr (hcases.imp And.right And.right)
  · intro herase
    split at herase
    · exact nomatch herase
    · rcases hcases with ⟨hlt, -⟩ | ⟨-, hwrite⟩
      · omega
      · exact nomatch hwrite.symm.trans herase
  · intro hwrite
    split at hwrite
    · exact nomatch hwrite
    · rcases hcases with ⟨-, herase⟩ | ⟨hle, -⟩
      · exact nomatch herase.symm.trans hwrite
      · omega

/-- Nothing but one byte in the buffer makes an error look like the end of the input. -/
theorem Inv.readError (h : Inv d buffer s) (hstep : d.step true s .readError = some s')
    (hsound : Sound d s .readError) : Inv d buffer s' := by
  obtain ⟨hplace, heq⟩ := Option.ite_none_right_eq_some.mp hstep
  have hbuflen : s.buflen = 1 := hsound
  have hr : d.sizeT (s.buflen + -1) = 0 := by
    rw [hbuflen]
    exact d.sizeT_of_lt (Nat.two_pow_pos _)
  have hnext : s' = { s with
      failed := true, r := 0, w := d.sizeT (s.w + (0 : ℕ)), place := .closed } := by
    rw [← Option.some.inj heq, Device.afterRead]
    simp only [hr, le_refl, if_true]
  rw [hnext]
  exact ⟨h.pos_le, h.e_le, h.length, h.data, h.blank, h.stale, fun _ => rfl, nofun,
    fun hplace => hplace.elim nofun nofun, nofun, nofun⟩

theorem Inv.eraseDone (h : Inv d buffer s) (hstep : d.step true s .eraseDone = some s') :
    Inv d buffer s' := by
  obtain ⟨⟨hplace, hfits⟩, heq⟩ := Option.ite_none_right_eq_some.mp hstep
  have hpow := d.two_pow_le
  have hsize := d.size_lt
  have hele := h.e_le
  have hle := h.pos_le
  have hstart : Device.start s = s.e := Nat.mod_eq_of_lt (by omega)
  have hchunk := h.chunk (.inl hplace)
  have hw := h.erase hplace
  have hfailed : s.failed = false := not_failed h (by rw [hplace]; exact nofun)
  rw [hstart] at hfits
  have he : d.sizeT (s.e + d.erasesize) = s.e + d.erasesize := by
    have hsize := d.sizeT_of_lt (by omega : s.e + d.erasesize < 2 ^ d.bits)
    exact_mod_cast hsize
  have hcases := nextPlace_cases s.w (s.e + d.erasesize)
  have hnext : s' = { s with
      e := s.e + d.erasesize
      flash := fun i => if s.e ≤ i ∧ i < s.e + d.erasesize then .blank else s.flash i
      place := Device.nextPlace true s.w (s.e + d.erasesize) } := by
    rw [← Option.some.inj heq, Device.afterErase]
    simp only [he, hstart]
  rw [hnext]
  refine ⟨by change s.pos ≤ s.e + d.erasesize; omega, hfits, h.length, ?data, ?blank, ?stale,
    fun hfail => absurd (hfailed.symm.trans hfail) Bool.false_ne_true, ?read, fun _ => hchunk,
    fun _ => hw, ?write⟩
  case data =>
    intro i b
    change (if s.e ≤ i ∧ i < s.e + d.erasesize then Cell.blank else s.flash i) = .data b ↔
      i < s.pos ∧ (s.total buffer)[i]? = some b
    rw [← h.data i b]
    by_cases hin : s.e ≤ i ∧ i < s.e + d.erasesize
    · have hstale := h.stale i hin.1
      simp only [if_pos hin, hstale, reduceCtorEq]
    · simp only [if_neg hin]
  case blank =>
    intro i hlow hhigh
    change i < s.e + d.erasesize at hhigh
    by_cases hin : s.e ≤ i
    · exact if_pos ⟨hin, hhigh⟩
    · exact (if_neg fun h => hin h.1).trans (h.blank i hlow (Nat.not_le.mp hin))
  case stale =>
    intro i hi
    change s.e + d.erasesize ≤ i at hi
    exact (if_neg fun h => absurd h.2 (Nat.not_lt.mpr hi)).trans (h.stale i (by omega))
  case read =>
    intro hread
    rcases hcases with ⟨-, herase⟩ | ⟨-, hwrite⟩
    · exact nomatch herase.symm.trans hread
    · exact nomatch hwrite.symm.trans hread
  case write =>
    intro hwrite
    rcases hcases with ⟨-, herase⟩ | ⟨hle, -⟩
    · exact nomatch herase.symm.trans hwrite
    · exact .inl ⟨hw, hle⟩

/-- A call that is given up leaves the device as it is. -/
theorem Inv.exit (h : Inv d buffer s) (hplace : s.place ≠ .closed) :
    Inv d buffer { s with place := .exited } :=
  ⟨h.pos_le, h.e_le, h.length, h.data, h.blank, h.stale,
    fun hfail => absurd ((not_failed h hplace).symm.trans hfail) Bool.false_ne_true, nofun,
    fun hplace => hplace.elim nofun nofun, nofun, nofun⟩

theorem Inv.written (h : Inv d buffer s) {n : ℕ} (hstep : d.step true s (.written n) = some s') :
    Inv d buffer s' := by
  obtain ⟨⟨hplace, hn, -, hfits⟩, heq⟩ := Option.ite_none_right_eq_some.mp hstep
  obtain ⟨hr, hbuf, htotal⟩ := h.chunk (.inr hplace)
  have hbufsize : bufsize = 16384 := rfl
  have hwrite := h.write hplace
  have hele := h.e_le
  have hfailed : s.failed = false := not_failed h (by rw [hplace]; exact nofun)
  have hssize : d.ssizeT s.r = s.r := d.ssizeT_of_lt (by omega)
  have hlt : ((n : ℤ) < d.ssizeT s.r) ↔ n < s.r := by
    rw [hssize]
    exact Int.ofNat_lt
  rw [← Option.some.inj heq]
  refine ⟨by change s.pos + n ≤ s.e; omega, hele, ?length, ?data, ?blank, ?stale,
    fun hfail => absurd (hfailed.symm.trans hfail) Bool.false_ne_true, ?read, ?chunk, ?erase,
    ?write⟩
  case length =>
    change s.pos + n ≤ (s.total buffer).length
    omega
  case data =>
    intro i b
    change (if s.pos ≤ i ∧ i < s.pos + n then Cell.data (s.buf.getD (i - s.pos) 0)
      else s.flash i) = .data b ↔ i < s.pos + n ∧ (s.total buffer)[i]? = some b
    by_cases hin : s.pos ≤ i ∧ i < s.pos + n
    · have hbyte : (s.total buffer)[i]? = some (s.buf.getD (i - s.pos) 0) := by
        rw [hbuf, List.getD_eq_getElem?_getD, List.getElem?_drop, Nat.add_sub_cancel' hin.1,
          List.getElem?_eq_getElem (by omega), Option.getD_some]
      rw [if_pos hin, hbyte, Cell.data.injEq, Option.some.injEq]
      exact ⟨fun hb => ⟨hin.2, hb⟩, And.right⟩
    · rw [if_neg hin, h.data]
      constructor
      · exact fun hdata => ⟨by omega, hdata.2⟩
      · exact fun hdata => ⟨by omega, hdata.2⟩
  case blank =>
    intro i hlow hhigh
    change s.pos + n ≤ i at hlow
    exact (if_neg fun h => absurd h.2 (Nat.not_lt.mpr hlow)).trans (h.blank i (by omega) hhigh)
  case stale =>
    intro i hi
    change s.e ≤ i at hi
    exact (if_neg fun h => absurd h.2 (by omega)).trans (h.stale i hi)
  case read =>
    intro hread
    change (if (n : ℤ) < d.ssizeT s.r then Place.exited else .read) = .read at hread
    have hall : ¬n < s.r := by
      intro hless
      rw [if_pos (hlt.mpr hless)] at hread
      exact nomatch hread
    refine ⟨by change s.w = s.pos + n; omega, ?_, ?_, ?_⟩
    all_goals simp only [Device.afterWrite, if_neg (hlt.not.mpr hall)]
    · exact Nat.zero_le _
    · rw [List.take_zero]
      exact (List.drop_eq_nil_of_le (by change (s.total buffer).length ≤ s.pos + n; omega)).symm
    · change s.pos + n + 0 = (s.total buffer).length
      omega
  case chunk =>
    intro hchunk
    change (if (n : ℤ) < d.ssizeT s.r then Place.exited else .read) = .erase ∨
      (if (n : ℤ) < d.ssizeT s.r then Place.exited else .read) = .write at hchunk
    split at hchunk <;> exact hchunk.elim nofun nofun
  case erase =>
    intro herase
    change (if (n : ℤ) < d.ssizeT s.r then Place.exited else .read) = .erase at herase
    split at herase <;> exact nomatch herase
  case write =>
    intro hwrite
    change (if (n : ℤ) < d.ssizeT s.r then Place.exited else .read) = .write at hwrite
    split at hwrite <;> exact nomatch hwrite

theorem Inv.writeError (h : Inv d buffer s) (hstep : d.step true s .writeError = some s') :
    Inv d buffer s' := by
  obtain ⟨hplace, heq⟩ := Option.ite_none_right_eq_some.mp hstep
  have hr := (h.chunk (.inr hplace)).1
  have hbufsize : bufsize = 16384 := rfl
  have hssize : d.ssizeT s.r = s.r := d.ssizeT_of_lt (by omega)
  have hneg : -1 < d.ssizeT s.r := by
    rw [hssize]
    omega
  rw [← Option.some.inj heq]
  simp only [if_pos hneg]
  exact h.exit (by rw [hplace]; exact nofun)

theorem inv_step {a : Answer} (h : Inv d buffer s) (hstep : d.step true s a = some s')
    (hsound : Sound d s a) : Inv d buffer s' := by
  cases a with
  | readData bs => exact h.readData hstep hsound
  | readError => exact h.readError hstep hsound
  | eraseDone => exact h.eraseDone hstep
  | eraseError =>
    obtain ⟨hplace, heq⟩ := Option.ite_none_right_eq_some.mp hstep
    rw [← Option.some.inj heq]
    exact h.exit (by rw [hplace]; exact nofun)
  | written n => exact h.written hstep
  | writeError => exact h.writeError hstep

/-! ### The steps that are not sound -/

/-- After an error something is erased or written. -/
theorem not_safe_readError (hbuflen : s.buflen ≠ 1) (hlen : s.buflen ≤ bufsize)
    (hstep : d.step true s .readError = some s') : ¬Safe d buffer s' := by
  intro hsafe
  obtain ⟨hplace, heq⟩ := Option.ite_none_right_eq_some.mp hstep
  have hbufsize : bufsize = 16384 := rfl
  have hr : ¬d.sizeT (s.buflen + -1) ≤ 0 := by
    have hpow : (2 ^ 32 : ℤ) ≤ 2 ^ d.bits := by exact_mod_cast d.two_pow_le
    unfold Device.sizeT
    rcases Nat.eq_zero_or_pos s.buflen with hzero | hpos
    · have hmod : (s.buflen + -1 : ℤ) % 2 ^ d.bits = s.buflen + -1 + 2 ^ d.bits := by
        rw [← Int.add_emod_right, Int.emod_eq_of_lt (by omega) (by omega)]
      omega
    · have hmod : (s.buflen + -1 : ℤ) % 2 ^ d.bits = s.buflen + -1 :=
        Int.emod_eq_of_lt (by omega) (by omega)
      omega
  have hstops := hsafe.stops (by rw [← Option.some.inj heq]; rfl)
  have hnext : s'.place = .erase ∨ s'.place = .write := by
    rw [← Option.some.inj heq]
    change (if d.sizeT (s.buflen + -1) ≤ 0 then Place.closed else Device.nextPlace true _ _) = _ ∨
      (if d.sizeT (s.buflen + -1) ≤ 0 then Place.closed else Device.nextPlace true _ _) = _
    rw [if_neg hr]
    exact (nextPlace_cases _ _).imp And.right And.right
  exact hnext.elim hstops.1 hstops.2

/-- A total that has overflowed is not erased before it is written. -/
theorem not_safe_readData (h : Inv d buffer s) {bs : List UInt8}
    (hsound : ¬Sound d s (.readData bs)) (hstep : d.step true s (.readData bs) = some s') :
    ¬Safe d buffer s' := by
  intro hsafe
  obtain ⟨⟨hplace, hlen⟩, -⟩ := Option.ite_none_right_eq_some.mp hstep
  obtain ⟨hw, hbuflen, -, -⟩ := h.read hplace
  have hpow := d.two_pow_le
  have hbufsize : bufsize = 16384 := rfl
  have hsize := d.size_lt
  have hle := h.pos_le
  have hele := h.e_le
  obtain ⟨hover, herase⟩ := not_or.mp hsound
  have hmod : (s.w + (s.buflen + bs.length)) % 2 ^ d.bits =
      s.w + (s.buflen + bs.length) - 2 ^ d.bits := by
    rw [Nat.mod_eq_sub_mod (by omega), Nat.mod_eq_of_lt (by omega)]
  have hnext := readData_eq hbuflen hstep
  have hwrite : s'.place = .write := by
    rw [hnext]
    rcases nextPlace_cases ((s.w + (s.buflen + bs.length)) % 2 ^ d.bits) s.e with
      ⟨hlt, -⟩ | ⟨-, hwrite⟩
    · omega
    · exact (if_neg (by omega)).trans hwrite
  have hblank : s'.flash s.e = .blank := by
    apply hsafe.writes hwrite s.e
    · rw [hnext]
      exact hle
    · rw [hnext]
      change s.e < s.pos + (s.buflen + bs.length)
      omega
    · omega
  have hstale := h.stale s.e le_rfl
  rw [hnext] at hblank
  exact nomatch hstale.symm.trans hblank

/-- In a run with erasing, the device is written safely in every state that is reached if and only
if all answers are sound. -/
theorem mtdWrite_safe (d : Device) {buffer : List UInt8} (hlen : buffer.length ≤ bufsize)
    (answers : List Answer) :
    Always (d.step true) (Safe d buffer) (State.initial buffer) answers ↔
      Meets (d.step true) (Sound d) (State.initial buffer) answers := by
  apply always_iff_meets (fun s hs => hs.safe) (fun hs hstep hsound => inv_step hs hstep hsound) ?_
    (inv_initial hlen)
  intro s a s' hs hstep hsound
  cases a with
  | readData bs => exact not_safe_readData hs hsound hstep
  | readError =>
    obtain ⟨hplace, -⟩ := Option.ite_none_right_eq_some.mp hstep
    exact not_safe_readError hsound (hs.read hplace).2.1 hstep
  | eraseDone => exact (hsound trivial).elim
  | eraseError => exact (hsound trivial).elim
  | written n => exact (hsound trivial).elim
  | writeError => exact (hsound trivial).elim

namespace Samples

/-- Two blocks, on a machine with 32 bits. -/
def device : Device where
  size := 131072
  erasesize := 65536
  bits := 32
  size_lt := by decide
  erasesize_pos := by decide
  bits_le := le_rfl

/-- One byte is copied. -/
theorem mtdWrite_safe_byte : Always (device.step true) (Safe device []) (State.initial [])
    [.readData [0x41], .eraseDone, .written 1, .readData []] := by
  apply (mtdWrite_safe device (Nat.zero_le _) _).mpr
  rintro s₁ ⟨⟩
  refine ⟨.inl (by decide), ?_⟩
  rintro s₂ ⟨⟩
  refine ⟨trivial, ?_⟩
  rintro s₃ ⟨⟩
  refine ⟨trivial, ?_⟩
  rintro s₄ ⟨⟩
  exact ⟨.inl (by decide), trivial⟩

/-- After an error the device is erased. -/
theorem not_safe : ¬Always (device.step true) (Safe device []) (State.initial []) [.readError] := by
  intro h
  have hnext := (h.2 _ rfl).start
  exact not_safe_readError (s := State.initial []) (by decide) (by decide) rfl hnext

end Samples
end OpenADK.Mtd
