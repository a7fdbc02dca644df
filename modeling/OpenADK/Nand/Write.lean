import Mathlib.Data.List.Basic
import Mathlib.Algebra.Order.Ring.Int

/-!
# Writing an image to NAND flash

`nand_write`. The answers of the kernel are inputs of the model: how much each `read`
delivers, which page writes fail, and which requests to the driver fail. `mtdoffset` starts
at 0, since the program calls `nand_write` once; padding and marking bad blocks are on.
-/

namespace OpenADK.Nand

abbrev Bytes : Type := List UInt8

/-- The fields of `struct mtd_info_user`, and what the kernel promises of them. -/
structure MtdInfo where
  size : ℕ
  erasesize : ℕ
  writesize : ℕ
  oobsize : ℕ
  erasesize_pos : 0 < erasesize
  writesize_dvd : writesize ∣ erasesize
  erasesize_dvd : erasesize ∣ size
  size_lt : size < 2 ^ 32

/-- A regular file or standard input. -/
structure Source where
  image : Bytes
  stdin : Bool
  seekable : Bool

/-- The device, and the answers to come. When a list is used up, reads deliver all that they
can, and page writes and requests succeed. -/
structure World where
  flash : ℕ → UInt8
  /-- By the number of the erase block. -/
  bad : ℕ → Bool
  /-- How many bytes a `read` delivers at most, less one; nothing if it fails. -/
  reads : List (Option ℕ) := []
  /-- What a page write that fails leaves in the page; nothing if it succeeds. -/
  writes : List (Option Bytes) := []
  /-- Whether the driver carries out a request. -/
  ioctls : List Bool := []

/-- A system call that has failed, or a length that is negative. -/
inductive Failure
  | read
  | getBadBlock
  | write (readlen tinycnt : ℕ)
  | seek
  | erase
  | setBadBlock
  | negativeLength
  deriving DecidableEq, Repr

/-- The variables of `nand_write`, with the failures so far. -/
structure State extends World where
  failures : List Failure := []
  pos : ℕ := 0
  imglen : ℤ
  mtdoffset : ℕ := 0
  blockstart : Option ℕ := none
  writebuf : Bytes := List.replicate 4096 0

namespace State

def fail (s : State) (f : Failure) : State := { s with failures := s.failures ++ [f] }

def answer (s : State) : Bool := s.ioctls.headD true

def asked (s : State) : State := { s with ioctls := s.ioctls.tail }

end State

/-- The bytes from `off` on. -/
def put (flash : ℕ → UInt8) (off : ℕ) (bytes : Bytes) (a : ℕ) : UInt8 :=
  if off ≤ a ∧ a < off + bytes.length then bytes.getD (a - off) 0 else flash a

/-- `erase_buffer` on a part of the buffer. -/
def eraseBuffer (buf : Bytes) (off size : ℕ) : Bytes :=
  buf.take off ++ List.replicate size 0xff ++ buf.drop (off + size)

section
variable (d : MtdInfo) (src : Source)

/-- `mtdoffset & (~meminfo.erasesize + 1)`; the size of an erase block is a power of two. -/
def blockOf (offset : ℕ) : ℕ := offset / d.erasesize * d.erasesize

/-! ### Bad blocks -/

theorem blockOf_le (d : MtdInfo) (n : ℕ) : blockOf d n ≤ n := Nat.div_mul_le_self n _

theorem lt_blockOf_add (d : MtdInfo) (n : ℕ) : n < blockOf d n + d.erasesize :=
  Nat.lt_div_mul_add d.erasesize_pos

theorem writesize_pos (d : MtdInfo) : 0 < d.writesize :=
  Nat.pos_of_dvd_of_pos d.writesize_dvd d.erasesize_pos

/-- Takes the block at `mtdoffset` for `blockstart`, and asks the driver about it. -/
def enter (s : State) : State := { s.asked with blockstart := some (blockOf d s.mtdoffset) }

/-- The loop that skips bad blocks; `.error` leaves `nand_write`. The driver refuses an
offset that is not on the device, and one that is negative as an `int`. -/
def skipBad (s : State) : Except State State :=
  if s.blockstart = some (blockOf d s.mtdoffset) then .ok s
  else if d.size ≤ blockOf d s.mtdoffset then .error (enter d s)
  else if 2 ^ 31 ≤ blockOf d s.mtdoffset ∨ s.answer = false then
    .error ((enter d s).fail .getBadBlock)
  else if s.bad (blockOf d s.mtdoffset / d.erasesize) then
    skipBad { enter d s with mtdoffset := blockOf d s.mtdoffset + d.erasesize }
  else .ok (enter d s)
termination_by d.size + d.erasesize - s.mtdoffset
decreasing_by
  have hlt := lt_blockOf_add d s.mtdoffset
  omega

/-! ### Reading a page -/

inductive ReadEnd
  | full | eof | error
  deriving DecidableEq, Repr

structure Got where
  bytes : Bytes
  pos : ℕ
  reads : List (Option ℕ)
  ended : ReadEnd

/-- `while (tinycnt < readlen)`: reads `need` bytes more. -/
def readLoop (image : Bytes) : List (Option ℕ) → ℕ → ℕ → Bytes → Got
  | [], pos, need, got =>
    let bytes := (image.drop pos).take need
    ⟨got ++ bytes, pos + bytes.length, [], if bytes.length < need then .eof else .full⟩
  | answer :: reads, pos, need, got =>
    if need = 0 then ⟨got, pos, answer :: reads, .full⟩
    else
      match answer with
      | none => ⟨got, pos, reads, .error⟩
      | some k =>
        let bytes := (image.drop pos).take (min (k + 1) need)
        if bytes = [] then ⟨got, pos, reads, .eof⟩
        else readLoop image reads (pos + bytes.length) (need - bytes.length) (got ++ bytes)

/-- A page in the buffer: `readlen`, and how much of it has been read. -/
structure Page where
  state : State
  readlen : ℕ
  tinycnt : ℕ

def readFile (s : State) : Except State Page :=
  let readlen : ℤ := if s.imglen < d.writesize then s.imglen else d.writesize
  if readlen < 0 then .error (s.fail .negativeLength)
  else
    let n := readlen.toNat
    let buf := if s.imglen < d.writesize then eraseBuffer s.writebuf n (d.writesize - n) else s.writebuf
    let got := readLoop src.image s.reads s.pos n []
    let s := { s with
      pos := got.pos, reads := got.reads, writebuf := got.bytes ++ buf.drop got.bytes.length }
    match got.ended with
    | .error => .error (s.fail .read)
    | .eof | .full => .ok ⟨s, n, got.bytes.length⟩

def readStdin (s : State) : Except State Page :=
  let got := readLoop src.image s.reads s.pos d.writesize []
  let tinycnt := got.bytes.length
  let s := { s with
    pos := got.pos, reads := got.reads, writebuf := got.bytes ++ s.writebuf.drop tinycnt }
  match got.ended with
  | .error => .error (s.fail .read)
  | .eof =>
    if tinycnt = 0 then .error { s with imglen := 0 }
    else
      .ok ⟨{ s with
        imglen := 0, writebuf := eraseBuffer s.writebuf tinycnt (d.writesize - tinycnt) },
        d.writesize, tinycnt⟩
  | .full => .ok ⟨s, d.writesize, tinycnt⟩

def readPage (s : State) : Except State Page :=
  if src.stdin then readStdin d src s else readFile d src s

/-! ### Writing a page -/

def rewindBytes (s : State) : ℕ := (s.mtdoffset - s.blockstart.getD 0) / d.writesize * d.writesize

/-- Goes back to the start of the block in the input. -/
def rewind (p : Page) : Except State State :=
  if src.seekable = false ∨ p.state.pos < rewindBytes d p.state + p.readlen then
    .error (p.state.fail .seek)
  else .ok { p.state with pos := p.state.pos - (rewindBytes d p.state + p.readlen) }

/-- `MEMERASE` -/
def eraseBlock (s : State) : Except State State :=
  if s.answer = false then .error (s.asked.fail .erase)
  else
    .ok { s.asked with
      flash := put s.flash (s.blockstart.getD 0) (List.replicate d.erasesize 0xff) }

/-- `MEMSETBADBLOCK`; a failure does not matter to the loop. -/
def markBad (s : State) : State :=
  if s.answer then
    { s.asked with bad := Function.update s.bad (s.mtdoffset / d.erasesize) true }
  else s.asked.fail .setBadBlock

def recover (p : Page) : Except State State :=
  match rewind d src p with
  | .error s => .error s
  | .ok s =>
    match eraseBlock d s with
    | .error s => .error s
    | .ok s =>
      .ok { markBad d s with
        mtdoffset := s.blockstart.getD 0 + d.erasesize
        imglen := s.imglen + rewindBytes d s }

def writePage (p : Page) : Except State State :=
  let s := p.state
  let page := s.writebuf.take d.writesize
  match s.writes.headD none with
  | none =>
    .ok { s with
      writes := s.writes.tail
      flash := put s.flash s.mtdoffset page
      imglen := if src.stdin then s.imglen else s.imglen - p.readlen
      mtdoffset := s.mtdoffset + d.writesize }
  | some garbage =>
    let s := { s with
      writes := s.writes.tail
      flash := put s.flash s.mtdoffset (garbage.take d.writesize) }
    recover d src { p with state := s.fail (.write p.readlen p.tinycnt) }

/-! ### The loop -/

/-- The body of the loop; `.error` leaves it. -/
def body (s : State) : Except State State :=
  match skipBad d s with
  | .error s => .error s
  | .ok s =>
    match readPage d src s with
    | .error s => .error s
    | .ok p => writePage d src p

end

variable {d : MtdInfo} {src : Source} {s s' : State} {p : Page}

theorem skipBad_ok (h : skipBad d s = .ok s') :
    s.mtdoffset ≤ s'.mtdoffset ∧ s'.blockstart = some (blockOf d s'.mtdoffset) := by
  induction s using skipBad.induct d with
  | case1 s hb =>
    rw [skipBad, if_pos hb] at h
    cases h
    exact ⟨le_rfl, hb⟩
  | case2 s hb hsize =>
    rw [skipBad, if_neg hb, if_pos hsize] at h
    cases h
  | case3 s hb hsize hfail =>
    rw [skipBad, if_neg hb, if_neg hsize, if_pos hfail] at h
    cases h
  | case4 s hb hsize hfail hbad ih =>
    rw [skipBad, if_neg hb, if_neg hsize, if_neg hfail, if_pos hbad] at h
    obtain ⟨hle, hstart⟩ := ih h
    exact ⟨(lt_blockOf_add d s.mtdoffset).le.trans hle, hstart⟩
  | case5 s hb hsize hfail hbad =>
    rw [skipBad, if_neg hb, if_neg hsize, if_neg hfail, if_neg hbad] at h
    cases h
    exact ⟨le_rfl, rfl⟩

theorem readPage_ok (h : readPage d src s = .ok p) :
    p.state.mtdoffset = s.mtdoffset ∧ p.state.blockstart = s.blockstart := by
  unfold readPage at h
  split at h
  · simp only [readStdin] at h
    split at h
    · cases h
    · split_ifs at h
      cases h
      exact ⟨rfl, rfl⟩
    · cases h
      exact ⟨rfl, rfl⟩
  · simp only [readFile] at h
    split_ifs at h
    all_goals
      split at h
      · cases h
      · cases h
        exact ⟨rfl, rfl⟩
      · cases h
        exact ⟨rfl, rfl⟩

theorem rewind_ok (h : rewind d src p = .ok s') :
    src.seekable ∧ rewindBytes d p.state + p.readlen ≤ p.state.pos ∧
      s' = { p.state with pos := p.state.pos - (rewindBytes d p.state + p.readlen) } := by
  unfold rewind at h
  split_ifs at h with hseek
  cases h
  rw [not_or, not_lt, Bool.not_eq_false] at hseek
  exact ⟨hseek.1, hseek.2, rfl⟩

theorem eraseBlock_ok (h : eraseBlock d s = .ok s') :
    s' = { s.asked with
      flash := put s.flash (s.blockstart.getD 0) (List.replicate d.erasesize 0xff) } := by
  unfold eraseBlock at h
  split_ifs at h
  cases h
  rfl

/-- A failed write that `nand_write` survives. -/
theorem recover_ok (h : recover d src p = .ok s') :
    ∃ s1 s2, rewind d src p = .ok s1 ∧ eraseBlock d s1 = .ok s2 ∧
      s' = { markBad d s2 with
        mtdoffset := s2.blockstart.getD 0 + d.erasesize
        imglen := s2.imglen + rewindBytes d s2 } := by
  unfold recover at h
  split at h
  · cases h
  · next s1 h1 =>
    split at h
    · cases h
    · next s2 h2 =>
      cases h
      exact ⟨s1, s2, h1, h2, rfl⟩

theorem lt_of_recover_ok (hstart : p.state.blockstart = some (blockOf d p.state.mtdoffset))
    (h : recover d src p = .ok s') : p.state.mtdoffset < s'.mtdoffset := by
  obtain ⟨s1, s2, h1, h2, rfl⟩ := recover_ok h
  obtain ⟨-, -, rfl⟩ := rewind_ok h1
  obtain rfl := eraseBlock_ok h2
  show p.state.mtdoffset < p.state.blockstart.getD 0 + d.erasesize
  rw [hstart]
  exact lt_blockOf_add d p.state.mtdoffset

theorem lt_of_writePage_ok (hstart : p.state.blockstart = some (blockOf d p.state.mtdoffset))
    (h : writePage d src p = .ok s') : p.state.mtdoffset < s'.mtdoffset := by
  unfold writePage at h
  simp only at h
  split at h
  · cases h
    exact Nat.lt_add_of_pos_right (writesize_pos d)
  · have hlt := lt_of_recover_ok (by exact hstart) h
    exact hlt

theorem lt_of_body_ok (h : body d src s = .ok s') : s.mtdoffset < s'.mtdoffset := by
  unfold body at h
  split at h
  · cases h
  · next t ht =>
    obtain ⟨hle, hstart⟩ := skipBad_ok ht
    split at h
    · cases h
    · next p hp =>
      obtain ⟨hoffset, hblock⟩ := readPage_ok hp
      have hlt := lt_of_writePage_ok (by rw [hblock, hoffset, hstart]) h
      omega

def writeLoop (d : MtdInfo) (src : Source) (s : State) : State :=
  if s.imglen ≠ 0 ∧ s.mtdoffset < d.size then
    match _h : body d src s with
    | .error s' => s'
    | .ok s' => writeLoop d src s'
  else s
termination_by d.size - s.mtdoffset
decreasing_by
  have := lt_of_body_ok _h
  omega

/-! ### `nand_write` -/

inductive ExitCode
  | success | failure
  deriving DecidableEq, Repr

/-- Normal NAND. -/
def MtdInfo.supported (d : MtdInfo) : Bool :=
  d.oobsize = 16 && d.writesize = 512 || d.oobsize = 8 && d.writesize = 256 ||
    d.oobsize = 64 && d.writesize = 2048 || d.oobsize = 128 && d.writesize = 4096

/-- `imglen`, which is an `int`; for standard input it is a flag. -/
def initialLength (d : MtdInfo) (src : Source) : ℤ :=
  if src.stdin then d.writesize else (src.image.length : ℤ).bmod (2 ^ 32)

/-- The fit check, which is unsigned. -/
def fits (d : MtdInfo) (imglen : ℤ) : Bool :=
  (imglen.tdiv d.writesize * d.writesize) % 2 ^ 32 ≤ d.size

/-- The device and the source are missing if they cannot be opened. The test for data that is
left at the end stands in a comment, so every way out of the loop ends in success. -/
def nandWrite (device : Option MtdInfo) (source : Option Source) (w : World) : ExitCode × State :=
  match device with
  | none => (.failure, { w with imglen := 0 })
  | some d =>
    if d.supported then
      match source with
      | none => (.success, { w with imglen := 0 })
      | some src =>
        let s : State := { w with imglen := initialLength d src }
        if fits d s.imglen then (.success, writeLoop d src s) else (.success, s)
    else (.failure, { w with imglen := 0 })

end OpenADK.Nand
