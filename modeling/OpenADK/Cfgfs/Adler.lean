import OpenADK.Cfgfs.Wraps
import OpenADK.Library.WeightedSum

/-!
# `ADLER_CALC` is Adler-32

The reductions come before an accumulator can overflow, so that the accumulators are the sums of
Adler-32 modulo the largest prime below 65536.
-/

namespace OpenADK.Cfgfs
open WeightedSum
variable {buf buf' : Bytes} {s : Sums}

def base : ℕ := adlerBase.toNat

def numbers (buf : Bytes) : List ℕ := buf.map UInt8.toNat

/-- No addition on these bytes exceeds an `unsigned`. -/
def Fits : Bytes → Sums → Prop
  | [], _ => True
  | b :: buf, s => s.1.toNat + b.toNat < 2 ^ 32 ∧ s.2.toNat + (s.1.toNat + b.toNat) < 2 ^ 32 ∧
      Fits buf (adlerByte s b)

/-- No addition of `ADLER_CALC` exceeds an `unsigned`. -/
def NeverOverflows (buf : Bytes) (s : Sums) : Prop :=
  if buf = [] then True
  else
    let t := (buf.take adlerNmax).foldl adlerByte s
    Fits (buf.take adlerNmax) s ∧
      NeverOverflows (buf.drop adlerNmax) (t.1 % adlerBase, t.2 % adlerBase)
termination_by buf.length
decreasing_by
  have := List.length_pos_iff.mpr ‹_›
  simp only [List.length_drop, adlerNmax]
  omega

def values (s : Sums) : ℕ × ℕ := (s.1.toNat, s.2.toNat)

def Reduced (s : Sums) : Prop := s.1.toNat < base ∧ s.2.toNat < base

theorem weighted_le (buf : Bytes) :
    2 * weighted (numbers buf) ≤ 255 * (buf.length * (buf.length + 1)) := by
  induction buf with
  | nil => simp [numbers, weighted]
  | cons b buf ih =>
    have hb : b.toNat ≤ 255 := Nat.le_of_lt_succ b.toNat_lt
    have hmul := Nat.mul_le_mul_left (2 * (buf.length + 1)) hb
    simp only [numbers, List.map_cons, weighted, List.length_map, List.length_cons] at ih ⊢
    nlinarith

theorem sum_le (buf : Bytes) : (numbers buf).sum ≤ 255 * buf.length := by
  induction buf with
  | nil => simp [numbers]
  | cons b buf ih =>
    have hb : b.toNat ≤ 255 := Nat.le_of_lt_succ b.toNat_lt
    simp only [numbers, List.map_cons, List.sum_cons, List.length_cons] at ih ⊢
    omega

/-- As long as nothing exceeds an `unsigned` at the end, nothing does before. -/
theorem fits_of_lt (h1 : s.1.toNat + (numbers buf).sum < 2 ^ 32)
    (h2 : s.2.toNat + buf.length * s.1.toNat + weighted (numbers buf) < 2 ^ 32) :
    Fits buf s ∧ values (buf.foldl adlerByte s) = (numbers buf).foldl step (values s) := by
  induction buf generalizing s with
  | nil => exact ⟨trivial, rfl⟩
  | cons b buf ih =>
    simp only [numbers, List.map_cons, List.sum_cons, weighted, List.length_cons,
      List.length_map] at h1 h2
    have hb : s.1.toNat + b.toNat < 2 ^ 32 := by omega
    have hsum : s.2.toNat + (s.1.toNat + b.toNat) < 2 ^ 32 := by nlinarith
    have hs1 : (adlerByte s b).1.toNat = s.1.toNat + b.toNat := by
      rw [adlerByte, UInt32.toNat_add, UInt8.toNat_toUInt32, Nat.mod_eq_of_lt hb]
    have hs2 : (adlerByte s b).2.toNat = s.2.toNat + (s.1.toNat + b.toNat) := by
      rw [adlerByte, UInt32.toNat_add, UInt32.toNat_add, UInt8.toNat_toUInt32, Nat.mod_eq_of_lt hb,
        Nat.mod_eq_of_lt hsum]
    obtain ⟨hfits, hvalues⟩ := @ih (adlerByte s b) (by rw [hs1, numbers]; omega) (by
      rw [hs1, hs2, numbers]
      nlinarith)
    refine ⟨⟨hb, hsum, hfits⟩, ?_⟩
    rw [List.foldl_cons, hvalues, numbers, numbers, List.map_cons, List.foldl_cons]
    congr 1
    rw [values, values, step, hs1, hs2]

/-- A chunk of `ADLER_NMAX` bytes fits when the accumulators are reduced before it. -/
theorem chunk_fits (hlen : buf.length ≤ adlerNmax) (hs : Reduced s) :
    Fits buf s ∧ values (buf.foldl adlerByte s) =
      (s.1.toNat + (numbers buf).sum,
        s.2.toNat + buf.length * s.1.toNat + weighted (numbers buf)) := by
  have hbase : base = 65521 := rfl
  obtain ⟨h1, h2⟩ := hs
  rw [hbase] at h1 h2
  rw [adlerNmax] at hlen
  have hsum := sum_le buf
  have hweighted := weighted_le buf
  have hprod : buf.length * s.1.toNat ≤ 5552 * 65520 := Nat.mul_le_mul hlen (by omega)
  have hsquare : buf.length * (buf.length + 1) ≤ 5552 * 5553 :=
    Nat.mul_le_mul hlen (by omega)
  obtain ⟨hfits, hvalues⟩ := @fits_of_lt buf s (by omega) (by omega)
  refine ⟨hfits, ?_⟩
  rw [hvalues, foldl_step, numbers, List.length_map]
  rfl

theorem toNat_mod_base (x : UInt32) : (x % adlerBase).toNat = x.toNat % base :=
  UInt32.toNat_mod x adlerBase

theorem reduced_mod (x y : UInt32) : Reduced (x % adlerBase, y % adlerBase) := by
  have hpos : 0 < base := by decide
  constructor
  · rw [toNat_mod_base]
    exact Nat.mod_lt _ hpos
  · rw [toNat_mod_base]
    exact Nat.mod_lt _ hpos

/-- From reduced accumulators `ADLER_CALC` adds up the bytes modulo the base. -/
theorem adlerCalc_eq (buf : Bytes) (s : Sums) (hs : Reduced s) :
    NeverOverflows buf s ∧ Reduced (adlerCalc buf s) ∧
      values (adlerCalc buf s) = residues base (values s) (numbers buf) := by
  induction buf, s using adlerCalc.induct with
  | case1 s =>
    rw [NeverOverflows, if_pos rfl, adlerCalc, if_pos rfl]
    refine ⟨trivial, hs, ?_⟩
    simp only [residues, values, numbers, List.map_nil, List.sum_nil, List.length_nil, weighted,
      Nat.add_zero, Nat.zero_mul, Nat.mod_eq_of_lt hs.1, Nat.mod_eq_of_lt hs.2]
  | case2 buf s hne t ih =>
    have hlen : (buf.take adlerNmax).length ≤ adlerNmax := List.length_take_le _ _
    obtain ⟨hfits, hvalues⟩ := chunk_fits hlen hs
    obtain ⟨hnever, hreduced, hrest⟩ := ih (reduced_mod _ _)
    rw [NeverOverflows, if_neg hne, adlerCalc, if_neg hne]
    refine ⟨⟨hfits, hnever⟩, hreduced, ?_⟩
    -- the reduction after the chunk
    have hchunk : values (t.1 % adlerBase, t.2 % adlerBase) =
        residues base (values s) (numbers (buf.take adlerNmax)) := by
      obtain ⟨h1, h2⟩ := Prod.mk.inj hvalues
      have hlength : (numbers (buf.take adlerNmax)).length = (buf.take adlerNmax).length :=
        List.length_map _
      rw [values, toNat_mod_base, toNat_mod_base, h1, h2, residues, hlength]
      rfl
    rw [hrest, hchunk, residues_append, numbers, numbers, ← List.map_append,
      List.take_append_drop]
    rfl

/-- Two buffers after each other are read as one. -/
theorem adlerCalc_append (hs : Reduced s) :
    adlerCalc buf' (adlerCalc buf s) = adlerCalc (buf ++ buf') s := by
  obtain ⟨-, hreduced, hfirst⟩ := adlerCalc_eq buf s hs
  obtain ⟨-, -, hsecond⟩ := adlerCalc_eq buf' (adlerCalc buf s) hreduced
  obtain ⟨-, -, hboth⟩ := adlerCalc_eq (buf ++ buf') s hs
  have hvalues : values (adlerCalc buf' (adlerCalc buf s)) = values (adlerCalc (buf ++ buf') s) := by
    rw [hsecond, hfirst, hboth, residues_append, numbers, numbers, numbers, List.map_append]
  obtain ⟨h1, h2⟩ := Prod.mk.inj hvalues
  exact Prod.ext (UInt32.toNat_inj.mp h1) (UInt32.toNat_inj.mp h2)

/-! ### Adler-32 -/

def adlerA (buf : Bytes) : ℕ := (1 + (numbers buf).sum) % 65521

/-- The second sum: that of the first sums of the prefixes. -/
def adlerB (buf : Bytes) : ℕ := (buf.inits.tail.map adlerA).sum % 65521

theorem reduced_init : Reduced (1, 0) := ⟨by decide, by decide⟩

theorem adlerB_eq (buf : Bytes) :
    adlerB buf = (buf.length + weighted (numbers buf)) % 65521 := by
  have hmap : buf.inits.tail.map adlerA =
      ((numbers buf).inits.tail.map fun xs => 1 + xs.sum).map (· % 65521) := by
    rw [numbers, List.map_inits, ← List.map_tail, List.map_map, List.map_map]
    rfl
  rw [adlerB, hmap, sum_map_mod, sum_inits, numbers, List.length_map, Nat.mul_one]

/-- `ADLER_CALC` is Adler-32, at once or in two parts. -/
theorem adlerCalc_adler32 :
    (∀ buf : Bytes, NeverOverflows buf (1, 0) ∧ (adlerCalc buf (1, 0)).1.toNat = adlerA buf ∧
      (adlerCalc buf (1, 0)).2.toNat = adlerB buf) ∧
    ∀ buf buf' : Bytes, NeverOverflows buf' (adlerCalc buf (1, 0)) ∧
      adlerCalc buf' (adlerCalc buf (1, 0)) = adlerCalc (buf ++ buf') (1, 0) := by
  constructor
  · intro buf
    obtain ⟨hnever, -, hvalues⟩ := adlerCalc_eq buf (1, 0) reduced_init
    obtain ⟨h1, h2⟩ := Prod.mk.inj hvalues
    refine ⟨hnever, h1, ?_⟩
    rw [adlerB_eq, h2]
    congr 1
    simp [values, numbers]
  · intro buf buf'
    obtain ⟨-, hreduced, -⟩ := adlerCalc_eq buf (1, 0) reduced_init
    exact ⟨(adlerCalc_eq buf' _ hreduced).1, adlerCalc_append reduced_init⟩

end OpenADK.Cfgfs
