import OpenADK.Library.Chains
import OpenADK.Pkgmaker.Assignments

/-!
# The string map

`strmap.c`: a hash table with chains, and the list of pairs that the rest of this
development takes for it. The loop of `hash` compares where it should assign. It stops at the
first character that is not NUL, so that all keys but the empty one have the same hash.
-/

namespace OpenADK.Pkgmaker
namespace Strmap

/-- `struct Pair`, with the number of bytes that are allocated for the value. -/
structure Pair where
  key : Bytes
  value : Bytes
  room : ℕ
  fits : value.length < room

def Pair.entry (p : Pair) : Bytes × Bytes := (p.key, p.value)

/-- `struct StrMap`. The counts are the lengths. -/
structure Table where
  buckets : List (List Pair)

def Table.count (map : Table) : ℕ := map.buckets.length

/-- Which of its allocations succeed when a pair is put. -/
structure Allocations where
  /-- `realloc` of a value that grows. -/
  grown : Bool := true
  key : Bool := true
  value : Bool := true
  /-- `malloc` or `realloc` of the pairs of the bucket. -/
  pairs : Bool := true

/-- The loop of `hash` on the memory from `str` on; nothing when it leaves that memory. -/
def hashLoop (hash : UInt64) : Bytes → Option UInt64
  | [] => none
  | c :: str => if c = 0 then hashLoop (((hash <<< 5) + hash) + 0) str else some hash

/-- `hash`. -/
def hash (str : Bytes) : Option UInt64 := hashLoop 5381 str

/-- `hash(key) % map->count`, where the memory goes on with `beyond` after the key. -/
def index (map : Table) (key beyond : Bytes) : Option ℕ :=
  if map.count = 0 then none
  else (hash (key ++ 0 :: beyond)).map fun hash => hash.toNat % map.count

/-- `strmap_new`. -/
def strmapNew (capacity : ℕ) : Table := ⟨List.replicate capacity []⟩

/-- `get_pair`. -/
def getPair (bucket : List Pair) (key : Bytes) : Option Pair := bucket.find? fun p => p.key = key

/-- The number that `strmap_get` returns and what it copies to `out_buf`, which has `size` bytes or
is a null pointer. -/
def strmapGet (map : Table) (key beyond : Bytes) (outBuf : Bool) (size : ℕ) :
    Option (ℕ × Option Bytes) :=
  (index map key beyond).map fun index =>
    match getPair (Chains.chain map.buckets index) key with
    | none => (0, none)
    | some pair =>
      if outBuf = false ∧ size = 0 then (pair.value.length + 1, none)
      else if outBuf = false then (0, none)
      else if pair.value.length ≥ size then (0, none)
      else (1, some pair.value)

/-- `strmap_exists`. -/
def strmapExists (map : Table) (key beyond : Bytes) : Option ℕ :=
  (index map key beyond).map fun index =>
    if (getPair (Chains.chain map.buckets index) key).isSome then 1 else 0

/-- `strcpy (pair->value, value)`, after `realloc` when the value grows. -/
def Pair.assign (p : Pair) (value : Bytes) (grown : Bool) : Option Pair :=
  if h : p.value.length < value.length then
    if grown then some ⟨p.key, value, value.length + 1, Nat.lt_succ_self _⟩ else none
  else some ⟨p.key, value, p.room, (not_lt.mp h).trans_lt p.fits⟩

def Pair.new (key value : Bytes) : Pair := ⟨key, value, value.length + 1, Nat.lt_succ_self _⟩

/-- `strmap_put`. -/
def strmapPut (map : Table) (key beyond value : Bytes) (mem : Allocations) :
    Option (ℕ × Table) :=
  (index map key beyond).map fun index =>
    let bucket := Chains.chain map.buckets index
    match getPair bucket key with
    | some pair =>
      match pair.assign value mem.grown with
      | none => (0, map)
      | some pair => (1, ⟨map.buckets.set index (Chains.replace Pair.key key pair bucket)⟩)
    | none =>
      if mem.key && mem.value && mem.pairs then
        (1, ⟨map.buckets.set index (bucket ++ [Pair.new key value])⟩)
      else (0, map)

/-- `strmap_get_count`. -/
def strmapGetCount (map : Table) : ℕ :=
  map.buckets.foldl (fun count bucket => bucket.foldl (fun count _ => count + 1) count) 0

/-- `strmap_enum`, where `enum_func` changes a state. -/
def strmapEnum {σ : Type} (map : Table) (enumFunc : Bytes → Bytes → σ → σ) (s : σ) : σ :=
  map.buckets.foldl
    (fun s bucket => bucket.foldl (fun s pair => enumFunc pair.key pair.value s) s) s

/-! ### The list of pairs -/

def slot (map : Table) : ℕ := 5381 % map.count

structure Represents (map : Table) (pairs : StrMap) : Prop where
  pos : 0 < map.count
  bucket : (Chains.chain map.buckets (slot map)).map Pair.entry = pairs
  empty : ∀ i ≠ slot map, Chains.chain map.buckets i = []
  nodup : (pairs.map Prod.fst).Nodup

def IsKey (key : Bytes) : Prop := key ≠ [] ∧ (0 : UInt8) ∉ key

variable {map : Table} {pairs : StrMap} {key beyond value : Bytes} {bucket : List Pair} {p : Pair}

theorem index_eq (hpos : 0 < map.count) (hkey : IsKey key) :
    index map key beyond = some (slot map) := by
  obtain ⟨c, key, rfl⟩ := List.exists_cons_of_ne_nil hkey.1
  have hc : c ≠ 0 := fun h => hkey.2 (h ▸ List.mem_cons_self)
  rw [index, if_neg (Nat.pos_iff_ne_zero.mp hpos), hash, List.cons_append, hashLoop, if_neg hc]
  rfl

theorem getPair_eq_lookup (bucket : List Pair) (key : Bytes) :
    (getPair bucket key).map Pair.value = (bucket.map Pair.entry).lookup key := by
  induction bucket with
  | nil => rfl
  | cons p bucket ih =>
    rw [getPair, List.find?_cons, List.map_cons, Pair.entry, List.lookup_cons]
    by_cases h : p.key = key
    · simp [h]
    · rw [decide_eq_false h, beq_eq_false_iff_ne.mpr (Ne.symm h)]
      exact ih

theorem keys_entry (bucket : List Pair) :
    (bucket.map Pair.entry).map Prod.fst = bucket.map Pair.key := by
  rw [List.map_map]
  rfl

theorem getPair_isSome_iff : (getPair bucket key).isSome = true ↔ key ∈ bucket.map Pair.key := by
  simp only [getPair, List.find?_isSome, decide_eq_true_eq, List.mem_map]

theorem Pair.assign_eq {q : Pair} {grown : Bool} (h : p.assign value grown = some q) :
    q.entry = (p.key, value) := by
  unfold Pair.assign at h
  split at h
  · split at h
    · cases h
      rfl
    · cases h
  · cases h
    rfl

/-- A pair that is found is assigned in its place. -/
theorem entry_replace {q : Pair} (hnodup : (bucket.map Pair.key).Nodup)
    (hq : q.entry = (key, value)) : (Chains.replace Pair.key key q bucket).map Pair.entry =
      (bucket.map Pair.entry).map fun p => if p.1 = key then (key, value) else p := by
  rw [Chains.replace_eq_map hnodup, List.map_map, List.map_map]
  refine List.map_congr_left fun p _ => ?_
  simp only [Function.comp_apply]
  rw [apply_ite Pair.entry, hq]
  rfl

theorem nodup_put (h : (pairs.map Prod.fst).Nodup) (key value : Bytes) :
    ((pairs.put key value).map Prod.fst).Nodup := by
  unfold StrMap.put
  split
  · have hkeys : (pairs.map fun p => if p.1 = key then (key, value) else p).map Prod.fst =
        pairs.map Prod.fst := by
      rw [List.map_map]
      refine List.map_congr_left fun p _ => ?_
      simp only [Function.comp_apply]
      split
      · next hp => exact hp.symm
      · rfl
    rwa [hkeys]
  · next hkey =>
    rw [List.map_append, List.map_singleton]
    exact List.nodup_append.mpr ⟨h, List.nodup_singleton _, fun a ha b hb =>
      fun hab => hkey ((hab.trans (List.mem_singleton.mp hb) : a = key) ▸ ha)⟩

/-! ### The operations -/

section
variable (hmap : Represents map pairs)
include hmap

theorem Represents.slot_lt : slot map < map.buckets.length := Nat.mod_lt _ hmap.pos

theorem Represents.setBucket {bucket : List Pair} {pairs' : StrMap}
    (hbucket : bucket.map Pair.entry = pairs') (hnodup : (pairs'.map Prod.fst).Nodup) :
    Represents ⟨map.buckets.set (slot map) bucket⟩ pairs' := by
  have hcount : (⟨map.buckets.set (slot map) bucket⟩ : Table).count = map.count :=
    List.length_set
  have hslot : slot ⟨map.buckets.set (slot map) bucket⟩ = slot map := by rw [slot, hcount, slot]
  refine ⟨hcount ▸ hmap.pos, ?_, fun i hi => ?_, hnodup⟩
  · rw [hslot, Chains.chain_set_self hmap.slot_lt, hbucket]
  · rw [hslot] at hi
    rw [Chains.chain_set_of_ne hi, hmap.empty i hi]

/-- A put that fails leaves the table as it is, and any other puts the pair. -/
theorem Represents.strmapPut (hkey : IsKey key) (beyond value : Bytes) (mem : Allocations) :
    strmapPut map key beyond value mem = some (0, map) ∨
      ∃ map', strmapPut map key beyond value mem = some (1, map') ∧
        Represents map' (pairs.put key value) := by
  have hnodup : ((Chains.chain map.buckets (slot map)).map Pair.key).Nodup := by
    rw [← keys_entry, hmap.bucket]
    exact hmap.nodup
  have hmem : (getPair (Chains.chain map.buckets (slot map)) key).isSome = true ↔
      key ∈ pairs.map Prod.fst := by
    rw [getPair_isSome_iff, ← keys_entry, hmap.bucket]
  unfold Strmap.strmapPut
  rw [index_eq hmap.pos hkey, Option.map_some]
  cases hget : getPair (Chains.chain map.buckets (slot map)) key with
  | some pair =>
    have hpair : pair.key = key := by simpa using List.find?_some hget
    rw [hget] at hmem
    cases hassign : pair.assign value mem.grown with
    | none => exact .inl (by simp only [hget, hassign])
    | some q =>
      refine .inr ⟨_, by simp only [hget, hassign]; rfl,
        hmap.setBucket ?_ (nodup_put hmap.nodup _ _)⟩
      rw [entry_replace hnodup (hpair ▸ Pair.assign_eq hassign), hmap.bucket, StrMap.put,
        if_pos (hmem.mp rfl)]
  | none =>
    rw [hget] at hmem
    have hnot : key ∉ pairs.map Prod.fst := fun h => Bool.false_ne_true (hmem.mpr h)
    by_cases halloc : (mem.key && mem.value && mem.pairs) = true
    · refine .inr ⟨_, by simp only [hget, halloc, if_true]; rfl,
        hmap.setBucket ?_ (nodup_put hmap.nodup _ _)⟩
      rw [List.map_append, hmap.bucket, StrMap.put, if_neg hnot]
      rfl
    · exact .inl (by simp only [hget, if_neg halloc])

theorem Represents.strmapGet (hkey : IsKey key) (beyond : Bytes) {size : ℕ} :
    strmapGet map key beyond true size =
      some (match pairs.get key size with
        | none => (0, none)
        | some value => (1, some value)) := by
  unfold Strmap.strmapGet StrMap.get
  rw [index_eq hmap.pos hkey, Option.map_some, ← hmap.bucket, ← getPair_eq_lookup]
  cases getPair (Chains.chain map.buckets (slot map)) key with
  | none => rfl
  | some pair =>
    simp only [Option.map_some, Option.filter_some, decide_eq_true_eq, Bool.true_eq_false,
      false_and, if_false]
    by_cases hfits : pair.value.length < size
    · rw [if_neg (not_le.mpr hfits), if_pos hfits]
    · rw [if_pos (not_lt.mp hfits), if_neg hfits]

theorem Represents.strmapExists (hkey : IsKey key) (beyond : Bytes) :
    strmapExists map key beyond = some (if (pairs.lookup key).isSome then 1 else 0) := by
  unfold Strmap.strmapExists
  rw [index_eq hmap.pos hkey, Option.map_some, ← hmap.bucket, ← getPair_eq_lookup,
    Option.isSome_map]

theorem Represents.flatten : map.buckets.flatten.map Pair.entry = pairs := by
  rw [Chains.flatten_eq_chain hmap.empty, hmap.bucket]

/-- The pairs are visited in the order of the list. -/
theorem Represents.strmapEnum {σ : Type} (enumFunc : Bytes → Bytes → σ → σ) (s : σ) :
    strmapEnum map enumFunc s = pairs.foldl (fun s p => enumFunc p.1 p.2 s) s := by
  rw [← hmap.flatten, List.foldl_map, List.foldl_flatten]
  rfl

theorem Represents.strmapGetCount : strmapGetCount map = pairs.length := by
  have hcount : Strmap.strmapGetCount map = map.buckets.flatten.foldl (fun n _ => n + 1) 0 :=
    List.foldl_flatten.symm
  rw [hcount, ← hmap.flatten, List.length_map]
  have hlen (l : List Pair) (n : ℕ) : l.foldl (fun n _ => n + 1) n = n + l.length := by
    induction l generalizing n with
    | nil => rfl
    | cons p l ih => rw [List.foldl_cons, ih, List.length_cons]; omega
  rw [hlen, Nat.zero_add]

end

theorem represents_strmapNew {capacity : ℕ} (h : 0 < capacity) :
    Represents (strmapNew capacity) [] := by
  have hchain (i : ℕ) : Chains.chain (strmapNew capacity).buckets i = [] := by
    rw [Chains.chain, List.getD_eq_getElem?_getD, strmapNew, List.getElem?_replicate]
    split <;> rfl
  refine ⟨?_, ?_, fun i _ => hchain i, List.nodup_nil⟩
  · rwa [Table.count, strmapNew, List.length_replicate]
  · rw [hchain, List.map_nil]

/-! ### Runs -/

/-- A call of `strmap_put`. -/
structure Put where
  key : Bytes
  beyond : Bytes
  value : Bytes
  mem : Allocations

def puts : List Put → Table → Option (List ℕ × Table)
  | [], map => some ([], map)
  | put :: rest, map =>
    (strmapPut map put.key put.beyond put.value put.mem).bind fun one =>
      (puts rest one.2).map fun all => (one.1 :: all.1, all.2)

/-- The list of pairs after the calls that returned 1. -/
def accepted (pairs : StrMap) (calls : List Put) (rets : List ℕ) : StrMap :=
  (calls.zip rets).foldl
    (fun pairs call => if call.2 = 1 then pairs.put call.1.key call.1.value else pairs) pairs

theorem Represents.puts {calls : List Put} (hkeys : ∀ put ∈ calls, IsKey put.key)
    (hmap : Represents map pairs) :
    ∃ rets map', puts calls map = some (rets, map') ∧ rets.length = calls.length ∧
      Represents map' (accepted pairs calls rets) := by
  induction calls generalizing map pairs with
  | nil => exact ⟨[], map, rfl, rfl, hmap⟩
  | cons put calls ih =>
    have hrest := fun put hput => hkeys put (List.mem_cons_of_mem _ hput)
    rcases hmap.strmapPut (hkeys put List.mem_cons_self) put.beyond put.value put.mem with
      hput | ⟨map1, hput, hmap1⟩
    · obtain ⟨rets, map', hrun, hlen, hmap'⟩ := ih hrest hmap
      exact ⟨0 :: rets, map', by rw [Strmap.puts, hput, Option.bind_some, hrun]; rfl,
        congrArg (· + 1) hlen, hmap'⟩
    · obtain ⟨rets, map', hrun, hlen, hmap'⟩ := ih hrest hmap1
      exact ⟨1 :: rets, map', by rw [Strmap.puts, hput, Option.bind_some, hrun]; rfl,
        congrArg (· + 1) hlen, hmap'⟩

/-- Any calls of `strmap_put` on a new table leave a table that answers like the list of the pairs
that were accepted, and is enumerated in its order. -/
theorem strmap_refines {capacity : ℕ} (hcapacity : 0 < capacity) {calls : List Put}
    (hkeys : ∀ put ∈ calls, IsKey put.key) :
    ∃ rets map, puts calls (strmapNew capacity) = some (rets, map) ∧ rets.length = calls.length ∧
      (∀ key beyond size, IsKey key → strmapGet map key beyond true size =
        some (match (accepted [] calls rets).get key size with
          | none => (0, none)
          | some value => (1, some value))) ∧
      (∀ key beyond, IsKey key → strmapExists map key beyond =
        some (if ((accepted [] calls rets).lookup key).isSome then 1 else 0)) ∧
      (∀ (σ : Type) (enumFunc : Bytes → Bytes → σ → σ) s, strmapEnum map enumFunc s =
        (accepted [] calls rets).foldl (fun s p => enumFunc p.1 p.2 s) s) ∧
      strmapGetCount map = (accepted [] calls rets).length := by
  obtain ⟨rets, map, hrun, hlen, hmap⟩ := (represents_strmapNew hcapacity).puts hkeys
  exact ⟨rets, map, hrun, hlen, fun key beyond size hkey => hmap.strmapGet hkey beyond,
    fun key beyond hkey => hmap.strmapExists hkey beyond, fun σ enumFunc s =>
    hmap.strmapEnum enumFunc s, hmap.strmapGetCount⟩

/-- Two keys and a longer value for the first of them, which cannot be allocated. -/
def threePuts : List Put :=
  [⟨str "a", [], str "1", {}⟩, ⟨str "b", [], str "2", {}⟩,
    ⟨str "a", [], str "34", ⟨false, true, true, true⟩⟩]

theorem strmap_refines_threePuts :
    ∃ rets map, puts threePuts (strmapNew 32) = some (rets, map) ∧ rets.length = 3 ∧
      strmapGetCount map = (accepted [] threePuts rets).length := by
  have hkeys : ∀ put ∈ threePuts, IsKey put.key := by
    simp only [threePuts, List.forall_mem_cons]
    exact ⟨⟨by decide, by decide⟩, ⟨by decide, by decide⟩, ⟨by decide, by decide⟩,
      fun _ h => absurd h List.not_mem_nil⟩
  obtain ⟨rets, map, hrun, hlen, -, -, -, hcount⟩ := strmap_refines (by decide : 0 < 32) hkeys
  exact ⟨rets, map, hrun, hlen, hcount⟩

end Strmap
end OpenADK.Pkgmaker
