import Kronos.Chunk

namespace Kronos.Bloom
open ByteRange Chunk

-- The bits lie in the words, so that no probe is out of range.
structure BloomFilter where
  words : Nat
  bits : Fin words → UInt64
  nbits : UInt64
  hashes : UInt64
  positive : 0 < nbits.toNat
  fits : nbits.toNat ≤ 64 * words

theorem words_fit (bits : ¬ bitCount ≤ (0 : Int64)) (words : ¬ (bitCount + 63).toInt < 0) :
    0 < bitCount.toUInt64.toNat ∧ bitCount.toUInt64.toNat ≤ 64 * ((bitCount + 63).toInt / 64).toNat := by
  have positive : 0 < bitCount.toInt := Int.not_le.mp fun le => bits (Int64.le_iff_toInt_le.mpr le)
  have value : bitCount.toUInt64.toNat = bitCount.toInt.toNat :=
    Int64.toNat_toUInt64_of_le (Int64.le_iff_toInt_le.mpr (Int.le_of_lt positive))
  have bound := bitCount.toInt_lt
  have sum : (bitCount + 63).toInt = (bitCount.toInt + 63).bmod (2 ^ 64) := Int64.toInt_add bitCount 63
  rw [Int.bmod_def] at sum
  split at sum <;> omega

-- Close to the largest int the sum wraps, and make panics.
def newBloomFilter (bitCount hashCount : Int64) : Except String BloomFilter :=
  if bits : bitCount ≤ 0 then .error "bloom bit count must be greater than zero"
  else if hashCount ≤ 0 then .error "bloom hash count must be greater than zero"
  else if words : (bitCount + 63).toInt < 0 then .error "makeslice: len out of range"
  else .ok ⟨((bitCount + 63).toInt / 64).toNat,fun _ => 0,bitCount.toUInt64,hashCount.toUInt64,
    (words_fit bits words).1,(words_fit bits words).2⟩

def fnvOffset : UInt64 := 14695981039346656037

def fnvPrime : UInt64 := 1099511628211

def fnv64a (hash : UInt64) (data : Bytes) : UInt64 := data.foldl (fun hash b => (hash ^^^ b.toUInt64) * fnvPrime) hash

def fnv64 (hash : UInt64) (data : Bytes) : UInt64 := data.foldl (fun hash b => hash * fnvPrime ^^^ b.toUInt64) hash

def bloomHashes (data : Bytes) : UInt64 × UInt64 :=
  let h2 := fnv64 (fnv64 fnvOffset (putLE 8 data.length)) data
  (fnv64a fnvOffset data,if h2 = 0 then 0x9e3779b97f4a7c15 else h2)

namespace BloomFilter
variable (b : BloomFilter)

def idx (data : Bytes) (i : Nat) : UInt64 := ((bloomHashes data).1 + i.toUInt64 * (bloomHashes data).2) % b.nbits

theorem idx_inside (data : Bytes) (i : Nat) : (b.idx data i / 64).toNat < b.words := by
  have below : (b.idx data i).toNat < b.nbits.toNat := Nat.mod_lt _ b.positive
  have fits := b.fits
  rw [UInt64.toNat_div]
  change _ / 64 < _
  omega

def word (data : Bytes) (i : Nat) : Fin b.words := ⟨_,b.idx_inside data i⟩

def mask (data : Bytes) (i : Nat) : UInt64 := 1 <<< (b.idx data i % 64)

def set (data : Bytes) (b : BloomFilter) (i : Nat) : BloomFilter :=
  {b with bits := Function.update b.bits (b.word data i) (b.bits (b.word data i) ||| b.mask data i)}

def add (data : Bytes) : BloomFilter := (List.range b.hashes.toNat).foldl (set data) b

def isSet (data : Bytes) (i : Nat) : Bool := b.bits (b.word data i) &&& b.mask data i != 0

def maybeContains (data : Bytes) : Bool := (List.range b.hashes.toNat).all (b.isSet data)

theorem mask_ne_zero (data : Bytes) (i : Nat) : b.mask data i ≠ 0 := by
  intro zero
  have value := congrArg UInt64.toNat zero
  have small : (b.idx data i % 64).toNat % 64 < 64 := Nat.mod_lt _ (by decide)
  have power := Nat.pow_lt_pow_right (by decide : 1 < 2) small
  rw [mask,UInt64.toNat_shiftLeft,Nat.shiftLeft_eq,UInt64.toNat_one,Nat.one_mul,Nat.mod_eq_of_lt power] at value
  exact Nat.ne_of_gt (Nat.two_pow_pos _) value

theorem or_kept {x y m : UInt64} : (x ||| y) &&& m = 0 ↔ x &&& m = 0 ∧ y &&& m = 0 := by
  have split : (x ||| y) &&& m = (x &&& m) ||| (y &&& m) := UInt64.toBitVec_inj.mp BitVec.and_or_distrib_right
  rw [split,UInt64.or_eq_zero_iff]

-- A bit that is set stays set, whatever is added.
theorem set_kept (kept : b.isSet data i = true) (other : Bytes) (j : Nat) : (set other b j).isSet data i = true := by
  apply bne_iff_ne.mpr
  change Function.update b.bits _ _ (b.word data i) &&& b.mask data i ≠ 0
  by_cases same : b.word data i = b.word other j
  · rw [same,Function.update_self]
    intro zero
    exact bne_iff_ne.mp kept (same ▸ (or_kept.mp zero).1)
  · rw [Function.update_of_ne same]
    exact bne_iff_ne.mp kept

theorem set_set (data : Bytes) (i : Nat) : (set data b i).isSet data i = true := by
  apply bne_iff_ne.mpr
  change Function.update b.bits _ _ (b.word data i) &&& b.mask data i ≠ 0
  rw [Function.update_self]
  intro zero
  exact b.mask_ne_zero data i (by simpa using (or_kept.mp zero).2)

theorem sets_kept (kept : b.isSet data i = true) (probes : List Nat) (other : Bytes) :
    (probes.foldl (set other) b).isSet data i = true :=
  List.foldlRecOn (motive := fun c => isSet c data i = true) probes _ kept fun c kept j _ => c.set_kept kept other j

theorem add_hashes (data : Bytes) : (b.add data).hashes = b.hashes :=
  List.foldlRecOn (motive := fun c => hashes c = b.hashes) _ _ rfl fun _ same _ _ => same

theorem add_holds (data : Bytes) : (b.add data).maybeContains data = true := by
  rw [maybeContains,add_hashes,List.all_eq_true]
  intro i asked
  obtain ⟨_,after,split⟩ := List.append_of_mem asked
  rw [add,split,List.foldl_append]
  exact sets_kept _ (set_set _ data i) after data

theorem add_keeps (held : b.maybeContains data = true) (other : Bytes) : (b.add other).maybeContains data = true := by
  rw [maybeContains,add_hashes,List.all_eq_true]
  intro i asked
  exact b.sets_kept (List.all_eq_true.mp held i asked) _ other

theorem adds_hold {added : List Bytes} (member : data ∈ added) : (added.foldl add b).maybeContains data = true := by
  obtain ⟨_,after,rfl⟩ := List.append_of_mem member
  rw [List.foldl_append]
  exact List.foldlRecOn (motive := fun c => maybeContains c data = true) after _ (add_holds _ data)
    fun c held other _ => c.add_keeps held other

end BloomFilter

structure Index where
  entries : List Hash
  bloom : BloomFilter

def defaultBloomBitsPerEntry : Int64 := 10

def defaultBloomHashes : Int64 := 7

def newIndex (expectedEntries : Int64) : Except String Index :=
  let expectedEntries := if expectedEntries ≤ 0 then 1 else expectedEntries
  (newBloomFilter (expectedEntries * defaultBloomBitsPerEntry) defaultBloomHashes).map (⟨[],·⟩)

def Index.add (index : Index) (hash : Hash) : Bool × Index :=
  if hash ∈ index.entries then (false,index) else (true,⟨hash :: index.entries,index.bloom.add hash.bytes⟩)

def Index.contains (index : Index) (hash : Hash) : Bool :=
  if index.bloom.maybeContains hash.bytes then hash ∈ index.entries else false

inductive Call where
  | add (hash : Hash) | contains (hash : Hash)

def Index.run : Index → List Call → List Bool
  | _,[] => []
  | index,.add hash :: rest => (index.add hash).1 :: Index.run (index.add hash).2 rest
  | index,.contains hash :: rest => index.contains hash :: Index.run index rest

-- What a set of the hashes added so far answers.
def answers : List Hash → List Call → List Bool
  | _,[] => []
  | added,.add hash :: rest => decide (hash ∉ added) :: answers (added.insert hash) rest
  | added,.contains hash :: rest => decide (hash ∈ added) :: answers added rest

theorem run_exact (index : Index) (held : ∀ hash ∈ index.entries, index.bloom.maybeContains hash.bytes = true)
    (calls : List Call) : index.run calls = answers index.entries calls := by
  induction calls generalizing index with
  | nil => rfl
  | cons call _ ih =>
    rw [Index.run.eq_def,answers.eq_def]
    cases call with
    | contains hash =>
      have known : index.contains hash = decide (hash ∈ index.entries) := by
        rw [Index.contains]
        split
        · rfl
        · rename_i missing
          exact (decide_eq_false fun member => missing (held hash member)).symm
      simp only [known,ih index held]
    | add hash =>
      by_cases known : hash ∈ index.entries
      · simp [Index.add,known,ih index held]
      · simp only [Index.add,List.insert_of_not_mem known,known,not_false_eq_true,decide_true]
        refine congrArg (true :: ·) (ih ⟨hash :: index.entries,index.bloom.add hash.bytes⟩ fun other member => ?_)
        rcases List.mem_cons.mp member with rfl | earlier
        · exact index.bloom.add_holds other.bytes
        · exact index.bloom.add_keeps (held other earlier) hash.bytes

theorem index_exact (expectedEntries bitCount hashCount : Int64) :
    (∀ index, newIndex expectedEntries = .ok index → ∀ calls, index.run calls = answers [] calls) ∧
      ∀ filter, newBloomFilter bitCount hashCount = .ok filter → ∀ added : List Bytes, ∀ data ∈ added,
        (added.foldl BloomFilter.add filter).maybeContains data = true := by
  refine ⟨fun index made calls => ?_,fun filter _ added data member => filter.adds_hold member⟩
  rw [newIndex] at made
  cases filter : newBloomFilter _ _ with
  | error fault => cases (filter ▸ made : Except.map _ (.error fault) = _)
  | ok bloom =>
    cases (filter ▸ made : Except.map _ (.ok bloom) = _)
    exact run_exact ⟨[],bloom⟩ (by simp) calls

def sampleHash (b : UInt8) : Hash := ⟨List.replicate 32 b,List.length_replicate⟩

def sampleCalls : List Call :=
  [.add (sampleHash 1),.contains (sampleHash 1),.contains (sampleHash 2),.add (sampleHash 2),.add (sampleHash 1)]

theorem sample_index_exact : ∃ index filter, newIndex 2 = .ok index ∧
    index.run sampleCalls = [true,true,false,true,false] ∧ newBloomFilter 20 7 = .ok filter ∧
      ([[1],[2]].foldl BloomFilter.add filter).maybeContains [1] = true := by
  refine ⟨_,_,rfl,?_,rfl,(index_exact 2 20 7).2 _ rfl [[1],[2]] [1] List.mem_cons_self⟩
  rw [(index_exact 2 20 7).1 _ rfl]
  decide +kernel

end Kronos.Bloom
