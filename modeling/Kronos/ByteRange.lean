import Mathlib.Data.List.Basic
import Mathlib.Data.List.Lex
import Mathlib.Tactic.Ring

namespace Kronos.ByteRange

abbrev Bytes := List UInt8

-- bytes.Compare is the lexicographic order that lists inherit from this one.
instance linearOrderUInt8 : LinearOrder UInt8 where
  le_refl := fun a => UInt8.le_refl a
  le_trans := fun _ _ _ => UInt8.le_trans
  le_antisymm := fun _ _ => UInt8.le_antisymm
  le_total := UInt8.le_total
  lt_iff_le_not_ge := fun a b => by
    simp only [UInt8.le_iff_toNat_le,UInt8.lt_iff_toNat_lt]
    omega
  toDecidableLE := inferInstance
  toDecidableLT := inferInstance
  toDecidableEq := inferInstance

instance lawfulBytes : LawfulBEq Bytes := inferInstance

def slice (data : Bytes) (from_ size : Nat) : Bytes := (data.drop from_).take size

-- Overwriting in place keeps the length; a slice that would run past the end
-- is not written at all.
def splice (data : Bytes) (from_ : Nat) (patch : Bytes) : Bytes :=
  if from_ + patch.length ≤ data.length then
    data.take from_ ++ patch ++ data.drop (from_ + patch.length)
  else data

theorem splice_length (data : Bytes) (from_ : Nat) (patch : Bytes) :
    (splice data from_ patch).length = data.length := by
  unfold splice
  split
  · simp only [List.length_append,List.length_take,List.length_drop]
    omega
  · rfl

theorem slice_splice_same (data : Bytes) (from_ : Nat) (patch : Bytes) (inside : from_ + patch.length ≤ data.length) :
    slice (splice data from_ patch) from_ patch.length = patch := by
  have start : (data.take from_).length = from_ := by
    rw [List.length_take]; omega
  rw [splice,if_pos inside,slice,List.append_assoc,List.drop_append_of_le_length (by omega),
    List.drop_of_length_le (by omega),List.nil_append,List.take_left]

theorem slice_splice_apart (data : Bytes) (from_ size at_ : Nat) (patch : Bytes)
    (apart : from_ + size ≤ at_ ∨ at_ + patch.length ≤ from_) :
    slice (splice data at_ patch) from_ size = slice data from_ size := by
  by_cases inside : at_ + patch.length ≤ data.length
  · apply List.ext_getElem?
    intro i
    simp only [slice,splice,if_pos inside,List.getElem?_take,List.getElem?_drop]
    by_cases near : i < size
    · rw [if_pos near,if_pos near,List.append_assoc,List.getElem?_append,List.length_take,
        List.getElem?_take,List.getElem?_append,List.getElem?_drop]
      rcases apart with _ | _
      · rw [if_pos (by omega),if_pos (by omega)]
      · rw [if_neg (by omega),if_neg (by omega)]
        congr 1
        omega
    · rw [if_neg near,if_neg near]
  · rw [splice,if_neg inside]

-- Little-endian integers of a fixed width.
def putLE : Nat → Nat → Bytes
  | 0,_ => []
  | width+1,n => UInt8.ofNat n :: putLE width (n / 256)

def getLE : Bytes → Nat
  | [] => 0
  | b :: rest => b.toNat + 256 * getLE rest

theorem putLE_length (width n : Nat) : (putLE width n).length = width := by
  induction width generalizing n with
  | zero => rfl
  | succ _ ih => simp [putLE,ih]

theorem getLE_putLE (width n : Nat) : getLE (putLE width n) = n % 256 ^ width := by
  induction width generalizing n with
  | zero => simp [putLE,getLE,Nat.mod_one]
  | succ width ih =>
    have low : (UInt8.ofNat n).toNat = n % 256 := by simp
    simp only [putLE,getLE,ih,low]
    rw [Nat.pow_succ,Nat.mul_comm (256 ^ width) 256,Nat.mod_mul]

theorem getLE_putLE_small (width n : Nat) (small : n < 256 ^ width) : getLE (putLE width n) = n := by
  rw [getLE_putLE,Nat.mod_eq_of_lt small]

theorem putLE_getLE (bytes : Bytes) : putLE bytes.length (getLE bytes) = bytes := by
  induction bytes with
  | nil => rfl
  | cons byte rest ih =>
    have low := byte.toNat_lt
    have high : (byte.toNat + 256 * getLE rest) / 256 = getLE rest := by omega
    have first : UInt8.ofNat (byte.toNat + 256 * getLE rest) = byte := by
      apply UInt8.toNat_inj.mp
      rw [UInt8.toNat_ofNat']
      omega
    rw [List.length_cons,putLE,getLE,high,first,ih]

theorem getLE_bound (bytes : Bytes) (width : Nat) (short : bytes.length ≤ width) : getLE bytes < 256 ^ width := by
  induction bytes generalizing width with
  | nil => exact Nat.pow_pos (by decide)
  | cons byte _ ih =>
    cases width with
    | zero => simp at short
    | succ width =>
      have tail := ih width (by simpa using short)
      have low := byte.toNat_lt
      rw [getLE,Nat.pow_succ]
      omega

end Kronos.ByteRange
