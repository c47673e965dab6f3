import Kronos.JsonString

namespace Kronos.Hex
open ByteRange Utf8 JsonString

-- encoding/hex: two lower case digits a byte; either case is read.
def hexText (bytes : Bytes) : Bytes :=
  bytes.flatMap (fun b => [hexDigit (b.toNat / 16),hexDigit (b.toNat % 16)])

def unhex : Bytes → Option Bytes
  | [] => some []
  | [_] => none
  | high :: low :: rest => do
    let high ← hexValue high
    let low ← hexValue low
    let rest ← unhex rest
    return UInt8.ofNat (high * 16 + low) :: rest

theorem unhex_hexText (bytes : Bytes) : unhex (hexText bytes) = some bytes := by
  induction bytes with
  | nil => rfl
  | cons b _ ih =>
    have small := b.toNat_lt
    have high := hexValue_hexDigit (b.toNat / 16) (by omega)
    have low := hexValue_hexDigit (b.toNat % 16) (by omega)
    have whole : b.toNat / 16 * 16 + b.toNat % 16 = b.toNat := by omega
    rw [hexText,List.flatMap_cons] at *
    simp only [List.cons_append,List.nil_append,unhex,high,low,ih,Option.bind_eq_bind,
      Option.bind_some,whole,UInt8.ofNat_toNat,Option.pure_def]

theorem hexText_injective : Function.Injective hexText := by
  intro left right same
  have read := unhex_hexText left
  rw [same,unhex_hexText] at read
  exact (Option.some.inj read).symm

theorem hexDigit_ascii (n : Nat) (small : n < 16) : hexDigit n < 0x80 := by
  have all : ∀ m : Fin 16, hexDigit m.val < 0x80 := by decide
  exact all ⟨n,small⟩

theorem hexText_length (bytes : Bytes) : (hexText bytes).length = 2 * bytes.length := by
  rw [hexText,List.length_flatMap]
  simp
  omega

theorem hexDigit_written (n : Nat) (small : n < 16) : escapeByte (hexDigit n) = [hexDigit n] := by
  have all : ∀ m : Fin 16, escapeByte (hexDigit m.val) = [hexDigit m.val] := by decide
  exact all ⟨n,small⟩

theorem quote_hexText (bytes : Bytes) : quote (hexText bytes) = hexText bytes := by
  apply quote_plain
  intro c member
  obtain ⟨b,_,shown⟩ := List.mem_flatMap.mp member
  have small := b.toNat_lt
  rcases List.mem_cons.mp shown with rfl | second
  · exact ⟨hexDigit_ascii _ (by omega),hexDigit_written _ (by omega)⟩
  · rw [List.mem_singleton.mp second]
    exact ⟨hexDigit_ascii _ (by omega),hexDigit_written _ (by omega)⟩

theorem hexText_valid (bytes : Bytes) : Valid (hexText bytes) := by
  apply ascii_valid
  intro c member
  obtain ⟨b,_,shown⟩ := List.mem_flatMap.mp member
  have small := b.toNat_lt
  rcases List.mem_cons.mp shown with rfl | second
  · exact hexDigit_ascii _ (by omega)
  · rw [List.mem_singleton.mp second]
    exact hexDigit_ascii _ (by omega)

end Kronos.Hex
