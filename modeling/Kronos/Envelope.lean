import Kronos.Effect
import Kronos.Utf8

namespace Kronos.Envelope
open ByteRange Utf8

-- An AEAD under one key: it opens what it sealed with the same nonce and data.
structure Cipher where
  algorithm : Bytes
  nonceSize : Nat
  encrypt : Bytes → Bytes → Bytes → Bytes
  decrypt : Bytes → Bytes → Bytes → Option Bytes
  decrypt_encrypt : ∀ nonce plaintext data, nonce.length = nonceSize →
    decrypt nonce (encrypt nonce plaintext data) data = some plaintext

inductive Part
  | magic | version | algorithm | nonceLength | keyIDLength | nonce | keyID
  deriving DecidableEq

inductive Fault
  | cipherRequired | keyIDRequired | unsupportedCipher (name : Bytes) | nonceUnavailable | cut (part : Part)
  | invalidMagic | unsupportedVersion (version : UInt8) | unsupportedAlgorithm (algorithm : UInt8) | nonceEmpty
  | keyIDEmpty | nonceLength | keyIDLength | otherCipher (algorithm : UInt8) (name : Bytes) | unauthentic (name : Bytes)
  | panic (name : Bytes)
  deriving DecidableEq

structure EnvelopeHeader where
  version : UInt8
  algorithm : UInt8
  keyID : Bytes
  nonce : Bytes
  deriving DecidableEq

def envelopeMagic : Bytes := ascii "KCHK"

def envelopeVersion : UInt8 := 1

def algorithmAES256GCM : UInt8 := 2

def algorithmChaCha20 : UInt8 := 3

def envelopeAlgorithm (name : Bytes) : Except Fault UInt8 :=
  if name = ascii "aes-256-gcm" then .ok algorithmAES256GCM
  else if name = ascii "chacha20-poly1305" then .ok algorithmChaCha20
  else .error (.unsupportedCipher name)

-- Two bytes, the high one first.
def putUint16 (n : Nat) : Bytes := (putLE 2 n).reverse

def uint16 (data : Bytes) : Nat := getLE data.reverse

def headerBytes (header : EnvelopeHeader) : Bytes :=
  envelopeMagic ++ ([header.version] ++ ([header.algorithm] ++ ([UInt8.ofNat header.nonce.length] ++
    (putUint16 header.keyID.length ++ (header.nonce ++ header.keyID)))))

def marshalHeader (header : EnvelopeHeader) : Except Fault Bytes :=
  if header.version ≠ envelopeVersion then .error (.unsupportedVersion header.version)
  else if header.algorithm ≠ algorithmAES256GCM ∧ header.algorithm ≠ algorithmChaCha20 then
    .error (.unsupportedAlgorithm header.algorithm)
  else if header.nonce.length = 0 ∨ 255 < header.nonce.length then .error .nonceLength
  else if header.keyID.length = 0 ∨ 65535 < header.keyID.length then .error .keyIDLength
  else .ok (headerBytes header)

-- Reading the next bytes of the envelope in full.
def next (part : Part) (size : Nat) (data : Bytes) : Except Fault (Bytes × Bytes) :=
  if data.length < size then .error (.cut part) else .ok (data.take size,data.drop size)

def parseLengths (version algorithm : UInt8) (data : Bytes) : Except Fault (EnvelopeHeader × Nat) := do
  let (nonceLength,data) ← next .nonceLength 1 data
  let (keyLength,data) ← next .keyIDLength 2 data
  if getLE nonceLength = 0 then .error .nonceEmpty
  else if uint16 keyLength = 0 then .error .keyIDEmpty
  else do
    let (nonce,data) ← next .nonce (getLE nonceLength) data
    let (keyID,_) ← next .keyID (uint16 keyLength) data
    return (⟨version,algorithm,keyID,nonce⟩,4 + 1 + 1 + 1 + 2 + getLE nonceLength + uint16 keyLength)

def parseEnvelopeHeader (envelope : Bytes) : Except Fault (EnvelopeHeader × Nat) := do
  let (magic,data) ← next .magic envelopeMagic.length envelope
  if magic ≠ envelopeMagic then .error .invalidMagic
  else do
    let (version,data) ← next .version 1 data
    let version := version.headD 0
    if version ≠ envelopeVersion then .error (.unsupportedVersion version)
    else do
      let (algorithm,data) ← next .algorithm 1 data
      parseLengths version (algorithm.headD 0) data

-- The nonce comes from the system's random source, which can fail.
def sealEnvelope (cipher : Option Cipher) (keyID : Bytes) (nonce : Option Bytes) (plaintext additionalData : Bytes) :
    Except Fault Bytes :=
  match cipher with
  | none => .error .cipherRequired
  | some cipher =>
    if keyID = [] then .error .keyIDRequired
    else do
      let algorithm ← envelopeAlgorithm cipher.algorithm
      match nonce with
      | none => .error .nonceUnavailable
      | some nonce => do
        let header ← marshalHeader ⟨envelopeVersion,algorithm,keyID,nonce⟩
        return header ++ cipher.encrypt nonce plaintext (header ++ additionalData)

-- An AEAD panics when it is asked to open with a nonce of another size than its own.
def openEnvelope (cipher : Option Cipher) (envelope additionalData : Bytes) : Except Fault (Bytes × EnvelopeHeader) :=
  match cipher with
  | none => .error .cipherRequired
  | some cipher => do
    let (header,headerLength) ← parseEnvelopeHeader envelope
    let algorithm ← envelopeAlgorithm cipher.algorithm
    if header.algorithm ≠ algorithm then .error (.otherCipher header.algorithm cipher.algorithm)
    else if header.nonce.length ≠ cipher.nonceSize then .error (.panic cipher.algorithm)
    else
      let authData := envelope.take headerLength ++ additionalData
      match cipher.decrypt header.nonce (envelope.drop headerLength) authData with
      | none => .error (.unauthentic cipher.algorithm)
      | some plaintext => .ok (plaintext,header)

theorem next_append (part : Part) (front back : Bytes) (size : Nat) (exact : front.length = size) :
    next part size (front ++ back) = .ok (front,back) := by
  subst exact
  unfold next
  rw [if_neg (by rw [List.length_append]; omega),List.take_left,List.drop_left]

theorem uint16_putUint16 (n : Nat) (small : n ≤ 65535) : uint16 (putUint16 n) = n := by
  rw [uint16,putUint16,List.reverse_reverse]
  exact getLE_putLE_small 2 n (by omega)

theorem putUint16_length (n : Nat) : (putUint16 n).length = 2 := by
  rw [putUint16,List.length_reverse,putLE_length]

theorem getLE_byte (n : Nat) (small : n ≤ 255) : getLE [UInt8.ofNat n] = n := by
  simp only [getLE,UInt8.toNat_ofNat']
  omega

theorem marshalHeader_parts (made : marshalHeader header = .ok data) :
    data = headerBytes header ∧ header.version = envelopeVersion ∧
      0 < header.nonce.length ∧ header.nonce.length ≤ 255 ∧
      0 < header.keyID.length ∧ header.keyID.length ≤ 65535 := by
  unfold marshalHeader at made
  split at made
  · cases made
  · rename_i version
    split at made
    · cases made
    · split at made
      · cases made
      · split at made
        · cases made
        · cases made
          exact ⟨rfl,not_not.mp version,by omega,by omega,by omega,by omega⟩

theorem headerBytes_length (header : EnvelopeHeader) :
    (headerBytes header).length = 4 + 1 + 1 + 1 + 2 + header.nonce.length + header.keyID.length := by
  have magic : envelopeMagic.length = 4 := by decide
  simp only [headerBytes,List.length_append,List.length_cons,List.length_nil,putUint16_length,magic]
  omega

-- The header that was written is the header that is read, whatever follows it.
theorem parse_marshal (made : marshalHeader header = .ok data) (rest : Bytes) :
    parseEnvelopeHeader (data ++ rest) = .ok (header,data.length) := by
  obtain ⟨written,version,_,nonceBound,_,keyBound⟩ := marshalHeader_parts made
  have nonceSize := getLE_byte header.nonce.length nonceBound
  have keySize := uint16_putUint16 header.keyID.length keyBound
  rw [written,headerBytes_length]
  simp only [headerBytes,List.append_assoc]
  unfold parseEnvelopeHeader parseLengths
  rw [next_append .magic envelopeMagic _ _ rfl]
  simp only [bind,Except.bind,ne_eq,not_true_eq_false,if_false]
  rw [next_append .version [header.version] _ 1 rfl]
  simp only [List.headD_cons,version,not_true_eq_false,if_false]
  rw [next_append .algorithm [header.algorithm] _ 1 rfl]
  simp only [List.headD_cons]
  rw [next_append .nonceLength [UInt8.ofNat header.nonce.length] _ 1 rfl]
  simp only []
  rw [next_append .keyIDLength (putUint16 header.keyID.length) _ 2 (putUint16_length _)]
  simp only [nonceSize,keySize]
  rw [if_neg (by omega),if_neg (by omega),next_append .nonce header.nonce _ _ rfl]
  simp only []
  rw [next_append .keyID header.keyID _ _ rfl,← version]
  rfl

theorem sealEnvelope_parts (sealed : sealEnvelope cipher keyID nonce plaintext additionalData = .ok envelope) :
    ∃ aead algorithm fresh header, cipher = some aead ∧ nonce = some fresh ∧
      envelopeAlgorithm aead.algorithm = .ok algorithm ∧
      marshalHeader ⟨envelopeVersion,algorithm,keyID,fresh⟩ = .ok header ∧
      envelope = header ++ aead.encrypt fresh plaintext (header ++ additionalData) := by
  unfold sealEnvelope at sealed
  cases cipher with
  | none => cases sealed
  | some aead =>
    simp only at sealed
    split at sealed
    · cases sealed
    · cases named : envelopeAlgorithm aead.algorithm with
      | error => rw [named] at sealed; cases sealed
      | ok algorithm =>
        simp only [named,bind,Except.bind] at sealed
        cases nonce with
        | none => cases sealed
        | some fresh =>
          simp only at sealed
          cases made : marshalHeader ⟨envelopeVersion,algorithm,keyID,fresh⟩ with
          | error => rw [made] at sealed; cases sealed
          | ok header =>
            simp only [made] at sealed
            cases sealed
            exact ⟨aead,algorithm,fresh,header,rfl,rfl,named,made,rfl⟩

theorem open_seal (sealed : sealEnvelope cipher keyID (some fresh) plaintext additionalData = .ok envelope)
    (sized : ∀ aead, cipher = some aead → fresh.length = aead.nonceSize) :
    ∃ header, openEnvelope cipher envelope additionalData = .ok (plaintext,header) := by
  obtain ⟨aead,algorithm,_,_,rfl,nonce,named,made,rfl⟩ := sealEnvelope_parts sealed
  cases nonce
  refine ⟨⟨envelopeVersion,algorithm,keyID,fresh⟩,?_⟩
  simp only [openEnvelope,parse_marshal made,named,bind,Except.bind,ne_eq,not_true_eq_false,if_false,
    sized aead rfl,List.take_left,List.drop_left]
  rw [aead.decrypt_encrypt _ _ _ (sized aead rfl)]

theorem next_exact (read : next part size data = .ok (front,back)) : data = front ++ back ∧ front.length = size := by
  obtain ⟨_,same⟩ := Effect.guard_ok_iff.mp read
  obtain ⟨rfl,rfl⟩ := Prod.mk.inj (Except.ok.inj same)
  exact ⟨(List.take_append_drop size data).symm,by rw [List.length_take]; omega⟩

theorem next_byte (read : next part 1 data = .ok (front,back)) : ∃ byte, front = [byte] ∧ data = byte :: back := by
  obtain ⟨rfl,one⟩ := next_exact read
  obtain ⟨byte,rfl⟩ := List.length_eq_one_iff.mp one
  exact ⟨byte,rfl,rfl⟩

theorem parse_exact (parsed : parseEnvelopeHeader envelope = .ok (header,length)) :
    (∃ rest, envelope = headerBytes header ++ rest) ∧ length = (headerBytes header).length ∧
      header.version = envelopeVersion ∧ (0 < header.nonce.length ∧ header.nonce.length ≤ 255) ∧
        0 < header.keyID.length ∧ header.keyID.length ≤ 65535 := by
  obtain ⟨⟨_,data⟩,first,parsed⟩ := Effect.bind_ok_iff.mp parsed
  obtain ⟨known,parsed⟩ := Effect.guard_ok_iff.mp parsed
  obtain ⟨⟨_,data⟩,second,parsed⟩ := Effect.bind_ok_iff.mp parsed
  obtain ⟨current,parsed⟩ := Effect.guard_ok_iff.mp parsed
  obtain ⟨⟨_,data⟩,third,parsed⟩ := Effect.bind_ok_iff.mp parsed
  obtain ⟨⟨_,data⟩,fourth,parsed⟩ := Effect.bind_ok_iff.mp parsed
  obtain ⟨⟨keyLength,data⟩,fifth,parsed⟩ := Effect.bind_ok_iff.mp parsed
  obtain ⟨someNonce,parsed⟩ := Effect.guard_ok_iff.mp parsed
  obtain ⟨someKey,parsed⟩ := Effect.guard_ok_iff.mp parsed
  obtain ⟨⟨_,data⟩,sixth,parsed⟩ := Effect.bind_ok_iff.mp parsed
  obtain ⟨⟨keyID,data⟩,seventh,parsed⟩ := Effect.bind_ok_iff.mp parsed
  obtain ⟨rfl,rfl⟩ := Prod.mk.inj (Except.ok.inj parsed)
  obtain ⟨rfl,_⟩ := next_exact first
  obtain ⟨_,rfl,rfl⟩ := next_byte second
  obtain ⟨_,rfl,rfl⟩ := next_byte third
  obtain ⟨nonceByte,rfl,rfl⟩ := next_byte fourth
  obtain ⟨rfl,two⟩ := next_exact fifth
  obtain ⟨rfl,nonceSize⟩ := next_exact sixth
  obtain ⟨rfl,keySize⟩ := next_exact seventh
  have small := nonceByte.toNat_lt
  have bound := getLE_bound keyLength.reverse 2 (by rw [List.length_reverse,two])
  have nonceValue : getLE [nonceByte] = nonceByte.toNat := by simp [getLE]
  have keyBytes : putUint16 keyID.length = keyLength := by
    have back := putLE_getLE keyLength.reverse
    rw [List.length_reverse,two] at back
    rw [keySize,putUint16,uint16,back,List.reverse_reverse]
  rw [headerBytes_length]
  dsimp only at nonceSize keySize someNonce someKey current known ⊢
  refine ⟨⟨data,?_⟩,?_,not_not.mp current,⟨by omega,by omega⟩,by omega,by rw [keySize,uint16]; omega⟩
  · rw [headerBytes]
    simp only [nonceSize,nonceValue,UInt8.ofNat_toNat,keyBytes,not_not.mp known,List.headD_cons,List.append_assoc,
      List.cons_append,List.nil_append]
  · omega

-- What may be sealed: an algorithm the envelope has a number for, a nonce of the
-- cipher's size that fits one byte's length, and a key id that fits two.
structure Sealable (cipher : Cipher) (keyID nonce : Bytes) : Prop where
  named : ∃ algorithm, envelopeAlgorithm cipher.algorithm = .ok algorithm
  sized : nonce.length = cipher.nonceSize
  someNonce : 0 < cipher.nonceSize
  shortNonce : cipher.nonceSize ≤ 255
  someKey : 0 < keyID.length
  shortKey : keyID.length ≤ 65535

theorem envelopeAlgorithm_known (named : envelopeAlgorithm name = .ok algorithm) :
    algorithm = algorithmAES256GCM ∨ algorithm = algorithmChaCha20 := by
  unfold envelopeAlgorithm at named
  split at named
  · exact Or.inl (Except.ok.inj named).symm
  split at named
  · exact Or.inr (Except.ok.inj named).symm
  · cases named

theorem marshalHeader_made {header : EnvelopeHeader} (version : header.version = envelopeVersion)
    (known : header.algorithm = algorithmAES256GCM ∨ header.algorithm = algorithmChaCha20)
    (nonce : 0 < header.nonce.length ∧ header.nonce.length ≤ 255)
    (key : 0 < header.keyID.length ∧ header.keyID.length ≤ 65535) : marshalHeader header = .ok (headerBytes header) := by
  unfold marshalHeader
  rw [if_neg (by simp [version]),if_neg (by tauto),if_neg (by omega),if_neg (by omega)]

theorem envelope_headers_unambiguous : (∀ header data rest, marshalHeader header = .ok data →
      parseEnvelopeHeader (data ++ rest) = .ok (header,data.length)) ∧
    (∀ envelope header length, parseEnvelopeHeader envelope = .ok (header,length) →
      header.algorithm = algorithmAES256GCM ∨ header.algorithm = algorithmChaCha20 →
        marshalHeader header = .ok (envelope.take length)) ∧
    (∀ header other data otherData additional otherAdditional, marshalHeader header = .ok data →
      marshalHeader other = .ok otherData → data ++ additional = otherData ++ otherAdditional →
        header = other ∧ additional = otherAdditional) ∧
    ∀ cipher keyID nonce plaintext additional, Sealable cipher keyID nonce → ∃ envelope header,
      sealEnvelope (some cipher) keyID (some nonce) plaintext additional = .ok envelope ∧
        openEnvelope (some cipher) envelope additional = .ok (plaintext,header) := by
  refine ⟨fun header data rest made => parse_marshal made rest,?_,?_,?_⟩
  · intro envelope header length parsed known
    obtain ⟨⟨_,rfl⟩,rfl,version,nonce,key⟩ := parse_exact parsed
    rw [List.take_left]
    exact marshalHeader_made version known nonce key
  · intro header other data otherData additional otherAdditional made otherMade same
    have one := parse_marshal made additional
    rw [same,parse_marshal otherMade otherAdditional] at one
    obtain ⟨rfl,_⟩ := Prod.mk.inj (Except.ok.inj one)
    rw [made] at otherMade
    cases otherMade
    exact ⟨rfl,List.append_cancel_left same⟩
  · intro cipher keyID nonce plaintext additional sealable
    obtain ⟨algorithm,named⟩ := sealable.named
    have sized := sealable.sized
    have made := @marshalHeader_made ⟨envelopeVersion,algorithm,keyID,nonce⟩ rfl (envelopeAlgorithm_known named)
      ⟨sized ▸ sealable.someNonce,sized ▸ sealable.shortNonce⟩ ⟨sealable.someKey,sealable.shortKey⟩
    have some_key : keyID ≠ [] := List.length_pos_iff.mp sealable.someKey
    obtain ⟨envelope,sealed⟩ : ∃ envelope, sealEnvelope (some cipher) keyID (some nonce) plaintext additional =
        .ok envelope := by
      simp only [sealEnvelope,some_key,if_false,named,bind,Except.bind,made]
      exact ⟨_,rfl⟩
    obtain ⟨header,opened⟩ := open_seal sealed (by
      intro aead is
      cases is
      exact sized)
    exact ⟨envelope,header,sealed,opened⟩

-- A cipher that leaves the text as it is.
def plain : Cipher := ⟨ascii "aes-256-gcm",12,fun _ text _ => text,fun _ text _ => some text,fun _ _ _ _ => rfl⟩

def sampleNonce : Bytes := List.replicate 12 1

theorem sample_envelope_opens : ∃ data envelope header,
    marshalHeader ⟨envelopeVersion,algorithmAES256GCM,ascii "k",sampleNonce⟩ = .ok data ∧
      parseEnvelopeHeader (data ++ [5]) =
        .ok (⟨envelopeVersion,algorithmAES256GCM,ascii "k",sampleNonce⟩,data.length) ∧
      sealEnvelope (some plain) (ascii "k") (some sampleNonce) [7,8] [9] = .ok envelope ∧
      openEnvelope (some plain) envelope [9] = .ok ([7,8],header) := by
  obtain ⟨reads,_,_,opens⟩ := envelope_headers_unambiguous
  have made := @marshalHeader_made ⟨envelopeVersion,algorithmAES256GCM,ascii "k",sampleNonce⟩ rfl (Or.inl rfl)
    (by decide) (by decide)
  obtain ⟨envelope,header,sealed,opened⟩ := opens plain (ascii "k") sampleNonce [7,8] [9]
    ⟨⟨algorithmAES256GCM,by decide⟩,by decide,by decide,by decide,by decide,by decide⟩
  exact ⟨_,envelope,header,made,reads _ _ [5] made,sealed,opened⟩

theorem long_key_refused (long : 65535 < keyID.length) :
    sealEnvelope (some plain) keyID (some sampleNonce) [1] [] = .error .keyIDLength := by
  have named : envelopeAlgorithm plain.algorithm = .ok algorithmAES256GCM := by decide
  have some_key : keyID ≠ [] := List.length_pos_iff.mp (by omega)
  have refused : marshalHeader ⟨envelopeVersion,algorithmAES256GCM,keyID,sampleNonce⟩ = .error .keyIDLength := by
    unfold marshalHeader
    rw [if_neg (by simp),if_neg (by simp),if_neg (by simp [sampleNonce]),if_pos (Or.inr long)]
  simp only [sealEnvelope,some_key,if_false,named,bind,Except.bind,refused]

theorem key_ids_refused : sealEnvelope (some plain) [] (some sampleNonce) [1] [] = .error .keyIDRequired ∧
    sealEnvelope (some plain) (List.replicate 65536 107) (some sampleNonce) [1] [] = .error .keyIDLength :=
  ⟨rfl,long_key_refused (by rw [List.length_replicate]; decide)⟩

end Kronos.Envelope
