import Kronos.Envelope
import Kronos.Hex

namespace Kronos.KeySlots
open Effect ByteRange Utf8 Hex Envelope

structure KDFParams where
  time : UInt32
  memory : UInt32
  threads : UInt8
  keyLen : UInt32
  deriving DecidableEq

structure KeySlot where
  id : Bytes
  kdf : KDFParams
  salt : Bytes
  nonce : Bytes
  ciphertext : Bytes
  deriving DecidableEq

structure KeySlotFile where
  version : Int
  algorithm : Bytes
  slots : List KeySlot
  deriving DecidableEq

inductive Part
  | salt | nonce | ciphertext
  deriving DecidableEq

inductive Fault
  | json | version (version : Int) | algorithm (name : Bytes) | idRequired | duplicate (id : Bytes)
  | decode (part : Part) | passphraseRequired | saltLength (length : Nat) | timeCost | memoryCost | threads
  | keyLength (length : Nat) | unauthentic (name : Bytes) | rootKeyLength (id : Bytes) (length : Nat)
  | notFound (id : Bytes) | panic (name : Bytes)
  deriving DecidableEq

-- Argon2id and AES-256-GCM.
structure Primitives where
  idKey : Bytes → Bytes → KDFParams → Bytes
  idKey_length : ∀ passphrase salt params, (idKey passphrase salt params).length = params.keyLen.toNat
  gcm : Bytes → Cipher
  gcm_nonceSize : ∀ key, (gcm key).nonceSize = 12

def checkSlots (seen : List Bytes) : List KeySlot → Except Fault Unit
  | [] => .ok ()
  | slot :: rest =>
    if slot.id = [] then .error .idRequired
    else if slot.id ∈ seen then .error (.duplicate slot.id)
    else checkSlots (slot.id :: seen) rest

-- The JSON decoder is a parameter.
def parseKeySlotFile (unmarshal : Bytes → Option KeySlotFile) (data : Bytes) : Except Fault KeySlotFile :=
  match unmarshal data with
  | none => .error .json
  | some file =>
    if file.version ≠ 1 then .error (.version file.version)
    else if file.algorithm ≠ ascii "aes-256-gcm" then .error (.algorithm file.algorithm)
    else (checkSlots [] file.slots).map (fun _ => file)

def decodeString (part : Part) (text : Bytes) : Except Fault Bytes :=
  match unhex text with
  | none => .error (.decode part)
  | some data => .ok data

section
variable (primitives : Primitives)

def deriveKeyWithParams (passphrase salt : Bytes) (params : KDFParams) : Except Fault Bytes :=
  if passphrase = [] then .error .passphraseRequired
  else if salt.length < 16 then .error (.saltLength salt.length)
  else if params.time = 0 then .error .timeCost
  else if params.memory = 0 then .error .memoryCost
  else if params.threads = 0 then .error .threads
  else .ok (primitives.idKey passphrase salt {params with keyLen := if params.keyLen = 0 then 32 else params.keyLen})

def newAES256GCM (key : Bytes) : Except Fault Cipher :=
  if key.length ≠ 32 then .error (.keyLength key.length) else .ok (primitives.gcm key)

def openWith (cipher : Cipher) (nonce ciphertext data : Bytes) : Except Fault Bytes :=
  if nonce.length ≠ cipher.nonceSize then .error (.panic cipher.algorithm)
  else match cipher.decrypt nonce ciphertext data with
    | none => .error (.unauthentic cipher.algorithm)
    | some plaintext => .ok plaintext

def keySlotAAD (id : Bytes) : Bytes := ascii "kronos-key-slot-v1:" ++ id

def unlock (file : KeySlotFile) (id passphrase : Bytes) : Except Fault Bytes :=
  match file.slots.find? (fun slot => decide (slot.id = id)) with
  | none => .error (.notFound id)
  | some slot => do
    let salt ← decodeString .salt slot.salt
    let nonce ← decodeString .nonce slot.nonce
    let ciphertext ← decodeString .ciphertext slot.ciphertext
    let derived ← deriveKeyWithParams primitives passphrase salt slot.kdf
    let cipher ← newAES256GCM primitives derived
    let rootKey ← openWith cipher nonce ciphertext (keySlotAAD slot.id)
    if rootKey.length ≠ 32 then .error (.rootKeyLength slot.id rootKey.length) else .ok rootKey

end

-- The slot's texts are hexadecimal and a 32-byte key can be derived from it.
structure Opens (slot : KeySlot) (passphrase nonce : Bytes) : Prop where
  nonce : unhex slot.nonce = some nonce
  salt : ∃ salt, unhex slot.salt = some salt ∧ 16 ≤ salt.length
  ciphertext : ∃ ciphertext, unhex slot.ciphertext = some ciphertext
  passphrase : passphrase ≠ []
  costs : slot.kdf.time ≠ 0 ∧ slot.kdf.memory ≠ 0 ∧ slot.kdf.threads ≠ 0
  keyLen : slot.kdf.keyLen = 0 ∨ slot.kdf.keyLen = 32

def Envelope.Panics (fault : Envelope.Fault) : Prop := ∃ name, fault = .panic name

def Panics (fault : Fault) : Prop := ∃ name, fault = .panic name

theorem next_spares (part : Envelope.Part) (size : Nat) (data : Bytes) : Spares Envelope.Panics (next part size data) :=
  spares_ite (fun _ => spares_error nofun) (fun _ => spares_ok _)

theorem parse_spares (envelope : Bytes) : Spares Envelope.Panics (parseEnvelopeHeader envelope) := by
  refine spares_bind (next_spares _ _ _) (fun magic _ => spares_ite (fun _ => spares_error nofun) (fun _ => ?_))
  refine spares_bind (next_spares _ _ _) (fun version _ => spares_ite (fun _ => spares_error nofun) (fun _ => ?_))
  refine spares_bind (next_spares _ _ _) (fun algorithm _ => spares_bind (next_spares _ _ _) (fun nonceLength _ => ?_))
  refine spares_bind (next_spares _ _ _) (fun keyLength _ => spares_ite (fun _ => spares_error nofun) (fun _ => ?_))
  refine spares_ite (fun _ => spares_error nofun) (fun _ => spares_bind (next_spares _ _ _) (fun nonce _ => ?_))
  exact spares_bind (next_spares _ _ _) (fun keyID _ => spares_ok _)

theorem openEnvelope_spares_iff : Spares Envelope.Panics (openEnvelope (some cipher) envelope additional) ↔
      ∀ header length, parseEnvelopeHeader envelope = .ok (header,length) →
        envelopeAlgorithm cipher.algorithm = .ok header.algorithm → header.nonce.length = cipher.nonceSize := by
  constructor
  · intro spares header length parsed named
    by_contra other
    refine spares (.panic cipher.algorithm) ?_ ⟨_,rfl⟩
    simp only [openEnvelope,parsed,named,bind,Except.bind,ne_eq,not_true_eq_false,if_false,other,not_false_eq_true,if_true]
  · intro sized
    refine spares_bind (parse_spares envelope) (fun parsed read => spares_bind ?_ (fun algorithm named => ?_))
    · exact spares_ite (fun _ => spares_ok _)
        (fun _ => spares_ite (fun _ => spares_ok _) (fun _ => spares_error (by rintro ⟨_,never⟩; cases never)))
    · refine spares_ite (fun _ => spares_error (by rintro ⟨_,never⟩; cases never))
        (fun same => spares_ite (fun wrong => ?_) (fun _ => ?_))
      · rw [not_not] at same
        exact absurd (sized parsed.1 parsed.2 read (same ▸ named)) wrong
      · dsimp only
        split
        · exact spares_error (by rintro ⟨_,never⟩; cases never)
        · exact spares_ok _

section
variable (primitives : Primitives)

theorem decodeString_spares (part : Part) (text : Bytes) : Spares Panics (decodeString part text) := by
  unfold decodeString
  split
  · exact spares_error nofun
  · exact spares_ok _

theorem decodeString_ok : decodeString part text = .ok data ↔ unhex text = some data := by
  unfold decodeString
  split
  · rename_i bad
    simp [bad]
  · rename_i found
    simp [found]

theorem derive_exact :
    deriveKeyWithParams primitives passphrase salt params = .ok key ↔ passphrase ≠ [] ∧ 16 ≤ salt.length ∧
      (params.time ≠ 0 ∧ params.memory ≠ 0 ∧ params.threads ≠ 0) ∧ primitives.idKey passphrase salt
        {params with keyLen := if params.keyLen = 0 then 32 else params.keyLen} = key := by
  simp only [deriveKeyWithParams,guard_ok_iff,Except.ok.injEq,Nat.not_lt,ne_eq,and_assoc]

theorem idKey_full (passphrase salt : Bytes) (params : KDFParams) : (primitives.idKey passphrase salt
    {params with keyLen := if params.keyLen = 0 then 32 else params.keyLen}).length = 32 ↔
      params.keyLen = 0 ∨ params.keyLen = 32 := by
  rw [primitives.idKey_length]
  split
  · rename_i empty
    exact iff_of_true rfl (Or.inl empty)
  · rename_i given
    rw [or_iff_right given,← UInt32.toNat_inj]
    rfl

theorem derive_spares (passphrase salt : Bytes) (params : KDFParams) :
    Spares Panics (deriveKeyWithParams primitives passphrase salt params) := by
  refine spares_ite (fun _ => spares_error nofun) (fun _ => spares_ite (fun _ => spares_error nofun) (fun _ => ?_))
  refine spares_ite (fun _ => spares_error nofun) (fun _ => spares_ite (fun _ => spares_error nofun) (fun _ => ?_))
  exact spares_ite (fun _ => spares_error nofun) (fun _ => spares_ok _)

theorem unlock_spares_iff {id : Bytes} : Spares Panics (unlock primitives file id passphrase) ↔
      ∀ slot nonce, file.slots.find? (fun slot => decide (slot.id = id)) = some slot →
        Opens slot passphrase nonce → nonce.length = 12 := by
  constructor
  · intro spares slot nonce found opens
    by_contra other
    obtain ⟨salt,salted,long⟩ := opens.salt
    obtain ⟨ciphertext,ciphered⟩ := opens.ciphertext
    have derived := (derive_exact primitives).mpr ⟨opens.passphrase,long,opens.costs,rfl⟩
    have full := (idKey_full primitives passphrase salt slot.kdf).mpr opens.keyLen
    refine spares (.panic (primitives.gcm (primitives.idKey passphrase salt
      {slot.kdf with keyLen := if slot.kdf.keyLen = 0 then 32 else slot.kdf.keyLen})).algorithm) ?_ ⟨_,rfl⟩
    simp only [unlock,found,decodeString_ok.mpr salted,decodeString_ok.mpr opens.nonce,decodeString_ok.mpr ciphered,
      derived,newAES256GCM,full,openWith,primitives.gcm_nonceSize,other,bind,Except.bind,ne_eq,not_true_eq_false,
      not_false_eq_true,if_true,if_false]
  · intro sized
    unfold unlock
    split
    · exact spares_error nofun
    · rename_i slot found
      refine spares_bind (decodeString_spares _ _) (fun salt salted => ?_)
      refine spares_bind (decodeString_spares _ _) (fun nonce nonced => ?_)
      refine spares_bind (decodeString_spares _ _) (fun ciphertext ciphered => ?_)
      refine spares_bind (derive_spares primitives _ _ _) (fun key derived => ?_)
      refine spares_bind (spares_ite (fun _ => spares_error nofun) (fun _ => spares_ok _)) (fun cipher made => ?_)
      refine spares_bind (spares_ite (fun wrong => ?_) (fun _ => ?_))
        (fun rootKey _ => spares_ite (fun _ => spares_error nofun) (fun _ => spares_ok _))
      · obtain ⟨length,made⟩ := guard_ok_iff.mp made
        obtain rfl := Except.ok.inj made
        rw [primitives.gcm_nonceSize] at wrong
        obtain ⟨some_pass,long,costs,rfl⟩ := (derive_exact primitives).mp derived
        exact absurd (sized slot nonce found ⟨decodeString_ok.mp nonced,⟨salt,decodeString_ok.mp salted,long⟩,
          ⟨ciphertext,decodeString_ok.mp ciphered⟩,some_pass,costs,
            (idKey_full primitives _ _ _).mp (not_not.mp length)⟩) wrong
      · split
        · exact spares_error nofun
        · exact spares_ok _

end

theorem containers_open_safely_iff (primitives : Primitives) :
    (∀ cipher envelope additional, Spares Envelope.Panics (openEnvelope (some cipher) envelope additional) ↔
      ∀ header length, parseEnvelopeHeader envelope = .ok (header,length) →
        envelopeAlgorithm cipher.algorithm = .ok header.algorithm → header.nonce.length = cipher.nonceSize) ∧
    ∀ unmarshal data file, parseKeySlotFile unmarshal data = .ok file → ∀ id passphrase,
      Spares Panics (unlock primitives file id passphrase) ↔
        ∀ slot nonce, file.slots.find? (fun slot => decide (slot.id = id)) = some slot →
          Opens slot passphrase nonce → nonce.length = 12 :=
  ⟨fun _ _ _ => openEnvelope_spares_iff,fun _ _ _ _ _ _ => unlock_spares_iff primitives⟩

def sample : Primitives where
  idKey := fun _ _ params => List.replicate params.keyLen.toNat 0
  idKey_length := fun _ _ _ => List.length_replicate
  gcm := fun _ => plain
  gcm_nonceSize := fun _ => rfl

def sizedHeader : EnvelopeHeader := ⟨envelopeVersion,algorithmAES256GCM,[107],List.replicate 12 7⟩

def slotFile (nonce ciphertext : String) : KeySlotFile := ⟨1,ascii "aes-256-gcm",
  [⟨ascii "ops",⟨1,8,1,32⟩,ascii "00112233445566778899aabbccddeeff",ascii nonce,ascii ciphertext⟩]⟩

def sizedFile : KeySlotFile :=
  slotFile "070707070707070707070707" "0102030405060708090a0b0c0d0e0f101112131415161718191a1b1c1d1e1f20"

theorem sized_nonce_opens : Spares Envelope.Panics (openEnvelope (some plain) (headerBytes sizedHeader) []) ∧
    Spares Panics (unlock sample sizedFile (ascii "ops") [112]) ∧
      (unlock sample sizedFile (ascii "ops") [112]).map List.length = .ok 32 := by
  obtain ⟨envelopes,slots⟩ := containers_open_safely_iff sample
  refine ⟨(envelopes _ _ _).mpr ?_,(slots (fun _ => some sizedFile) [] _ (by decide +kernel) _ _).mpr ?_,by decide +kernel⟩
  · intro header length parsed _
    have read : parseEnvelopeHeader (headerBytes sizedHeader) = .ok (sizedHeader,22) := by decide +kernel
    rw [read] at parsed
    cases parsed
    rfl
  · intro slot nonce found opens
    cases found
    have read : Hex.unhex (ascii "070707070707070707070707") = some (List.replicate 12 7) := by decide +kernel
    obtain rfl := Option.some.inj (read.symm.trans opens.nonce)
    rfl

-- A header with a nonce of one byte, and a slot with such a nonce.
def shortEnvelope : Bytes := headerBytes ⟨envelopeVersion,algorithmAES256GCM,[107],[7]⟩

def shortFile : KeySlotFile := slotFile "07" "00"

theorem short_nonces_panic : openEnvelope (some plain) shortEnvelope [] = .error (.panic (ascii "aes-256-gcm")) ∧
    parseKeySlotFile (fun _ => some shortFile) [] = .ok shortFile ∧
      unlock sample shortFile (ascii "ops") [112] = .error (.panic (ascii "aes-256-gcm")) := by decide +kernel

end Kronos.KeySlots
