import Kronos.StorageOptions

namespace Kronos.StorageSecrets
open ByteRange Utf8 GoJson RecordTable StorageOptions Effect

-- Two storages with the same options under the same keys, but for the values
-- of credentials.
structure Alike (a b : Storage) : Prop where
  rest : b = {a with options := b.options}
  keys : ∀ key, (optionOf a.options key).isSome = (optionOf b.options key).isSome
  values : ∀ key, key ∉ credentialKeys a.kind → optionOf a.options key = optionOf b.options key

-- The credential keys that neither the redaction nor the protector knows.
def unmarkedKeys (kind : Bytes) : List Bytes :=
  if kind = kindS3 then [ascii "accessKey"]
  else if kind = kindSFTP then [ascii "privateKey"]
  else if kind = kindAzure then [ascii "account_key",ascii "accountKey",ascii "sas"]
  else []

def Marked (storage : Storage) : Prop :=
  ∀ key ∈ unmarkedKeys storage.kind, ∀ value, optionOf storage.options key = some value → value = .any .absent

-- A credential that stands in a stored record in the clear.
def Exposes (table : StorageTable) (storage : Storage) : Prop :=
  ∃ stored key value, table.get storage.id = some stored ∧ key ∈ credentialKeys storage.kind ∧
    optionOf stored.options key = some (.any value) ∧ value ≠ .absent

theorem credential_cases {motive : Bytes → Prop} (s3 : motive kindS3) (sftp : motive kindSFTP) (azure : motive kindAzure)
    (gcs : motive kindGCS) (other : ∀ kind, credentialKeys kind = [] → unmarkedKeys kind = [] → motive kind)
    (kind : Bytes) : motive kind := by
  by_cases first : kind = kindS3
  · exact first ▸ s3
  by_cases second : kind = kindSFTP
  · exact second ▸ sftp
  by_cases third : kind = kindAzure
  · exact third ▸ azure
  by_cases fourth : kind = kindGCS
  · exact fourth ▸ gcs
  · apply other
    · simp only [credentialKeys,if_neg first,if_neg second,if_neg third,if_neg fourth]
    · simp only [unmarkedKeys,if_neg first,if_neg second,if_neg third]

theorem credential_marked (kind : Bytes) : ∀ key ∈ credentialKeys kind,
    key ∉ unmarkedKeys kind → isSecretOptionKey key = true ∧ sensitiveOptionKey key = true := by
  induction kind using credential_cases with
  | s3 | sftp | azure | gcs => decide +kernel
  | other _ none_read =>
    rw [none_read]
    exact fun _ member => absurd member List.not_mem_nil

theorem unmarked_plain (kind : Bytes) : ∀ key ∈ unmarkedKeys kind,
    key ∈ credentialKeys kind ∧ isSecretOptionKey key = false ∧ sensitiveOptionKey key = false := by
  induction kind using credential_cases with
  | s3 | sftp | azure | gcs => decide +kernel
  | other _ _ none_unmarked =>
    rw [none_unmarked]
    exact fun _ member => absurd member List.not_mem_nil

theorem optionString_follow (same : ∀ key ∈ keys, optionOf a key = optionOf b key) :
    optionString sprint a keys = optionString sprint b keys := by
  induction keys with
  | nil => rfl
  | cons first _ ih =>
    obtain ⟨here,later⟩ := List.forall_mem_cons.mp same
    have tail := ih later
    unfold optionString at tail ⊢
    rw [List.findSome?_cons,List.findSome?_cons,here]
    split
    · rfl
    · exact tail

-- What the agent makes of a storage depends on no option but the credentials.
theorem agentSecrets_follow (sprint : OptionValue → Bytes) (kind : Bytes) (url : URL)
    (same : ∀ key ∈ credentialKeys kind, optionOf a key = optionOf b key) :
    agentSecrets sprint kind url a = agentSecrets sprint kind url b := by
  have read (keys : List Bytes) (listed : keys ⊆ credentialKeys kind) :
      optionString sprint a keys = optionString sprint b keys :=
    optionString_follow fun key member => same key (listed member)
  unfold agentSecrets
  split
  · rename_i is
    subst is
    unfold s3Credentials
    rw [read s3AccessKey (by decide),read s3SecretKey (by decide),read s3SessionToken (by decide),
      read s3Provider (by decide)]
    dsimp only
    split_ifs <;> rfl
  split
  · rename_i is
    subst is
    rw [sftpPasswordOf,sftpPasswordOf,read sftpPassword (by decide),read sftpPrivateKey (by decide),
      read sftpPassphrase (by decide)]
  split
  · rename_i is
    subst is
    rw [read azureAccountKey (by decide),read azureSASToken (by decide)]
  split
  · rename_i is
    subst is
    rw [read gcsBearerToken (by decide),read gcsAPIKey (by decide)]
  · rfl

section
variable {options out : Options} {key : Bytes} {p : Option StateSecretProtector}

theorem optionOf_exact : optionOf options key = some value ↔ options.get key = some (key,value) := by
  unfold optionOf
  rw [Option.map_eq_some_iff]
  constructor
  · rintro ⟨⟨other,value⟩,found,rfl⟩
    have named : other = key := (options.get_exact.mp found).2
    rw [found,named]
  · intro found
    exact ⟨(key,value),found,rfl⟩

theorem eq_of_optionOf (same : ∀ key, optionOf a key = optionOf b key) : a = b := by
  apply Table.eq_of_get
  intro key
  apply Option.ext
  rintro ⟨other,_⟩
  constructor
  · intro found
    have named : other = key := (a.get_exact.mp found).2
    subst named
    rw [← optionOf_exact,← same]
    exact optionOf_exact.mpr found
  · intro found
    have named : other = key := (b.get_exact.mp found).2
    subst named
    rw [← optionOf_exact,same]
    exact optionOf_exact.mpr found

theorem optionOf_rewrite {f : Bytes × OptionValue → Bytes × OptionValue} {keeps : ∀ entry, (f entry).1 = entry.1} :
    optionOf (options.rewrite f keeps) key = (optionOf options key).map (fun value => (f (key,value)).2) := by
  cases found : optionOf options key with
  | none =>
    have absent : options.get key = none := Option.map_eq_none_iff.mp found
    unfold optionOf
    rw [Table.get_rewrite,absent]
    rfl
  | some =>
    unfold optionOf
    rw [Table.get_rewrite,optionOf_exact.mp found]
    rfl

theorem optionOf_redact : optionOf (redactOptions options) key =
      (optionOf options key).map (fun value => if isSecretOptionKey key then redacted else value) :=
  optionOf_rewrite

theorem protect_accepts (done : protectOptions p options = .ok out) {value : OptionValue}
    (given : optionOf options key = some value) : ∃ kept, protectOption p key value = .ok kept ∧ optionOf out key = some kept := by
  unfold protectOptions at done
  split at done
  · cases done
  · rename_i faultless
    cases done
    have row := (options.get_exact.mp (optionOf_exact.mp given)).1
    have sound := List.findSome?_eq_none_iff.mp faultless _ row
    unfold optionFault at sound
    split at sound
    · cases sound
    · rename_i kept settled
      refine ⟨kept,settled,?_⟩
      rw [optionOf_rewrite,given,Option.map_some,protectedEntry,settled]

theorem protect_source (done : protectOptions p options = .ok out) {kept : OptionValue}
    (stored : optionOf out key = some kept) : ∃ value, optionOf options key = some value ∧ protectOption p key value = .ok kept := by
  cases given : optionOf options key with
  | none =>
    unfold protectOptions at done
    split at done
    · cases done
    · cases done
      rw [optionOf_rewrite,given] at stored
      cases stored
  | some value =>
    obtain ⟨_,settled,found⟩ := protect_accepts done given
    rw [stored] at found
    cases found
    exact ⟨value,rfl,settled⟩

theorem validateOptions_scalar (accepted : validateOptions options = .ok ())
    (given : optionOf options key = some value) : scalarValue value = true := by
  unfold validateOptions at accepted
  split at accepted
  · cases accepted
  · split at accepted
    · cases accepted
    · rename_i all_scalar
      have row := (options.get_exact.mp (optionOf_exact.mp given)).1
      have scalar := List.find?_eq_none.mp all_scalar _ row
      simpa using scalar

theorem scalar_unencrypted (scalar : scalarValue value = true) :
    (∃ plain, value = .any plain) ∧ isEncryptedOptionValue value = false := by
  cases value with
  | encrypted => cases scalar
  | any plain =>
    refine ⟨⟨plain,rfl⟩,?_⟩
    cases plain with
    | map => cases scalar
    | _ => rfl

end

section
variable {parseURL : Bytes → Option URL} {table after : StorageTable} {storage : Storage}

structure Saved (parseURL : Bytes → Option URL) (p : Option StateSecretProtector) (table : StorageTable) (storage : Storage)
    (after : StorageTable) (options : Options) : Prop where
  valid : validateOptions storage.options = .ok ()
  protects : protectOptions p storage.options = .ok options
  written : after = table.put {storage with options}

theorem validateStorage_options (accepted : validateStorage parseURL storage = .ok ()) :
    validateOptions storage.options = .ok () := by
  obtain ⟨_,_,accepted⟩ := bind_ok_iff.mp accepted
  split at accepted
  · cases accepted
  split at accepted
  · cases accepted
  split at accepted
  · cases accepted
  split at accepted
  · cases accepted
  obtain ⟨_,_,accepted⟩ := bind_ok_iff.mp accepted
  exact accepted

theorem save_exact (accepted : save parseURL p table storage = .ok after) :
    ∃ options, Saved parseURL p table storage after options := by
  obtain ⟨_,valid,accepted⟩ := bind_ok_iff.mp accepted
  obtain ⟨options,protects,accepted⟩ := bind_ok_iff.mp accepted
  cases accepted
  exact ⟨options,validateStorage_options valid,protects,rfl⟩

theorem Saved.stored (saved : Saved parseURL p table storage after options) :
    after.get storage.id = some {storage with options} := by
  rw [saved.written]
  exact (table.get_put _ _).trans (if_pos rfl)

theorem protectOption_plain (plain : sensitiveOptionKey key = false) (value : OptionValue) :
    protectOption p key value = .ok value := if_pos plain

theorem protectOption_sensitive (sensitive : sensitiveOptionKey key = true)
    (clear : isEncryptedOptionValue value = false) (settled : protectOption (some p) key value = .ok kept) :
    ∃ encrypted, kept = .encrypted encrypted := by
  unfold protectOption at settled
  rw [if_neg (by rw [sensitive]; exact Bool.noConfusion),if_neg (by rw [clear]; exact Bool.false_ne_true)] at settled
  cases sealed : protectValue p key value with
  | error =>
    simp only [sealed] at settled
    cases settled
  | ok encrypted =>
    simp only [sealed] at settled
    cases settled
    exact ⟨encrypted,rfl⟩

theorem exposes_iff (accepted : save parseURL (some p) table storage = .ok after) :
    Exposes after storage ↔ ¬ Marked storage := by
  obtain ⟨_,saved⟩ := save_exact accepted
  constructor
  · rintro ⟨stored,key,plain,found,credential,clear,given⟩ marked
    rw [saved.stored] at found
    cases found
    obtain ⟨value,source,settled⟩ := protect_source saved.protects clear
    have unencrypted := (scalar_unencrypted (validateOptions_scalar saved.valid source)).2
    by_cases unmarked : key ∈ unmarkedKeys storage.kind
    · have absent := marked key unmarked value source
      rw [protectOption_plain (unmarked_plain _ key unmarked).2.2,absent] at settled
      cases settled
      exact given rfl
    · obtain ⟨_,same⟩ := protectOption_sensitive (credential_marked _ key credential unmarked).2 unencrypted settled
      cases same
  · intro unmarked
    simp only [Marked,not_forall] at unmarked
    obtain ⟨key,listed,_,source,given⟩ := unmarked
    obtain ⟨credential,_,plain⟩ := unmarked_plain _ key listed
    obtain ⟨⟨shown,rfl⟩,_⟩ := scalar_unencrypted (validateOptions_scalar saved.valid source)
    obtain ⟨_,settled,stored⟩ := protect_accepts saved.protects source
    rw [protectOption_plain plain] at settled
    cases settled
    exact ⟨_,key,shown,saved.stored,credential,stored,fun absent => given (by rw [absent])⟩

end

-- Values under unknown keys are shown, and values under known ones are replaced.
theorem redacted_iff (alike : Alike a b) : redactStorage a = redactStorage b ↔
    ∀ key ∈ unmarkedKeys a.kind, optionOf a.options key = optionOf b.options key := by
  constructor
  · intro same key unmarked
    have shown : optionOf (redactStorage a).options key = optionOf (redactStorage b).options key := by rw [same]
    simpa [redactStorage,optionOf_redact,(unmarked_plain _ key unmarked).2.1] using shown
  · intro same
    have options : redactOptions a.options = redactOptions b.options := by
      apply eq_of_optionOf
      intro key
      rw [optionOf_redact,optionOf_redact]
      by_cases credential : key ∈ credentialKeys a.kind
      · by_cases unmarked : key ∈ unmarkedKeys a.kind
        · rw [same key unmarked]
        · have keys := alike.keys key
          simp only [(credential_marked _ key credential unmarked).1,if_true]
          cases left : optionOf a.options key <;> cases right : optionOf b.options key <;> simp_all
      · rw [alike.values key credential]
    unfold redactStorage
    rw [options]
    exact (congrArg (fun storage : Storage => {storage with options := redactOptions b.options}) alike.rest).symm

-- With and without a protector.
theorem credentials_confined_iff (parseURL : Bytes → Option URL) (p : Option StateSecretProtector) {a b : Storage}
    (alike : Alike a b) {tableA tableB afterA afterB : StorageTable}
    (first : save parseURL p tableA a = .ok afterA) (second : save parseURL p tableB b = .ok afterB) :
    (redactStorage a = redactStorage b ∧ (p.isSome = true → ¬ Exposes afterA a ∧ ¬ Exposes afterB b)) ↔
      (∀ key ∈ unmarkedKeys a.kind, optionOf a.options key = optionOf b.options key) ∧
        (p.isSome = true → Marked a ∧ Marked b) := by
  refine and_congr (redacted_iff alike) ?_
  cases p with
  | none => exact imp_congr_right nofun
  | some p => rw [exposes_iff first,exposes_iff second,not_not,not_not]

def storageWith (kind uri key text : String) : Storage where
  id := ascii "st1"
  name := ascii "archive"
  kind := ascii kind
  uri := ascii uri
  options := Table.single (ascii key,.any (.str (ascii text)))
  createdAt := ⟨1,0⟩
  updatedAt := ⟨1,0⟩
  labels := Table.empty

theorem optionOf_with (kind uri key text : String) (other : Bytes) :
    optionOf (storageWith kind uri key text).options other =
      if ascii key = other then some (.any (.str (ascii text))) else none := by
  by_cases same : ascii key = other
  · subst same
    rw [if_pos rfl]
    exact optionOf_exact.mpr ((Table.get_exact _).mpr ⟨List.mem_singleton_self _,rfl⟩)
  · rw [if_neg same]
    apply Option.eq_none_iff_forall_ne_some.mpr
    intro value found
    obtain ⟨row,_⟩ := (Table.get_exact _).mp (optionOf_exact.mp found)
    exact same (congrArg Prod.fst (List.mem_singleton.mp row)).symm

theorem alike_with (credential : ascii key ∈ credentialKeys (ascii kind)) (one other : String) :
    Alike (storageWith kind uri key one) (storageWith kind uri key other) where
  rest := rfl
  keys := by
    intro name
    rw [optionOf_with,optionOf_with]
    split <;> rfl
  values := by
    intro name plain
    have differ : ascii key ≠ name := fun same => plain (same ▸ credential)
    rw [optionOf_with,optionOf_with,if_neg differ,if_neg differ]

def plainURL (raw : Bytes) : Option URL :=
  match raw.span (fun b => b ≠ 58) with
  | (scheme,_ :: _ :: _ :: rest) =>
    match rest.span (fun b => b ≠ 47) with
    | (host,path) => some ⟨scheme,host,path,none⟩
  | _ => none

def plainProtector : StateSecretProtector where
  algorithm := ascii "aes-256-gcm"
  newNonce := fun _ => some []
  sealWith := fun _ plaintext _ => plaintext.reverse
  encodeToString := id

theorem saves (done : (save plainURL p Table.empty storage).isOk = true) :
    ∃ after, save plainURL p Table.empty storage = .ok after := by
  cases saved : save plainURL p Table.empty storage with
  | error => rw [saved] at done; cases done
  | ok after => exact ⟨after,rfl⟩

def secretStorage (text : String) : Storage := storageWith "s3" "s3://bucket/" "secretKey" text

theorem secret_key_confined : ∃ one other, save plainURL (some plainProtector) Table.empty (secretStorage "k1") = .ok one ∧
      save plainURL (some plainProtector) Table.empty (secretStorage "k2") = .ok other ∧
      redactStorage (secretStorage "k1") = redactStorage (secretStorage "k2") ∧
      ¬ Exposes one (secretStorage "k1") ∧ ¬ Exposes other (secretStorage "k2") := by
  have unset : ∀ text, ∀ key ∈ unmarkedKeys kindS3, optionOf (secretStorage text).options key = none := by
    intro text key listed
    obtain rfl : key = ascii "accessKey" := List.mem_singleton.mp listed
    rfl
  have marked (text : String) : Marked (secretStorage text) := by
    intro key listed value given
    cases (unset text key listed).symm.trans given
  have same : ∀ key ∈ unmarkedKeys kindS3,
      optionOf (secretStorage "k1").options key = optionOf (secretStorage "k2").options key :=
    fun key listed => (unset "k1" key listed).trans (unset "k2" key listed).symm
  obtain ⟨one,first⟩ := @saves (some plainProtector) (secretStorage "k1") (by decide +kernel)
  obtain ⟨other,second⟩ := @saves (some plainProtector) (secretStorage "k2") (by decide +kernel)
  obtain ⟨equal,confined⟩ := (credentials_confined_iff plainURL (some plainProtector) (alike_with (by decide) "k1" "k2")
    first second).mpr ⟨same,fun _ => ⟨marked _,marked _⟩⟩
  exact ⟨one,other,first,second,equal,confined rfl⟩

def accountStorage (text : String) : Storage := storageWith "azure" "azure://acct/c" "account_key" text

-- The agent reads the option as the account key, and the API shows it.
theorem account_key_shown : ∃ one other, save plainURL (some plainProtector) Table.empty (accountStorage "k1") = .ok one ∧
      save plainURL (some plainProtector) Table.empty (accountStorage "k2") = .ok other ∧
      agentSecrets (fun _ => []) kindAzure ⟨ascii "azure",ascii "acct",ascii "/c",none⟩ (accountStorage "k1").options =
        [ascii "k1",[]] ∧
      Alike (accountStorage "k1") (accountStorage "k2") ∧
      redactStorage (accountStorage "k1") ≠ redactStorage (accountStorage "k2") ∧ Exposes one (accountStorage "k1") := by
  obtain ⟨one,first⟩ := @saves (some plainProtector) (accountStorage "k1") (by decide +kernel)
  obtain ⟨other,second⟩ := @saves (some plainProtector) (accountStorage "k2") (by decide +kernel)
  have alike : Alike (accountStorage "k1") (accountStorage "k2") := alike_with (by decide) _ _
  have shown : optionOf (accountStorage "k1").options (ascii "account_key") ≠
      optionOf (accountStorage "k2").options (ascii "account_key") := by
    simp only [accountStorage,optionOf_with,if_true,ne_eq,Option.some.injEq,OptionValue.any.injEq,GoValue.str.injEq]
    decide
  refine ⟨one,other,first,second,by decide +kernel,alike,?_,?_⟩
  · exact fun same => shown ((redacted_iff alike).mp same _ (by decide))
  · apply (exposes_iff first).mpr
    intro marked
    have absent := marked (ascii "account_key") (by decide) _ ((optionOf_with _ _ _ _ _).trans (if_pos rfl))
    cases absent

end Kronos.StorageSecrets
