import Kronos.Effect
import Kronos.ManifestCommit

namespace Kronos.ManifestLoad
open Effect ByteRange Utf8 JsonString JsonText JsonValue JsonCodec Rfc3339 Hex ObjectStore ManifestFormat ManifestCommit

variable {env : Environment} {now : Time} {store after : Store} {backup : BackupResult} {opts : CommitOptions}
  {result : CommitResult}

def canonicalText (env : Environment) (m : Manifest) : Bytes :=
  (Manifest.codec env.scalars env.lenient).marshal compact {m with signature := none}

def signed (env : Environment) (backup : BackupResult) (opts : CommitOptions) : Manifest :=
  {unsigned env backup opts with signature := some ⟨ascii "ed25519",hexText (env.scheme.sign opts.privateKey (canonicalText env (unsigned env backup opts)))⟩}

def stored (env : Environment) (backup : BackupResult) (opts : CommitOptions) : Bytes :=
  (Manifest.codec env.scalars env.lenient).marshal indented (signed env backup opts)

theorem marshal_ok_iff : marshal env style m = .ok data ↔ (Shown m.startedAt ∧ Shown m.finishedAt) ∧
    (Manifest.codec env.scalars env.lenient).marshal style m = data := by
  unfold marshal
  split <;> simp [*]

structure Committed (env : Environment) (now : Time) (store after : Store) (backup : BackupResult)
    (opts : CommitOptions) (result : CommitResult) : Prop where
  named : opts.backupID ≠ []
  target : opts.target ≠ []
  key_size : opts.privateKey.length = 64
  started : Shown opts.startedAt
  finished : Shown opts.finishedAt
  accepted : env.acceptsKey (manifestKey now opts.finishedAt opts.backupID) = true
  free : store.get (manifestKey now opts.finishedAt opts.backupID) = none
  returned : result = ⟨signed env backup opts,manifestKey now opts.finishedAt opts.backupID,
    info env (manifestKey now opts.finishedAt opts.backupID) (stored env backup opts)⟩
  stored : after = store.put (manifestKey now opts.finishedAt opts.backupID) (stored env backup opts)

theorem commit_iff : commitManifest env now store backup opts = .ok (result,after) ↔
    Committed env now store after backup opts result := by
  unfold commitManifest sign canonicalJSON putObject
  simp only [bind_ok_iff,guard_ok_iff,marshal_ok_iff,Prod.exists]
  constructor
  · rintro ⟨named,target,_,⟨sized,_,⟨⟨started,finished⟩,rfl⟩,made⟩,_,⟨_,rfl⟩,_,_,⟨accepted,free,put⟩,returned⟩
    obtain rfl := Except.ok.inj made
    obtain ⟨rfl,rfl⟩ := Prod.mk.inj (Except.ok.inj put)
    obtain ⟨rfl,rfl⟩ := Prod.mk.inj (Except.ok.inj returned)
    exact ⟨named,target,not_not.mp sized,started,finished,Bool.eq_true_of_not_eq_false accepted,
      Option.not_isSome_iff_eq_none.mp free,rfl,rfl⟩
  · rintro ⟨named,target,sized,started,finished,accepted,free,rfl,rfl⟩
    exact ⟨named,target,_,⟨not_not.mpr sized,_,⟨⟨started,finished⟩,rfl⟩,rfl⟩,_,⟨⟨started,finished⟩,rfl⟩,_,_,
      ⟨by simp [accepted],Option.not_isSome_iff_eq_none.mpr free,rfl⟩,rfl⟩

theorem commit_keeps (committed : commitManifest env now store backup opts = .ok (result,after))
    (found : store.get key = some data) : after.get key = some data := by
  obtain ⟨_,_,_,_,_,_,free,_,rfl⟩ := commit_iff.mp committed
  rw [Store.get_put]
  split
  · rename_i same
    subst same
    cases free.symm.trans found
  · exact found

theorem manifestKey_shown (now finishedAt : Time) (backupID : Bytes) : manifestKey now finishedAt backupID ≠ [] := by
  intro empty
  have size := congrArg List.length empty
  simp [manifestKey,ascii] at size

theorem dedupRatio_stable (stats : Chunk.Stats) :
    env.scalars.number (dedupRatio env stats) = some (dedupRatio env stats) := by
  unfold dedupRatio
  split
  · exact env.zero_stable
  · exact env.ratio_stable _ _

theorem verify_signed (sized : opts.privateKey.length = 64) (started : Shown opts.startedAt)
    (finished : Shown opts.finishedAt) :
    verify env (signed env backup opts) (env.scheme.publicKey opts.privateKey) = .ok () := by
  have shown : canonicalJSON env (signed env backup opts) = .ok (canonicalText env (unsigned env backup opts)) :=
    if_pos ⟨started,finished⟩
  have accepted := env.scheme.accepts opts.privateKey (canonicalText env (unsigned env backup opts)) sized
  rw [verify,if_neg (not_not.mpr (env.scheme.publicKey_size _ sized))]
  change verifySignature env (signed env backup opts) _ ⟨ascii "ed25519",_⟩ = _
  rw [verifySignature,if_neg (not_not.mpr rfl),unhex_hexText,shown]
  change (if env.scheme.verify _ _ _ = false then _ else _) = _
  rw [accepted]
  rfl

-- The strings of a commit that JSON can hold, and zones it can tell.
def OptionsReadable (opts : CommitOptions) : Prop :=
  Valid opts.backupID ∧ Valid opts.target ∧ Valid opts.driver.name ∧ Valid opts.driver.version ∧
    Valid opts.driver.sourceTZ ∧ Valid opts.type ∧ (∀ id ∈ opts.parentID, Valid id) ∧
      opts.startedAt.offset % 60 = 0 ∧ opts.finishedAt.offset % 60 = 0 ∧ Valid opts.encryption.algorithm ∧
        Valid opts.encryption.keyID ∧ Valid opts.encryption.kdf

def RefReadable (ref : Chunk.ChunkRef) : Prop :=
  Valid ref.key ∧ Valid ref.etag ∧ Valid ref.compression ∧ Valid ref.encryption ∧ Valid ref.keyID

theorem repair_iff {text : Bytes} : repair text = text ↔ Valid text :=
  ⟨fun same => same ▸ repair_valid text,Valid.repair⟩

theorem wholeMinutes_iff : wholeMinutes t = t ↔ t.offset % 60 = 0 := by
  obtain ⟨_,offset⟩ := t
  simp only [wholeMinutes,zoneMinutes,Time.localNanos,Time.mk.injEq]
  constructor
  · intro same
    omega
  · intro whole
    have exact_ : 60 * offset.tdiv 60 = offset := Int.mul_tdiv_cancel' (Int.dvd_of_emod_eq_zero whole)
    omega

theorem ref_back_iff {ref : Chunk.ChunkRef} :
    (chunkFromPipeline ref).back = chunkFromPipeline ref ↔ RefReadable ref := by
  simp [ChunkRef.back,chunkFromPipeline,RefReadable,repair_iff,Chunk.Hash.text,hexText_valid]

theorem options_back (readable : OptionsReadable opts) : opts.driver.back = opts.driver ∧
    opts.encryption.back = opts.encryption ∧ opts.parentID.map repair = opts.parentID := by
  obtain ⟨_,_,name,version,zone,_,parent,_,_,algorithm,keyID,kdf⟩ := readable
  refine ⟨?_,?_,?_⟩
  · rw [Driver.back,name.repair,version.repair,zone.repair]
  · rw [Encryption.back,algorithm.repair,keyID.repair,kdf.repair]
  · cases given : opts.parentID with
    | none => rfl
    | some id => rw [Option.map_some,(parent id given).repair]

theorem objects_back_iff {refs : List Chunk.ChunkRef} : (refs.map chunkFromPipeline).map ChunkRef.back =
    refs.map chunkFromPipeline ↔ ∀ ref ∈ refs, RefReadable ref := by
  rw [List.map_map,List.map_inj_left]
  exact forall₂_congr (fun ref _ => ref_back_iff)

theorem signed_back_iff : (signed env backup opts).back = signed env backup opts ↔
    OptionsReadable opts ∧ ∀ ref ∈ backup.chunks, RefReadable ref := by
  constructor
  · intro same
    have driver : opts.driver.back = opts.driver := congrArg Manifest.driver same
    have encryption : opts.encryption.back = opts.encryption := congrArg Manifest.encryption same
    have parent : opts.parentID.map repair = opts.parentID := congrArg Manifest.parentID same
    have objects := congrArg Manifest.objects same
    refine ⟨⟨repair_iff.mp (congrArg Manifest.backupID same),repair_iff.mp (congrArg Manifest.target same),
      repair_iff.mp (congrArg Driver.name driver),repair_iff.mp (congrArg Driver.version driver),
      repair_iff.mp (congrArg Driver.sourceTZ driver),repair_iff.mp (congrArg Manifest.type same),?_,
      wholeMinutes_iff.mp (congrArg Manifest.startedAt same),
      wholeMinutes_iff.mp (congrArg Manifest.finishedAt same),
      repair_iff.mp (congrArg Encryption.algorithm encryption),
      repair_iff.mp (congrArg Encryption.keyID encryption),
      repair_iff.mp (congrArg Encryption.kdf encryption)⟩,?_⟩
    · intro id given
      rw [given] at parent
      exact repair_iff.mp (Option.some.inj parent)
    · have object := List.head_eq_of_cons_eq (Option.some.inj objects)
      exact objects_back_iff.mp (Option.some.inj (congrArg Object.chunks object))
  · rintro ⟨readable,refs⟩
    obtain ⟨driver,encryption,parent⟩ := options_back readable
    obtain ⟨id,target,_,_,_,type,_,started,finished,_,_,_⟩ := readable
    have name : Valid (ascii "stream") := by decide
    have algorithm : Valid (ascii "ed25519") := by decide
    have object : Object.back ⟨[],ascii "stream",some (backup.chunks.map chunkFromPipeline)⟩ =
        ⟨[],ascii "stream",some (backup.chunks.map chunkFromPipeline)⟩ := by
      rw [Object.back,Option.map_some,objects_back_iff.mpr refs,name.repair,valid_empty.repair]
    have signature : ∀ sig, Signature.back ⟨ascii "ed25519",hexText sig⟩ = ⟨ascii "ed25519",hexText sig⟩ := by
      intro sig
      rw [Signature.back,algorithm.repair,(hexText_valid sig).repair]
    unfold signed Manifest.back
    simp only [unsigned,id.repair,target.repair,type.repair,driver,encryption,parent,wholeMinutes_iff.mpr started,
      wholeMinutes_iff.mpr finished,Option.map_some,List.map_cons,List.map_nil,object,signature,valid_empty.repair]
    rfl

-- The text of the member that holds the signature.
def signatureSize : Nat := 189

def manifestSize (env : Environment) (backup : BackupResult) (opts : CommitOptions) : Nat :=
  size indented 0 (quoteAll ((Manifest.codec env.scalars env.lenient).value (unsigned env backup opts))) +
    signatureSize

theorem signature_size (sized : opts.privateKey.length = 64) (message : Bytes) : size indented 1 (quoteAll
    (Signature.codec.value ⟨ascii "ed25519",hexText (env.scheme.sign opts.privateKey message)⟩)) = 172 := by
  have text := quote_hexText (env.scheme.sign opts.privateKey message)
  have length := hexText_length (env.scheme.sign opts.privateKey message)
  rw [env.scheme.sign_size _ _ sized] at length
  have parts : Signature.codec.value ⟨ascii "ed25519",hexText (env.scheme.sign opts.privateKey message)⟩ =
      .obj [(ascii "algo",.str (ascii "ed25519")),
        (ascii "value",.str (hexText (env.scheme.sign opts.privateKey message)))] := rfl
  have algo : (quote (ascii "algo")).length = 4 := by decide
  have name : (quote (ascii "ed25519")).length = 7 := by decide
  have value : (quote (ascii "value")).length = 5 := by decide
  rw [parts]
  simp only [quoteAll,quoteMembers,size,sizeMembers,text,length,algo,name,value,indented,separator]
  rfl

section
variable (env)

theorem document_size (m : Manifest) : size indented 0 (quoteAll ((Manifest.codec env.scalars env.lenient).value m)) =
    1 + sizeMembers indented 0 true (quoteMembers ((layout (Manifest.fields env.scalars env.lenient)).members m)) := rfl

theorem signed_members (backup : BackupResult) (opts : CommitOptions) :
    (layout (Manifest.fields env.scalars env.lenient)).members (signed env backup opts) =
      (layout (Manifest.fields env.scalars env.lenient)).members (unsigned env backup opts) ++
        [(ascii "signature",Signature.codec.value ⟨ascii "ed25519",
          hexText (env.scheme.sign opts.privateKey (canonicalText env (unsigned env backup opts)))⟩)] := rfl

theorem unsigned_members (backup : BackupResult) (opts : CommitOptions) :
    quoteMembers ((layout (Manifest.fields env.scalars env.lenient)).members (unsigned env backup opts)) ≠ [] := by
  change quoteMembers (_ :: _) ≠ []
  exact List.cons_ne_nil _ _

end

theorem stored_size (sized : opts.privateKey.length = 64) :
    (stored env backup opts).length = manifestSize env backup opts := by
  have key : (quote (ascii "signature")).length = 9 := by decide
  have last : ∀ value, quoteMembers [(ascii "signature",value)] = [(quote (ascii "signature"),quoteAll value)] :=
    fun _ => rfl
  rw [stored,Codec.marshal,write_length,manifestSize,document_size,document_size,signed_members,
    quoteMembers_append,last,sizeMembers_snoc indented 0 (unsigned_members env backup opts),
    signature_size sized,key]
  change _ = _ + 189
  change 1 + (_ + (1 + 3 + (9 + 3) + 1 + 172)) = _
  omega

theorem load_committed (committed : Committed env now store after backup opts result) (publicKey : Bytes) :
    loadManifest env after result.key publicKey =
      if maxManifestBytes < manifestSize env backup opts then .error (.tooLarge result.key)
      else do
        verify env (signed env backup opts).back publicKey
        return ((signed env backup opts).back,info env result.key (stored env backup opts)) := by
  obtain ⟨_,_,sized,started,finished,accepted,_,rfl,rfl⟩ := committed
  have fits : (Manifest.codec env.scalars env.lenient).Fits (signed env backup opts) :=
    Manifest.fits env.scalars env.lenient started finished (dedupRatio_stable backup.stats)
  have parsed : ManifestCommit.parse env (stored env backup opts) = .ok (signed env backup opts).back := by
    have read := unmarshal_marshal (Manifest.codec env.scalars env.lenient) indented _ fits
    rw [ManifestCommit.parse,stored,read]
    rfl
  rw [loadManifest,if_neg (manifestKey_shown _ _ _),getObject,if_neg (by simp [accepted]),Store.get_put,if_pos rfl]
  change (if maxManifestBytes < (stored env backup opts).length then _ else _) = _
  rw [stored_size sized,parsed]
  rfl

theorem load_same (same : after.get key = store.get key) (publicKey : Bytes) :
    loadManifest env after key publicKey = loadManifest env store key publicKey := by
  unfold loadManifest getObject
  rw [same]

theorem load_readable (committed : Committed env now store after backup opts result)
    (same : (signed env backup opts).back = signed env backup opts)
    (small : manifestSize env backup opts ≤ maxManifestBytes) :
    loadManifest env after result.key (env.scheme.publicKey opts.privateKey) =
      .ok (signed env backup opts,info env result.key (stored env backup opts)) := by
  rw [load_committed committed,if_neg (Nat.not_lt_of_le small),same,
    verify_signed committed.key_size committed.started committed.finished]
  rfl

theorem committed_manifest_loads_iff (committed : commitManifest env now store backup opts = .ok (result,after)) :
    (∃ info, loadManifest env after result.key (env.scheme.publicKey opts.privateKey) =
        .ok (result.manifest,info)) ↔
      (OptionsReadable opts ∧ ∀ ref ∈ backup.chunks, RefReadable ref) ∧
        manifestSize env backup opts ≤ maxManifestBytes := by
  have made := commit_iff.mp committed
  have manifest : result.manifest = signed env backup opts := congrArg CommitResult.manifest made.returned
  rw [load_committed made,manifest,← @signed_back_iff env backup opts]
  constructor
  · rintro ⟨_,loaded⟩
    rw [guard_ok_iff] at loaded
    obtain ⟨small,loaded⟩ := loaded
    obtain ⟨_,_,returned⟩ := bind_ok_iff.mp loaded
    exact ⟨(Prod.mk.inj (Except.ok.inj returned)).1,Nat.le_of_not_lt small⟩
  · rintro ⟨same,small⟩
    have loaded := load_readable made same small
    rw [load_committed made] at loaded
    exact ⟨_,loaded⟩

-- A scheme that signs with the head of the message.
def headScheme : Ed25519 where
  publicKey key := key.take 32
  sign _ message := (message ++ List.replicate 64 0).take 64
  verify _ message sig := decide (sig = (message ++ List.replicate 64 0).take 64)
  publicKey_size := by
    intro key size
    simp [size]
  sign_size := by
    intro key message _
    simp
  accepts := by
    intro key message _
    simp

def plainEnvironment : Environment where
  scalars := literalScalars
  lenient _ := none
  scheme := headScheme
  acceptsKey _ := true
  etag data := data.take 4
  ratio _ _ := ascii "0"
  ratio_stable := by
    intro _ _
    decide +kernel
  zero_stable := by decide +kernel

def noon : Time := ⟨63902995200000000000,0⟩

theorem noon_shown : Shown noon := by decide +kernel

def optionsFor (target : Bytes) : CommitOptions where
  backupID := ascii "b1"
  target := target
  driver := ⟨ascii "postgres",ascii "16",[]⟩
  type := ascii "full"
  parentID := none
  startedAt := noon
  finishedAt := noon
  encryption := ⟨ascii "aes-256-gcm",ascii "k1",[]⟩
  privateKey := List.replicate 64 7

def signer : Bytes := (List.replicate 64 7).take 32

def nothing : BackupResult := ⟨[],⟨0,0,0,0,0⟩⟩

def plainRef (sequence : Int) : Chunk.ChunkRef :=
  ⟨sequence,⟨List.replicate 32 7,rfl⟩,ascii "data/07",sequence,1,23,[],ascii "none",ascii "aes-256-gcm",ascii "k1",false⟩

def twoBytes : BackupResult := ⟨[plainRef 0,plainRef 1],⟨2,2,2,0,46⟩⟩

theorem optionsFor_commits (named : target ≠ []) (backup : BackupResult) : ∃ result after,
    commitManifest plainEnvironment noon Store.empty backup (optionsFor target) = .ok (result,after) := by
  have id : ascii "b1" ≠ [] := by decide
  exact ⟨_,_,commit_iff.mpr ⟨id,named,List.length_replicate,noon_shown,noon_shown,rfl,rfl,rfl,rfl⟩⟩

theorem named_target_loads : ∃ result after info,
    commitManifest plainEnvironment noon Store.empty twoBytes (optionsFor (ascii "db")) = .ok (result,after) ∧
      loadManifest plainEnvironment after result.key signer =
        .ok (result.manifest,info) := by
  obtain ⟨result,after,committed⟩ := @optionsFor_commits (ascii "db") (by decide) twoBytes
  have readable : (OptionsReadable (optionsFor (ascii "db")) ∧ ∀ ref ∈ twoBytes.chunks, RefReadable ref) ∧
      manifestSize plainEnvironment twoBytes (optionsFor (ascii "db")) ≤ maxManifestBytes := by
    unfold OptionsReadable RefReadable
    decide +kernel
  obtain ⟨info,loaded⟩ := (committed_manifest_loads_iff committed).mpr readable
  exact ⟨result,after,info,committed,loaded⟩

-- A target that is one byte 255: the text that was signed has an escape where
-- the text that is checked has the bytes of the replacement character.
theorem broken_target_is_refused : ∃ result after,
    commitManifest plainEnvironment noon Store.empty nothing (optionsFor [255]) = .ok (result,after) ∧
      loadManifest plainEnvironment after result.key signer =
        .error .signatureMismatch := by
  obtain ⟨result,after,committed⟩ := @optionsFor_commits [255] (by decide) nothing
  refine ⟨result,after,committed,?_⟩
  have small : ¬ maxManifestBytes < manifestSize plainEnvironment nothing (optionsFor [255]) := by
    decide +kernel
  have refused : verify plainEnvironment (signed plainEnvironment nothing (optionsFor [255])).back
      signer = .error .signatureMismatch := by
    decide +kernel
  rw [load_committed (commit_iff.mp committed),if_neg small,refused]
  rfl

end Kronos.ManifestLoad
