import Kronos.Effect
import Kronos.Strings

namespace Kronos.PostgresDump
open ByteRange Utf8 Strings Effect

structure PgNativeTable where
  schema : Bytes
  name : Bytes
  deriving DecidableEq

structure PgNativeColumn where
  name : Bytes
  type : Bytes
  notNull : Bool
  default : Option Bytes

structure PgNativeConstraint where
  name : Bytes
  definition : Bytes
  deriving DecidableEq

structure PgNativeExtension where
  name : Bytes
  schema : Bytes
  version : Bytes

structure PgNativeType where
  schema : Bytes
  definition : Bytes

structure PgNativeSequence where
  schema : Bytes
  name : Bytes
  dataType : Bytes
  startValue : Bytes
  minValue : Bytes
  maxValue : Bytes
  incrementBy : Bytes
  cacheSize : Bytes
  cycle : Bool
  lastValue : Option Bytes
  ownedSchema : Bytes
  ownedTable : Bytes
  ownedColumn : Bytes

structure PgNativeView where
  schema : Bytes
  name : Bytes
  definition : Bytes
  materialized : Bool

structure PgNativeTableDump where
  table : PgNativeTable
  columns : List PgNativeColumn
  rows : List (List (Option Bytes))
  constraints : List PgNativeConstraint
  indexes : List Bytes
  triggers : List Bytes

def quotePGIdentifier (value : Bytes) : Bytes := 34 :: (doubled 34 value ++ [34])

def quotePGQualifiedName (schema name : Bytes) : Bytes := quotePGIdentifier schema ++ ascii "." ++ quotePGIdentifier name

def quotePGLiteral (value : Bytes) : Bytes := 39 :: (doubled 39 value ++ [39])

-- What is written: the statements that add constraints, and the text around
-- them.
inductive Statement
  | text (bytes : Bytes) | addConstraint (table : PgNativeTable) (constraint : PgNativeConstraint)
  deriving DecidableEq

def createSchema (schema : Bytes) : Bytes := ascii "CREATE SCHEMA IF NOT EXISTS " ++ quotePGIdentifier schema ++ ascii ";\n"

-- A definition taken from the catalog, with its semicolon; a blank one is left out.
def terminated (definition finish : Bytes) : Bytes :=
  let definition := trimSpace definition
  if definition = [] then []
  else (if ascii ";" <:+ definition then definition else definition ++ ascii ";") ++ finish

def writeNativeExtensionDefinition (extension : PgNativeExtension) : Bytes :=
  (if extension.schema ≠ [] ∧ extension.schema ≠ ascii "public" then createSchema extension.schema else []) ++
    ascii "CREATE EXTENSION IF NOT EXISTS " ++ quotePGIdentifier extension.name ++
    (if extension.schema ≠ [] then ascii " WITH SCHEMA " ++ quotePGIdentifier extension.schema else []) ++
    (if extension.version ≠ [] then ascii " VERSION " ++ quotePGLiteral extension.version else []) ++ ascii ";\n\n"

def writeNativeTypeDefinition (type : PgNativeType) : Bytes :=
  if trimSpace type.definition = [] then []
  else (if type.schema ≠ [] ∧ type.schema ≠ ascii "public" then createSchema type.schema else []) ++
    terminated type.definition (ascii "\n\n")

def writeSequenceClause (clause value : Bytes) : Bytes := if value = [] then [] else clause ++ value

def writeNativeSequenceDefinition (sequence : PgNativeSequence) : Bytes :=
  (if sequence.schema ≠ ascii "public" then createSchema sequence.schema else []) ++
    ascii "CREATE SEQUENCE " ++ quotePGQualifiedName sequence.schema sequence.name ++
    writeSequenceClause (ascii " AS ") sequence.dataType ++
    writeSequenceClause (ascii " START WITH ") sequence.startValue ++
    writeSequenceClause (ascii " INCREMENT BY ") sequence.incrementBy ++
    writeSequenceClause (ascii " MINVALUE ") sequence.minValue ++
    writeSequenceClause (ascii " MAXVALUE ") sequence.maxValue ++
    writeSequenceClause (ascii " CACHE ") sequence.cacheSize ++
    (if sequence.cycle then ascii " CYCLE" else ascii " NO CYCLE") ++ ascii ";\n\n"

def writeNativeSequenceOwnership (sequence : PgNativeSequence) : Bytes :=
  if sequence.ownedSchema = [] ∨ sequence.ownedTable = [] ∨ sequence.ownedColumn = [] then []
  else ascii "ALTER SEQUENCE " ++ quotePGQualifiedName sequence.schema sequence.name ++ ascii " OWNED BY " ++
    quotePGQualifiedName sequence.ownedSchema sequence.ownedTable ++ ascii "." ++
    quotePGIdentifier sequence.ownedColumn ++ ascii ";\n\n"

def writeNativeSequenceSetValue (sequence : PgNativeSequence) : Bytes :=
  if sequence.lastValue.getD [] = [] then []
  else ascii "SELECT pg_catalog.setval(" ++ quotePGLiteral (quotePGQualifiedName sequence.schema sequence.name) ++
    ascii ", " ++ sequence.lastValue.getD [] ++ ascii ", true);\n"

def writeNativeViewDefinition (view : PgNativeView) : Bytes :=
  (if view.schema ≠ ascii "public" then createSchema view.schema else []) ++
    if view.materialized then
      ascii "CREATE MATERIALIZED VIEW " ++ quotePGQualifiedName view.schema view.name ++ ascii " AS\n" ++
        trimSpace view.definition ++ ascii "\nWITH NO DATA;\n\n"
    else ascii "CREATE VIEW " ++ quotePGQualifiedName view.schema view.name ++ ascii " AS\n" ++
      trimSpace view.definition ++ ascii ";\n\n"

def writeNativeRoutineDefinition (definition : Bytes) : Bytes := terminated definition (ascii "\n\n")

def columnDefinition (column : PgNativeColumn) : Bytes :=
  ascii "  " ++ quotePGIdentifier column.name ++ ascii " " ++ column.type ++
    (if column.default.getD [] = [] then [] else ascii " DEFAULT " ++ column.default.getD []) ++
    if column.notNull then ascii " NOT NULL" else []

def writeNativeTableDefinition (table : PgNativeTable) (columns : List PgNativeColumn) : Bytes :=
  (if table.schema ≠ ascii "public" then createSchema table.schema else []) ++
    ascii "CREATE TABLE " ++ quotePGQualifiedName table.schema table.name ++ ascii " (" ++
    (if columns = [] then [] else ascii "\n" ++ (ascii ",\n").intercalate (columns.map columnDefinition) ++ ascii "\n") ++
    ascii ");\n\n"

def rowValue : Option Bytes → Bytes
  | none => ascii "NULL"
  | some value => quotePGLiteral value

def insertRow (table : PgNativeTable) (columns : List PgNativeColumn) (row : List (Option Bytes)) : Bytes :=
  ascii "INSERT INTO " ++ quotePGQualifiedName table.schema table.name ++
    if columns = [] then ascii " DEFAULT VALUES;\n"
    else ascii " (" ++ (ascii ", ").intercalate (columns.map fun column => quotePGIdentifier column.name) ++
      ascii ") VALUES (" ++
      (ascii ", ").intercalate ((List.range columns.length).map fun i => rowValue ((row[i]?).getD none)) ++ ascii ");\n"

def writeNativeTableData (table : PgNativeTable) (columns : List PgNativeColumn) (rows : List (List (Option Bytes))) : Bytes :=
  rows.flatMap (insertRow table columns) ++ [10]

def writeNativeTablePostData (table : PgNativeTable) (constraints : List PgNativeConstraint) (indexes triggers : List Bytes) :
    List Statement :=
  constraints.map (.addConstraint table) ++
    [.text (indexes.flatMap fun definition => terminated definition [10]),
     .text (triggers.flatMap fun definition => terminated definition [10]),
     .text (if 0 < constraints.length ∨ 0 < indexes.length ∨ 0 < triggers.length then [10] else [])]

structure Listing where
  includeGlobals : Bool
  tables : Except Bytes (List PgNativeTable)
  extensions : Except Bytes (List PgNativeExtension)
  types : Except Bytes (List PgNativeType)
  sequences : Except Bytes (List PgNativeSequence)
  views : Except Bytes (List PgNativeView)
  routines : Except Bytes (List Bytes)
  columns : PgNativeTable → Except Bytes (List PgNativeColumn)
  rows : PgNativeTable → List PgNativeColumn → Except Bytes (List (List (Option Bytes)))
  constraints : PgNativeTable → Except Bytes (List PgNativeConstraint)
  indexes : PgNativeTable → Except Bytes (List Bytes)
  triggers : PgNativeTable → Except Bytes (List Bytes)

def Listing.tableDump (listing : Listing) (table : PgNativeTable) : Except Bytes PgNativeTableDump := do
  let columns ← listing.columns table
  let rows ← listing.rows table columns
  let constraints ← listing.constraints table
  let indexes ← listing.indexes table
  let triggers ← listing.triggers table
  return ⟨table,columns,rows,constraints,indexes,triggers⟩

def Listing.tableDumps (listing : Listing) : List PgNativeTable → Except Bytes (List PgNativeTableDump)
  | [] => .ok []
  | table :: rest => do
    let dump ← listing.tableDump table
    let dumps ← listing.tableDumps rest
    return dump :: dumps

structure Dump where
  statements : List Statement
  totalRows : Nat

def definitions (extensions : List PgNativeExtension) (types : List PgNativeType) (sequences : List PgNativeSequence)
    (routines : List Bytes) (dumps : List PgNativeTableDump) : List Statement :=
  [.text (ascii "SET standard_conforming_strings = on;\n\n"),
   .text (extensions.flatMap writeNativeExtensionDefinition),
   .text (types.flatMap writeNativeTypeDefinition),
   .text (sequences.flatMap writeNativeSequenceDefinition),
   .text (dumps.flatMap fun dump => writeNativeTableDefinition dump.table dump.columns),
   .text (sequences.flatMap writeNativeSequenceOwnership),
   .text (dumps.flatMap fun dump => writeNativeTableData dump.table dump.columns dump.rows),
   .text (routines.flatMap writeNativeRoutineDefinition)]

def pgNativeBackupFull (listing : Listing) : Except Bytes Dump :=
  if listing.includeGlobals then .error (ascii "native postgres backup does not support include_globals yet")
  else do
    let tables ← listing.tables
    let extensions ← listing.extensions
    let types ← listing.types
    let sequences ← listing.sequences
    let views ← listing.views
    let routines ← listing.routines
    let dumps ← listing.tableDumps tables
    return ⟨definitions extensions types sequences routines dumps ++
      dumps.flatMap (fun dump => writeNativeTablePostData dump.table dump.constraints dump.indexes dump.triggers) ++
      [.text (sequences.flatMap writeNativeSequenceSetValue),.text (views.flatMap writeNativeViewDefinition)],
      (dumps.map fun dump => dump.rows.length).sum⟩

-- What the catalog knows of a constraint, by its table and its name: a primary
-- or unique key, a foreign key and the constraint it refers to, or neither.
structure KeyRef where
  table : PgNativeTable
  key : Bytes
  deriving DecidableEq

inductive Role
  | key | foreign (ref : KeyRef) | other
  deriving DecidableEq

abbrev Catalog := PgNativeTable → Bytes → Role

-- Every foreign key is added after the key it refers to.
def Ordered (catalog : Catalog) (statements : List Statement) : Prop :=
  ∀ before table constraint after, statements = before ++ .addConstraint table constraint :: after →
    ∀ ref, catalog table constraint.name = .foreign ref →
      ∃ key, .addConstraint ref.table key ∈ before ∧ key.name = ref.key

def Listing.listed (listing : Listing) : List PgNativeTable :=
  match listing.tables with
  | .ok tables => tables
  | .error _ => []

def Listing.constraintsOf (listing : Listing) (table : PgNativeTable) : List PgNativeConstraint :=
  match listing.constraints table with
  | .ok constraints => constraints
  | .error _ => []

def Statement.added : Statement → Option (PgNativeTable × PgNativeConstraint)
  | .text _ => none
  | .addConstraint table constraint => some (table,constraint)

theorem added_exact {statement : Statement} :
    statement.added = some (table,constraint) ↔ statement = .addConstraint table constraint := by
  cases statement <;> simp [Statement.added]

def Ready (catalog : Catalog) (additions : List (PgNativeTable × PgNativeConstraint)) : Prop :=
  ∀ before table constraint after, additions = before ++ (table,constraint) :: after →
    ∀ ref, catalog table constraint.name = .foreign ref → ∃ key, (ref.table,key) ∈ before ∧ key.name = ref.key

theorem ordered_exact (catalog : Catalog) (statements : List Statement) :
    Ordered catalog statements ↔ Ready catalog (statements.filterMap Statement.added) := by
  constructor
  · intro ordered before table constraint after same ref foreign
    obtain ⟨first,_,rfl,rfl,second⟩ := List.filterMap_eq_append_iff.mp same
    obtain ⟨between,_,last,rfl,plain,found,rfl⟩ := List.filterMap_eq_cons_iff.mp second
    obtain rfl := added_exact.mp found
    obtain ⟨key,member,named⟩ := ordered (first ++ between) table constraint last (by simp) ref foreign
    refine ⟨key,?_,named⟩
    rcases List.mem_append.mp member with inFirst | inBetween
    · exact List.mem_filterMap.mpr ⟨_,inFirst,rfl⟩
    · cases plain _ inBetween
  · intro ready before table constraint after same ref foreign
    have split : statements.filterMap Statement.added =
        before.filterMap Statement.added ++ (table,constraint) :: after.filterMap Statement.added := by
      rw [same,List.filterMap_append]
      rfl
    obtain ⟨key,member,named⟩ := ready _ _ _ _ split ref foreign
    obtain ⟨_,present,found⟩ := List.mem_filterMap.mp member
    obtain rfl := added_exact.mp found
    exact ⟨key,present,named⟩

section Tables
variable (constraints : PgNativeTable → List PgNativeConstraint)

def additionsOf (tables : List PgNativeTable) : List (PgNativeTable × PgNativeConstraint) :=
  tables.flatMap fun table => (constraints table).map fun constraint => (table,constraint)

theorem additionsOf_cons (table : PgNativeTable) (rest : List PgNativeTable) : additionsOf constraints (table :: rest) =
      (constraints table).map (fun constraint => (table,constraint)) ++ additionsOf constraints rest := rfl

theorem additionsOf_append (first rest : List PgNativeTable) :
    additionsOf constraints (first ++ rest) = additionsOf constraints first ++ additionsOf constraints rest :=
  List.flatMap_append

theorem mem_additionsOf :
    (table,constraint) ∈ additionsOf constraints tables ↔ table ∈ tables ∧ constraint ∈ constraints table := by
  simp [additionsOf]

-- A place among the additions is a place among the tables and one among the
-- constraints of the table there.
theorem additionsOf_split (tables : List PgNativeTable)
    (same : additionsOf constraints tables = before ++ (table,constraint) :: after) :
    ∃ earlier later first last, tables = earlier ++ table :: later ∧ constraints table = first ++ constraint :: last ∧
      before = additionsOf constraints earlier ++ first.map (fun constraint => (table,constraint)) := by
  induction tables generalizing before with
  | nil => simp [additionsOf] at same
  | cons head rest ih =>
    rcases List.append_eq_append_iff.mp same with ⟨_,rfl,others⟩ | ⟨inner,own,others⟩
    · obtain ⟨earlier,later,first,last,rfl,listed,rfl⟩ := ih others
      exact ⟨head :: earlier,later,first,last,rfl,listed,by simp [additionsOf_cons]⟩
    · cases inner with
      | nil =>
        obtain ⟨earlier,later,first,last,rfl,listed,empty⟩ := @ih [] others.symm
        obtain ⟨none_earlier,none_first⟩ := List.append_eq_nil_iff.mp empty.symm
        exact ⟨head :: earlier,later,first,last,rfl,listed,by simp [additionsOf_cons,none_earlier,none_first,own]⟩
      | cons =>
        obtain ⟨rfl,_⟩ := List.cons.inj others
        obtain ⟨first,_,listed,rfl,place⟩ := List.map_eq_append_iff.mp own
        obtain ⟨_,last,rfl,same_pair,_⟩ := List.map_eq_cons_iff.mp place
        obtain ⟨rfl,rfl⟩ := Prod.mk.inj same_pair
        exact ⟨[],rest,first,last,rfl,listed,rfl⟩

end Tables

theorem tableDump_exact {listing : Listing} (ran : listing.tableDump table = .ok dump) :
    dump.table = table ∧ dump.constraints = listing.constraintsOf table := by
  obtain ⟨_,_,ran⟩ := bind_ok_iff.mp ran
  obtain ⟨_,_,ran⟩ := bind_ok_iff.mp ran
  obtain ⟨_,listed,ran⟩ := bind_ok_iff.mp ran
  obtain ⟨_,_,ran⟩ := bind_ok_iff.mp ran
  obtain ⟨_,_,ran⟩ := bind_ok_iff.mp ran
  cases ran
  rw [Listing.constraintsOf,listed]
  exact ⟨rfl,rfl⟩

theorem postData_added (dump : PgNativeTableDump) :
    (writeNativeTablePostData dump.table dump.constraints dump.indexes dump.triggers).filterMap Statement.added =
      dump.constraints.map fun constraint => (dump.table,constraint) := by
  have listed : (dump.constraints.map (Statement.addConstraint dump.table)).filterMap Statement.added =
      dump.constraints.map fun constraint => (dump.table,constraint) := by
    simp [List.filterMap_map,Function.comp_def,Statement.added]
  rw [writeNativeTablePostData,List.filterMap_append,listed]
  exact List.append_nil _

theorem tableDumps_added {listing : Listing} (tables : List PgNativeTable)
    (ran : listing.tableDumps tables = .ok dumps) :
    (dumps.flatMap fun dump => writeNativeTablePostData dump.table dump.constraints dump.indexes dump.triggers).filterMap
      Statement.added = additionsOf listing.constraintsOf tables := by
  induction tables generalizing dumps with
  | nil =>
    cases ran
    rfl
  | cons _ _ ih =>
    obtain ⟨_,first,ran⟩ := bind_ok_iff.mp ran
    obtain ⟨_,others,ran⟩ := bind_ok_iff.mp ran
    cases ran
    obtain ⟨same,listed⟩ := tableDump_exact first
    rw [List.flatMap_cons,List.filterMap_append,postData_added,ih others,additionsOf_cons,same,listed]

theorem backup_added {listing : Listing} (ran : pgNativeBackupFull listing = .ok dump) :
    dump.statements.filterMap Statement.added = additionsOf listing.constraintsOf listing.listed := by
  obtain ⟨_,ran⟩ := guard_ok_iff.mp ran
  obtain ⟨tables,found,ran⟩ := bind_ok_iff.mp ran
  obtain ⟨extensions,_,ran⟩ := bind_ok_iff.mp ran
  obtain ⟨types,_,ran⟩ := bind_ok_iff.mp ran
  obtain ⟨sequences,_,ran⟩ := bind_ok_iff.mp ran
  obtain ⟨_,_,ran⟩ := bind_ok_iff.mp ran
  obtain ⟨routines,_,ran⟩ := bind_ok_iff.mp ran
  obtain ⟨dumps,dumped,ran⟩ := bind_ok_iff.mp ran
  cases ran
  have none_before : (definitions extensions types sequences routines dumps).filterMap Statement.added = [] := rfl
  rw [List.filterMap_append,List.filterMap_append,none_before,tableDumps_added tables dumped,Listing.listed,found]
  exact List.append_nil _

-- What the claimed order rests on: every foreign key refers to a key of a table
-- in the dump, and the foreign keys of a table are listed last.
structure Resolved (catalog : Catalog) (listing : Listing) : Prop where
  present : ∀ table ∈ listing.listed, ∀ constraint ∈ listing.constraintsOf table, ∀ ref,
    catalog table constraint.name = .foreign ref → ref.table ∈ listing.listed ∧ catalog ref.table ref.key = .key ∧
      ∃ key ∈ listing.constraintsOf ref.table, key.name = ref.key
  foreignLast : ∀ table ∈ listing.listed, (listing.constraintsOf table).Pairwise fun first later =>
    ∀ ref, catalog table first.name = .foreign ref → ∃ other, catalog table later.name = .foreign other

-- A dump adds every foreign key after the key it refers to exactly when no
-- table refers to one that is listed after it.
theorem foreign_keys_ordered_exactly_backwards (catalog : Catalog) (listing : Listing) (dump : Dump)
    (ran : pgNativeBackupFull listing = .ok dump) (resolved : Resolved catalog listing) :
    Ordered catalog dump.statements ↔
      ∀ earlier table later, listing.listed = earlier ++ table :: later →
        ∀ constraint ∈ listing.constraintsOf table, ∀ ref, catalog table constraint.name = .foreign ref →
          ref.table = table ∨ ref.table ∈ earlier := by
  rw [ordered_exact,backup_added ran]
  constructor
  · intro ready earlier table later same constraint member ref foreign
    obtain ⟨first,last,listed⟩ := List.append_of_mem member
    have split : additionsOf listing.constraintsOf listing.listed =
        (additionsOf listing.constraintsOf earlier ++ first.map (fun constraint => (table,constraint))) ++
          (table,constraint) :: (last.map (fun constraint => (table,constraint)) ++ additionsOf listing.constraintsOf later) := by
      rw [same,additionsOf_append,additionsOf_cons,listed]
      simp
    obtain ⟨key,found,_⟩ := ready _ _ _ _ split ref foreign
    rcases List.mem_append.mp found with before | own
    · exact .inr ((mem_additionsOf _).mp before).1
    · obtain ⟨_,_,pair⟩ := List.mem_map.mp own
      exact .inl (congrArg Prod.fst pair).symm
  · intro backwards before table constraint after split ref foreign
    obtain ⟨earlier,later,first,last,same,listed,rfl⟩ := additionsOf_split _ _ split
    have member : table ∈ listing.listed := by simp [same]
    have own : constraint ∈ listing.constraintsOf table := by simp [listed]
    obtain ⟨_,isKey,key,keyListed,named⟩ := resolved.present table member constraint own ref foreign
    refine ⟨key,?_,named⟩
    rcases backwards earlier table later same constraint own ref foreign with rfl | before
    · have place : key ∈ first ∨ key = constraint ∨ key ∈ last := by simpa [listed] using keyListed
      rcases place with inFirst | rfl | inLast
      · exact List.mem_append_right _ (List.mem_map_of_mem inFirst)
      · rw [named,isKey] at foreign
        cases foreign
      · have sorted := resolved.foreignLast _ member
        rw [listed] at sorted
        obtain ⟨_,wrong⟩ := (List.pairwise_cons.mp (List.pairwise_append.mp sorted).2.1).1 key inLast ref foreign
        rw [named,isKey] at wrong
        cases wrong
    · exact List.mem_append_left _ ((mem_additionsOf _).mpr ⟨before,keyListed⟩)

section Pair

def orders : PgNativeTable := ⟨ascii "public",ascii "orders"⟩

def users : PgNativeTable := ⟨ascii "public",ascii "users"⟩

def pairListing (source target : PgNativeTable) : Listing where
  includeGlobals := false
  tables := .ok [orders,users]
  extensions := .ok []
  types := .ok []
  sequences := .ok []
  views := .ok []
  routines := .ok []
  columns _ := .ok []
  rows _ _ := .ok []
  constraints table := .ok (⟨ascii "pkey",ascii "PRIMARY KEY (id)"⟩ :: if table = source then
    [⟨ascii "owner",ascii "FOREIGN KEY (owner) REFERENCES " ++ target.name ++ ascii "(id)"⟩] else [])
  indexes _ := .ok []
  triggers _ := .ok []

def pairCatalog (target : PgNativeTable) : Catalog := fun _ name =>
  if name = ascii "owner" then .foreign ⟨target,ascii "pkey"⟩ else .key

theorem pair_resolved (inside : target ∈ [orders,users]) :
    Resolved (pairCatalog target) (pairListing source target) where
  present := by
    intro table _ constraint _ ref foreign
    have refers : ref = ⟨target,ascii "pkey"⟩ := by
      unfold pairCatalog at foreign
      split at foreign
      · exact (Role.foreign.inj foreign).symm
      · cases foreign
    subst refers
    exact ⟨inside,rfl,_,List.mem_cons_self,rfl⟩
  foreignLast := by
    intro table _
    have plain : pairCatalog target table (ascii "pkey") = .key := rfl
    have single : ∀ constraint : PgNativeConstraint, [constraint].Pairwise fun first later =>
        ∀ ref, pairCatalog target table first.name = .foreign ref → ∃ other, pairCatalog target table later.name = .foreign other :=
      fun _ => List.pairwise_singleton _ _
    change (_ :: ite _ _ _).Pairwise _
    refine List.pairwise_cons.mpr ⟨fun later _ ref foreign => ?_,?_⟩
    · cases plain.symm.trans foreign
    · split
      · exact single _
      · exact .nil

theorem pair_dumped (source target : PgNativeTable) : ∃ dump, pgNativeBackupFull (pairListing source target) = .ok dump :=
  ⟨_,rfl⟩

-- The table listed second refers to the first.
theorem later_table_refers_back : ∃ dump, pgNativeBackupFull (pairListing users orders) = .ok dump ∧
    Resolved (pairCatalog orders) (pairListing users orders) ∧ Ordered (pairCatalog orders) dump.statements := by
  obtain ⟨dump,ran⟩ := pair_dumped users orders
  have resolved : Resolved (pairCatalog orders) (pairListing users orders) := pair_resolved (by simp)
  refine ⟨dump,ran,resolved,(foreign_keys_ordered_exactly_backwards _ _ dump ran resolved).mpr ?_⟩
  intro earlier table later same constraint _ ref foreign
  have refers : ref.table = orders := by
    unfold pairCatalog at foreign
    split at foreign
    · rw [← Role.foreign.inj foreign]
    · cases foreign
  rw [refers]
  cases earlier with
  | nil => exact .inl (List.cons.inj same).1
  | cons => exact .inr (by rw [← (List.cons.inj same).1]; exact List.mem_cons_self)

-- The table listed first refers to the second, and its foreign key comes
-- before the key.
theorem first_table_refers_ahead : ∃ dump, pgNativeBackupFull (pairListing orders users) = .ok dump ∧
    Resolved (pairCatalog users) (pairListing orders users) ∧ ¬ Ordered (pairCatalog users) dump.statements := by
  obtain ⟨dump,ran⟩ := pair_dumped orders users
  refine ⟨dump,ran,pair_resolved (by simp),fun ordered => ?_⟩
  have ready := (ordered_exact _ _).mp ordered
  rw [backup_added ran] at ready
  have split : additionsOf (pairListing orders users).constraintsOf (pairListing orders users).listed =
      [(orders,⟨ascii "pkey",ascii "PRIMARY KEY (id)"⟩)] ++
        (orders,⟨ascii "owner",ascii "FOREIGN KEY (owner) REFERENCES " ++ users.name ++ ascii "(id)"⟩) ::
          [(users,⟨ascii "pkey",ascii "PRIMARY KEY (id)"⟩)] := by decide +kernel
  obtain ⟨_,found,_⟩ := ready _ _ _ _ split ⟨users,ascii "pkey"⟩ rfl
  have same : users = orders := congrArg Prod.fst (List.mem_singleton.mp found)
  exact absurd same (by decide)

end Pair

end Kronos.PostgresDump
