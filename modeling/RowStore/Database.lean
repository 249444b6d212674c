import RowStore.Pool

namespace RowStore

/-! A directory of named tables that share one pool.

The file of a table is named after the table, with its extension replaced; so
two names that differ in their extension only name one table.
-/

structure Database where
  directory : Path
  names : FinMap String TableId
  pool : Pool

namespace Database

def fileExtension : String := "dat"

/-- Opens a directory, making it if need be. Settings are checked before it is touched. -/
def openAt (disk : Disk) (directory : Path) (config : Config) : Except StoreError Database :=
  match config.validate with
  | .error error => .error error
  | .ok () =>
      match disk.makeDirectories directory with
      | .error error => .error error
      | .ok disk => .ok ⟨directory, .empty, .empty config disk⟩

def tablePath (db : Database) (name : String) : Path :=
  (db.directory.join name).withExtension fileExtension

/-- Opens or creates a table. A file that is registered already keeps its first schema. -/
def createTable (db : Database) (name : String) (schema : Schema) :
    Except StoreError (Database × TableId) :=
  match TableFile.openAt db.pool.disk (db.tablePath name) schema db.pool.config.pageSize with
  | .error error => .error error
  | .ok (disk, file) =>
      .ok ({ db with
          names := db.names.insert name file.id
          pool := { db.pool with disk }.addTable file },
        file.id)

def table? (db : Database) (name : String) : Except StoreError TableFile :=
  match db.names.get? name with
  | none => .error (.unknownTable name)
  | some table => db.pool.table? table

def tableNames (db : Database) : List String :=
  db.names.keys.mergeSort fun left right => ¬ right < left

end Database

end RowStore
