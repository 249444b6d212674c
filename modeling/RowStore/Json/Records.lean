import RowStore.Config
import RowStore.Json.Reader
import RowStore.Lock.Mode

namespace RowStore

/-! Settings, ids and names as JSON text.

A record is written as an object and read from an object, in any order of its
members, or from an array, in the order in which it is written. A name is
written as a string and read from a string or from an object with that one
member, which is null.
-/

namespace Json

def word? : JsonValue → Option Nat
  | .natural value => if value < UInt64.size then some value else none
  | _ => none

def bool? : JsonValue → Option Bool
  | .bool value => some value
  | _ => none

def optional? {α : Type} (read : JsonValue → Option α) : JsonValue → Option (Option α)
  | .null => some none
  | value => (read value).map some

def name? {α : Type} (names : List (String × α)) : JsonValue → Option α
  | .string (some text) => names.lookup text
  | .object [(some text, .null)] => names.lookup text
  | _ => none

/-- The members of a record by name: no name of the record stands twice, and every name of the
object is text. -/
def members (names : List String) (object : List (Option String × JsonValue)) :
    Option (List (String × JsonValue)) :=
  let known := object.filterMap fun (name, value) => name.map fun name => (name, value)
  if object.all (fun member => member.1.isSome) &&
      names.all fun name => known.countP (fun member => member.1 = name) ≤ 1 then some known
  else none

def memberOr {α : Type} (missing : α) (read : JsonValue → Option α) (name : String)
    (members : List (String × JsonValue)) : Option α :=
  match members.lookup name with
  | none => some missing
  | some value => read value

def member {α : Type} (read : JsonValue → Option α) (name : String)
    (members : List (String × JsonValue)) : Option α :=
  match members.lookup name with
  | none => none
  | some value => read value

/-- The members of a record that is written as an array, which may be cut short. -/
def positional (names : List String) (items : List JsonValue) :
    Option (List (String × JsonValue)) :=
  if items.length ≤ names.length then some (names.zip items) else none

/-- The members of a record, from an object or an array. -/
def record? (names : List String) : JsonValue → Option (List (String × JsonValue))
  | .object object => members names object
  | .array items => positional names items
  | _ => none

def quoted (name : String) : String := "\"" ++ name ++ "\""

def objectText (members : List (String × String)) : String :=
  "\x7b" ++ ",".intercalate (members.map fun (name, text) => quoted name ++ ":" ++ text) ++ "\x7d"

end Json

namespace Config

def memberNames : List String := ["page_size", "lock_timeout_ms", "detect_deadlocks"]

/-- A missing member has its default. -/
def ofJson? (value : JsonValue) : Option Config :=
  match Json.record? memberNames value with
  | none => none
  | some members =>
      match Json.memberOr default.pageSize Json.word? "page_size" members,
        Json.memberOr default.lockTimeout (Json.optional? Json.word?) "lock_timeout_ms" members,
        Json.memberOr default.detectDeadlocks Json.bool? "detect_deadlocks" members with
      | some pageSize, some lockTimeout, some detectDeadlocks =>
          some { pageSize, lockTimeout, detectDeadlocks }
      | _, _, _ => none

def jsonText (config : Config) : String :=
  Json.objectText [("page_size", toString config.pageSize),
    ("lock_timeout_ms", (config.lockTimeout.map toString).getD "null"),
    ("detect_deadlocks", toString config.detectDeadlocks)]

end Config

namespace PageId

def ofJson? (value : JsonValue) : Option PageId :=
  match Json.record? ["table_id", "page_number"] value with
  | none => none
  | some members =>
      match Json.member Json.word? "table_id" members,
        Json.member Json.word? "page_number" members with
      | some table, some number => some ⟨UInt64.ofNat table, number⟩
      | _, _ => none

def jsonText (page : PageId) : String :=
  Json.objectText [("table_id", toString page.table.toNat), ("page_number", toString page.number)]

end PageId

namespace TxId

def ofJson? (value : JsonValue) : Option TxId := (Json.word? value).map TxId.mk

def jsonText (tx : TxId) : String := toString tx.number

end TxId

def LockMode.ofJson? : JsonValue → Option LockMode :=
  Json.name? (LockMode.all.map fun mode => (mode.name, mode))

def ColumnType.ofJson? : JsonValue → Option ColumnType :=
  Json.name? (ColumnType.all.map fun type => (type.name, type))

def AggregateFn.ofJson? : JsonValue → Option AggregateFn :=
  Json.name? (AggregateFn.all.map fun fn => (fn.title, fn))

end RowStore
