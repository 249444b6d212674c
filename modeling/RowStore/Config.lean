import RowStore.Error

namespace RowStore

/-! The settings that a store is opened with. -/

structure Config where
  /-- Bytes of every page of every table. -/
  pageSize : Nat
  /-- Milliseconds that a call may wait for a lock; without a limit it waits until it is woken. -/
  lockTimeout : Option Nat
  /-- A call whose wait would close a cycle of waiting transactions is refused. -/
  detectDeadlocks : Bool
  deriving DecidableEq

namespace Config

def default : Config := ⟨4096, none, true⟩

instance : Inhabited Config := ⟨default⟩

/-- Durations are kept as whole milliseconds in 64 bits. -/
def withLockTimeout (config : Config) (seconds nanoseconds : Nat) : Config :=
  { config with lockTimeout := some ((seconds * 1000 + nanoseconds / 1000000) % UInt64.size) }

/-- The limit in seconds, with three places. -/
def displayLockTimeout (config : Config) : Option String :=
  config.lockTimeout.map fun limit =>
    let places := toString (limit % 1000)
    toString (limit / 1000) ++ "." ++ "".pushn '0' (3 - places.length) ++ places

def validate (config : Config) : Except StoreError Unit :=
  if config.pageSize = 0 then .error .zeroPageSize else .ok ()

end Config

end RowStore
