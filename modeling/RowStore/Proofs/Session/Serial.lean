import RowStore.Proofs.Pool.Contents
import RowStore.Proofs.Session.Coherence

namespace RowStore

/-! The files hold what committed transactions changed, one transaction after the other, and
nothing of what others did. -/

/-- What the clients know about their changes. -/
structure Ledger where
  /-- The changes of the transactions that committed, in the order of the commits. -/
  committed : List RowWrite
  /-- The changes that a transaction made since it last ended. -/
  pending : TxId → List RowWrite
  asked : TxId → Option RowWrite

namespace Ledger

def empty : Ledger := ⟨[], fun _ => [], fun _ => none⟩

def ask (ledger : Ledger) (tx : TxId) (write : Option RowWrite) : Ledger :=
  { ledger with asked := fun other => if other = tx then write else ledger.asked other }

def setPending (ledger : Ledger) (tx : TxId) (writes : List RowWrite) : Ledger :=
  { ledger with pending := fun other => if other = tx then writes else ledger.pending other }

/-- What a call asked for counts when the call is answered well. -/
def answer (ledger : Ledger) (tx : TxId) (result : Option (Except StoreError Answer)) : Ledger :=
  match ledger.asked tx, result with
  | some write, some (.ok _) => ledger.setPending tx (ledger.pending tx ++ [write])
  | _, _ => ledger

def commit (ledger : Ledger) (tx : TxId) : Ledger :=
  { ledger.setPending tx [] with committed := ledger.committed ++ ledger.pending tx }

def finish (ledger : Ledger) (tx : TxId) (commit : Bool) (result : Option (Except StoreError Answer)) :
    Ledger :=
  match commit, result with
  | true, some (.ok _) => ledger.commit tx
  | _, _ => ledger.setPending tx []

def enter (ledger : Ledger) (event : SessionEvent) : Ledger :=
  match event.action with
  | .call tx call => (ledger.ask tx call.write?).answer tx event.result
  | .resume tx => ledger.answer tx event.result
  | .complete tx commit => ledger.finish tx commit event.result
  | _ => ledger

/-- The newest event of a history comes first. -/
def ofHistory (history : List SessionEvent) : Ledger :=
  history.foldr (fun event ledger => ledger.enter event) empty

section Answer

variable (ledger : Ledger) {tx : TxId} {result : Option (Except StoreError Answer)}

theorem asked_answer (tx : TxId) (result : Option (Except StoreError Answer)) :
    (ledger.answer tx result).asked = ledger.asked := by
  unfold answer
  split <;> rfl

theorem answer_of_write {write : RowWrite} (asked : ledger.asked tx = some write) (value : Answer) :
    ledger.answer tx (some (.ok value)) = ledger.setPending tx (ledger.pending tx ++ [write]) := by
  simp only [answer, asked]

theorem answer_eq_self (idle : ledger.asked tx = none ∨ ∀ value, result ≠ some (.ok value)) :
    ledger.answer tx result = ledger := by
  unfold answer
  split
  · next write value asked =>
    obtain reads | unanswered := idle
    · simp [reads] at asked
    · exact absurd rfl (unanswered value)
  · rfl

end Answer

end Ledger

namespace Pool

variable {pool middle after : Pool} {tx : TxId} {initial : Contents} {ledger : Ledger}
variable {fate : Page → Page → Prop} {write : RowWrite}

/-- A pool has made the changes of a ledger, each in some place, and no others. -/
structure Follows (initial : Contents) (ledger : Ledger) (pool : Pool) : Prop where
  accepts : pool.disk.failWrites = false
  committed : ∃ placed, placed.map Change.write = ledger.committed ∧
    replay initial placed = some pool.onDisk
  pending : ∀ tx, ∃ placed, placed.map Change.write = ledger.pending tx ∧ Pends tx placed pool

section Follows

variable (follows : Follows initial ledger pool)
include follows

theorem Follows.keep (accepts : after.disk.failWrites = pool.disk.failWrites)
    (disk : after.onDisk = pool.onDisk)
    (changed : ∀ tx id, after.changedSlots tx id = pool.changedSlots tx id) :
    Follows initial ledger after := by
  refine ⟨accepts.trans follows.accepts, ?_, fun tx => ?_⟩
  · rw [disk]
    exact follows.committed
  · obtain ⟨placed, writes, pends⟩ := follows.pending tx
    exact ⟨placed, writes, pends.keep (changed tx) fun id _ => congrFun disk id⟩

theorem Follows.quiet (quiet : Quiet tx pool after) : Follows initial ledger after :=
  follows.keep quiet.accepts quiet.onDisk quiet.changedSlots

theorem Follows.releaseAll (tx : TxId) : Follows initial ledger (pool.releaseAll tx) :=
  follows.keep rfl rfl fun _ _ => rfl

theorem Follows.alters {change : Change} {page : Page} (coherent : pool.Coherent)
    (alters : Alters tx change page pool after) :
    Follows initial (ledger.setPending tx (ledger.pending tx ++ [change.write])) after := by
  refine ⟨alters.stays.accepts.trans follows.accepts, ?_, fun other => ?_⟩
  · rw [alters.onDisk]
    exact follows.committed
  · obtain ⟨placed, writes, pends⟩ := follows.pending other
    by_cases same : other = tx
    · subst same
      exact ⟨placed ++ [change], by simp [Ledger.setPending, writes], coherent.pends_alters alters pends⟩
    · refine ⟨placed, by simp [Ledger.setPending, writes, same], ?_⟩
      exact pends.keep (coherent.changedSlots_alters_of_ne alters same) fun id _ => congrFun alters.onDisk id

theorem Follows.writes (writes : Writes tx write pool after) :
    Follows initial (ledger.setPending tx (ledger.pending tx ++ [write])) after := by
  obtain ⟨middle, change, page, quiet, alters, rfl⟩ := writes
  exact (follows.quiet quiet).alters quiet.coherent alters

/-- A call counts in the ledger when it changed what it was to change. -/
theorem Follows.call {call : Call} {result : Pool × Stop} (ends : CallEnds tx call pool result)
    (asked : call.write? = ledger.asked tx) :
    Follows initial (ledger.answer tx result.2.result?) result.1 := by
  obtain ⟨after, stop⟩ := result
  cases stop with
  | parked again =>
      simp only [Stop.result?]
      rw [ledger.answer_eq_self (Or.inr (by simp))]
      exact follows.quiet ends.1
  | finished reply =>
      simp only [Stop.result?]
      obtain ⟨write, answer, same, answered, writes⟩ | ⟨unanswered, quiet⟩ := ends
      · rw [answered, ledger.answer_of_write (asked.symm.trans same)]
        exact follows.writes writes
      · rw [ledger.answer_eq_self (unanswered.imp asked.symm.trans fun ⟨_, failed⟩ => by simp [failed])]
        exact follows.quiet quiet

/-- A transaction that ended has nothing pending; the others keep what they have. -/
theorem Follows.settled (coherent : pool.Coherent)
    (settled : Settled fate (pool.dirtyPages (some tx)) pool after) (other : TxId) :
    ∃ placed, placed.map Change.write = (ledger.setPending tx []).pending other ∧ Pends other placed after := by
  by_cases same : other = tx
  · subst same
    exact ⟨[], by simp [Ledger.setPending], coherent.pends_settled settled⟩
  · obtain ⟨placed, writes, pends⟩ := follows.pending other
    exact ⟨placed, by simp [Ledger.setPending, writes, same], coherent.pends_settled_of_ne settled same pends⟩

theorem Follows.commit (coherent : pool.Coherent) (tx : TxId) :
    (pool.commit tx).2 = .ok () ∧ Follows initial (ledger.commit tx) (pool.commit tx).1 := by
  have ended := coherent.commit_ok tx follows.accepts
  obtain ⟨middle, _, stays, _, same, settled⟩ := coherent.commit tx
  obtain ⟨placed, writes, replayed⟩ := follows.committed
  obtain ⟨changes, pending, pends⟩ := follows.pending tx
  have flushed := coherent.onDisk_flushed (settled ended) pends
  have kept : Follows initial (ledger.commit tx) middle := by
    refine ⟨stays.accepts.trans follows.accepts, ⟨placed ++ changes, ?_, ?_⟩,
      follows.settled coherent (settled ended)⟩
    · rw [List.map_append, writes, pending, Ledger.commit]
    · exact replay_append_eq_some.mpr ⟨_, replayed, flushed⟩
  rw [same]
  exact ⟨ended, kept.releaseAll tx⟩

theorem Follows.abort (coherent : pool.Coherent) (tx : TxId) :
    Follows initial (ledger.setPending tx []) (pool.abort tx).1 := by
  obtain ⟨middle, settled, same⟩ := coherent.abort tx
  obtain ⟨placed, writes, replayed⟩ := follows.committed
  rw [← coherent.onDisk_restored settled] at replayed
  have kept : Follows initial (ledger.setPending tx []) middle :=
    ⟨settled.stays.accepts.trans follows.accepts, ⟨placed, writes, replayed⟩, follows.settled coherent settled⟩
  rw [same]
  exact kept.releaseAll tx

end Follows

end Pool

namespace Session

variable {session start : Session} {tx : TxId} {call : Call} {action : SessionAction}
variable {initial : Contents} {ledger : Ledger} {history : List SessionEvent}

/-- Transactions call, wait and end, and calls can fail. Nobody flushes or drops pages, and no write
begins to fail. -/
def Transactional (session : Session) (action : SessionAction) : Prop :=
  session.Enabled action ∧
    match action with
    | .flush _ | .flushAll | .discard _ | .limitWrites _ _ => False
    | _ => True

/-- What the pool did is in the ledger, and a parked call is the one that was asked for. -/
structure Follows (initial : Contents) (ledger : Ledger) (session : Session) : Prop where
  pool : Pool.Follows initial ledger session.pool
  parked : ∀ tx call, session.parked.get? tx = some call → call.write? = ledger.asked tx

theorem Follows.run (follows : session.Follows initial ledger) (sound : session.Sound)
    (ready : call.Ready tx session.pool) (asked : call.write? = ledger.asked tx) :
    (session.run tx call).1.Follows initial
      (ledger.answer tx ((session.run tx call).2.map Reply.result)) := by
  have ends := sound.pool.runCall ready
  refine ⟨?_, fun other waiting found => ?_⟩
  · rw [pool_run, result_run]
    exact follows.pool.call ends asked
  · rw [ledger.asked_answer]
    obtain ⟨rfl, parked⟩ | ⟨_, before⟩ := of_parked_run session tx call found
    · exact (ends.of_parked parked).2.2.trans asked
    · exact follows.parked other waiting before

theorem Follows.withPool {pool : Pool} (follows : session.Follows initial ledger)
    (kept : Pool.Follows initial ledger pool) : (session.withPool pool).Follows initial ledger :=
  ⟨kept, follows.parked⟩

theorem Follows.act (follows : session.Follows initial ledger) (sound : session.Sound)
    (allowed : session.Transactional action) :
    (session.act action).1.Follows initial (ledger.enter (session.event action)) := by
  obtain ⟨enabled, allowed⟩ := allowed
  cases action with
  | call tx call =>
      obtain ⟨idle, client⟩ := enabled
      have next : session.Follows initial (ledger.ask tx call.write?) := by
        refine ⟨⟨follows.pool.accepts, follows.pool.committed, follows.pool.pending⟩, fun other waiting found => ?_⟩
        have differs : other ≠ tx := by
          rintro rfl
          simp [Session.isParked, FinMap.contains, found] at idle
        simp only [Ledger.ask, if_neg differs]
        exact follows.parked other waiting found
      exact next.run sound (client.ready session.pool) (by simp [Ledger.ask])
  | resume tx =>
      simp only [Session.event, Ledger.enter, Session.act, Session.resume]
      cases found : session.parked.get? tx with
      | none =>
          simp only [Option.map_none]
          rw [ledger.answer_eq_self (Or.inr (by simp))]
          exact follows
      | some call => exact follows.run sound (sound.parked tx call found) (follows.parked tx call found)
  | complete tx commit =>
      cases commit with
      | true =>
          obtain ⟨ended, kept⟩ := follows.pool.commit sound.pool tx
          simp only [Session.event, Ledger.enter, Session.act, Session.settlePool, ended]
          exact ⟨kept, follows.parked⟩
      | false => exact ⟨follows.pool.abort sound.pool tx, follows.parked⟩
  | interrupt tx => exact follows.withPool (follows.pool.keep rfl rfl fun _ _ => rfl)
  | expire overdue => exact follows.withPool (follows.pool.keep rfl rfl fun _ _ => rfl)
  | reorder cache =>
      exact follows.withPool (follows.pool.keep rfl rfl fun tx id => Pool.changedSlots_congr (enabled id) tx)
  | flush | flushAll | discard | limitWrites => exact allowed.elim

theorem Run.follows (run : Run Transactional start history session) (sound : start.Sound)
    (follows : start.Follows initial .empty) : session.Follows initial (.ofHistory history) := by
  induction run with
  | start => exact follows
  | step before action permitted ih =>
      have reached := (before.sound (fun _ _ allowed => allowed.1) sound).1
      exact ih.act reached permitted

section Opened

variable {config : Config} {disk : Disk} {openings : List Opening} {pool : Pool}
variable {directory : Path} {names : FinMap String TableId}

theorem follows_of_opened (opened : pool.Opened) (accepts : pool.disk.failWrites = false) :
    (ofDatabase ⟨directory, names, pool⟩).Follows pool.onDisk .empty := by
  refine ⟨⟨accepts, ⟨[], rfl, rfl⟩, fun tx => ⟨[], rfl, Pool.Pends.of_unchanged fun id => ?_⟩⟩,
    fun tx call found => by simp [ofDatabase] at found⟩
  simp [Session.pool, ofDatabase, Pool.changedSlots, opened.cache]

/-- Files and memory hold what some changes come to that were made one after the other to what the
files held at the start. -/
structure Serialized (writes : List RowWrite) (start pool : Pool) : Prop where
  /-- Each change was made in some place, and no other was made; a row is where it was put until it
  is deleted there. -/
  replayed : ∃ placed, placed.map Change.write = writes ∧ replay start.onDisk placed = some pool.onDisk ∧
    ∀ first change rest, placed = first ++ change :: rest →
      (∀ later ∈ rest, later.record ≠ change.record) → pool.onDisk.Holds change.record change.value
  memory : ∀ id page, pool.cache.get? id = some page →
    page.dirty = none ∧ pool.onDisk id = .ok page.slots
  /-- Files can be longer, by pages that count as empty ones from the start. -/
  grows : Pool.Grows start pool
  blank : ∀ id file, start.tables.get? id.table = some file → file.pageCount ≤ id.number →
    start.onDisk id = .ok (List.replicate (slotCount file.pageSize file.schema.rowWidth) none)

/-- Once every change was committed or undone, the committed ones were made one transaction after
the other, and the others never. -/
theorem serial_of_run (sound : disk.Sound)
    (opened : (Pool.empty config disk).openEach openings = .ok pool)
    (even : ∀ table file, pool.tables.get? table = some file →
      file.pageSize ∣ (pool.disk.bytes file.handle).length)
    (accepts : pool.disk.failWrites = false)
    (run : Run Transactional (ofDatabase ⟨directory, names, pool⟩) history session)
    (ended : ∀ tx, (Ledger.ofHistory history).pending tx = []) :
    Serialized (Ledger.ofHistory history).committed pool session.pool := by
  have only := ((Pool.opened_empty config sound).openEach opened).1
  have start := @sound_of_opened config disk openings pool directory names sound opened even
  obtain ⟨⟨coherent, _⟩, grows⟩ := run.sound (fun _ _ allowed => allowed.1) start
  obtain ⟨⟨_, ⟨placed, writes, replayed⟩, pending⟩, _⟩ := run.follows start (follows_of_opened only accepts)
  refine ⟨⟨placed, writes, replayed, fun first change rest split last => ?_⟩, fun id page found => ?_, grows,
    fun id file known past => start.pool.onDisk_past_end known past⟩
  · rw [split] at replayed
    exact replay_holds replayed last
  · have clean : page.dirty = none := by
      cases dirty : page.dirty with
      | none => rfl
      | some tx =>
          obtain ⟨changes, same, pends⟩ := pending tx
          rw [ended tx, List.map_eq_nil_iff] at same
          have marked := (pends.marked id).mp
            (by rw [Pool.changedSlots_eq_some.mpr ⟨page, found, dirty, rfl⟩]; rfl)
          simp [same] at marked
    exact ⟨clean, coherent.onDisk_of_clean found clean⟩

end Opened

/-! ## Two transactions that want the same slot -/

/-- A transaction waits for one that inserts and commits, inserts as well, and is undone. -/
def rivals : List SessionEvent :=
  [⟨.complete ⟨2⟩ false, some (.ok .nothing)⟩,
    ⟨.resume ⟨2⟩, some (.ok .nothing)⟩,
    ⟨.complete ⟨1⟩ true, some (.ok .nothing)⟩,
    ⟨.call ⟨2⟩ (integerInsert 8), none⟩,
    ⟨.call ⟨1⟩ (integerInsert 7), some (.ok .nothing)⟩]

theorem Run.answered {allowed : Session → SessionAction → Prop} (before : Run allowed start history session)
    (action : SessionAction) (permitted : allowed session action)
    {result : Option (Except StoreError Answer)} (same : (session.act action).2 = result) :
    Run allowed start (⟨action, result⟩ :: history) (session.act action).1 := by
  subst same
  exact before.step action permitted

theorem serial_of_rivals :
    ∃ session, Run Transactional integerSession rivals session ∧
      Serialized [.insert integerFile.id [.int 7]] integerPool session.pool := by
  have run := (((((@Run.start Transactional integerSession).answered
    (.call ⟨1⟩ (integerInsert 7)) ⟨⟨rfl, by decide, rfl⟩, trivial⟩
      (show _ = some (.ok .nothing) by decide +kernel)).answered
    (.call ⟨2⟩ (integerInsert 8)) ⟨⟨by decide +kernel, by decide, rfl⟩, trivial⟩
      (show _ = none by decide +kernel)).answered
    (.complete ⟨1⟩ true) ⟨trivial, trivial⟩ (show _ = some (.ok .nothing) by decide +kernel)).answered
    (.resume ⟨2⟩) ⟨show _ ∈ _ by decide +kernel, trivial⟩
      (show _ = some (.ok .nothing) by decide +kernel)).answered
    (.complete ⟨2⟩ false) ⟨trivial, trivial⟩ (show _ = some (.ok .nothing) by decide +kernel)
  refine ⟨_, run, serial_of_run Disk.sound_empty opened_integerPool even_integerPool rfl run fun tx => ?_⟩
  simp only [Ledger.ofHistory, List.foldr_cons, List.foldr_nil, Ledger.enter, Ledger.answer,
    Ledger.ask, Ledger.finish, Ledger.commit, Ledger.setPending, integerInsert, Call.write?, if_pos]
  by_cases second : tx = ⟨2⟩ <;> by_cases first : tx = ⟨1⟩ <;> simp [first, second, Ledger.empty]

end Session

end RowStore
