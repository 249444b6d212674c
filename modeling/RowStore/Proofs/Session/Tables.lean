import RowStore.Proofs.Disk.Path
import RowStore.Proofs.Pool.Spares
import RowStore.Proofs.Session.Reached

namespace RowStore

/-! Named tables of a directory.

Tables are told apart by the places of their files, and plain names lead to one place when
they agree up to their extensions. They name one table then, which keeps the schema that it
was first created with. Whatever is done to other tables does not show in it.
-/

namespace Disk

variable {disk after : Disk} {place : Place} {path : Path} {handle : Handle}

/-- Files at different places are told apart by the hashes of their places. -/
def Distinguished (disk : Disk) : Prop :=
  ∀ {place other : Place} {handle known : Handle}, disk.Located place handle → disk.Located other known →
    TableFile.idOfPlace place = TableFile.idOfPlace other → place = other

theorem Distinguished.before (distinguished : after.Distinguished) (precedes : Precedes disk after) :
    disk.Distinguished :=
  fun first second same => distinguished (first.keep precedes) (second.keep precedes) same

theorem distinguished_of_nodup
    (apart : ((fullDevicePlace :: disk.nodes.keys).map TableFile.idOfPlace).Nodup) : disk.Distinguished := by
  have listed : ∀ {place handle}, disk.Located place handle → place ∈ fullDevicePlace :: disk.nodes.keys := by
    intro place handle located
    cases handle with
    | file number =>
        refine List.mem_cons_of_mem _ (FinMap.mem_keys_iff.mpr ?_)
        rw [FinMap.contains, show disk.nodes.get? place = _ from located, Option.isSome_some]
    | fullDevice => exact List.mem_cons.mpr (Or.inl located)
  exact @fun _ _ _ _ first second same => List.inj_on_of_nodup_map apart (listed first) (listed second) same

/-- What is opened is at the place that its path leads to, unless that is a link to the full device. -/
theorem place_of_openOrCreate (opened : disk.openOrCreate path = .ok (after, handle, place)) :
    disk.resolve path = .ok place ∨ place = fullDevicePlace := by
  unfold openOrCreate at opened
  split at opened
  · contradiction
  · next target reached =>
    split at opened
    · contradiction
    · cases opened
      exact Or.inl reached
    · cases opened
      exact Or.inr rfl
    · cases opened
      exact Or.inl reached

end Disk

theorem Pool.StepsOn.spares {pool after : Pool} {tx : TxId} {table : TableId} {touched : Option TableId}
    (steps : StepsOn tx touched pool after) (inFiles : pool.WithinFiles) (other : touched ≠ some table) :
    Spares table pool after := by
  cases touched with
  | none => exact steps ▸ Spares.refl table pool
  | some place => exact Steps.spares steps inFiles fun same => other (congrArg some same.symm)

namespace Session

variable {session after : Session} {action : SessionAction} {tx : TxId} {call : Call} {table : TableId}
variable {directory : Path} {name : String} {schema : Schema} {file known : TableFile}

/-! ## Creating tables -/

/-- A file that was opened as a table, under a name or under none. -/
structure Creation where
  name : Option String
  place : Place
  schema : Schema

variable {history : List Creation} {creation entry : Creation}

/-- The schema that the first table at a place was created with. Newer creations come first. -/
def schema? (place : Place) : List Creation → Option Schema
  | [] => none
  | creation :: earlier =>
      (schema? place earlier).or (if creation.place = place then some creation.schema else none)

/-- What a directory becomes by creating tables and by using them. -/
inductive Grown (directory : Path) : List Creation → Session → Prop
  | opened {disk : Disk} {config : Config} {db : Database} (sound : disk.Sound)
      (made : Database.openAt disk directory config = .ok db) : Grown directory [] (ofDatabase db)
  | created {history : List Creation} {session : Session} {name : String} {schema : Schema} {db : Database}
      {table : TableId} {disk : Disk} {handle : Handle} {place : Place}
      (before : Grown directory history session)
      (made : session.db.createTable name schema = .ok (db, table))
      (opened : session.pool.disk.openOrCreate (session.db.tablePath name) = .ok (disk, handle, place)) :
      Grown directory (⟨some name, place, schema⟩ :: history) { session with db }
  | registered {history : List Creation} {session : Session} {opening : Opening} {disk : Disk}
      {file : TableFile} (before : Grown directory history session)
      (made : TableFile.openAt session.pool.disk opening.path opening.schema opening.pageSize =
        .ok (disk, file)) :
      Grown directory (⟨none, file.place, opening.schema⟩ :: history)
        (session.withPool ({ session.pool with disk }.addTable file))
  | acted {history : List Creation} {session : Session} {action : SessionAction}
      (before : Grown directory history session) (enabled : session.Enabled action) :
      Grown directory history (session.act action).1
  | released {history : List Creation} {session : Session} (before : Grown directory history session)
      (tx : TxId) (page : PageId) :
      Grown directory history (session.withPool (session.pool.release tx page))

theorem Grown.reached (grown : Grown directory history session) : Reached session := by
  induction grown with
  | opened sound made => exact .opened sound made
  | created _ made _ ih => exact ih.developed (.created made)
  | registered _ made ih => exact ih.developed (.registered made)
  | acted _ enabled ih => exact ih.developed (.acted enabled)
  | released _ tx page ih => exact ih.developed (.released tx page)

theorem schema?_eq_none {place : Place} :
    schema? place history = none ↔ ∀ entry ∈ history, entry.place ≠ place := by
  induction history with
  | nil => simp [schema?]
  | cons creation earlier ih =>
      rw [schema?, Option.or_eq_none_iff, ih, List.forall_mem_cons]
      simp [and_comm]

/-- The path of a table leads to a place, now and in all time to come. -/
def Leads (directory : Path) (session : Session) (name : String) (place : Place) : Prop :=
  ∃ handle, ∀ later, Disk.Precedes session.pool.disk later →
    later.openOrCreate ((directory.join name).withExtension Database.fileExtension) = .ok (later, handle, place)

/-- How a created table stands: it is known by its place, and it has the given schema. -/
structure Listed (directory : Path) (session : Session) (creation : Creation) (first : Option Schema) :
    Prop where
  named : ∀ name, creation.name = some name →
    session.db.names.get? name = some (TableFile.idOfPlace creation.place) ∧
      Leads directory session name creation.place
  placed : ∃ handle, session.pool.disk.Located creation.place handle
  filed : ∃ file, session.pool.tables.get? (TableFile.idOfPlace creation.place) = some file ∧
    first = some file.schema

/-- All tables are among those that were created. -/
structure Charted (directory : Path) (history : List Creation) (session : Session) : Prop where
  inside : session.db.directory = directory
  listed : ∀ creation ∈ history, Listed directory session creation (schema? creation.place history)
  known : ∀ table file, session.pool.tables.get? table = some file →
    ∃ creation ∈ history, table = TableFile.idOfPlace creation.place

theorem Leads.keep {place : Place} (leads : Leads directory session name place)
    (precedes : Disk.Precedes session.pool.disk after.pool.disk) : Leads directory after name place := by
  obtain ⟨handle, again⟩ := leads
  exact ⟨handle, fun later kept => again later (precedes.trans kept)⟩

/-- A created table stands as it did when names and schemas are kept. -/
theorem Listed.keep {first : Option Schema} (listed : Listed directory session creation first)
    (named : ∀ name, creation.name = some name → after.db.names.get? name = session.db.names.get? name)
    (precedes : Disk.Precedes session.pool.disk after.pool.disk)
    (tables : ∀ table file, session.pool.tables.get? table = some file →
      ∃ now, after.pool.tables.get? table = some now ∧ now.schema = file.schema) :
    Listed directory after creation first := by
  obtain ⟨handle, placed⟩ := listed.placed
  obtain ⟨file, found, same⟩ := listed.filed
  obtain ⟨now, known, kept⟩ := tables _ file found
  refine ⟨fun name called => ?_, ⟨handle, placed.keep precedes⟩, now, known, by rw [same, kept]⟩
  obtain ⟨goes, leads⟩ := listed.named name called
  exact ⟨(named name called).trans goes, leads.keep precedes⟩

theorem Charted.keep (charted : Charted directory history session)
    (inside : after.db.directory = session.db.directory) (named : after.db.names = session.db.names)
    (grows : Pool.Grows session.pool after.pool) : Charted directory history after := by
  refine ⟨inside.trans charted.inside, fun creation member => ?_, fun table file found => ?_⟩
  · refine (charted.listed creation member).keep (fun _ _ => by rw [named]) (.of_nodes grows.nodes)
      fun table file found => ?_
    obtain ⟨count, _, now⟩ := grows.longer table file found
    exact ⟨_, now, rfl⟩
  · cases before : session.pool.tables.get? table with
    | none => simp [grows.missing table before] at found
    | some earlier => exact charted.known table earlier before

theorem charted_of_opened {disk : Disk} {config : Config} {db : Database}
    (made : Database.openAt disk directory config = .ok db) : Charted directory [] (ofDatabase db) := by
  obtain ⟨_, _, rfl⟩ := openAt_eq_ok made
  exact ⟨rfl, nofun, nofun⟩

theorem db_act (session : Session) (action : SessionAction) :
    (session.act action).1.db = { session.db with pool := (session.act action).1.pool } := by
  cases calls : session.call? action with
  | none =>
      obtain ⟨pool, same, _⟩ := act_of_idle calls
      rw [same]
      rfl
  | some caller =>
      rw [act_of_call calls]
      unfold Session.run
      split <;> rfl

theorem schema_of_openAt {disk later : Disk} {path : Path} {size : Nat}
    (opened : TableFile.openAt disk path schema size = .ok (later, file)) : file.schema = schema := by
  unfold TableFile.openAt at opened
  split at opened
  · contradiction
  · split at opened
    · contradiction
    · cases opened
      rfl

/-- What creating a table does: its file is registered, unless it is already, and goes by the name if
there is one. -/
structure Creates (directory : Path) (creation : Creation) (session after : Session) : Prop where
  inside : after.db.directory = session.db.directory
  names : ∀ other, after.db.names.get? other =
    if creation.name = some other then some (TableFile.idOfPlace creation.place)
    else session.db.names.get? other
  tables : ∃ file, file.schema = creation.schema ∧ ∀ table, after.pool.tables.get? table =
    if table = TableFile.idOfPlace creation.place then some ((session.pool.tables.get? table).getD file)
    else session.pool.tables.get? table
  precedes : Disk.Precedes session.pool.disk after.pool.disk
  placed : ∃ handle, after.pool.disk.Located creation.place handle
  leads : ∀ name, creation.name = some name → ∃ disk handle,
    session.pool.disk.openOrCreate ((directory.join name).withExtension Database.fileExtension) =
      .ok (disk, handle, creation.place) ∧ Leads directory after name creation.place

theorem Creates.kept (creates : Creates directory creation session after)
    (found : session.pool.tables.get? table = some known) : after.pool.tables.get? table = some known := by
  obtain ⟨_, _, tables⟩ := creates.tables
  rw [tables]
  split
  · rw [found, Option.getD_some]
  · exact found

theorem WithinFiles.creates (inFiles : session.WithinFiles) (opening : Opening) {disk : Disk} {file : TableFile}
    {called : Option String}
    (made : TableFile.openAt session.pool.disk opening.path opening.schema opening.pageSize = .ok (disk, file))
    (pool : after.pool = { session.pool with disk }.addTable file)
    (inside : after.db.directory = session.db.directory)
    (names : ∀ other, after.db.names.get? other =
      if called = some other then some file.id else session.db.names.get? other)
    (path : ∀ name, called = some name →
      opening.path = (directory.join name).withExtension Database.fileExtension) :
    Creates directory ⟨called, file.place, opening.schema⟩ session after := by
  obtain ⟨reached, id, _, _⟩ := TableFile.of_openAt made
  obtain ⟨_, precedes, located, _⟩ := inFiles.pool.disk.of_openOrCreate reached
  have disks : after.pool.disk = disk := by rw [pool]; rfl
  refine ⟨inside, fun other => ?_, ⟨file, schema_of_openAt made, fun table => ?_⟩, by rw [disks]; exact precedes,
    ⟨_, by rw [disks]; exact located⟩, fun name same => ?_⟩
  · rw [names, id]
  · rw [pool, Pool.get?_addTable, id]
    split
    · next here => rw [here]
    · rfl
  · rw [path name same] at reached
    refine ⟨disk, file.handle, reached, file.handle, fun later kept => ?_⟩
    rw [disks] at kept
    exact Disk.openOrCreate_again reached precedes later kept

section Create

variable (charted : Charted directory history session) (creates : Creates directory creation session after)
  (distinguished : after.pool.disk.Distinguished)
include charted creates distinguished

/-- A new creation stands as its place does: with the schema of the first table there. -/
theorem Charted.listed_new : Listed directory after creation (schema? creation.place (creation :: history)) := by
  obtain ⟨file, schema, tables⟩ := creates.tables
  obtain ⟨handle, here⟩ := creates.placed
  refine ⟨fun name called => ⟨?_, ?_⟩, ⟨handle, here⟩, ?_⟩
  · rw [creates.names, if_pos called]
  · obtain ⟨_, _, _, leads⟩ := creates.leads name called
    exact leads
  cases before : session.pool.tables.get? (TableFile.idOfPlace creation.place) with
  | some earlier =>
      -- The file is registered, so it is that of an earlier table at this place.
      refine ⟨earlier, creates.kept before, ?_⟩
      obtain ⟨entry, member, same⟩ := charted.known _ _ before
      have listed := charted.listed entry member
      obtain ⟨_, there⟩ := listed.placed
      obtain ⟨known, found, first⟩ := listed.filed
      rw [← same, before] at found
      cases found
      rw [schema?, distinguished here (there.keep creates.precedes) same, first, Option.some_or]
  | none =>
      refine ⟨file, by rw [tables, if_pos rfl, before, Option.getD_none], ?_⟩
      have fresh : schema? creation.place history = none := by
        refine schema?_eq_none.mpr fun entry member same => ?_
        obtain ⟨known, found, _⟩ := (charted.listed entry member).filed
        rw [same, before] at found
        contradiction
      rw [schema?, fresh, if_pos rfl, Option.none_or, schema]

omit distinguished in
/-- What was created before stands as it did, also when its name is used again: the name leads to the same
place as before. -/
theorem Charted.listed_old (member : entry ∈ history) :
    Listed directory after entry (schema? entry.place (creation :: history)) := by
  have listed := charted.listed entry member
  obtain ⟨_, _, first⟩ := listed.filed
  rw [schema?, first, Option.some_or, ← first]
  refine listed.keep (fun name called => ?_) creates.precedes fun table file found =>
    ⟨file, creates.kept found, rfl⟩
  rw [creates.names]
  split
  · next again =>
    obtain ⟨_, _, opened, _⟩ := creates.leads name again
    obtain ⟨known, _, leads⟩ := listed.named name called
    have same : creation.place = entry.place :=
      congrArg (·.2.2) (Except.ok.inj (opened.symm.trans (leads _ fun _ _ kept => kept)))
    rw [same, known]
  · rfl

theorem Charted.create : Charted directory (creation :: history) after := by
  refine ⟨creates.inside.trans charted.inside, fun entry member => ?_, fun table file found => ?_⟩
  · obtain rfl | earlier := List.mem_cons.mp member
    · exact charted.listed_new creates distinguished
    · exact charted.listed_old creates earlier
  · obtain ⟨_, _, tables⟩ := creates.tables
    rw [tables] at found
    split at found
    · next same => exact ⟨creation, List.mem_cons_self, same⟩
    · obtain ⟨entry, member, same⟩ := charted.known table file found
      exact ⟨entry, List.mem_cons_of_mem _ member, same⟩

end Create

theorem WithinFiles.creates_named (inFiles : session.WithinFiles) (inside : session.db.directory = directory)
    {db : Database} {disk : Disk} {handle : Handle} {place : Place}
    (made : session.db.createTable name schema = .ok (db, table))
    (opened : session.pool.disk.openOrCreate (session.db.tablePath name) = .ok (disk, handle, place)) :
    Creates directory ⟨some name, place, schema⟩ session { session with db } := by
  obtain ⟨later, file, opens, rfl, rfl⟩ := createTable_eq_ok made
  let opening : Opening := ⟨session.db.tablePath name, schema, session.pool.config.pageSize⟩
  have reached := (@TableFile.of_openAt _ _ _ opening opens).1
  cases opened.symm.trans reached
  refine inFiles.creates opening opens rfl rfl (fun other => ?_) fun other called => ?_
  · rw [FinMap.get?_insert]
    simp [eq_comm]
  · cases called
    rw [← inside]
    rfl

theorem Grown.inside (grown : Grown directory history session) : session.db.directory = directory := by
  induction grown with
  | opened _ made => exact (charted_of_opened made).inside
  | created _ made _ ih =>
      obtain ⟨_, _, _, _, rfl⟩ := createTable_eq_ok made
      exact ih
  | registered _ _ ih => exact ih
  | acted _ _ ih =>
      rw [db_act]
      exact ih
  | released _ _ _ ih => exact ih

theorem Grown.charted (grown : Grown directory history session)
    (distinguished : session.pool.disk.Distinguished) : Charted directory history session := by
  induction grown with
  | opened _ made => exact charted_of_opened made
  | created before made opened ih =>
      -- The files of the disk before are files of this one, so they are told apart as well.
      have creates := before.reached.inFiles.creates_named before.inside made opened
      exact (ih (distinguished.before creates.precedes)).create creates distinguished
  | @registered _ session opening disk file before made ih =>
      let after := session.withPool ({ session.pool with disk }.addTable file)
      have creates : Creates directory ⟨none, file.place, opening.schema⟩ session after :=
        before.reached.inFiles.creates opening made rfl rfl (fun _ => rfl) nofun
      exact (ih (distinguished.before creates.precedes)).create creates distinguished
  | @acted _ session action before enabled ih =>
      have grows := before.reached.inFiles.grows enabled
      have unchanged := db_act session action
      exact (ih (distinguished.before (.of_nodes grows.nodes))).keep (by rw [unchanged]) (by rw [unchanged]) grows
  | released before tx page ih => exact (ih distinguished).keep rfl rfl (.of_same rfl rfl)

/-! ## Working on another table -/

/-- The action calls for another table, or ends or writes a transaction that has changed no page of this
one. Pages of other tables can be dropped. -/
def Apart (table : TableId) (session : Session) (action : SessionAction) : Prop :=
  session.Enabled action ∧
    match action with
    | .call _ call => call.table? ≠ some table
    | .resume tx => ∀ call, session.parked.get? tx = some call → call.table? ≠ some table
    | .complete tx _ | .flush tx => session.pool.Untouched (some tx) table
    | .flushAll => session.pool.Untouched none table
    | .discard page => page.table ≠ table
    | .interrupt _ | .expire _ | .limitWrites _ _ | .reorder _ => True

theorem WithinFiles.spares_act (inFiles : session.WithinFiles) (apart : session.Apart table action) :
    Pool.Spares table session.pool (session.act action).1.pool := by
  obtain ⟨enabled, apart⟩ := apart
  cases action with
  | call tx call => exact (inFiles.steps enabled rfl).spares inFiles.pool apart
  | resume tx =>
      cases found : session.parked.get? tx with
      | none =>
          rw [act_resume_of_missing found]
          exact Pool.Spares.refl table session.pool
      | some call =>
          exact (inFiles.steps enabled (call?_resume found)).spares inFiles.pool (apart call found)
  | complete tx commit =>
      cases commit with
      | true => exact (inFiles.pool.commit tx).1.spares apart
      | false => exact (inFiles.pool.abort tx).1.spares apart
  | flush tx => exact (inFiles.pool.spares_flush apart).1
  | flushAll => exact (inFiles.pool.spares_flush apart).1
  | discard page =>
      refine Pool.Spares.of_disk rfl rfl fun number => FinMap.get?_erase_of_ne _ ?_
      rintro rfl
      exact apart rfl
  | reorder cache => exact Pool.Spares.of_disk rfl rfl fun number => enabled _
  | interrupt | expire => exact Pool.Spares.of_disk rfl rfl fun _ => rfl
  | limitWrites fail left => exact ⟨rfl, fun _ => rfl, fun _ => rfl⟩

theorem Develops.mono {allowed permitted : Session → SessionAction → Prop}
    (weaker : ∀ action, allowed session action → permitted session action)
    (step : session.Develops allowed after) : session.Develops permitted after := by
  cases step with
  | created made => exact .created made
  | registered made => exact .registered made
  | acted allows => exact .acted (weaker _ allows)
  | released tx page => exact .released tx page

theorem WithinFiles.spares (inFiles : session.WithinFiles) (step : session.Develops (Apart table) after)
    {file : TableFile}
    (found : session.pool.tables.get? table = some file) : Pool.Spares table session.pool after.pool := by
  cases step with
  | created made =>
      obtain ⟨disk, file, opened, _, rfl⟩ := createTable_eq_ok made
      exact @Pool.WithinFiles.spares_addTable _ _ _ inFiles.pool ⟨_, _, _⟩ _ _ opened found
  | registered made => exact inFiles.pool.spares_addTable made found
  | acted apart => exact inFiles.spares_act apart
  | released => exact Pool.Spares.of_disk rfl rfl fun _ => rfl

theorem WithinFiles.spares_run (inFiles : session.WithinFiles) {file : TableFile}
    (found : session.pool.tables.get? table = some file)
    (run : Relation.ReflTransGen (Develops (Apart table)) session after) :
    after.WithinFiles ∧ Pool.Spares table session.pool after.pool := by
  induction run with
  | refl => exact ⟨inFiles, Pool.Spares.refl table session.pool⟩
  | tail _ step ih =>
      obtain ⟨fits, spares⟩ := ih
      exact ⟨fits.develops (step.mono fun _ apart => apart.1),
        spares.trans (fits.spares step (spares.file.trans found))⟩

/-! ## Independence -/

theorem table?_eq_ok (named : session.db.names.get? name = some table)
    (found : session.pool.tables.get? table = some file) : session.db.table? name = .ok file := by
  simp only [Database.table?, named]
  exact Pool.table?_eq_ok.mpr found

/-- A plain name stands for the file that is named after it, unless there is a link in its place. -/
theorem Leads.place_eq {place : Place} (leads : Leads directory session name place)
    (plain : Path.Plain name.toList) (direct : place ≠ Disk.fullDevicePlace) : place = directory.home name := by
  obtain ⟨handle, again⟩ := leads
  obtain reached | linked := Disk.place_of_openOrCreate (again _ fun _ _ kept => kept)
  · exact Disk.resolve_tablePath plain reached
  · exact absurd linked direct

/-- A creation under a name that is a file name, at the file of that name. -/
structure Creation.Plain (creation : Creation) (name : String) : Prop where
  named : creation.name = some name
  plain : Path.Plain name.toList
  direct : creation.place ≠ Disk.fullDevicePlace

/-- What a name stands for after its table was created. -/
structure Stands (directory : Path) (history : List Creation) (session : Session) (creation : Creation)
    (name : String) (file : TableFile) : Prop where
  found : session.db.table? name = .ok file
  /-- The schema is that of the first table at the place. -/
  schema : schema? creation.place history = some file.schema
  /-- Names stand for one table when they lead to one place. -/
  apart : ∀ other ∈ history, ∀ called, other.name = some called → ∀ known, session.db.table? called = .ok known →
    (known.id = file.id ↔ other.place = creation.place)
  /-- Plain names lead to one place when they agree up to their extensions. -/
  stems : creation.Plain name → ∀ other called, other ∈ history → other.Plain called →
    (other.place = creation.place ↔ Path.stem called.toList = Path.stem name.toList)
  /-- Whatever is done to other tables, scans find what they found before. -/
  spared : ∀ final, Relation.ReflTransGen (Develops (Apart file.id)) session final →
    final.pool.tables.get? file.id = some file ∧ ∀ reader other,
      ¬ Pool.StoppedByLock (session.pool.scanAll reader file.id .start).2.2.2 →
      ¬ Pool.StoppedByLock (final.pool.scanAll other file.id .start).2.2.2 →
      (final.pool.scanAll other file.id .start).2.2 = (session.pool.scanAll reader file.id .start).2.2

/-- Tables are told apart by their places, and those of plain names by their stems. -/
theorem independent_of_grown (grown : Grown directory history session)
    (distinguished : session.pool.disk.Distinguished) :
    ∀ creation ∈ history, ∀ name, creation.name = some name →
      ∃ file, Stands directory history session creation name file := by
  intro creation member name called
  have charted := grown.charted distinguished
  have inFiles := grown.reached.inFiles
  have listed := charted.listed creation member
  obtain ⟨handle, here⟩ := listed.placed
  obtain ⟨file, found, first⟩ := listed.filed
  obtain ⟨named, leads⟩ := listed.named name called
  have id : file.id = TableFile.idOfPlace creation.place := (inFiles.pool.files _ file found).named
  refine ⟨file, table?_eq_ok named found, first, fun other among again goes known given => ?_,
    fun plain other again among direct => ?_, fun final run => ?_⟩
  · have apart := charted.listed other among
    obtain ⟨_, there⟩ := apart.placed
    obtain ⟨place, filed, _⟩ := apart.filed
    cases (table?_eq_ok (apart.named again goes).1 filed).symm.trans given
    rw [(inFiles.pool.files _ known filed).named, id]
    exact ⟨distinguished there here, fun same => by rw [same]⟩
  · have apart := ((charted.listed other among).named again direct.named).2
    rw [leads.place_eq plain.plain plain.direct, apart.place_eq direct.plain direct.direct, Path.home_inj]
  · rw [← id] at found
    obtain ⟨_, spares⟩ := inFiles.spares_run found run
    exact ⟨spares.file.trans found, spares.scanAll⟩

def lettersDirectory : Path := ⟨['/', 'd']⟩

def integersCreation : Creation := ⟨some "a.x", ⟨["d", "a.dat"]⟩, .ofTypes [.int]⟩

def textsCreation : Creation := ⟨some "b.x", ⟨["d", "b.dat"]⟩, .ofTypes [.text]⟩

/-- Two names with one extension and different stems. -/
theorem independent_of_stems :
    ∃ session file, Grown lettersDirectory [textsCreation, integersCreation] session ∧
      session.pool.disk.Distinguished ∧ textsCreation.Plain "b.x" ∧ integersCreation.Plain "a.x" ∧
      Path.stem "b.x".toList ≠ Path.stem "a.x".toList ∧
      Stands lettersDirectory [textsCreation, integersCreation] session integersCreation "a.x" file := by
  have one : Grown lettersDirectory [integersCreation] _ :=
    .created (@Grown.opened lettersDirectory .empty .default _ Disk.sound_empty rfl) rfl rfl
  have two : Grown lettersDirectory [textsCreation, integersCreation] _ := one.created rfl rfl
  obtain ⟨session, grown, distinguished⟩ : ∃ session,
      Grown lettersDirectory [textsCreation, integersCreation] session ∧ session.pool.disk.Distinguished :=
    ⟨_, two, Disk.distinguished_of_nodup (by decide +kernel)⟩
  obtain ⟨file, stands⟩ := independent_of_grown grown distinguished integersCreation
    (List.mem_cons_of_mem _ List.mem_cons_self) "a.x" rfl
  exact ⟨session, file, grown, distinguished, ⟨rfl, by decide, by decide⟩, ⟨rfl, by decide, by decide⟩,
    by decide, stands⟩

/-- Names that differ in their extensions only: the second table is the first one, and has its schema. -/
theorem merged_of_extensions :
    ∃ db first second table file, Database.openAt .empty lettersDirectory .default = .ok db ∧
      Path.Plain "a.b".toList ∧ Path.Plain "a.c".toList ∧
      db.createTable "a.b" (.ofTypes [.int]) = .ok (first, table) ∧
      first.createTable "a.c" (.ofTypes [.text]) = .ok (second, table) ∧
      second.pool.disk.Distinguished ∧ second.table? "a.c" = .ok file ∧ file.schema = .ofTypes [.int] := by
  let place : Place := ⟨["d", "a.dat"]⟩
  refine ⟨_, _, _, _, ⟨TableFile.idOfPlace place, place, .file 0, .ofTypes [.int], 4096, 0⟩, rfl, by decide,
    by decide, rfl, rfl, ?_, by decide +kernel, rfl⟩
  exact Disk.distinguished_of_nodup (by decide +kernel)

end Session

end RowStore
