import RowStore.Proofs.Pool.Coherent

namespace RowStore

/-! Opening table files, for the first time and again.

A file that is opened again has the same number, and it has as many pages as its
bytes make up by then.
-/

namespace Disk

variable {disk after later : Disk} {path : Path} {handle : Handle} {place : Place}

/-- No two names stand for one file, and new files get new numbers. -/
structure Sound (disk : Disk) : Prop where
  apart : ∀ {place other number}, disk.nodes.get? place = some (.file number) →
    disk.nodes.get? other = some (.file number) → place = other
  numbered : ∀ {place number}, disk.nodes.get? place = some (.file number) → number < disk.nextFile

theorem sound_empty : empty.Sound := ⟨by simp [empty], by simp [empty]⟩

/-- What is at a place stays there. -/
def Precedes (disk later : Disk) : Prop :=
  ∀ place node, disk.nodes.get? place = some node → later.nodes.get? place = some node

theorem Precedes.of_nodes (same : later.nodes = disk.nodes) : Precedes disk later := by
  intro place node found
  rw [same, found]

theorem Precedes.trans (first : Precedes disk after) (second : Precedes after later) : Precedes disk later :=
  fun place node found => second place node (first place node found)

def Located (disk : Disk) (place : Place) : Handle → Prop
  | .file number => disk.nodes.get? place = some (.file number)
  | .fullDevice => place = fullDevicePlace

theorem Located.keep (located : Located disk place handle) (precedes : Precedes disk later) :
    Located later place handle := by
  cases handle with
  | file number => exact precedes place _ located
  | fullDevice => exact located

theorem node?_later {node : Node} (found : disk.node? place = some node)
    (precedes : Precedes disk later) : later.node? place = some node := by
  unfold node? at found ⊢
  split at found
  · next root => rw [if_pos root, found]
  · next below => rw [if_neg below, precedes place node found]

theorem follow_later {start : Place} {steps : List String} (found : disk.follow start steps = .ok place)
    (precedes : Precedes disk later) : later.follow start steps = .ok place := by
  induction steps generalizing start with
  | nil => exact found
  | cons step rest ih =>
      unfold follow at found ⊢
      split at found
      · next up =>
        rw [if_pos up]
        exact ih found
      · next down =>
        rw [if_neg down]
        split at found
        · next allowed =>
          rw [if_pos allowed]
          split at found
          · next last => rw [if_pos last, found]
          · next more =>
            rw [if_neg more]
            split at found
            · next directory =>
              rw [node?_later directory precedes]
              exact ih found
            · contradiction
        · contradiction

theorem resolve_later (found : disk.resolve path = .ok place) (precedes : Precedes disk later) :
    later.resolve path = .ok place := by
  unfold resolve at found ⊢
  split at found
  · next allowed =>
    rw [if_pos allowed]
    exact follow_later found precedes
  · contradiction

/-- A name that is free gets a file that no other name has. -/
theorem Sound.createFile (sound : disk.Sound) (free : disk.nodes.get? place = none) :
    (disk.createFile place).1.Sound ∧ Precedes disk (disk.createFile place).1 := by
  refine ⟨⟨fun {here there number} first second => ?_, fun {here number} found => ?_⟩, fun other node found => ?_⟩
  · simp only [Disk.createFile, FinMap.get?_insert] at first second
    split at first
    · next same =>
      cases first
      split at second
      · next likewise => rw [same, likewise]
      · exact absurd (sound.numbered second) (Nat.lt_irrefl _)
    · split at second
      · cases second
        exact absurd (sound.numbered first) (Nat.lt_irrefl _)
      · exact sound.apart first second
  · simp only [Disk.createFile, FinMap.get?_insert] at found ⊢
    split at found
    · cases found
      exact Nat.lt_succ_self _
    · exact Nat.lt_succ_of_lt (sound.numbered found)
  · have differs : other ≠ place := by
      rintro rfl
      simp [free] at found
    simp only [Disk.createFile, FinMap.get?_insert, if_neg differs, found]

/-- What opening does: at most a free name gets a new file, and the bytes of all others stay. -/
theorem Sound.of_openOrCreate (sound : disk.Sound) (opened : disk.openOrCreate path = .ok (after, handle, place)) :
    after.Sound ∧ Precedes disk after ∧ Located after place handle ∧
      ∀ other known, Located disk other known → after.bytes known = disk.bytes known := by
  unfold openOrCreate at opened
  split at opened
  · contradiction
  · next target _ =>
    split at opened
    · contradiction
    · next number found =>
      cases opened
      refine ⟨sound, fun _ _ found => found, ?_, fun _ _ _ => rfl⟩
      unfold node? at found
      split at found
      · simp at found
      · exact found
    · cases opened
      exact ⟨sound, fun _ _ found => found, rfl, fun _ _ _ => rfl⟩
    · next free =>
      cases opened
      have absent : disk.nodes.get? place = none := by
        unfold node? at free
        split at free
        · simp at free
        · exact free
      obtain ⟨soundAfter, precedes⟩ := sound.createFile absent
      refine ⟨soundAfter, precedes, FinMap.get?_insert_self _ _ _, fun other known located => ?_⟩
      cases known with
      | fullDevice => rfl
      | file number =>
          have older := sound.numbered located
          have differs : number ≠ disk.nextFile := by omega
          simp only [bytes, FinMap.get?_insert, if_neg differs]

/-- A path that was opened leads to the same file for ever. -/
theorem openOrCreate_again (opened : disk.openOrCreate path = .ok (after, handle, place))
    (precedes : Precedes disk after) (later : Disk) (kept : Precedes after later) :
    later.openOrCreate path = .ok (later, handle, place) := by
  unfold openOrCreate at opened ⊢
  split at opened
  · contradiction
  · next target reached =>
    rw [resolve_later reached (precedes.trans kept)]
    simp only
    split at opened
    · contradiction
    · next number found =>
      cases opened
      rw [node?_later found kept]
    · next found =>
      cases opened
      rw [node?_later found kept]
    · next free =>
      cases opened
      have created : (disk.createFile place).1.node? place = some (.file disk.nextFile) := by
        unfold node? at free ⊢
        split at free
        · simp at free
        · next below =>
          rw [if_neg below]
          exact FinMap.get?_insert_self _ _ _
      rw [node?_later created kept]

/-- A name that stands for no file takes no part in which file is whose. -/
theorem Sound.insert (sound : disk.Sound) {node : Node} (plain : ∀ number, node ≠ .file number) :
    Sound { disk with nodes := disk.nodes.insert place node } := by
  have known : ∀ {other number}, (disk.nodes.insert place node).get? other = some (.file number) →
      disk.nodes.get? other = some (.file number) := by
    intro other number found
    rw [FinMap.get?_insert] at found
    split at found
    · exact absurd (Option.some.inj found) (plain number)
    · exact found
  exact ⟨fun first second => sound.apart (known first) (known second), fun found => sound.numbered (known found)⟩

theorem Sound.makeAlong (sound : disk.Sound) {start : Place} {steps : List String}
    (made : disk.makeAlong start steps = .ok after) : after.Sound := by
  induction steps generalizing disk start with
  | nil =>
      cases made
      exact sound
  | cons step rest ih =>
      unfold Disk.makeAlong at made
      split at made
      · exact ih sound made
      · split at made
        · exact ih sound made
        · contradiction
        · split at made
          · exact ih (sound.insert (by simp)) made
          · contradiction

theorem Sound.replaceFile (sound : disk.Sound) (path : Path) (new : List UInt8) :
    (disk.replaceFile path new).1.Sound := by
  unfold Disk.replaceFile
  split
  · exact sound
  · next opened => exact (sound.of_openOrCreate opened).1
  · next opened =>
    have kept := (sound.of_openOrCreate opened).1
    split
    · exact ⟨kept.apart, kept.numbered⟩
    · exact ⟨kept.apart, kept.numbered⟩

end Disk

namespace TableFile

variable {disk after later : Disk} {opening : Opening} {file : TableFile}

theorem openAt_again (opened : openAt disk opening.path opening.schema opening.pageSize = .ok (after, file))
    (precedes : Disk.Precedes disk after) (later : Disk) (kept : Disk.Precedes after later) :
    openAt later opening.path opening.schema opening.pageSize = .ok (later, file.recount later) := by
  unfold openAt at opened ⊢
  split at opened
  · contradiction
  · next roomy =>
    split at opened
    · contradiction
    · next found =>
      cases opened
      rw [if_neg roomy, Disk.openOrCreate_again found precedes later kept]
      rfl

end TableFile

namespace Pool

variable {pool final : Pool} {openings : List Opening} {config : Config} {disk : Disk}

def openEach (pool : Pool) : List Opening → Except StoreError Pool
  | [] => .ok pool
  | opening :: rest =>
      match TableFile.openAt pool.disk opening.path opening.schema opening.pageSize with
      | .error error => .error error
      | .ok (disk, file) => ({ pool with disk }.addTable file).openEach rest

/-- A pool that did nothing but open files. -/
structure Opened (pool : Pool) : Prop where
  disk : pool.disk.Sound
  cache : pool.cache = .empty
  locks : ∃ config, pool.locks = .empty config
  named : ∀ {table file}, pool.tables.get? table = some file →
    file.id = table ∧ file.id = TableFile.idOfPlace file.place
  roomy : ∀ {table file}, pool.tables.get? table = some file → 0 < slotCount file.pageSize file.schema.rowWidth
  located : ∀ {table file}, pool.tables.get? table = some file → pool.disk.Located file.place file.handle
  counted : ∀ {table file}, pool.tables.get? table = some file → file.recount pool.disk = file

theorem opened_empty (config : Config) (sound : disk.Sound) : (empty config disk).Opened :=
  ⟨sound, rfl, ⟨config, rfl⟩, by simp [empty], by simp [empty], by simp [empty], by simp [empty]⟩

theorem get?_addTable (pool : Pool) (file : TableFile) (table : TableId) :
    (pool.addTable file).tables.get? table =
      if table = file.id then some ((pool.tables.get? file.id).getD file) else pool.tables.get? table :=
  pool.tables.get?_insertIfNew file.id table file

theorem Opened.addTable {opening : Opening} {file : TableFile} (opened : pool.Opened)
    (found : TableFile.openAt pool.disk opening.path opening.schema opening.pageSize = .ok (disk, file)) :
    ({ pool with disk }.addTable file).Opened ∧ Disk.Precedes pool.disk disk := by
  obtain ⟨reached, named, roomy, counted⟩ := TableFile.of_openAt found
  obtain ⟨sound, precedes, located, bytes⟩ := opened.disk.of_openOrCreate reached
  have known : ∀ {table other}, ({ pool with disk }.addTable file).tables.get? table = some other →
      pool.tables.get? table = some other ∨ table = file.id ∧ other = file := by
    intro table other listed
    rw [get?_addTable] at listed
    split at listed
    · next same =>
      cases before : pool.tables.get? file.id with
      | none => exact Or.inr ⟨same, by simpa [before] using listed.symm⟩
      | some first =>
          left
          rw [same, before]
          simpa [before] using listed
    · exact Or.inl listed
  refine ⟨⟨sound, opened.cache, opened.locks, fun {table other} listed => ?_, fun {table other} listed => ?_,
    fun {table other} listed => ?_, fun {table other} listed => ?_⟩, precedes⟩
  · obtain before | ⟨rfl, rfl⟩ := known listed
    · exact opened.named before
    · exact ⟨rfl, named⟩
  · obtain before | ⟨rfl, rfl⟩ := known listed
    · exact opened.roomy before
    · exact roomy
  · obtain before | ⟨rfl, rfl⟩ := known listed
    · exact (opened.located before).keep precedes
    · exact located
  · obtain before | ⟨rfl, rfl⟩ := known listed
    · have same := congrArg List.length (bytes _ _ (opened.located before))
      exact (congrArg (fun length => { other with pageCount := length / other.pageSize }) same).trans
        (opened.counted before)
    · exact counted

theorem Opened.openEach (opened : pool.Opened) (done : pool.openEach openings = .ok final) :
    final.Opened ∧ Disk.Precedes pool.disk final.disk := by
  induction openings generalizing pool with
  | nil =>
      cases done
      exact ⟨opened, fun _ _ found => found⟩
  | cons opening rest ih =>
      unfold Pool.openEach at done
      split at done
      · contradiction
      · next disk file found =>
        obtain ⟨next, precedes⟩ := opened.addTable found
        obtain ⟨last, later⟩ := ih next done
        exact ⟨last, precedes.trans later⟩

/-- A pool that only opened files is coherent when the files are made of whole pages. -/
theorem Opened.coherent (opened : pool.Opened)
    (even : ∀ table file, pool.tables.get? table = some file →
      file.pageSize ∣ (pool.disk.bytes file.handle).length) : pool.Coherent := by
  obtain ⟨config, locks⟩ := opened.locks
  refine ⟨?_, ⟨fun known => (opened.named known).1, fun known => TableFile.pageSize_pos (opened.roomy known),
    fun {table file} known => ?_, fun {table other file place} known likewise same => ?_⟩, ?_⟩
  · rw [locks]
    exact LockTable.sound_empty config
  · have counted := congrArg TableFile.pageCount (opened.counted known)
    rw [TableFile.Whole, ← counted]
    exact (Nat.div_mul_cancel (even table file known)).symm
  · have first := opened.located known
    have second := opened.located likewise
    have places : file.place = place.place := by
      rw [← same] at second
      cases shape : file.handle with
      | file number =>
          rw [shape] at first second
          exact opened.disk.apart first second
      | fullDevice =>
          rw [shape] at first second
          exact first.trans second.symm
    rw [← (opened.named known).1, ← (opened.named likewise).1, (opened.named known).2,
      (opened.named likewise).2, places]
  · simp [opened.cache]

/-- Files that were opened once can be opened again, on whatever their disk became. -/
theorem Opened.openEach_again (opened : pool.Opened) (done : pool.openEach openings = .ok final)
    (again : Pool) (kept : Disk.Precedes final.disk again.disk)
    (tables : ∀ table, again.tables.get? table =
      (pool.tables.get? table).map (TableFile.recount · again.disk)) :
    ∃ fresh, again.openEach openings = .ok fresh ∧ fresh.disk = again.disk ∧ fresh.cache = again.cache ∧
      fresh.locks = again.locks ∧
      ∀ table, fresh.tables.get? table = (final.tables.get? table).map (TableFile.recount · again.disk) := by
  induction openings generalizing pool again with
  | nil =>
      cases done
      exact ⟨again, rfl, rfl, rfl, rfl, tables⟩
  | cons opening rest ih =>
      unfold Pool.openEach at done ⊢
      split at done
      · contradiction
      · next disk file found =>
        obtain ⟨next, precedes⟩ := opened.addTable found
        obtain ⟨_, later⟩ := next.openEach done
        rw [TableFile.openAt_again found precedes again.disk (later.trans kept)]
        refine ih next done ({ again with disk := again.disk }.addTable (file.recount again.disk)) kept
          fun table => ?_
        rw [get?_addTable, get?_addTable]
        change (if table = file.id then some ((again.tables.get? file.id).getD (file.recount again.disk))
          else again.tables.get? table) = Option.map _ (if table = file.id then _ else pool.tables.get? table)
        split
        · rw [tables]
          change _ = Option.map _ (some ((pool.tables.get? file.id).getD file))
          cases pool.tables.get? file.id <;> rfl
        · exact tables table

end Pool

end RowStore
