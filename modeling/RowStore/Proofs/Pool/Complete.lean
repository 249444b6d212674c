import RowStore.Proofs.Pool.Coherent

namespace RowStore.Pool

/-! Writing changed pages to their files, and putting them back to what their files hold. -/

variable {pool middle after : Pool} {tx : TxId} {id : PageId} {page clean : Page} {pages : List Page}
variable {fate : Page → Page → Prop}

/-- Only pages changed, in memory or in their files. -/
structure Stays (pool after : Pool) : Prop where
  tables : after.tables = pool.tables
  locks : after.locks = pool.locks
  nodes : after.disk.nodes = pool.disk.nodes
  accepts : after.disk.failWrites = pool.disk.failWrites

theorem Stays.refl (pool : Pool) : Stays pool pool := ⟨rfl, rfl, rfl, rfl⟩

theorem Stays.trans (first : Stays pool middle) (second : Stays middle after) : Stays pool after :=
  ⟨second.tables.trans first.tables, second.locks.trans first.locks, second.nodes.trans first.nodes,
    second.accepts.trans first.accepts⟩

theorem Stays.grows (stays : Stays pool after) : Grows pool after :=
  Grows.of_same stays.tables stays.nodes

/-- In memory, some pages made room for unchanged ones, each in a certain way, and the others are as
they were. -/
structure Cleaned (fate : Page → Page → Prop) (pages : List Page) (pool after : Pool) : Prop where
  cleaned : ∀ page ∈ pages, ∃ clean, after.cache.get? page.id = some clean ∧ clean.dirty = none ∧
    fate page clean
  others : ∀ id, id ∉ pages.map Page.id → after.cache.get? id = pool.cache.get? id

theorem Cleaned.nil (fate : Page → Page → Prop) (pool : Pool) : Cleaned fate [] pool pool :=
  ⟨by simp, fun _ _ => rfl⟩

theorem Cleaned.cons (first : Cleaned fate [page] pool middle) (rest : Cleaned fate pages middle after)
    (apart : page.id ∉ pages.map Page.id) : Cleaned fate (page :: pages) pool after := by
  refine ⟨fun other listed => ?_, fun id absent => ?_⟩
  · rcases List.mem_cons.mp listed with rfl | later
    · obtain ⟨clean, found, cleaned⟩ := first.cleaned other List.mem_cons_self
      exact ⟨clean, (rest.others other.id apart).trans found, cleaned⟩
    · exact rest.cleaned other later
  · rw [List.map_cons, List.mem_cons, not_or] at absent
    exact (rest.others id absent.2).trans (first.others id (by simpa using absent.1))

/-- An unchanged page takes the place of the one that stands in memory under its number. -/
theorem Cleaned.put (named : clean.id = page.id) (unchanged : clean.dirty = none)
    (kept : fate page clean) : Cleaned fate [page] pool (pool.putPage clean) := by
  refine ⟨fun other listed => ?_, fun id absent => ?_⟩
  · rw [List.mem_singleton.mp listed]
    exact ⟨clean, (get?_putPage _ _ _).trans (if_pos named.symm), unchanged, kept⟩
  · have differs : ¬ id = clean.id := by
      rw [named]
      simpa using absent
    exact (get?_putPage _ _ _).trans (if_neg differs)

/-- Some changed pages became unchanged ones, each in a certain way, and nothing else changed. -/
structure Settled (fate : Page → Page → Prop) (pages : List Page) (pool after : Pool) : Prop where
  coherent : after.Coherent
  stays : Stays pool after
  settled : ∀ page ∈ pages, ∃ clean, after.cache.get? page.id = some clean ∧ clean.dirty = none ∧
    fate page clean
  others : ∀ id, id ∉ pages.map Page.id → after.cache.get? id = pool.cache.get? id
  bytes : ∀ id, id ∉ pages.map Page.id → KeepsBytes pool after id

/-- The page as its file holds it from now on. -/
def Flushed (page clean : Page) : Prop := clean = (page.markDirty none).keepImage

def Restored (page clean : Page) : Prop := page.restored = .ok clean

theorem Settled.nil (fate : Page → Page → Prop) (coherent : pool.Coherent) : Settled fate [] pool pool :=
  ⟨coherent, Stays.refl pool, by simp, fun _ _ => rfl, fun _ _ => KeepsBytes.of_same rfl _⟩

theorem Settled.cleaned (settled : Settled fate pages pool after) : Cleaned fate pages pool after :=
  ⟨settled.settled, settled.others⟩

theorem Settled.cons (first : Settled fate [page] pool middle) (rest : Settled fate pages middle after)
    (apart : page.id ∉ pages.map Page.id) : Settled fate (page :: pages) pool after := by
  obtain ⟨settled, others⟩ := first.cleaned.cons rest.cleaned apart
  refine ⟨rest.coherent, first.stays.trans rest.stays, settled, others, fun id absent => ?_⟩
  rw [List.map_cons, List.mem_cons, not_or] at absent
  exact (first.bytes id (by simpa using absent.1)).trans first.stays.grows (rest.bytes id absent.2)

structure Listed (pool : Pool) (pages : List Page) : Prop where
  found : ∀ page ∈ pages, pool.cache.get? page.id = some page
  dirty : ∀ page ∈ pages, ∃ tx, page.dirty = some tx
  distinct : (pages.map Page.id).Nodup

theorem Listed.tail (listed : Listed pool (page :: pages)) (cleaned : Cleaned fate [page] pool middle) :
    Listed middle pages := by
  obtain ⟨apart, distinct⟩ := List.nodup_cons.mp listed.distinct
  refine ⟨fun other later => ?_, fun other later => listed.dirty other (List.mem_cons_of_mem _ later),
    distinct⟩
  have differs : other.id ≠ page.id := fun same => apart (same ▸ List.mem_map_of_mem later)
  rw [cleaned.others other.id (by simpa using differs)]
  exact listed.found other (List.mem_cons_of_mem _ later)

/-- The changed pages that belong to a transaction, or to any. -/
def Owned (owner : Option TxId) (page : Page) : Prop :=
  ∃ tx, page.dirty = some tx ∧ ∀ wanted, owner = some wanted → tx = wanted

theorem mem_dirtyPages (owner : Option TxId) :
    page ∈ pool.dirtyPages owner ↔ page ∈ pool.cache.values ∧ Owned owner page := by
  rw [dirtyPages, List.mem_filter]
  refine and_congr_right fun _ => ?_
  cases dirty : page.dirty <;> cases owner <;> simp [Owned, dirty]

/-- Pages stand in memory under their own numbers. -/
def Named (pool : Pool) : Prop := ∀ id page, pool.cache.get? id = some page → page.id = id

theorem Named.mem_dirtyPages_iff (named : pool.Named) (owner : Option TxId) :
    page ∈ pool.dirtyPages owner ↔ pool.cache.get? page.id = some page ∧ Owned owner page := by
  rw [mem_dirtyPages, FinMap.mem_values_iff]
  refine and_congr_left fun _ => ⟨?_, fun found => ⟨page.id, found⟩⟩
  rintro ⟨id, found⟩
  rw [named id page found, found]

theorem Named.listed (named : pool.Named) (owner : Option TxId) :
    Listed pool (pool.dirtyPages owner) := by
  have ids : pool.cache.values.map Page.id = pool.cache.keys := by
    rw [FinMap.values, FinMap.keys, List.map_map]
    refine List.map_congr_left fun entry member => ?_
    exact named entry.1 entry.2 (FinMap.get?_eq_some_iff.mpr member)
  refine ⟨fun page member => ((named.mem_dirtyPages_iff owner).mp member).1, fun page member => ?_, ?_⟩
  · obtain ⟨tx, dirty, _⟩ := ((named.mem_dirtyPages_iff owner).mp member).2
    exact ⟨tx, dirty⟩
  · refine List.Nodup.sublist (List.Sublist.map Page.id List.filter_sublist) ?_
    rw [ids]
    exact pool.cache.distinct

theorem Coherent.named (coherent : pool.Coherent) : pool.Named :=
  fun id page found => (coherent.agrees id page found).named

theorem Coherent.mem_dirtyPages_iff (coherent : pool.Coherent) (owner : Option TxId) :
    page ∈ pool.dirtyPages owner ↔ pool.cache.get? page.id = some page ∧ Owned owner page :=
  coherent.named.mem_dirtyPages_iff owner

theorem Coherent.listed (coherent : pool.Coherent) (owner : Option TxId) :
    Listed pool (pool.dirtyPages owner) :=
  coherent.named.listed owner

/-! ## Writing pages -/

/-- Writing a page of a file replaces the bytes of that page. -/
theorem Filed.write {file : TableFile} {disk : Disk} {image : List UInt8}
    (files : Filed pool.disk pool.tables) (known : pool.tables.get? id.table = some file)
    (inside : id.number < file.pageCount) (width : image.length = file.pageSize)
    (written : pool.disk.write file.handle (id.number * file.pageSize) image = .ok disk) :
    Filed disk pool.tables ∧ file.stored disk id.number = image ∧
      ∀ other, other ≠ id → KeepsBytes pool { pool with disk } other := by
  obtain ⟨whole, stored⟩ := TableFile.of_write (files.whole known) inside width written
  obtain ⟨_, _, _, bytes⟩ := Disk.of_write written
  have elsewhere : ∀ {table other}, pool.tables.get? table = some other → table ≠ id.table →
      disk.bytes other.handle = pool.disk.bytes other.handle := by
    intro table other knows differs
    rw [bytes, if_neg fun same => differs (files.apart knows known same)]
  refine ⟨⟨files.named, files.sized, fun {table other} knows => ?_, files.apart⟩,
    (stored _).trans (if_pos rfl), fun other differs place knows => ?_⟩
  · by_cases same : table = id.table
    · rw [same, known] at knows
      cases knows
      exact whole
    · rw [TableFile.Whole, elsewhere knows same]
      exact files.whole knows
  · by_cases same : other.table = id.table
    · rw [same, known] at knows
      cases knows
      have number : ¬ other.number = id.number := fun equal => differs (by
        cases other
        cases id
        simp_all)
      exact (stored _).trans (if_neg number)
    · exact TableFile.stored_congr rfl (elsewhere knows same)

section Settle

variable (coherent : pool.Coherent)
include coherent

/-- A changed page is in its file, so flushing it writes it. -/
theorem Coherent.flushPage (found : pool.cache.get? page.id = some page) (dirty : page.dirty = some tx)
    (flushed : pool.flushPage page = .ok after) : Settled Flushed [page] pool after := by
  have agrees := coherent.agrees _ page found
  obtain ⟨file, known, schema, size, _, _⟩ := agrees.filed
  have inside := (agrees.locked tx dirty).2
  rw [pageCount_eq known] at inside
  unfold Pool.flushPage at flushed
  rw [table?_eq_ok.mpr known] at flushed
  simp only [TableFile.writePage] at flushed
  rw [if_pos (coherent.files.named known).symm, if_pos inside] at flushed
  split at flushed
  · contradiction
  · next disk written =>
    cases flushed
    have width : page.image.length = file.pageSize := (length_fitBytes _ _).trans size
    obtain ⟨files, stored, keeps⟩ := coherent.files.write known inside width written
    obtain ⟨nodes, _, accepts, _⟩ := Disk.of_write written
    have clean : Agrees { pool with disk } page.id (page.markDirty none).keepImage :=
      ⟨rfl, agrees.wellFormed.keepImage,
        ⟨file, known, schema, size, Nat.le_of_lt inside, stored.symm⟩,
        ⟨_, agrees.wellFormed.decode_image, fun _ => rfl⟩, by simp [Page.keepImage, Page.markDirty]⟩
    have cleaned : Cleaned Flushed [page] { pool with disk }
        (Pool.putPage { pool with disk } (page.markDirty none).keepImage) :=
      Cleaned.put rfl rfl (show Flushed page _ from rfl)
    refine ⟨⟨coherent.locks, files, fun id other knows => ?_⟩, ⟨rfl, rfl, nodes, accepts⟩,
      cleaned.cleaned, cleaned.others, fun id absent => keeps id (by simpa using absent)⟩
    rw [get?_putPage] at knows
    split at knows
    · next same =>
      subst same
      cases knows
      exact clean.keep (Grows.of_same rfl rfl) (KeepsBytes.of_same rfl _) fun _ _ => rfl
    · next differs =>
      exact (coherent.agrees id other knows).keep (Grows.of_same rfl nodes) (keeps id differs) fun _ _ => rfl

theorem Coherent.putRestored (found : pool.cache.get? page.id = some page)
    (restored : page.restored = .ok clean) : Settled Restored [page] pool (pool.putPage clean) := by
  have agrees := coherent.agrees _ page found
  obtain ⟨file, known, schema, size, bound, before⟩ := agrees.filed
  obtain ⟨named, cleanSchema, cleanSize, unchanged, cleanBefore, wellFormed⟩ := Page.of_decode restored
  have same : fitBytes page.size page.before = page.before := by
    rw [before, size]
    exact fitBytes_of_length TableFile.length_stored
  rw [same] at cleanBefore
  have settled : pool.Agrees clean.id clean := by
    rw [named]
    refine ⟨named, wellFormed, ⟨file, known, cleanSchema.trans schema, cleanSize.trans size, bound,
      cleanBefore.trans before⟩, ⟨clean, ?_, fun _ => rfl⟩, by simp [unchanged]⟩
    rw [Page.restored, named, cleanSchema, cleanSize, cleanBefore]
    exact restored
  obtain ⟨replaced, others⟩ : Cleaned Restored [page] pool (pool.putPage clean) :=
    Cleaned.put named unchanged restored
  exact ⟨coherent.putPage settled, ⟨rfl, rfl, rfl, rfl⟩, replaced, others,
    fun id _ => KeepsBytes.of_same rfl id⟩

theorem Coherent.flushEach (listed : Listed pool pages) :
    ∃ written left, pages = written ++ left ∧ Settled Flushed written pool (pool.flushEach pages).1 ∧
      ((pool.flushEach pages).2 = .ok () → left = []) := by
  induction pages generalizing pool with
  | nil => exact ⟨[], [], rfl, Settled.nil _ coherent, fun _ => rfl⟩
  | cons page pages ih =>
      unfold Pool.flushEach
      split
      · exact ⟨[], page :: pages, rfl, Settled.nil _ coherent, by simp⟩
      · next middle flushed =>
        obtain ⟨tx, dirty⟩ := listed.dirty page List.mem_cons_self
        have first := coherent.flushPage (listed.found page List.mem_cons_self) dirty flushed
        obtain ⟨written, left, rfl, rest, ended⟩ := ih first.coherent (listed.tail first.cleaned)
        have apart : page.id ∉ written.map Page.id := fun again =>
          (List.nodup_cons.mp listed.distinct).1 (by
            rw [List.map_append]
            exact List.mem_append_left _ again)
        exact ⟨page :: written, left, rfl, first.cons rest apart, ended⟩

/-- The image of a page in memory can always be read. -/
theorem Coherent.restoreEach (listed : Listed pool pages) :
    Settled Restored pages pool (pool.restoreEach pages).1 ∧ (pool.restoreEach pages).2 = .ok () := by
  induction pages generalizing pool with
  | nil => exact ⟨Settled.nil _ coherent, rfl⟩
  | cons page pages ih =>
      have found := listed.found page List.mem_cons_self
      obtain ⟨clean, restored, _⟩ := (coherent.agrees _ page found).restored
      have first := coherent.putRestored found restored
      obtain ⟨rest, ended⟩ := ih first.coherent (listed.tail first.cleaned)
      unfold Pool.restoreEach
      simp only [restored]
      exact ⟨first.cons rest (List.nodup_cons.mp listed.distinct).1, ended⟩

/-- Writes of changed pages go well on a disk that takes writes. -/
theorem Coherent.flushEach_ok (listed : Listed pool pages) (accepts : pool.disk.failWrites = false) :
    (pool.flushEach pages).2 = .ok () := by
  induction pages generalizing pool with
  | nil => rfl
  | cons page pages ih =>
      have found := listed.found page List.mem_cons_self
      obtain ⟨tx, dirty⟩ := listed.dirty page List.mem_cons_self
      have agrees := coherent.agrees _ page found
      obtain ⟨file, known, _, _, _, _⟩ := agrees.filed
      have inside := (agrees.locked tx dirty).2
      rw [pageCount_eq known] at inside
      have real := TableFile.handle_ne_fullDevice (coherent.files.sized known) inside
        (Nat.le_of_eq (coherent.files.whole known).symm)
      obtain ⟨disk, written, _⟩ := Disk.write_of_not_refuses real (Disk.refuses_of_accepts accepts)
        (page.id.number * file.pageSize) page.image
      have flushed : pool.flushPage page = .ok ({ pool with disk }.putPage (page.markDirty none).keepImage) := by
        unfold Pool.flushPage
        simp only [table?_eq_ok.mpr known, TableFile.writePage]
        rw [if_pos (coherent.files.named known).symm, if_pos inside, written]
      have first := coherent.flushPage found dirty flushed
      unfold Pool.flushEach
      simp only [flushed]
      exact ih first.coherent (listed.tail first.cleaned) (first.stays.accepts.trans accepts)

end Settle

/-! ## The end of a transaction -/

def CleanOf (tx : TxId) (pool : Pool) : Prop :=
  ∀ id page, pool.cache.get? id = some page → page.dirty ≠ some tx

theorem Cleaned.cleanOf (cleaned : Cleaned fate (pool.dirtyPages (some tx)) pool after)
    (named : pool.Named) : CleanOf tx after := by
  intro id page found dirty
  by_cases listed : id ∈ (pool.dirtyPages (some tx)).map Page.id
  · obtain ⟨before, member, rfl⟩ := List.mem_map.mp listed
    obtain ⟨clean, same, unchanged, _⟩ := cleaned.cleaned before member
    rw [found] at same
    cases same
    simp [unchanged] at dirty
  · rw [cleaned.others id listed] at found
    have here := named id page found
    refine listed (List.mem_map.mpr ⟨page, ?_, here⟩)
    rw [named.mem_dirtyPages_iff, here]
    exact ⟨found, tx, dirty, fun wanted same => Option.some.inj same⟩

section End

variable (coherent : pool.Coherent) (tx : TxId)
include coherent

theorem Coherent.releaseAll (clean : CleanOf tx pool) : (pool.releaseAll tx).Coherent := by
  refine coherent.withLocks (coherent.locks.releaseAll tx) fun id page owner found dirty => ?_
  have owned := ((coherent.agrees id page found).locked owner dirty).1
  rw [coherent.locks.lockOn_releaseAll_of_exclusive owned, owned]
  rintro rfl
  exact clean id page found dirty

theorem Coherent.restore : Settled Restored (pool.dirtyPages (some tx)) pool (pool.restore tx).1 ∧
    (pool.restore tx).2 = .ok () := coherent.restoreEach (coherent.listed (some tx))

theorem Coherent.abort : ∃ middle, Settled Restored (pool.dirtyPages (some tx)) pool middle ∧
    pool.abort tx = (middle.releaseAll tx, .ok ()) := by
  obtain ⟨settled, ended⟩ := coherent.restore tx
  refine ⟨_, settled, ?_⟩
  unfold Pool.abort
  generalize pool.restore tx = result at ended ⊢
  obtain ⟨middle, outcome⟩ := result
  cases ended
  rfl

/-- After a commit, also after one that could not write, nothing is left of the transaction in
memory that is not in a file. -/
theorem Coherent.commit : ∃ middle, middle.Coherent ∧ Stays pool middle ∧ CleanOf tx middle ∧
    (pool.commit tx).1 = middle.releaseAll tx ∧
    ((pool.commit tx).2 = .ok () → Settled Flushed (pool.dirtyPages (some tx)) pool middle) := by
  obtain ⟨written, left, split, settled, ended⟩ := coherent.flushEach (coherent.listed (some tx))
  unfold Pool.commit
  generalize flushed : pool.flush tx = result
  rw [Pool.flush] at flushed
  rw [flushed] at settled ended
  obtain ⟨middle, outcome⟩ := result
  cases outcome with
  | ok =>
      rw [ended rfl, List.append_nil] at split
      rw [← split] at settled
      exact ⟨middle, settled.coherent, settled.stays, settled.cleaned.cleanOf coherent.named, rfl, fun _ => settled⟩
  | error error =>
      obtain ⟨restored, _⟩ := settled.coherent.restore tx
      exact ⟨_, restored.coherent, settled.stays.trans restored.stays,
        restored.cleaned.cleanOf settled.coherent.named, rfl, by simp⟩

theorem Coherent.commit_ok (accepts : pool.disk.failWrites = false) : (pool.commit tx).2 = .ok () := by
  have ended := coherent.flushEach_ok (coherent.listed (some tx)) accepts
  unfold Pool.commit
  generalize flushed : pool.flush tx = result
  rw [Pool.flush] at flushed
  rw [flushed] at ended
  obtain ⟨middle, outcome⟩ := result
  cases ended
  rfl

end End

end RowStore.Pool
