import RowStore.Proofs.Lock.Footprint
import RowStore.Proofs.Page.SlotMap
import RowStore.Proofs.Pool.Reading

namespace RowStore

/-! Everything that an insert can do, from wherever it goes on.

It reads pages into memory and comes by full ones, until it puts its row into the first
free slot of a page, fails, or waits. What it has locked by then is what its transaction
had before, the page that got the row, and full pages that it waited to write: those it
does not give up. Files and locks are only asked to be in order (`Fitted`), so all this
holds also when clients give up pages and drop pages in between.
-/

theorem Page.FirstFree.not_full {page : Page} {slot : Nat} (first : page.FirstFree slot) :
    page.isFull = false := by
  obtain ⟨inside, free, _⟩ := first
  rw [Bool.eq_false_iff]
  intro full
  have used := List.all_eq_true.mp full _ (List.getElem_mem inside)
  rw [← Page.isSome_row? inside, free] at used
  contradiction

namespace InsertStage

/-- Pages that an insert looks at from here, when its table has so many pages. -/
def ahead (count : Nat) : InsertStage → List Nat
  | .start => List.range count
  | .inspecting number _ rest | .claiming number rest => number :: rest
  | .appending number => [number]

/-- What an insert has locked only for the time of its wait. -/
def Pending (table : TableId) : InsertStage → PageId → LockMode → Prop
  | .claiming number _, id, mode => id = ⟨table, number⟩ ∧ mode = .shared
  | _, _, _ => False

/-- An insert that waits to look at a page has not locked it, and knows that it had not. -/
def Awaits (tx : TxId) (table : TableId) (pool : Pool) : InsertStage → Prop
  | .inspecting number heldBefore _ => heldBefore = false ∧ ¬ pool.locks.Has tx ⟨table, number⟩ .shared
  | _ => True

end InsertStage

namespace Pool

variable {pool middle after : Pool} {tx : TxId} {table : TableId} {page changed : Page}
variable {row : Row} {number : Nat} {rest ahead passed strays : List Nat} {mode : LockMode}
variable {stage : InsertStage}

/-! ## Fetching a page -/

/-- What a fetch leaves. -/
structure FetchEffect (tx : TxId) (id : PageId) (mode : LockMode) (pool after : Pool)
    (outcome : Outcome Unit Page) : Prop where
  inFiles : after.WithinFiles
  reads : Reads pool after
  found : ∀ page, outcome = .done page → after.cache.get? id = some page
  loaded : ∀ page, outcome = .done page → (pool.load id).2 = .done page
  has : ∀ page, outcome = .done page → ∀ place wish, after.locks.Has tx place wish ↔
    pool.locks.Has tx place wish ∨ place = id ∧ (wish = .exclusive → mode = .exclusive)
  waits : ∀ stage, outcome = .parked stage →
    (∀ place wish, after.locks.Has tx place wish ↔ pool.locks.Has tx place wish) ∧
      (mode = .shared → ¬ pool.locks.Has tx id .shared)
  keeps : ∀ {place wish}, pool.locks.Has tx place wish → after.locks.Has tx place wish

theorem WithinFiles.fetchEffect (inFiles : pool.WithinFiles) (tx : TxId) (id : PageId) (mode : LockMode) :
    FetchEffect tx id mode pool (pool.fetch tx id mode).1 (pool.fetch tx id mode).2 := by
  have fits : WithinFiles { pool with locks := (pool.locks.request tx id mode).1 } :=
    inFiles.withLocks (inFiles.locks.request tx id mode)
  have reads := Reads.of_locks pool (pool.locks.request tx id mode).1
  have keeps := fun {place wish} => @has_fetch pool tx tx place id mode wish
  unfold Pool.fetch at keeps ⊢
  generalize asked : pool.locks.request tx id mode = answer at fits reads keeps
  obtain ⟨locks, verdict⟩ := answer
  cases verdict with
  | parked =>
      refine ⟨fits, reads, nofun, nofun, nofun, fun _ _ => ⟨fun place wish => ?_, fun reading has => ?_⟩, keeps⟩
      · have same := @LockTable.has_request_of_not_granted pool.locks tx tx id place mode wish (by simp [asked])
        rwa [asked] at same
      · subst reading
        have refused : (pool.locks.request tx id .shared).2 ≠ .granted := by simp [asked]
        have absent := inFiles.locks.not_mem_heldPages_of_request refused
        have sound : (pool.locks.request tx id .shared).1.Sound := inFiles.locks.request tx id .shared
        rw [← sound.has_shared_iff] at absent
        exact absent (has.request tx id .shared)
  | refused => exact ⟨fits, reads, nofun, nofun, nofun, nofun, keeps⟩
  | granted =>
      have granted : (pool.locks.request tx id mode).2 = .granted := by rw [asked]
      have more := reads_load { pool with locks } id
      refine ⟨fits.load id, reads.trans more, fun page done => ?_, fun page done => ?_,
        fun page _ place wish => ?_, fun stage same => absurd same (load_ne_parked _ id stage), keeps⟩
      · simp only at done ⊢
        obtain ⟨cached, found, same⟩ | ⟨error, same⟩ | ⟨read, _, restorable, _, same⟩ :=
          load_cases { pool with locks } id
        · rw [same] at done ⊢
          cases done
          exact found
        · simp [same] at done
        · rw [same] at done ⊢
          cases done
          rw [get?_putPage, if_pos restorable.named.symm]
      · have same : (Pool.load { pool with locks } id).2 = (pool.load id).2 := load_congr rfl rfl rfl
        exact same.symm.trans done
      · have iff := @LockTable.Sound.has_request_iff pool.locks tx id place mode wish inFiles.locks granted
        rw [asked] at iff
        rwa [load_locks]

/-! ## What a transaction has locked -/

/-- The transaction has what it had when its call began, and full pages to write; beyond that it has
at most what is pending. -/
structure Owns (tx : TxId) (table : TableId) (held : PageId → LockMode → Prop) (strays : List Nat)
    (pending : PageId → LockMode → Prop) (pool : Pool) : Prop where
  has : ∀ place wish, (held place wish ∨ ∃ number ∈ strays, place = ⟨table, number⟩) →
    pool.locks.Has tx place wish
  only : ∀ place wish, pool.locks.Has tx place wish →
    held place wish ∨ (∃ number ∈ strays, place = ⟨table, number⟩) ∨ pending place wish

variable {held pending : PageId → LockMode → Prop}

theorem Owns.refl (tx : TxId) (table : TableId) (pending : PageId → LockMode → Prop) (pool : Pool) :
    Owns tx table (pool.locks.Has tx) [] pending pool :=
  ⟨fun _ _ has => has.elim (fun same => same) (by simp), fun _ _ has => .inl has⟩

theorem Owns.keep (owns : Owns tx table held strays pending pool)
    (same : ∀ place wish, after.locks.Has tx place wish ↔ pool.locks.Has tx place wish) :
    Owns tx table held strays pending after :=
  ⟨fun place wish has => (same place wish).mpr (owns.has place wish has),
    fun place wish has => owns.only place wish ((same place wish).mp has)⟩

/-- A page that is locked to write is no longer pending. -/
theorem Owns.written (owns : Owns tx table held strays pending pool)
    (waited : ∀ place wish, pending place wish → place = ⟨table, number⟩)
    (has : ∀ place wish, after.locks.Has tx place wish ↔ pool.locks.Has tx place wish ∨
      place = ⟨table, number⟩ ∧ (wish = .exclusive → LockMode.exclusive = .exclusive)) :
    Owns tx table held (number :: strays) (fun _ _ => False) after := by
  refine ⟨fun place wish own => (has place wish).mpr ?_, fun place wish own => ?_⟩
  · rcases own with before | ⟨other, listed, here⟩
    · exact .inl (owns.has place wish (.inl before))
    · rcases List.mem_cons.mp listed with rfl | earlier
      · exact .inr ⟨here, fun _ => rfl⟩
      · exact .inl (owns.has place wish (.inr ⟨other, earlier, here⟩))
  · rcases (has place wish).mp own with before | ⟨here, _⟩
    · rcases owns.only place wish before with held | ⟨other, listed, here⟩ | waiting
      · exact .inl held
      · exact .inr (.inl ⟨other, List.mem_cons_of_mem _ listed, here⟩)
      · exact .inr (.inl ⟨number, List.mem_cons_self, waited place wish waiting⟩)
    · exact .inr (.inl ⟨number, List.mem_cons_self, here⟩)

/-- A page that is locked to read, so that it can be locked to write next, is pending. -/
theorem Owns.read (owns : Owns tx table held strays (fun _ _ => False) pool)
    (has : ∀ place wish, after.locks.Has tx place wish ↔ pool.locks.Has tx place wish ∨
      place = ⟨table, number⟩ ∧ (wish = .exclusive → LockMode.shared = .exclusive)) (rest : List Nat) :
    Owns tx table held strays (InsertStage.Pending table (.claiming number rest)) after := by
  refine ⟨fun place wish own => (has place wish).mpr (.inl (owns.has place wish own)), fun place wish own => ?_⟩
  rcases (has place wish).mp own with before | ⟨here, reading⟩
  · exact (owns.only place wish before).imp_right (Or.imp_right False.elim)
  · cases wish with
    | shared => exact .inr (.inr ⟨here, rfl⟩)
    | exclusive => exact absurd (reading rfl) (by simp)

/-! ## Lengthening the file -/

/-- The file of a table was made longer if the page is the one just past its end. -/
structure Lengthens (table : TableId) (number : Nat) (pool after : Pool) : Prop where
  kept : number < pool.pageCount table →
    after.disk = pool.disk ∧ ∀ other, after.tables.get? other = pool.tables.get? other
  grown : number = pool.pageCount table → ∃ file disk, pool.tables.get? table = some file ∧
    pool.disk.write file.handle (number * file.pageSize) (List.replicate file.pageSize 0) = .ok disk ∧
    after.disk = disk ∧ ∀ other, after.tables.get? other =
      if other = table then some { file with pageCount := number + 1 } else pool.tables.get? other

theorem Lengthens.stay (inside : number < pool.pageCount table) : Lengthens table number pool pool :=
  ⟨fun _ => ⟨rfl, fun _ => rfl⟩, fun same => absurd same (Nat.ne_of_lt inside)⟩

theorem lengthens_append (appended : pool.appendPage ⟨table, number⟩ = .ok after) :
    Lengthens table number pool after ∧ after.locks = pool.locks := by
  obtain ⟨file, found, ⟨here, disk, written, rfl⟩ | ⟨elsewhere, rfl⟩⟩ := of_appendPage appended
  · have count := pageCount_eq found
    simp only at here found
    refine ⟨⟨fun inside => ?_, fun _ => ⟨file, disk, found, here ▸ written, rfl, fun other => ?_⟩⟩, rfl⟩
    · rw [count, here] at inside
      exact absurd inside (Nat.lt_irrefl _)
    · rw [FinMap.get?_insert, here]
  · have count := pageCount_eq found
    simp only at elsewhere found
    refine ⟨⟨fun _ => ⟨rfl, fun other => ?_⟩, fun same => absurd (same.trans count) elsewhere⟩, rfl⟩
    rw [FinMap.get?_insert]
    split
    · next same => rw [same, found]
    · rfl

theorem Lengthens.pageCount (lengthens : Lengthens table number pool after)
    (bound : number ≤ pool.pageCount table) (other : TableId) :
    after.pageCount other =
      if other = table ∧ number = pool.pageCount table then number + 1 else pool.pageCount other := by
  rcases Nat.lt_or_eq_of_le bound with inside | past
  · rw [if_neg fun both => Nat.ne_of_lt inside both.2, Pool.pageCount, (lengthens.kept inside).2, Pool.pageCount]
  · obtain ⟨file, _, _, _, _, tables⟩ := lengthens.grown past
    rw [Pool.pageCount, tables]
    by_cases here : other = table
    · rw [if_pos here, if_pos ⟨here, past⟩]
      rfl
    · rw [if_neg here, if_neg fun both => here both.1, Pool.pageCount]

/-! ## Putting the row into a page -/

/-- A page with room was changed, and its file is long enough for it. -/
structure Puts (table : TableId) (row : Row) (number : Nat) (page changed : Page) (pool after : Pool) :
    Prop where
  bound : number ≤ pool.pageCount table
  found : pool.cache.get? ⟨table, number⟩ = some page
  types : row.types = page.schema.types
  lengthens : Lengthens table number pool after
  locks : after.locks = pool.locks
  cache : ∀ id, after.cache.get? id = if id = ⟨table, number⟩ then some changed else pool.cache.get? id

/-- The page is full, as it is had. -/
def FullAt (pool : Pool) (id : PageId) : Prop :=
  ∃ page, (pool.load id).2 = .done page ∧ page.isFull = true

theorem Reads.fullAt {id : PageId} (reads : Reads pool after) (full : after.FullAt id) : pool.FullAt id := by
  obtain ⟨page, loaded, full⟩ := full
  exact ⟨page, (reads.load id).symm.trans loaded, full⟩

/-- How an insert ended or stopped. A page that has got the row is changed by `mark` in addition. -/
inductive InsertEffect (tx : TxId) (table : TableId) (row : Row) (mark : Page → Page)
    (held : PageId → LockMode → Prop) (ahead strays : List Nat) (pool : Pool) : InsertOutcome → Prop
  | put (passed : List Nat) {number slot : Nat} {page : Page} {middle after : Pool}
      (inFiles : middle.WithinFiles) (reads : Reads pool middle)
      (full : ∀ other ∈ passed, pool.FullAt ⟨table, other⟩)
      (order : passed ++ [number] <+: ahead ++ [pool.pageCount table])
      (owns : Owns tx table held (number :: strays) (fun _ _ => False) middle)
      (first : page.FirstFree slot)
      (puts : Puts table row number page (mark (page.setSlot slot (some row.values))) middle after) :
      InsertEffect tx table row mark held ahead strays pool (after, .done number)
  | failed {middle after : Pool} {error : StoreError} (inFiles : middle.WithinFiles) (reads : Reads pool middle)
      (grown : after = middle ∨ ∃ number ≤ middle.pageCount table,
        middle.appendPage ⟨table, number⟩ = .ok after)
      (keeps : ∀ place wish, held place wish → after.locks.Has tx place wish) :
      InsertEffect tx table row mark held ahead strays pool (after, .failed error)
  | parked {after : Pool} {stage : InsertStage} (inFiles : after.WithinFiles) (reads : Reads pool after)
      (owns : Owns tx table held strays (stage.Pending table) after)
      (awaits : stage.Awaits tx table after) :
      InsertEffect tx table row mark held ahead strays pool (after, .parked stage)

variable {mark : Page → Page}

theorem InsertEffect.after_reads {result : InsertOutcome} (reads : Reads pool middle)
    (effect : InsertEffect tx table row mark held ahead strays middle result) :
    InsertEffect tx table row mark held ahead strays pool result := by
  cases effect with
  | put passed inFiles more full order owns first puts =>
      rw [reads.pageCount] at order
      exact .put passed inFiles (reads.trans more) (fun other listed => reads.fullAt (full other listed)) order
        owns first puts
  | failed inFiles more grown keeps => exact .failed inFiles (reads.trans more) grown keeps
  | parked inFiles more owns awaits => exact .parked inFiles (reads.trans more) owns awaits

/-- A full page was come by. -/
theorem InsertEffect.pass {result : InsertOutcome} (reads : Reads pool middle)
    (filled : pool.FullAt ⟨table, number⟩)
    (effect : InsertEffect tx table row mark held rest strays middle result) :
    InsertEffect tx table row mark held (number :: rest) strays pool result := by
  cases effect with
  | put passed inFiles more full order owns first puts =>
      rw [reads.pageCount] at order
      refine .put (number :: passed) inFiles (reads.trans more) (fun other listed => ?_) ?_ owns first puts
      · rcases List.mem_cons.mp listed with rfl | later
        · exact filled
        · exact reads.fullAt (full other later)
      · exact (List.prefix_cons_inj number).mpr order
  | failed inFiles more grown keeps => exact .failed inFiles (reads.trans more) grown keeps
  | parked inFiles more owns awaits => exact .parked inFiles (reads.trans more) owns awaits

/-- The page that an insert keeps locked though it is full: it waited to write that page. -/
def strayOn (pool : Pool) (tx : TxId) (table : TableId) (number : Nat) : List Nat :=
  match (pool.fetch tx ⟨table, number⟩ .exclusive).2 with
  | .done page => if page.isFull then [number] else []
  | _ => []

/-- The pages that an insert keeps locked though they are full, when it goes on from here. -/
def overrun (pool : Pool) (tx : TxId) (table : TableId) : InsertStage → List Nat
  | .claiming number _ | .appending number => pool.strayOn tx table number
  | _ => []

theorem storeIn_cases (pool : Pool) (row : Row) (named : page.id = ⟨table, number⟩) :
    (∃ slot, page.FirstFree slot ∧ row.types = page.schema.types ∧
      pool.storeIn page row = (pool.putPage (page.setSlot slot (some row.values)), .done number)) ∨
    ∃ error, pool.storeIn page row = (pool, .failed error) := by
  unfold Pool.storeIn
  split
  · next changed record inserted =>
    obtain ⟨slot, free, types, _, _⟩ := Page.of_insert inserted
    have room : ∃ slot < page.slotTotal, page.row? slot = none :=
      ⟨slot, (List.getElem?_eq_some_iff.mp free).1, by simp [Page.row?, free]⟩
    obtain ⟨first, lowest, again⟩ := Page.insert_firstFree types room
    rw [inserted] at again
    cases again
    exact .inl ⟨first, lowest, types, by rw [show (page.setSlot first _).id = _ from named]⟩
  · exact .inr ⟨_, rfl⟩

/-- The file is long enough by now, and the changed page takes the place of the one in memory. -/
theorem Lengthens.puts {grown : Pool} (lengthens : Lengthens table number pool grown)
    (bound : number ≤ pool.pageCount table) (found : pool.cache.get? ⟨table, number⟩ = some page)
    (types : row.types = page.schema.types) (cache : grown.cache = pool.cache)
    (locks : grown.locks = pool.locks) (named : changed.id = ⟨table, number⟩) :
    Puts table row number page changed pool (grown.putPage changed) := by
  refine ⟨bound, found, types, ⟨lengthens.kept, lengthens.grown⟩, locks, fun id => ?_⟩
  rw [get?_putPage, named, cache]

theorem Puts.markDirty (puts : Puts table row number page changed pool after)
    (named : changed.id = ⟨table, number⟩) :
    Puts table row number page (changed.markDirty (some tx)) pool (after.markDirty tx ⟨table, number⟩) := by
  have stored := (puts.cache ⟨table, number⟩).trans (if_pos rfl)
  have marked : after.markDirty tx ⟨table, number⟩ = after.putPage (changed.markDirty (some tx)) := by
    rw [Pool.markDirty, stored]
  rw [marked]
  refine ⟨puts.bound, puts.found, puts.types, ⟨puts.lengthens.kept, puts.lengthens.grown⟩, puts.locks,
    fun id => ?_⟩
  rw [get?_putPage, puts.cache, show (changed.markDirty (some tx)).id = _ from named]
  split <;> rfl

section Insert

variable (inFiles : pool.WithinFiles)
include inFiles

theorem WithinFiles.insertEffect_storeIn (found : pool.cache.get? ⟨table, number⟩ = some page)
    (inside : number < pool.pageCount table)
    (owns : page.isFull = false → Owns tx table held (number :: strays) (fun _ _ => False) pool)
    (keeps : ∀ place wish, held place wish → pool.locks.Has tx place wish) :
    InsertEffect tx table row id held (number :: rest) strays pool (pool.storeIn page row) := by
  have named := inFiles.named _ page found
  obtain ⟨slot, first, types, stored⟩ | ⟨error, stored⟩ := storeIn_cases pool row named
  · rw [stored]
    refine .put [] inFiles (.refl pool) nofun ?_ (owns first.not_full) first
      ((Lengthens.stay inside).puts (Nat.le_of_lt inside) found types rfl rfl named)
    exact (List.prefix_cons_inj number).mpr List.nil_prefix
  · rw [stored]
    exact .failed inFiles (.refl pool) (.inl rfl) keeps

theorem WithinFiles.insertEffect_grow (found : pool.cache.get? ⟨table, number⟩ = some page)
    (bound : number ≤ pool.pageCount table) (order : [number] <+: ahead ++ [pool.pageCount table])
    (owns : page.isFull = false → Owns tx table held (number :: strays) (fun _ _ => False) pool)
    (keeps : ∀ place wish, held place wish → pool.locks.Has tx place wish) :
    InsertEffect tx table row id held ahead strays pool (pool.grow page row) := by
  have named := inFiles.named _ page found
  unfold Pool.grow
  rw [named]
  split
  · exact .failed inFiles (.refl pool) (.inl rfl) keeps
  · next grown appended =>
    obtain ⟨lengthens, locks⟩ := lengthens_append appended
    obtain ⟨slot, first, types, stored⟩ | ⟨error, stored⟩ := storeIn_cases grown row named
    · rw [stored]
      exact .put [] inFiles (.refl pool) nofun order (owns first.not_full) first
        (lengthens.puts bound found types (cache_appendPage appended) locks named)
    · rw [stored]
      exact .failed inFiles (.refl pool) (.inr ⟨number, bound, appended⟩) (locks ▸ keeps)

theorem WithinFiles.insertEffect_extend (owns : Owns tx table held strays (fun _ _ => False) pool) :
    InsertEffect tx table row id held [] strays pool (pool.extend tx table row) := by
  have fetches := inFiles.fetchEffect tx ⟨table, pool.pageCount table⟩ .exclusive
  unfold Pool.extend
  simp only
  generalize pool.fetch tx ⟨table, pool.pageCount table⟩ .exclusive = result at fetches ⊢
  obtain ⟨middle, outcome⟩ := result
  have count := fetches.reads.pageCount table
  cases outcome with
  | parked stage =>
      exact .parked fetches.inFiles fetches.reads (owns.keep (fetches.waits stage rfl).1) trivial
  | failed =>
      exact .failed fetches.inFiles fetches.reads (.inl rfl) fun _ _ held =>
        fetches.keeps (owns.has _ _ (.inl held))
  | done page =>
      refine InsertEffect.after_reads fetches.reads
        (fetches.inFiles.insertEffect_grow (fetches.found page rfl) (Nat.le_of_eq count.symm) ?_
          (fun _ => owns.written nofun (fetches.has page rfl)) fun _ _ held =>
            fetches.keeps (owns.has _ _ (.inl held)))
      rw [count]
      exact List.prefix_rfl

theorem WithinFiles.insertEffect_extendAt (bound : number ≤ pool.pageCount table)
    (owns : Owns tx table held strays (fun _ _ => False) pool) :
    InsertEffect tx table row id held [number] (pool.strayOn tx table number ++ strays) pool
      (pool.extendAt tx table row number) := by
  have fetches := inFiles.fetchEffect tx ⟨table, number⟩ .exclusive
  unfold Pool.extendAt Pool.strayOn
  generalize pool.fetch tx ⟨table, number⟩ .exclusive = result at fetches ⊢
  obtain ⟨middle, outcome⟩ := result
  have count := fetches.reads.pageCount table
  cases outcome with
  | parked stage =>
      exact .parked fetches.inFiles fetches.reads (owns.keep (fetches.waits stage rfl).1) trivial
  | failed =>
      exact .failed fetches.inFiles fetches.reads (.inl rfl) fun _ _ held =>
        fetches.keeps (owns.has _ _ (.inl held))
  | done page =>
      have written := owns.written nofun (fetches.has page rfl)
      cases full : page.isFull with
      | true =>
          simp only [full, true_and, if_true, List.singleton_append]
          split
          · exact InsertEffect.pass fetches.reads ⟨page, fetches.loaded page rfl, full⟩
              (fetches.inFiles.insertEffect_extend written)
          · exact InsertEffect.after_reads fetches.reads
              (fetches.inFiles.insertEffect_grow (fetches.found page rfl) (count ▸ bound)
                ((List.prefix_cons_inj number).mpr List.nil_prefix) (by simp [full])
                fun _ _ held => written.has _ _ (.inl held))
      | false =>
          simp only [full, Bool.false_eq_true, false_and, if_false, List.nil_append]
          exact InsertEffect.after_reads fetches.reads
            (fetches.inFiles.insertEffect_grow (fetches.found page rfl) (count ▸ bound)
              ((List.prefix_cons_inj number).mpr List.nil_prefix) (fun _ => written)
              fun _ _ held => written.has _ _ (.inl held))

theorem WithinFiles.insertEffect_claim (inside : number < pool.pageCount table)
    (owns : Owns tx table held strays (InsertStage.Pending table (.claiming number rest)) pool)
    {next : Pool → InsertOutcome}
    (proceeds : ∀ middle strays, middle.WithinFiles → Reads pool middle →
      Owns tx table held strays (fun _ _ => False) middle →
      InsertEffect tx table row id held rest strays middle (next middle)) :
    InsertEffect tx table row id held (number :: rest) (pool.strayOn tx table number ++ strays) pool
      (pool.claim tx table row number rest next) := by
  have fetches := inFiles.fetchEffect tx ⟨table, number⟩ .exclusive
  unfold Pool.claim Pool.strayOn
  generalize pool.fetch tx ⟨table, number⟩ .exclusive = result at fetches ⊢
  obtain ⟨middle, outcome⟩ := result
  have count := fetches.reads.pageCount table
  cases outcome with
  | parked stage =>
      exact .parked fetches.inFiles fetches.reads (owns.keep (fetches.waits stage rfl).1) trivial
  | failed =>
      exact .failed fetches.inFiles fetches.reads (.inl rfl) fun _ _ held =>
        fetches.keeps (owns.has _ _ (.inl held))
  | done page =>
      have written := owns.written (fun _ _ waiting => waiting.1) (fetches.has page rfl)
      cases full : page.isFull with
      | true =>
          simp only [full, if_true, List.singleton_append]
          exact InsertEffect.pass fetches.reads ⟨page, fetches.loaded page rfl, full⟩
            (proceeds middle _ fetches.inFiles fetches.reads written)
      | false =>
          simp only [full, Bool.false_eq_true, if_false, List.nil_append]
          exact InsertEffect.after_reads fetches.reads
            (fetches.inFiles.insertEffect_storeIn (fetches.found page rfl) (count ▸ inside) (fun _ => written)
              fun _ _ held => written.has _ _ (.inl held))

/-- A page with room that was just looked at still has room when it is locked to write at once. -/
theorem strayOn_eq_nil (loaded : (pool.load ⟨table, number⟩).2 = .done page) (room : page.isFull = false) :
    pool.strayOn tx table number = [] := by
  have fetches := inFiles.fetchEffect tx ⟨table, number⟩ .exclusive
  unfold Pool.strayOn
  split
  · next other done =>
    have same := (fetches.loaded other done).symm.trans loaded
    cases same
    rw [if_neg (by simp [room])]
  · rfl

theorem WithinFiles.insertEffect_inspect (inside : number < pool.pageCount table)
    (owns : Owns tx table held strays (fun _ _ => False) pool) {heldBefore : Bool}
    (before : heldBefore = true ↔ pool.locks.Has tx ⟨table, number⟩ .shared) {next : Pool → InsertOutcome}
    (proceeds : ∀ middle strays, middle.WithinFiles → Reads pool middle →
      Owns tx table held strays (fun _ _ => False) middle →
      InsertEffect tx table row id held rest strays middle (next middle)) :
    InsertEffect tx table row id held (number :: rest) strays pool
      (pool.inspect tx table row number heldBefore rest next) := by
  have fetches := inFiles.fetchEffect tx ⟨table, number⟩ .shared
  unfold Pool.inspect
  generalize pool.fetch tx ⟨table, number⟩ .shared = result at fetches ⊢
  obtain ⟨middle, outcome⟩ := result
  have count := fetches.reads.pageCount table
  cases outcome with
  | parked stage =>
      obtain ⟨same, absent⟩ := fetches.waits stage rfl
      refine .parked fetches.inFiles fetches.reads (owns.keep same) ⟨?_, mt (same _ _).mp (absent rfl)⟩
      exact Bool.eq_false_iff.mpr (mt before.mp (absent rfl))
  | failed =>
      exact .failed fetches.inFiles fetches.reads (.inl rfl) fun _ _ held =>
        fetches.keeps (owns.has _ _ (.inl held))
  | done page =>
      have has := fetches.has page rfl
      simp only
      split
      · next full =>
        have filled : pool.FullAt ⟨table, number⟩ := ⟨page, fetches.loaded page rfl, full⟩
        cases heldBefore with
        | true =>
            refine InsertEffect.pass fetches.reads filled
              (proceeds middle strays fetches.inFiles fetches.reads (owns.keep fun place wish => ?_))
            have held := before.mp rfl
            rw [has]
            refine or_iff_left_of_imp ?_
            rintro ⟨rfl, reading⟩
            cases wish with
            | shared => exact held
            | exclusive => simp at reading
        | false =>
            have absent : ¬ pool.locks.Has tx ⟨table, number⟩ .shared := mt before.mpr (by simp)
            have released := Reads.of_locks middle (middle.locks.release tx ⟨table, number⟩)
            have reads := fetches.reads.trans released
            refine InsertEffect.pass reads filled (proceeds _ strays
              (fetches.inFiles.withLocks (fetches.inFiles.locks.release tx _)) reads (owns.keep fun place wish => ?_))
            change (middle.locks.release tx ⟨table, number⟩).Has tx place wish ↔ _
            rw [LockTable.has_release_iff, has]
            constructor
            · rintro ⟨kept | ⟨here, _⟩, apart⟩
              · exact kept
              · exact absurd ⟨here, rfl⟩ apart
            · exact fun kept => ⟨.inl kept, fun ⟨here, _⟩ => absent (here ▸ kept.shared)⟩
      · next room =>
        have room := Bool.eq_false_iff.mpr room
        have nothing : middle.strayOn tx table number = [] :=
          strayOn_eq_nil fetches.inFiles ((fetches.reads.load _).trans (fetches.loaded page rfl)) room
        have effect := fetches.inFiles.insertEffect_claim (count ▸ inside) (owns.read has rest)
          fun last strays fits reads => proceeds last strays fits (fetches.reads.trans reads)
        rw [nothing, List.nil_append] at effect
        exact InsertEffect.after_reads fetches.reads effect

theorem WithinFiles.insertEffect_inspectEach {numbers : List Nat}
    (inside : ∀ number ∈ numbers, number < pool.pageCount table)
    (owns : Owns tx table held strays (fun _ _ => False) pool) :
    InsertEffect tx table row id held numbers strays pool (inspectEach tx table row numbers pool) := by
  induction numbers generalizing pool strays with
  | nil => exact inFiles.insertEffect_extend owns
  | cons number rest ih =>
      obtain ⟨here, others⟩ := List.forall_mem_cons.mp inside
      refine inFiles.insertEffect_inspect here owns ?_ fun middle strays fits reads owns => ih fits ?_ owns
      · rw [LockTable.holds, decide_eq_true_iff, inFiles.locks.has_shared_iff]
      · exact fun other listed => (reads.pageCount table).symm ▸ others other listed

theorem WithinFiles.insertEffect_place (within : stage.Within table pool) (awaits : stage.Awaits tx table pool)
    (owns : Owns tx table held strays (stage.Pending table) pool) :
    InsertEffect tx table row id held (stage.ahead (pool.pageCount table)) (pool.overrun tx table stage ++ strays)
      pool (pool.place tx table row stage) := by
  have proceeds : ∀ {rest : List Nat}, (∀ number ∈ rest, number < pool.pageCount table) →
      ∀ middle strays, middle.WithinFiles → Reads pool middle →
        Owns tx table held strays (fun _ _ => False) middle →
        InsertEffect tx table row id held rest strays middle (Pool.inspectEach tx table row rest middle) :=
    fun inside _ _ fits reads owns => fits.insertEffect_inspectEach
      (fun number listed => (reads.pageCount table).symm ▸ inside number listed) owns
  cases stage with
  | start =>
      simp only [Pool.place, InsertStage.ahead, overrun, List.nil_append]
      split
      · exact .failed inFiles (.refl pool) (.inl rfl) fun _ _ held => owns.has _ _ (.inl held)
      · next file known =>
        rw [pageCount_eq (table?_eq_ok.mp known)]
        split
        · refine inFiles.insertEffect_inspectEach (fun number listed => ?_) owns
          rw [pageCount_eq (table?_eq_ok.mp known)]
          exact List.mem_range.mp listed
        · exact .failed inFiles (.refl pool) (.inl rfl) fun _ _ held => owns.has _ _ (.inl held)
  | inspecting number heldBefore rest =>
      obtain ⟨here, others⟩ := List.forall_mem_cons.mp within
      obtain ⟨unheld, absent⟩ := awaits
      exact inFiles.insertEffect_inspect here owns (by simp [unheld, absent]) (proceeds others)
  | claiming number rest =>
      obtain ⟨here, others⟩ := List.forall_mem_cons.mp within
      exact inFiles.insertEffect_claim here owns (proceeds others)
  | appending number => exact inFiles.insertEffect_extendAt within owns

/-- What an insert can do from any stage that it can go on from. -/
theorem WithinFiles.insertEffect_insert (within : stage.Within table pool) (awaits : stage.Awaits tx table pool)
    (owns : Owns tx table held strays (stage.Pending table) pool) :
    InsertEffect tx table row (Page.markDirty · (some tx)) held (stage.ahead (pool.pageCount table))
      (pool.overrun tx table stage ++ strays) pool (pool.insert tx table row stage) := by
  have effect := @WithinFiles.insertEffect_place pool tx table row strays stage held inFiles within awaits owns
  unfold Pool.insert
  generalize pool.place tx table row stage = result at effect ⊢
  cases effect with
  | put passed fits reads full order owns first puts =>
      have named := fits.named _ _ puts.found
      exact .put passed fits reads full order owns first (puts.markDirty named)
  | failed fits reads grown keeps => exact .failed fits reads grown keeps
  | parked fits reads owns awaits => exact .parked fits reads owns awaits

end Insert

/-! ## What others have locked -/

variable {other : TxId} {id : PageId}

theorem locks_markDirty (pool : Pool) (tx : TxId) (id : PageId) : (pool.markDirty tx id).locks = pool.locks := by
  unfold Pool.markDirty
  split <;> rfl

theorem Step.has_iff (step : Step other table pool after) (sound : pool.locks.Sound) (differs : tx ≠ other) :
    after.locks.Has tx id mode ↔ pool.locks.Has tx id mode := by
  cases step with
  | request number wish => exact sound.has_request_of_ne differs
  | release number =>
      refine LockTable.has_release_iff.trans (and_iff_left ?_)
      exact fun both => differs both.2
  | load number => rw [load_locks]
  | append appended => rw [(lengthens_append appended).2]
  | store | free => rfl
  | mark => rw [locks_markDirty]

theorem Steps.has_iff (steps : Steps other table pool after) (inFiles : pool.WithinFiles) (differs : tx ≠ other) :
    after.locks.Has tx id mode ↔ pool.locks.Has tx id mode := by
  induction steps with
  | refl => rfl
  | tail before step ih => exact (step.has_iff (Steps.inFiles before inFiles).locks differs).trans ih

end Pool

end RowStore
