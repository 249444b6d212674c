import RowStore.Proofs.Page.Acceptance
import RowStore.Proofs.Page.Vacant
import RowStore.Proofs.TableFile

namespace RowStore

/-! A table file as an array of pages.

Whatever a file holds when it is opened, it has as many pages as its bytes make up. They
are read, replaced and added to as the elements of an array are: a page is read up to one
past the end, it is replaced only before the end, and one is added only at the end. Fewer
bytes than a page may follow the last one, until a page is added there.
-/

/-- A table file that is open, and the disk that it is on. -/
structure OpenFile where
  disk : Disk
  file : TableFile

/-- What is asked of a table file. -/
inductive FileAction where
  | read (id : PageId)
  | write (page : Page)
  | append (number : Nat)

namespace Page

variable {id : PageId} {schema other : Schema} {types : List ColumnType} {size : Nat} {data : List UInt8}
variable {page : Page}

/-- A page with these columns and of this size: read from some bytes, and changed since. -/
def MadeFor (types : List ColumnType) (size : Nat) (page : Page) : Prop :=
  ∃ id schema data start history, decode id schema size data = .ok start ∧ schema.types = types ∧
    Run Builds start history page

theorem MadeFor.wellFormed (made : page.MadeFor types size) :
    page.WellFormed ∧ page.schema.types = types ∧ page.size = size := by
  obtain ⟨_, schema, _, start, _, read, rfl, run⟩ := made
  obtain ⟨_, rfl, rfl, _, _, wellFormed⟩ := of_decode read
  obtain ⟨alike, wellFormed⟩ := run.wellFormed (fun _ _ builds => builds) wellFormed
  exact ⟨wellFormed, congrArg Schema.types alike.schema, alike.size⟩

theorem MadeFor.length_image (made : page.MadeFor types size) : page.image.length = size := by
  rw [image, length_fitBytes, made.wellFormed.2.2]

/-- The names of columns do not matter to what is read. -/
theorem decode_renamed (same : other.types = schema.types) :
    decode id other size data = (decode id schema size data).map ({ · with schema := other }) := by
  simp only [decode, Schema.rowWidth, same]
  split <;> rfl

theorem MadeFor.decode_image (made : page.MadeFor schema.types size) :
    ∃ again, decode page.id schema size page.image = .ok again ∧ again.image = page.image ∧
      again.rows = page.rows := by
  obtain ⟨wellFormed, types, rfl⟩ := made.wellFormed
  refine ⟨{ page with schema, dirty := none, before := page.image }, ?_, ?_, rfl⟩
  · rw [decode_renamed types.symm, wellFormed.decode_image]
    rfl
  · simp only [image, headerBits, Schema.rowWidth, types]

end Page

/-- What becomes of pages that are kept in a list. -/
def FileAction.applied (file : TableFile) (pages : List (List UInt8)) : FileAction → List (List UInt8)
  | .read _ => pages
  | .write page => if page.id.table = file.id then pages.set page.id.number page.image else pages
  | .append number =>
      if number = pages.length then pages ++ [List.replicate file.pageSize 0] else pages

namespace TableFile

variable {file : TableFile} {disk changed : Disk} {id : PageId} {page : Page} {number : Nat}

theorem readPage_foreign (foreign : id.table ≠ file.id) :
    file.readPage disk id = .error (.foreignPage id) := by
  rw [readPage, if_neg foreign]

theorem readPage_outside (own : id.table = file.id) (past : file.pageCount < id.number) :
    file.readPage disk id = .error (.pageOutOfBounds id file.pageCount) := by
  rw [readPage, if_pos own, if_neg (Nat.not_le.mpr past)]

/-- Only a text that is not UTF-8 stands in the way of a page up to the one past the end. -/
theorem readPage_inside (own : id.table = file.id) (bound : id.number ≤ file.pageCount) :
    (∃ page, file.readPage disk id = .ok page) ∨
      ∃ fault, file.readPage disk id = .error (.typeMismatch (.encoding fault)) := by
  rw [readPage_of_le own bound]
  exact (Page.acceptance_of_bytes id file.schema file.pageSize _).total

theorem writePage_foreign (foreign : page.id.table ≠ file.id) :
    file.writePage disk page = .error (.foreignPage page.id) := by
  rw [writePage, if_neg foreign]

theorem writePage_past (own : page.id.table = file.id) (past : file.pageCount ≤ page.id.number) :
    file.writePage disk page = .ok disk := by
  rw [writePage, if_pos own, if_neg (Nat.not_lt.mpr past)]

theorem writePage_inside (own : page.id.table = file.id) (inside : page.id.number < file.pageCount) :
    file.writePage disk page = disk.write file.handle (page.id.number * file.pageSize) page.image := by
  rw [writePage, if_pos own, if_pos inside]

theorem appendPage_elsewhere (elsewhere : number ≠ file.pageCount) :
    file.appendPage disk number = .ok (disk, file) := by
  rw [appendPage, if_neg elsewhere]

theorem appendPage_last :
    file.appendPage disk file.pageCount =
      (disk.write file.handle (file.pageCount * file.pageSize) (List.replicate file.pageSize 0)).map fun changed =>
        (changed, { file with pageCount := file.pageCount + 1 }) := by
  rw [appendPage, if_pos rfl]
  split <;> next result => rw [result]; rfl

theorem readPage_congr (same : id.table = file.id → file.stored changed id.number = file.stored disk id.number) :
    file.readPage changed id = file.readPage disk id := by
  by_cases own : id.table = file.id
  · by_cases bound : id.number ≤ file.pageCount
    · rw [readPage_of_le own bound, readPage_of_le own bound, same own]
    · simp only [readPage, if_pos own, if_neg bound]
  · simp only [readPage, if_neg own]

end TableFile

namespace OpenFile

variable {start state after : OpenFile} {action : FileAction} {history : List FileAction}
variable {page : Page} {id : PageId} {number : Nat} {disk : Disk}

def bytes (state : OpenFile) : List UInt8 := state.disk.bytes state.file.handle

/-- The bytes of each page that the file has. -/
def pages (state : OpenFile) : List (List UInt8) :=
  (List.range state.file.pageCount).map (state.file.stored state.disk)

def act (state : OpenFile) : FileAction → OpenFile × Except StoreError Unit
  | .read id => (state, (state.file.readPage state.disk id).map fun _ => ())
  | .write page =>
      match state.file.writePage state.disk page with
      | .ok disk => ({ state with disk }, .ok ())
      | .error error => (state, .error error)
  | .append number =>
      match state.file.appendPage state.disk number with
      | .ok (disk, file) => (⟨disk, file⟩, .ok ())
      | .error error => (state, .error error)

/-- Pages that are written are made for the table, and storage does what is asked. -/
structure Allows (state : OpenFile) (action : FileAction) : Prop where
  fits : ∀ page, action = .write page → page.MadeFor state.file.schema.types state.file.pageSize
  done : (state.act action).2 ≠ .error .storage

/-- What is asked of an open file one after the other, with what becomes of it. The newest action
comes first. -/
inductive Run (start : OpenFile) : List FileAction → OpenFile → Prop where
  | start : Run start [] start
  | step {history : List FileAction} {state : OpenFile} (before : Run start history state)
      (action : FileAction) (allowed : state.Allows action) :
      Run start (action :: history) (state.act action).1

/-! ## One action -/

/-- The pages of the file fill all its bytes, or all but fewer than a page. -/
structure Counted (state : OpenFile) : Prop where
  sized : 0 < state.file.pageSize
  long : state.file.pageCount * state.file.pageSize ≤ state.bytes.length
  short : state.bytes.length < (state.file.pageCount + 1) * state.file.pageSize

theorem Counted.count_eq (counted : state.Counted) :
    state.file.pageCount = state.bytes.length / state.file.pageSize :=
  (Nat.div_eq_of_lt_le counted.long counted.short).symm

theorem Counted.of_openAt {before : Disk} {path : Path} {schema : Schema} {size : Nat}
    (opened : TableFile.openAt before path schema size = .ok (state.disk, state.file)) : state.Counted := by
  obtain ⟨_, _, roomy, counted⟩ := @TableFile.of_openAt _ _ _ ⟨path, schema, size⟩ opened
  have sized := TableFile.pageSize_pos roomy
  have count : state.bytes.length / state.file.pageSize = state.file.pageCount :=
    congrArg TableFile.pageCount counted
  refine ⟨sized, ?_, ?_⟩
  · rw [← count]
    exact Nat.div_mul_le_self _ _
  · rw [← count]
    exact Nat.lt_mul_of_div_lt (Nat.lt_succ_self _) sized

@[simp] theorem length_pages : state.pages.length = state.file.pageCount := by
  rw [pages, List.length_map, List.length_range]

theorem getElem?_pages (state : OpenFile) (index : Nat) :
    state.pages[index]? = if index < state.file.pageCount then some (state.file.stored state.disk index) else none := by
  by_cases inside : index < state.file.pageCount <;> simp [pages, inside]

/-- What an action can change: the bytes of one page before the end, or a page at the end. -/
inductive Effect (state : OpenFile) : FileAction → OpenFile → Prop where
  | kept {action : FileAction} (same : action.applied state.file state.pages = state.pages) :
      Effect state action state
  | replaced {page : Page} {disk : Disk} (own : page.id.table = state.file.id)
      (inside : page.id.number < state.file.pageCount) (size : page.image.length = state.file.pageSize)
      (written : state.disk.write state.file.handle (page.id.number * state.file.pageSize) page.image =
        .ok disk) : Effect state (.write page) { state with disk }
  | added {disk : Disk}
      (written : state.disk.write state.file.handle (state.file.pageCount * state.file.pageSize)
        (List.replicate state.file.pageSize 0) = .ok disk) :
      Effect state (.append state.file.pageCount)
        ⟨disk, { state.file with pageCount := state.file.pageCount + 1 }⟩

theorem Effect.counted (effect : Effect state action after) (counted : state.Counted) : after.Counted := by
  cases effect with
  | kept => exact counted
  | @replaced page disk own inside size written =>
      have room := Nat.le_trans (TableFile.page_end_le inside) counted.long
      have length := (TableFile.stored_of_write room size written).1
      exact ⟨counted.sized, Nat.le_trans counted.long (Nat.le_of_eq length.symm),
        Nat.lt_of_le_of_lt (Nat.le_of_eq length) counted.short⟩
  | @added disk written =>
      have length := (TableFile.stored_of_append counted.long (Nat.le_of_lt counted.short) written).1
      refine ⟨counted.sized, Nat.le_of_eq length.symm, Nat.lt_of_le_of_lt (Nat.le_of_eq length) ?_⟩
      exact Nat.mul_lt_mul_of_pos_right (Nat.lt_succ_self _) counted.sized

theorem Effect.file (effect : Effect state action after) :
    state.file.pageCount ≤ after.file.pageCount ∧
      after.file = { state.file with pageCount := after.file.pageCount } := by
  cases effect with
  | kept | replaced => exact ⟨Nat.le_refl _, rfl⟩
  | added => exact ⟨Nat.le_succ _, rfl⟩

theorem Effect.pages (effect : Effect state action after) (counted : state.Counted) :
    after.pages = action.applied state.file state.pages := by
  cases effect with
  | kept same => exact same.symm
  | @replaced page disk own inside size written =>
      have room := Nat.le_trans (TableFile.page_end_le inside) counted.long
      have stored := (TableFile.stored_of_write room size written).2
      rw [FileAction.applied, if_pos own]
      apply List.ext_getElem?
      intro index
      rw [getElem?_pages, List.getElem?_set, getElem?_pages, stored]
      by_cases here : page.id.number = index
      · subst here
        simp [inside]
      · rw [if_neg here, if_neg (Ne.symm here)]
  | @added disk written =>
      have stored := (TableFile.stored_of_append counted.long (Nat.le_of_lt counted.short) written).2
      -- The bytes after the last page were not part of a page, so no page is lost with them.
      have earlier : ∀ number ∈ List.range state.file.pageCount,
          state.file.stored disk number = state.file.stored state.disk number := fun number listed => by
        rw [stored, if_pos (List.mem_range.mp listed)]
      have last : state.file.stored disk state.file.pageCount = List.replicate state.file.pageSize 0 := by
        rw [stored, if_neg (Nat.lt_irrefl _)]
      rw [FileAction.applied, if_pos length_pages.symm, OpenFile.pages, OpenFile.pages, List.range_succ,
        List.map_append, List.map_singleton]
      exact congrArg₂ (· ++ ·) (List.map_congr_left earlier) (congrArg (fun bytes => [bytes]) last)

theorem Allows.effect (allows : state.Allows action) : Effect state action (state.act action).1 := by
  have done := allows.done
  cases action with
  | read id => exact .kept rfl
  | write page =>
      have size := (allows.fits page rfl).length_image
      simp only [act] at done ⊢
      by_cases own : page.id.table = state.file.id
      · by_cases inside : page.id.number < state.file.pageCount
        · rw [TableFile.writePage_inside own inside] at done ⊢
          cases written : state.disk.write state.file.handle (page.id.number * state.file.pageSize) page.image with
          | ok disk => exact .replaced own inside size written
          | error error =>
              cases Disk.write_error written
              simp [written] at done
        · -- To replace an element past the end of a list changes nothing either.
          rw [TableFile.writePage_past own (Nat.le_of_not_lt inside)]
          refine .kept ?_
          rw [FileAction.applied, if_pos own, List.set_eq_of_length_le (by simpa using inside)]
      · rw [TableFile.writePage_foreign own]
        exact .kept (if_neg own)
  | append number =>
      simp only [act] at done ⊢
      by_cases last : number = state.file.pageCount
      · subst last
        rw [TableFile.appendPage_last] at done ⊢
        cases written : state.disk.write state.file.handle (state.file.pageCount * state.file.pageSize)
          (List.replicate state.file.pageSize 0) with
        | ok disk => exact .added written
        | error error =>
            cases Disk.write_error written
            simp [written, Except.map] at done
      · rw [TableFile.appendPage_elsewhere last]
        exact .kept (if_neg (by simpa using last))

/-! ## Any number of actions -/

theorem Run.file (run : Run start history state) :
    start.file.pageCount ≤ state.file.pageCount ∧
      state.file = { start.file with pageCount := state.file.pageCount } := by
  induction run with
  | start => exact ⟨Nat.le_refl _, rfl⟩
  | step _ _ allowed ih =>
      obtain ⟨more, same⟩ := allowed.effect.file
      exact ⟨Nat.le_trans ih.1 more, same.trans (by rw [ih.2])⟩

theorem Run.counted (run : Run start history state) (counted : start.Counted) : state.Counted := by
  induction run with
  | start => exact counted
  | step _ _ allowed ih => exact allowed.effect.counted ih

/-- The pages are those of a list that everything was done to in turn. -/
theorem Run.pages (run : Run start history state) (counted : start.Counted) :
    state.pages = history.foldr (fun action pages => action.applied start.file pages) start.pages := by
  induction run with
  | start => rfl
  | @step history state before action allowed ih =>
      rw [List.foldr_cons, ← ih, allowed.effect.pages (before.counted counted), before.file.2]
      cases action <;> rfl

/-! ## What each action does -/

/-- What reading a page gives. -/
structure Reads (state : OpenFile) (id : PageId) : Prop where
  foreign : state.file.readPage state.disk id = .error (.foreignPage id) ↔ id.table ≠ state.file.id
  outside : id.table = state.file.id →
    (state.file.readPage state.disk id = .error (.pageOutOfBounds id state.file.pageCount) ↔
      state.file.pageCount < id.number)
  /-- Otherwise only a text that is not UTF-8 stands in the way. -/
  inside : id.table = state.file.id → id.number ≤ state.file.pageCount →
    (∃ page, state.file.readPage state.disk id = .ok page) ∨
      ∃ fault, state.file.readPage state.disk id = .error (.typeMismatch (.encoding fault))
  /-- A page before the end is read from its bytes. -/
  held : id.table = state.file.id → ∀ bytes, state.pages[id.number]? = some bytes →
    state.file.readPage state.disk id = Page.decode id state.file.schema state.file.pageSize bytes

/-- A disk on which a page of the file has been replaced, and nothing else. -/
structure Replaces (state : OpenFile) (page : Page) (disk : Disk) : Prop where
  bytes : ∀ index, (disk.bytes state.file.handle)[index]? =
    if page.id.number * state.file.pageSize ≤ index ∧ index < (page.id.number + 1) * state.file.pageSize then
      page.image[index - page.id.number * state.file.pageSize]?
    else state.bytes[index]?
  whole : page.image.length = state.file.pageSize
  length : (disk.bytes state.file.handle).length = state.bytes.length
  elsewhere : ∀ other, other ≠ state.file.handle → disk.bytes other = state.disk.bytes other
  again : ∃ again, state.file.readPage disk page.id = .ok again ∧ again.image = page.image ∧
    again.rows = page.rows
  others : ∀ id, id ≠ page.id → state.file.readPage disk id = state.file.readPage state.disk id

/-- What writing a page does, unless storage fails. -/
structure Writes (state : OpenFile) (page : Page) : Prop where
  foreign : page.id.table ≠ state.file.id →
    state.file.writePage state.disk page = .error (.foreignPage page.id)
  past : page.id.table = state.file.id → state.file.pageCount ≤ page.id.number →
    state.file.writePage state.disk page = .ok state.disk
  inside : page.id.table = state.file.id → page.id.number < state.file.pageCount →
    state.file.writePage state.disk page ≠ .error .storage →
    ∃ disk, state.file.writePage state.disk page = .ok disk ∧ Replaces state page disk

/-- A disk on which the file is one page of zeros longer. -/
structure Extends (state after : OpenFile) : Prop where
  file : after.file = { state.file with pageCount := state.file.pageCount + 1 }
  /-- Bytes that filled no page are gone, and the others stay. -/
  bytes : after.bytes = state.bytes.take (state.file.pageCount * state.file.pageSize) ++
    List.replicate state.file.pageSize 0
  length : after.bytes.length = (state.file.pageCount + 1) * state.file.pageSize
  elsewhere : ∀ other, other ≠ state.file.handle → after.disk.bytes other = state.disk.bytes other
  pages : after.pages = state.pages ++ [List.replicate state.file.pageSize 0]
  earlier : ∀ id, id.number < state.file.pageCount →
    after.file.readPage after.disk id = state.file.readPage state.disk id
  blank : ∃ page, after.file.readPage after.disk (state.file.pageId state.file.pageCount) = .ok page ∧
    page.slots = List.replicate (slotCount state.file.pageSize state.file.schema.rowWidth) none

/-- What appending at a page number does, unless storage fails. -/
structure Appends (state : OpenFile) (number : Nat) : Prop where
  elsewhere : number ≠ state.file.pageCount →
    state.file.appendPage state.disk number = .ok (state.disk, state.file)
  last : number = state.file.pageCount → state.file.appendPage state.disk number ≠ .error .storage →
    ∃ disk file, state.file.appendPage state.disk number = .ok (disk, file) ∧ Extends state ⟨disk, file⟩

theorem reads (state : OpenFile) (id : PageId) : state.Reads id := by
  by_cases own : id.table = state.file.id
  · by_cases bound : id.number ≤ state.file.pageCount
    · have total := @TableFile.readPage_inside state.file state.disk id own bound
      refine ⟨⟨fun foreign => ?_, fun foreign => absurd own foreign⟩,
        fun _ => ⟨fun outside => ?_, fun past => absurd bound (Nat.not_le.mpr past)⟩, fun _ _ => total,
        fun _ bytes held => ?_⟩
      · rcases total with ⟨page, same⟩ | ⟨fault, same⟩ <;> cases same.symm.trans foreign
      · rcases total with ⟨page, same⟩ | ⟨fault, same⟩ <;> cases same.symm.trans outside
      · rw [getElem?_pages] at held
        split at held
        · cases held
          exact TableFile.readPage_of_le own bound
        · contradiction
    · have past := Nat.lt_of_not_le bound
      have read := @TableFile.readPage_outside state.file state.disk id own past
      refine ⟨⟨fun foreign => ?_, fun foreign => absurd own foreign⟩, fun _ => ⟨fun _ => past, fun _ => read⟩,
        fun _ within => absurd within bound, fun _ bytes held => ?_⟩
      · cases read.symm.trans foreign
      · rw [getElem?_pages, if_neg (Nat.lt_asymm past)] at held
        contradiction
  · exact ⟨⟨fun _ => own, fun _ => TableFile.readPage_foreign own⟩, fun same => absurd same own,
      fun same => absurd same own, fun same => absurd same own⟩

theorem Counted.replaces (counted : state.Counted)
    (made : page.MadeFor state.file.schema.types state.file.pageSize) (own : page.id.table = state.file.id)
    (inside : page.id.number < state.file.pageCount)
    (written : state.disk.write state.file.handle (page.id.number * state.file.pageSize) page.image = .ok disk) :
    Replaces state page disk := by
  have size := made.length_image
  have room := Nat.le_trans (TableFile.page_end_le inside) counted.long
  have fits : page.id.number * state.file.pageSize + page.image.length ≤
      (state.disk.bytes state.file.handle).length := by rwa [size]
  have after := (Disk.of_write written).2.2.2
  obtain ⟨length, stored⟩ := TableFile.stored_of_write room size written
  refine ⟨fun index => ?_, size, length, fun other differs => ?_, ?_, fun id differs => ?_⟩
  · rw [after, if_pos rfl, Disk.getElem?_overwrite fits, size, Nat.succ_mul]
    rfl
  · rw [after, if_neg differs]
  · rw [TableFile.readPage_of_le own (Nat.le_of_lt inside), stored, if_pos rfl]
    exact made.decode_image
  · refine TableFile.readPage_congr fun here => ?_
    rw [stored, if_neg (PageId.number_ne differs (here.trans own.symm))]

theorem Counted.writes (counted : state.Counted)
    (made : page.MadeFor state.file.schema.types state.file.pageSize) : state.Writes page where
  foreign := TableFile.writePage_foreign
  past := TableFile.writePage_past
  inside := fun own inside done => by
    rw [TableFile.writePage_inside own inside] at done ⊢
    cases written : state.disk.write state.file.handle (page.id.number * state.file.pageSize) page.image with
    | ok disk => exact ⟨disk, rfl, counted.replaces made own inside written⟩
    | error error => exact absurd (by rw [written, Disk.write_error written]) done

theorem Counted.extends (counted : state.Counted)
    (written : state.disk.write state.file.handle (state.file.pageCount * state.file.pageSize)
      (List.replicate state.file.pageSize 0) = .ok disk) :
    Extends state ⟨disk, { state.file with pageCount := state.file.pageCount + 1 }⟩ := by
  have short := Nat.le_of_lt counted.short
  obtain ⟨length, stored⟩ := TableFile.stored_of_append counted.long short written
  refine ⟨rfl, TableFile.bytes_of_append counted.long short written, length, fun other differs => ?_, ?_,
    fun id inside => ?_, ?_⟩
  · rw [(Disk.of_write written).2.2.2, if_neg differs]
  · rw [(Effect.added written).pages counted, FileAction.applied, if_pos length_pages.symm]
  · by_cases own : id.table = state.file.id
    · have same : state.file.stored disk id.number = state.file.stored state.disk id.number := by
        rw [stored, if_pos inside]
      rw [TableFile.readPage_of_le own (Nat.le_of_lt inside), ← same]
      exact TableFile.readPage_of_le own (Nat.le_succ_of_le (Nat.le_of_lt inside))
    · rw [TableFile.readPage_foreign own]
      exact TableFile.readPage_foreign own
  · have last : state.file.stored disk state.file.pageCount = List.replicate state.file.pageSize 0 := by
      rw [stored, if_neg (Nat.lt_irrefl _)]
    obtain ⟨page, read, free⟩ := Page.decode_zeros (state.file.pageId state.file.pageCount) state.file.schema
      state.file.pageSize
    refine ⟨page, ?_, free⟩
    rw [TableFile.readPage_of_le rfl (Nat.le_succ _), ← read, ← last]
    rfl

theorem Counted.appends (counted : state.Counted) (number : Nat) : state.Appends number where
  elsewhere := TableFile.appendPage_elsewhere
  last := by
    rintro rfl done
    rw [TableFile.appendPage_last] at done ⊢
    cases written : state.disk.write state.file.handle (state.file.pageCount * state.file.pageSize)
      (List.replicate state.file.pageSize 0) with
    | ok disk => exact ⟨disk, _, rfl, counted.extends written⟩
    | error error =>
        cases Disk.write_error written
        exact absurd (by rw [written]; rfl) done

theorem done_of_accepts (accepts : state.disk.refuses = false) (real : state.file.handle ≠ .fullDevice)
    (action : FileAction) : (state.act action).2 ≠ .error .storage := by
  have takes := Disk.write_of_not_refuses real accepts
  cases action with
  | read id =>
      simp only [act]
      by_cases own : id.table = state.file.id
      · by_cases bound : id.number ≤ state.file.pageCount
        · obtain ⟨page, read⟩ | ⟨fault, read⟩ := @TableFile.readPage_inside state.file state.disk id own bound
          · simp [read, Except.map]
          · simp [read, Except.map]
        · simp [TableFile.readPage_outside own (Nat.lt_of_not_le bound), Except.map]
      · simp [TableFile.readPage_foreign own, Except.map]
  | write page =>
      simp only [act]
      by_cases own : page.id.table = state.file.id
      · by_cases inside : page.id.number < state.file.pageCount
        · obtain ⟨changed, written, _⟩ := takes (page.id.number * state.file.pageSize) page.image
          simp [TableFile.writePage_inside own inside, written]
        · simp [TableFile.writePage_past own (Nat.le_of_not_lt inside)]
      · simp [TableFile.writePage_foreign own]
  | append number =>
      simp only [act]
      by_cases last : number = state.file.pageCount
      · subst last
        obtain ⟨changed, written, _⟩ := takes (state.file.pageCount * state.file.pageSize)
          (List.replicate state.file.pageSize 0)
        simp [TableFile.appendPage_last, written, Except.map]
      · simp [TableFile.appendPage_elsewhere last]

/-- A table file as an array of pages, after what was asked of it. -/
structure PageArray (start : OpenFile) (history : List FileAction) (state : OpenFile) : Prop where
  count : state.file.pageCount = state.bytes.length / state.file.pageSize
  grows : ∀ later after, Run state later after → state.file.pageCount ≤ after.file.pageCount
  /-- It is the same file throughout. -/
  file : state.file = { start.file with pageCount := state.file.pageCount }
  pages : state.pages = history.foldr (fun action pages => action.applied start.file pages) start.pages
  reads : ∀ id, state.Reads id
  writes : ∀ page, page.MadeFor state.file.schema.types state.file.pageSize → state.Writes page
  appends : ∀ number, state.Appends number
  done : state.disk.refuses = false → state.file.handle ≠ .fullDevice →
    ∀ action, (state.act action).2 ≠ .error .storage

/-- Whatever a file held when it was opened, and whatever was asked of it since, it is an array of
pages. -/
theorem pageArray_of_run {before : Disk} {path : Path} {schema : Schema} {size : Nat}
    (opened : TableFile.openAt before path schema size = .ok (start.disk, start.file))
    (run : Run start history state) : PageArray start history state := by
  have counted := Counted.of_openAt opened
  have now := run.counted counted
  exact ⟨now.count_eq, fun _ _ later => later.file.1, run.file.2, run.pages counted, state.reads,
    fun _ made => now.writes made, now.appends, done_of_accepts⟩

/-! ## A file with a torn end -/

/-- Room for two integers on a page: one page, and three bytes after it. -/
def tornDisk : Disk := (Disk.empty.replaceFile ⟨['/', 't']⟩ (List.replicate 12 7)).1

def tornFile : OpenFile :=
  ⟨tornDisk, ⟨TableFile.idOfPlace ⟨["t"]⟩, ⟨["t"]⟩, .file 0, .ofTypes [.int], 9, 1⟩⟩

/-- The second page of the file, with one row. -/
def secondPage : Page :=
  ⟨tornFile.file.pageId 1, .ofTypes [.int], 9, [some [.int 5], none], List.replicate 6 false, none,
    List.replicate 9 0⟩

theorem madeFor_secondPage : secondPage.MadeFor [.int] 9 := by
  have run := (@Page.Run.start Page.Builds { secondPage with slots := [none, none] }).answered
    (.insert ⟨[.int 5], none⟩) ⟨.ofTypes [.int], [.int 5], rfl⟩ (show _ = .ok () from rfl)
  exact ⟨tornFile.file.pageId 1, .ofTypes [.int], [], _, _, rfl, rfl, run⟩

/-- A page is added, and then it is written. -/
theorem pageArray_of_torn :
    TableFile.openAt tornDisk ⟨['/', 't']⟩ (.ofTypes [.int]) 9 = .ok (tornFile.disk, tornFile.file) ∧
      ∃ state, Run tornFile [.write secondPage, .append 1] state ∧
        PageArray tornFile [.write secondPage, .append 1] state := by
  have opened : TableFile.openAt tornDisk ⟨['/', 't']⟩ (.ofTypes [.int]) 9 =
      .ok (tornFile.disk, tornFile.file) := rfl
  have real : Handle.file 0 ≠ .fullDevice := nofun
  have added := (@Run.start tornFile).step (.append 1) ⟨nofun, done_of_accepts rfl real _⟩
  have run := added.step (.write secondPage)
    ⟨fun _ same => FileAction.write.inj same ▸ madeFor_secondPage, done_of_accepts rfl real _⟩
  exact ⟨opened, _, run, pageArray_of_run opened run⟩

end OpenFile

end RowStore
