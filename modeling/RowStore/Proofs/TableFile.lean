import RowStore.Proofs.Page.Codec
import RowStore.TableFile

namespace RowStore

/-! The bytes that a file holds for a page, and what writing and appending do to them. -/

namespace Disk

variable {disk changed : Disk} {handle other : Handle} {offset place count : Nat} {old new : List UInt8}

theorem length_overwrite_of_le (bound : offset ≤ old.length) :
    (overwrite old offset new).length = max old.length (offset + new.length) := by
  simp only [overwrite, List.length_append, List.length_take, List.length_replicate, List.length_drop]
  omega

theorem length_overwrite (fits : offset + new.length ≤ old.length) :
    (overwrite old offset new).length = old.length := by
  rw [length_overwrite_of_le (by omega)]
  omega

/-- What is written over the end of the old bytes is the end of the new ones. -/
theorem overwrite_of_le (bound : offset ≤ old.length) (short : old.length ≤ offset + new.length) :
    overwrite old offset new = old.take offset ++ new := by
  rw [overwrite, Nat.sub_eq_zero_of_le bound, List.replicate_zero, List.append_nil,
    List.drop_eq_nil_of_le short, List.append_nil]

theorem getElem?_overwrite (fits : offset + new.length ≤ old.length) (index : Nat) :
    (overwrite old offset new)[index]? =
      if offset ≤ index ∧ index < offset + new.length then new[index - offset]? else old[index]? := by
  have gap : offset - old.length = 0 := by omega
  have front : (old.take offset).length = offset := by
    rw [List.length_take]
    omega
  simp only [overwrite, gap, List.replicate_zero, List.append_nil, List.append_assoc]
  by_cases before : index < offset
  · rw [List.getElem?_append_left (by omega), List.getElem?_take_of_lt before, if_neg (by omega)]
  · rw [List.getElem?_append_right (by omega), front]
    by_cases inside : index < offset + new.length
    · rw [List.getElem?_append_left (by omega), if_pos (by omega)]
    · rw [List.getElem?_append_right (by omega), List.getElem?_drop, if_neg (by omega)]
      congr 1
      omega

/-- What stands behind the bytes that are written stays. -/
theorem drop_overwrite (fits : offset + new.length ≤ old.length) (behind : offset + new.length ≤ count) :
    (overwrite old offset new).drop count = old.drop count := by
  apply List.ext_getElem?
  intro index
  rw [List.getElem?_drop, List.getElem?_drop, getElem?_overwrite fits, if_neg (by omega)]

/-- What is written over bytes is found there. -/
theorem take_drop_overwrite (fits : offset + new.length ≤ old.length) :
    ((overwrite old offset new).drop offset).take new.length = new := by
  apply List.ext_getElem?
  intro index
  rw [List.getElem?_take, List.getElem?_drop, getElem?_overwrite fits]
  by_cases inside : index < new.length
  · rw [if_pos inside, if_pos (by omega), Nat.add_sub_cancel_left]
  · rw [if_neg inside, List.getElem?_eq_none (Nat.not_lt.mp inside)]

theorem of_write (written : disk.write handle offset new = .ok changed) :
    changed.nodes = disk.nodes ∧ changed.nextFile = disk.nextFile ∧
      changed.failWrites = disk.failWrites ∧
      ∀ other, changed.bytes other =
        if other = handle then overwrite (disk.bytes handle) offset new else disk.bytes other := by
  unfold write at written
  split at written
  · contradiction
  · next number =>
    split at written
    · contradiction
    · cases written
      refine ⟨rfl, rfl, rfl, fun other => ?_⟩
      cases other with
      | fullDevice => simp [bytes]
      | file place =>
          simp only [bytes, FinMap.get?_insert, Handle.file.injEq]
          split <;> rfl

theorem write_error {error : StoreError} (failed : disk.write handle offset new = .error error) :
    error = .storage := by
  unfold write at failed
  split at failed
  · exact (Except.error.inj failed).symm
  · split at failed
    · exact (Except.error.inj failed).symm
    · contradiction

/-- What is written inside a file is read there. -/
theorem read_of_write (written : disk.write handle offset new = .ok changed)
    (fits : offset + new.length ≤ (disk.bytes handle).length) :
    changed.read handle offset new.length = new := by
  have after := (of_write written).2.2.2 handle
  rw [if_pos rfl] at after
  rw [read, after, take_drop_overwrite fits]

/-- Bytes beside those that are written inside a file stay. -/
theorem read_of_write_apart (written : disk.write handle offset new = .ok changed)
    (fits : offset + new.length ≤ (disk.bytes handle).length)
    (apart : place + count ≤ offset ∨ offset + new.length ≤ place) :
    changed.read handle place count = disk.read handle place count := by
  have after := (of_write written).2.2.2 handle
  rw [if_pos rfl] at after
  apply List.ext_getElem?
  intro index
  rw [read, read, after, List.getElem?_take, List.getElem?_take, List.getElem?_drop, List.getElem?_drop,
    getElem?_overwrite fits]
  by_cases inside : index < count
  · rw [if_pos inside, if_pos inside, if_neg (by omega)]
  · rw [if_neg inside, if_neg inside]

/-- A file does not become shorter by a write. -/
theorem length_of_write (written : disk.write handle offset new = .ok changed) (other : Handle) :
    (disk.bytes other).length ≤ (changed.bytes other).length ∧
      (other = handle → offset + new.length ≤ (changed.bytes other).length) := by
  rw [(of_write written).2.2.2 other]
  split
  · next same =>
    subst same
    simp only [overwrite, List.length_append, List.length_take, List.length_replicate, List.length_drop]
    omega
  · next differs => exact ⟨Nat.le_refl _, fun same => absurd same differs⟩

theorem write_of_not_refuses (real : handle ≠ .fullDevice) (accepts : disk.refuses = false) (offset : Nat)
    (new : List UInt8) : ∃ changed, disk.write handle offset new = .ok changed ∧
      changed.writesLeft = disk.writesLeft - 1 := by
  cases handle with
  | fullDevice => contradiction
  | file number => simp [write, accepts]

theorem refuses_of_accepts (accepts : disk.failWrites = false) : disk.refuses = false := by
  rw [refuses, accepts, Bool.false_and]

theorem write_of_refuses (refuses : disk.refuses = true) :
    disk.write handle offset new = .error .storage := by
  cases handle <;> simp [write, refuses]

/-- What stands before the bytes that are written stays. -/
theorem read_of_write_before (written : disk.write handle offset new = .ok changed)
    (bound : offset ≤ (disk.bytes handle).length) (before : place + count ≤ offset) :
    changed.read handle place count = disk.read handle place count := by
  have after := (of_write written).2.2.2 handle
  rw [if_pos rfl] at after
  apply List.ext_getElem?
  intro index
  simp only [read, after, List.getElem?_take, List.getElem?_drop]
  split
  · next inside =>
    rw [overwrite, List.append_assoc, List.append_assoc,
      List.getElem?_append_left (by rw [List.length_take]; omega), List.getElem?_take_of_lt (by omega)]
  · rfl

end Disk

/-- Pages of one table are told apart by their numbers. -/
theorem PageId.number_ne {id other : PageId} (differs : id ≠ other) (same : id.table = other.table) :
    id.number ≠ other.number := by
  obtain ⟨table, number⟩ := id
  obtain ⟨otherTable, otherNumber⟩ := other
  rintro rfl
  exact differs (congrArg (PageId.mk · number) same)

/-- Which file to open as a table, and how its pages are laid out. -/
structure Opening where
  path : Path
  schema : Schema
  pageSize : Nat

namespace TableFile

variable {file grown : TableFile} {disk changed : Disk} {page : Page} {number : Nat}

def stored (file : TableFile) (disk : Disk) (number : Nat) : List UInt8 :=
  fitBytes file.pageSize (disk.read file.handle (number * file.pageSize) file.pageSize)

def Whole (file : TableFile) (disk : Disk) : Prop :=
  (disk.bytes file.handle).length = file.pageCount * file.pageSize

@[simp] theorem length_stored : (file.stored disk number).length = file.pageSize :=
  length_fitBytes _ _

theorem stored_congr {other : TableFile} (size : other.pageSize = file.pageSize)
    (same : changed.bytes other.handle = disk.bytes file.handle) :
    other.stored changed number = file.stored disk number := by
  simp [stored, Disk.read, size, same]

theorem of_readPage {id : PageId} (read : file.readPage disk id = .ok page) :
    id.table = file.id ∧ id.number ≤ file.pageCount ∧
      Page.decode id file.schema file.pageSize (file.stored disk id.number) = .ok page := by
  unfold readPage at read
  split at read
  · next own =>
    split at read
    · next bound => exact ⟨own, bound, (Page.decode_fitBytes _ _ _ _).trans read⟩
    · contradiction
  · contradiction

theorem readPage_of_le {id : PageId} (own : id.table = file.id) (bound : id.number ≤ file.pageCount) :
    file.readPage disk id =
      Page.decode id file.schema file.pageSize (file.stored disk id.number) := by
  rw [readPage, if_pos own, if_pos bound]
  exact (Page.decode_fitBytes _ _ _ _).symm

/-- A byte that was never written reads as zero. -/
theorem getElem?_stored {index : Nat} (inside : index < file.pageSize) :
    (file.stored disk number)[index]? =
      some (((disk.bytes file.handle)[number * file.pageSize + index]?).getD 0) := by
  simp only [stored, fitBytes, Disk.read]
  generalize shape : (disk.bytes file.handle).drop (number * file.pageSize) = rest
  have same : (disk.bytes file.handle)[number * file.pageSize + index]? = rest[index]? := by
    rw [← shape, List.getElem?_drop]
  rw [same, List.take_take, Nat.min_self, List.length_take]
  by_cases held : index < rest.length
  · rw [List.getElem?_append_left (by rw [List.length_take]; omega), List.getElem?_take_of_lt inside,
      List.getElem?_eq_getElem held, Option.getD_some]
  · have missing : rest[index]? = none := List.getElem?_eq_none (Nat.not_lt.mp held)
    rw [List.getElem?_append_right (by rw [List.length_take]; omega), List.getElem?_replicate,
      List.length_take, if_pos (by omega), missing, Option.getD_none]

/-- The bytes of a page are those that the file has there. -/
theorem stored_eq {bytes : List UInt8} (size : bytes.length = file.pageSize)
    (same : ∀ index, index < file.pageSize → bytes[index]? =
      some (((disk.bytes file.handle)[number * file.pageSize + index]?).getD 0)) :
    file.stored disk number = bytes := by
  apply List.ext_getElem?
  intro index
  by_cases low : index < file.pageSize
  · rw [getElem?_stored low, same index low]
  · rw [List.getElem?_eq_none (by simpa using low), List.getElem?_eq_none (by simpa [size] using low)]

theorem getD_append_zeros (bytes : List UInt8) (count index : Nat) :
    ((bytes ++ List.replicate count 0)[index]?).getD 0 = (bytes[index]?).getD 0 := by
  by_cases held : index < bytes.length
  · rw [List.getElem?_append_left held]
  · have missing : bytes[index]? = none := List.getElem?_eq_none (Nat.not_lt.mp held)
    rw [List.getElem?_append_right (by omega), List.getElem?_replicate, missing]
    split <;> rfl

theorem stored_past_end (whole : file.Whole disk) (past : file.pageCount ≤ number) :
    file.stored disk number = List.replicate file.pageSize 0 := by
  refine stored_eq (List.length_replicate ..) fun index low => ?_
  have bound : file.pageCount * file.pageSize ≤ number * file.pageSize := Nat.mul_le_mul_right _ past
  have missing : (disk.bytes file.handle)[number * file.pageSize + index]? = none := by
    apply List.getElem?_eq_none
    rw [whole]
    omega
  rw [missing, List.getElem?_replicate, if_pos low, Option.getD_none]

theorem page_apart {first second size offset : Nat} (differs : first ≠ second) (inside : offset < size) :
    ¬ (second * size ≤ first * size + offset ∧ first * size + offset < second * size + size) := by
  rcases Nat.lt_or_gt_of_ne differs with before | after
  · have bound : (first + 1) * size ≤ second * size := Nat.mul_le_mul_right size before
    rw [Nat.succ_mul] at bound
    omega
  · have bound : (second + 1) * size ≤ first * size := Nat.mul_le_mul_right size after
    rw [Nat.succ_mul] at bound
    omega

theorem page_end_le (inside : number < file.pageCount) :
    number * file.pageSize + file.pageSize ≤ file.pageCount * file.pageSize := by
  rw [← Nat.succ_mul]
  exact Nat.mul_le_mul_right _ inside

/-- A file that has a page is not the full device. -/
theorem handle_ne_fullDevice (sized : 0 < file.pageSize) (inside : number < file.pageCount)
    (long : file.pageCount * file.pageSize ≤ (disk.bytes file.handle).length) :
    file.handle ≠ .fullDevice := by
  intro full
  have some := Nat.mul_pos (Nat.zero_lt_of_lt inside) sized
  rw [full] at long
  exact Nat.not_lt_zero _ (Nat.lt_of_lt_of_le some long)

/-- A page is replaced by the bytes that are written, and the others stay. -/
theorem stored_of_write {new : List UInt8}
    (room : number * file.pageSize + file.pageSize ≤ (disk.bytes file.handle).length)
    (size : new.length = file.pageSize)
    (written : disk.write file.handle (number * file.pageSize) new = .ok changed) :
    (changed.bytes file.handle).length = (disk.bytes file.handle).length ∧ ∀ other,
      file.stored changed other = if other = number then new else file.stored disk other := by
  have after := (Disk.of_write written).2.2.2 file.handle
  rw [if_pos rfl] at after
  have fits : number * file.pageSize + new.length ≤ (disk.bytes file.handle).length := by rwa [size]
  refine ⟨by rw [after, Disk.length_overwrite fits], fun other => ?_⟩
  by_cases same : other = number
  · subst same
    rw [if_pos rfl]
    refine stored_eq size fun index low => ?_
    rw [after, Disk.getElem?_overwrite fits, size, if_pos (by omega), Nat.add_sub_cancel_left,
      List.getElem?_eq_getElem (by omega), Option.getD_some]
  · rw [if_neg same]
    refine stored_eq length_stored fun index low => ?_
    rw [getElem?_stored low, after, Disk.getElem?_overwrite fits, size, if_neg (page_apart same low)]

theorem of_write {new : List UInt8} (whole : file.Whole disk) (inside : number < file.pageCount)
    (size : new.length = file.pageSize)
    (written : disk.write file.handle (number * file.pageSize) new = .ok changed) :
    file.Whole changed ∧ ∀ other, file.stored changed other =
      if other = number then new else file.stored disk other := by
  have room : number * file.pageSize + file.pageSize ≤ (disk.bytes file.handle).length := by
    rw [whole]
    exact page_end_le inside
  obtain ⟨length, stored⟩ := stored_of_write room size written
  exact ⟨length.trans whole, stored⟩

/-- A page of zeros stands where fewer bytes than a page were. -/
theorem bytes_of_append (long : file.pageCount * file.pageSize ≤ (disk.bytes file.handle).length)
    (short : (disk.bytes file.handle).length ≤ (file.pageCount + 1) * file.pageSize)
    (written : disk.write file.handle (file.pageCount * file.pageSize)
      (List.replicate file.pageSize 0) = .ok changed) :
    changed.bytes file.handle =
      (disk.bytes file.handle).take (file.pageCount * file.pageSize) ++ List.replicate file.pageSize 0 := by
  have after := (Disk.of_write written).2.2.2 file.handle
  rw [Nat.succ_mul] at short
  rw [after, if_pos rfl, Disk.overwrite_of_le long (by rwa [List.length_replicate])]

/-- The file ends with the page of zeros, and its pages are as before. -/
theorem stored_of_append (long : file.pageCount * file.pageSize ≤ (disk.bytes file.handle).length)
    (short : (disk.bytes file.handle).length ≤ (file.pageCount + 1) * file.pageSize)
    (written : disk.write file.handle (file.pageCount * file.pageSize)
      (List.replicate file.pageSize 0) = .ok changed) :
    (changed.bytes file.handle).length = (file.pageCount + 1) * file.pageSize ∧ ∀ other,
      file.stored changed other =
        if other < file.pageCount then file.stored disk other else List.replicate file.pageSize 0 := by
  have after := bytes_of_append long short written
  refine ⟨?_, fun other => ?_⟩
  · rw [after, List.length_append, List.length_take, List.length_replicate, Nat.min_eq_left long, Nat.succ_mul]
  · split
    · next inside =>
      refine stored_eq length_stored fun index low => ?_
      have bound := page_end_le inside
      rw [getElem?_stored low, after, getD_append_zeros, List.getElem?_take_of_lt (by omega)]
    · next past =>
      refine stored_eq (List.length_replicate ..) fun index low => ?_
      have bound : file.pageCount * file.pageSize ≤ other * file.pageSize :=
        Nat.mul_le_mul_right _ (Nat.le_of_not_lt past)
      have missing : ((disk.bytes file.handle).take (file.pageCount * file.pageSize))[
          other * file.pageSize + index]? = none :=
        List.getElem?_eq_none (by rw [List.length_take]; omega)
      rw [after, getD_append_zeros, missing, List.getElem?_replicate, if_pos low, Option.getD_none]

/-- Zeros at the end of a file are what was read there before. -/
theorem of_append (whole : file.Whole disk)
    (written : disk.write file.handle (file.pageCount * file.pageSize)
      (List.replicate file.pageSize 0) = .ok changed) :
    (changed.bytes file.handle).length = (file.pageCount + 1) * file.pageSize ∧
      ∀ other, file.stored changed other = file.stored disk other := by
  have short : (disk.bytes file.handle).length ≤ (file.pageCount + 1) * file.pageSize := by
    rw [whole]
    exact Nat.mul_le_mul_right _ (Nat.le_succ _)
  obtain ⟨length, stored⟩ := stored_of_append (Nat.le_of_eq whole.symm) short written
  refine ⟨length, fun other => ?_⟩
  rw [stored]
  split
  · rfl
  · next past => exact (stored_past_end whole (Nat.le_of_not_lt past)).symm

/-! ## Opening -/

/-- The file with as many pages as its bytes make up. -/
def recount (file : TableFile) (disk : Disk) : TableFile :=
  { file with pageCount := (disk.bytes file.handle).length / file.pageSize }

theorem of_openAt {opening : Opening}
    (opened : openAt disk opening.path opening.schema opening.pageSize = .ok (changed, file)) :
    disk.openOrCreate opening.path = .ok (changed, file.handle, file.place) ∧
      file.id = idOfPlace file.place ∧ 0 < slotCount file.pageSize file.schema.rowWidth ∧
      file.recount changed = file := by
  unfold openAt at opened
  split at opened
  · contradiction
  · next roomy =>
    split at opened
    · contradiction
    · next found =>
      cases opened
      exact ⟨found, rfl, Nat.pos_of_ne_zero roomy, rfl⟩

theorem pageSize_pos (roomy : 0 < slotCount file.pageSize file.schema.rowWidth) : 0 < file.pageSize := by
  refine Nat.pos_of_ne_zero fun none => ?_
  simp [none, slotCount] at roomy

end TableFile

end RowStore
