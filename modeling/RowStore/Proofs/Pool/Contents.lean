import RowStore.Proofs.Page.Vacant
import RowStore.Proofs.Pool.Change
import RowStore.Proofs.Pool.Complete

namespace RowStore

/-! What the files hold, and how a transaction changes it.

The changes of a transaction stay in memory until it commits. From then on the
files hold what they would hold had the changes been made to them one after the
other.
-/

/-- The slots of each page, as far as the page can be read. -/
abbrev Contents := PageId → Except StoreError (List (Option (List Value)))

namespace Contents

def setPage (contents : Contents) (page : PageId) (slots : List (Option (List Value))) : Contents :=
  fun id => if id = page then .ok slots else contents id

/-- What a slot that exists holds: a row, or nothing. -/
def Holds (contents : Contents) (record : RecordId) (value : Option (List Value)) : Prop :=
  ∃ slots, contents record.page = .ok slots ∧ slots[record.slot]? = some value

end Contents

/-- Makes a change to some contents: a row is put into a free slot, or taken from a used one. -/
def Change.apply (contents : Contents) (change : Change) : Option Contents :=
  match contents change.record.page with
  | .error _ => none
  | .ok slots =>
      if (slots[change.record.slot]?).map Option.isSome = some !change.value.isSome then
        some (contents.setPage change.record.page (slots.set change.record.slot change.value))
      else none

def replay (contents : Contents) (changes : List Change) : Option Contents :=
  changes.foldlM Change.apply contents

section Replay

variable {contents other middle after : Contents} {change : Change} {changes first rest : List Change}
variable {slots : List (Option (List Value))} {id : PageId} {record : RecordId}
variable {value : Option (List Value)}

theorem Contents.setPage_congr {page : PageId} (same : other id = contents id) :
    other.setPage page slots id = contents.setPage page slots id := by
  rw [setPage, setPage, same]

theorem Change.of_apply (applied : change.apply contents = some after) :
    ∃ slots, contents change.record.page = .ok slots ∧
      (slots[change.record.slot]?).map Option.isSome = some !change.value.isSome ∧
      after = contents.setPage change.record.page (slots.set change.record.slot change.value) := by
  unfold apply at applied
  split at applied
  · contradiction
  · next slots found =>
    split at applied
    · next turns => exact ⟨slots, found, turns, (Option.some.inj applied).symm⟩
    · contradiction

theorem Change.apply_eq (found : contents change.record.page = .ok slots)
    (turns : (slots[change.record.slot]?).map Option.isSome = some !change.value.isSome) :
    change.apply contents =
      some (contents.setPage change.record.page (slots.set change.record.slot change.value)) := by
  simp only [apply, found]
  rw [if_pos turns]

theorem replay_cons_eq_some : replay contents (change :: changes) = some after ↔
    ∃ middle, change.apply contents = some middle ∧ replay middle changes = some after :=
  Option.bind_eq_some_iff

theorem replay_append_eq_some : replay contents (first ++ rest) = some after ↔
    ∃ middle, replay contents first = some middle ∧ replay middle rest = some after := by
  rw [replay, List.foldlM_append]
  exact Option.bind_eq_some_iff

/-- A page that no change is on stays as it is. -/
theorem replay_frame (replayed : replay contents changes = some after)
    (apart : ∀ change ∈ changes, change.record.page ≠ id) : after id = contents id := by
  induction changes generalizing contents with
  | nil => exact congrFun (Option.some.inj replayed).symm id
  | cons change rest ih =>
      obtain ⟨middle, applied, replayed⟩ := replay_cons_eq_some.mp replayed
      obtain ⟨here, others⟩ := List.forall_mem_cons.mp apart
      obtain ⟨slots, _, _, rfl⟩ := Change.of_apply applied
      exact (ih replayed others).trans (if_neg fun same => here same.symm)

/-- What changes come to depends only on the pages that they are on. -/
theorem replay_congr (same : ∀ change ∈ changes, other change.record.page = contents change.record.page)
    (replayed : replay contents changes = some after) :
    ∃ last, replay other changes = some last ∧ ∀ id, other id = contents id → last id = after id := by
  induction changes generalizing contents other with
  | nil =>
      cases replayed
      exact ⟨other, rfl, fun _ same => same⟩
  | cons change rest ih =>
      obtain ⟨middle, applied, replayed⟩ := replay_cons_eq_some.mp replayed
      obtain ⟨here, others⟩ := List.forall_mem_cons.mp same
      obtain ⟨slots, found, turns, rfl⟩ := Change.of_apply applied
      have likewise := Change.apply_eq (here.trans found) turns
      obtain ⟨last, again, equal⟩ :=
        ih (fun later listed => Contents.setPage_congr (others later listed)) replayed
      exact ⟨last, replay_cons_eq_some.mpr ⟨_, likewise, again⟩,
        fun id same => equal id (Contents.setPage_congr same)⟩

theorem Change.holds (applied : change.apply contents = some after) :
    after.Holds change.record change.value := by
  obtain ⟨slots, _, turns, rfl⟩ := of_apply applied
  refine ⟨_, if_pos rfl, ?_⟩
  cases held : slots[change.record.slot]? with
  | none => simp [held] at turns
  | some => simp [(List.getElem?_eq_some_iff.mp held).1]

theorem Contents.Holds.apply (holds : contents.Holds record value)
    (applied : change.apply contents = some after) (apart : change.record ≠ record) :
    after.Holds record value := by
  obtain ⟨slots, found, held⟩ := holds
  obtain ⟨others, likewise, _, rfl⟩ := Change.of_apply applied
  by_cases here : record.page = change.record.page
  · have slot : change.record.slot ≠ record.slot := by
      intro same
      obtain ⟨⟨page, number⟩, _⟩ := change
      cases record
      simp_all
    rw [here, likewise] at found
    cases found
    refine ⟨_, if_pos here, ?_⟩
    rw [List.getElem?_set_ne slot, held]
  · exact ⟨slots, (if_neg here).trans found, held⟩

theorem Contents.Holds.replay (holds : contents.Holds record value)
    (replayed : replay contents changes = some after)
    (apart : ∀ change ∈ changes, change.record ≠ record) : after.Holds record value := by
  induction changes generalizing contents with
  | nil =>
      cases replayed
      exact holds
  | cons change rest ih =>
      obtain ⟨middle, applied, replayed⟩ := replay_cons_eq_some.mp replayed
      obtain ⟨here, others⟩ := List.forall_mem_cons.mp apart
      exact ih (holds.apply applied here) replayed others

/-- What a change put into a slot, or took from it, stays so until the next change there. -/
theorem replay_holds (replayed : replay contents (first ++ change :: rest) = some after)
    (apart : ∀ later ∈ rest, later.record ≠ change.record) : after.Holds change.record change.value := by
  obtain ⟨_, _, replayed⟩ := replay_append_eq_some.mp replayed
  obtain ⟨_, applied, replayed⟩ := replay_cons_eq_some.mp replayed
  exact (Change.holds applied).replay replayed apart

end Replay

namespace Pool

variable {pool middle after : Pool} {tx other : TxId} {id : PageId} {page : Page}
variable {change : Change} {changes : List Change} {fate : Page → Page → Prop}

/-! ## Files and changed pages -/

/-- The slots of each page as the bytes of its file say. Past the end of the file these are zeros. -/
def onDisk (pool : Pool) : Contents := fun id =>
  match pool.table? id.table with
  | .error error => .error error
  | .ok file => (Page.decode id file.schema file.pageSize (file.stored pool.disk id.number)).map Page.slots

/-- The slots of a page in memory that the transaction changed. -/
def changedSlots (pool : Pool) (tx : TxId) (id : PageId) : Option (List (Option (List Value))) :=
  match pool.cache.get? id with
  | none => none
  | some page => if page.dirty = some tx then some page.slots else none

theorem changedSlots_eq_some {slots : List (Option (List Value))} :
    pool.changedSlots tx id = some slots ↔
      ∃ page, pool.cache.get? id = some page ∧ page.dirty = some tx ∧ page.slots = slots := by
  unfold changedSlots
  cases pool.cache.get? id <;> simp

theorem changedSlots_congr (same : after.cache.get? id = pool.cache.get? id) (tx : TxId) :
    after.changedSlots tx id = pool.changedSlots tx id := by
  rw [changedSlots, changedSlots, same]

theorem onDisk_keep (grows : Grows pool after) (bytes : KeepsBytes pool after id) :
    after.onDisk id = pool.onDisk id := by
  simp only [onDisk, Pool.table?]
  cases known : pool.tables.get? id.table with
  | none => rw [grows.missing id.table known]
  | some file =>
      obtain ⟨count, _, now⟩ := grows.longer id.table file known
      rw [now]
      simp only [← bytes file known]
      rfl

section Coherent

variable (coherent : pool.Coherent)
include coherent

theorem Coherent.onDisk_eq_restored (found : pool.cache.get? id = some page) :
    pool.onDisk id = page.restored.map Page.slots := by
  have agrees := coherent.agrees id page found
  obtain ⟨file, known, schema, size, _, before⟩ := agrees.filed
  simp only [onDisk, table?_eq_ok.mpr known]
  rw [Page.restored, agrees.named, schema, size, before]

theorem Coherent.onDisk_of_clean (found : pool.cache.get? id = some page) (clean : page.dirty = none) :
    pool.onDisk id = .ok page.slots := by
  obtain ⟨image, restored, same⟩ := (coherent.agrees id page found).restored
  rw [coherent.onDisk_eq_restored found, restored, ← same clean]
  rfl

/-- A page that the file does not have yet is one with every slot free. -/
theorem Coherent.onDisk_past_end {file : TableFile} (known : pool.tables.get? id.table = some file)
    (past : file.pageCount ≤ id.number) :
    pool.onDisk id = .ok (List.replicate (slotCount file.pageSize file.schema.rowWidth) none) := by
  simp only [onDisk, table?_eq_ok.mpr known]
  rw [TableFile.stored_past_end (coherent.files.whole known) past]
  obtain ⟨page, read, free⟩ := Page.decode_zeros id file.schema file.pageSize
  rw [read]
  exact congrArg Except.ok free

/-- A page that a transaction has locked to write was changed by no other. -/
theorem Coherent.changedSlots_of_owned (owned : pool.locks.lockOn id = ⟨some .exclusive, [tx]⟩)
    (differs : other ≠ tx) : pool.changedSlots other id = none := by
  refine Option.eq_none_iff_forall_ne_some.mpr fun slots changed => ?_
  obtain ⟨page, found, dirty, _⟩ := changedSlots_eq_some.mp changed
  have same := ((coherent.agrees id page found).locked other dirty).1
  rw [owned] at same
  simp [differs.symm] at same

end Coherent

/-! ## Pending changes -/

/-- The changes that a transaction made since it last ended. The pages that it changed hold in
memory what the files would hold with these changes made to them. -/
structure Pends (tx : TxId) (changes : List Change) (pool : Pool) : Prop where
  marked : ∀ id, (pool.changedSlots tx id).isSome ↔ ∃ change ∈ changes, change.record.page = id
  replayed : ∃ after, replay pool.onDisk changes = some after ∧
    ∀ id slots, pool.changedSlots tx id = some slots → after id = .ok slots

theorem Pends.of_unchanged (unchanged : ∀ id, pool.changedSlots tx id = none) : Pends tx [] pool :=
  ⟨by simp [unchanged], pool.onDisk, rfl, by simp [unchanged]⟩

theorem Pends.keep (pends : Pends tx changes pool)
    (changed : ∀ id, after.changedSlots tx id = pool.changedSlots tx id)
    (disk : ∀ id, (pool.changedSlots tx id).isSome → after.onDisk id = pool.onDisk id) :
    Pends tx changes after := by
  obtain ⟨final, replayed, slots⟩ := pends.replayed
  have touched : ∀ change ∈ changes, after.onDisk change.record.page = pool.onDisk change.record.page :=
    fun change listed => disk _ ((pends.marked _).mpr ⟨change, listed, rfl⟩)
  obtain ⟨last, again, same⟩ := replay_congr touched replayed
  refine ⟨fun id => ?_, last, again, fun id held found => ?_⟩
  · rw [changed]
    exact pends.marked id
  · rw [changed] at found
    rw [same id (disk id (by simp [found]))]
    exact slots id held found

/-- A page that the transaction did not change takes no part in its changes. -/
theorem Pends.replay_unmarked (pends : Pends tx changes pool) {final : Contents}
    (replayed : replay pool.onDisk changes = some final) (unchanged : pool.changedSlots tx id = none) :
    final id = pool.onDisk id := by
  refine replay_frame replayed fun change listed same => ?_
  have marked := (pends.marked id).mpr ⟨change, listed, same⟩
  simp [unchanged] at marked

/-! ## Steps that change no row -/

theorem Quiet.onDisk (quiet : Quiet tx pool after) : after.onDisk = pool.onDisk :=
  funext fun id => onDisk_keep quiet.grows (quiet.bytes id)

theorem Quiet.changedSlots (quiet : Quiet tx pool after) (other : TxId) (id : PageId) :
    after.changedSlots other id = pool.changedSlots other id := by
  refine Option.ext fun slots => ?_
  rw [changedSlots_eq_some, changedSlots_eq_some]
  constructor
  · rintro ⟨page, found, dirty, rfl⟩
    obtain ⟨before, known, same, mark⟩ := quiet.before found dirty
    exact ⟨before, known, mark, same.symm⟩
  · rintro ⟨page, found, dirty, rfl⟩
    obtain ⟨last, known, same, mark⟩ := quiet.cached id page found
    exact ⟨last, known, mark.trans dirty, same⟩

/-! ## Changing a row -/

section Alters

variable (coherent : pool.Coherent) (alters : Alters tx change page pool after)

include alters in
theorem Alters.onDisk : after.onDisk = pool.onDisk := by
  rw [alters.eq]
  rfl

include coherent alters

theorem Coherent.get?_alters (id : PageId) : after.cache.get? id =
    if id = change.record.page then
      some ((page.setSlot change.record.slot change.value).markDirty (some tx))
    else pool.cache.get? id := by
  have named : ((page.setSlot change.record.slot change.value).markDirty (some tx)).id = change.record.page :=
    (coherent.agrees _ page alters.found).named
  rw [alters.eq, get?_putPage, named]

theorem Coherent.changedSlots_alters (id : PageId) : after.changedSlots tx id =
    if id = change.record.page then some (page.slots.set change.record.slot change.value)
    else pool.changedSlots tx id := by
  rw [changedSlots, coherent.get?_alters alters]
  by_cases here : id = change.record.page
  · rw [if_pos here, if_pos here]
    exact if_pos rfl
  · rw [if_neg here, if_neg here, changedSlots]

theorem Coherent.changedSlots_alters_of_ne (differs : other ≠ tx) (id : PageId) :
    after.changedSlots other id = pool.changedSlots other id := by
  by_cases here : id = change.record.page
  · rw [here, coherent.changedSlots_of_owned alters.owned differs, changedSlots, coherent.get?_alters alters,
      if_pos rfl]
    exact if_neg fun same => differs (Option.some.inj same).symm
  · refine changedSlots_congr ?_ other
    rw [coherent.get?_alters alters, if_neg here]

/-- The page holds what the transaction's changes come to, whether this is the first change on it
or not. -/
theorem Coherent.slots_of_pends (pends : Pends tx changes pool) {final : Contents}
    (replayed : replay pool.onDisk changes = some final)
    (slots : ∀ id slots, pool.changedSlots tx id = some slots → final id = .ok slots) :
    final change.record.page = .ok page.slots := by
  have found := alters.found
  cases dirty : page.dirty with
  | none =>
      have unchanged : pool.changedSlots tx change.record.page = none := by
        simp [Pool.changedSlots, found, dirty]
      rw [pends.replay_unmarked replayed unchanged, coherent.onDisk_of_clean found dirty]
  | some owner =>
      by_cases same : owner = tx
      · exact slots _ _ (changedSlots_eq_some.mpr ⟨page, found, dirty.trans (congrArg some same), rfl⟩)
      · have absent := coherent.changedSlots_of_owned alters.owned same
        rw [changedSlots_eq_some.mpr ⟨page, found, dirty, rfl⟩] at absent
        contradiction

theorem Coherent.pends_alters (pends : Pends tx changes pool) : Pends tx (changes ++ [change]) after := by
  obtain ⟨final, replayed, slots⟩ := pends.replayed
  have applied := Change.apply_eq (coherent.slots_of_pends alters pends replayed slots) alters.turns
  have replayed : replay pool.onDisk (changes ++ [change]) =
      some (final.setPage change.record.page (page.slots.set change.record.slot change.value)) :=
    replay_append_eq_some.mpr ⟨final, replayed, replay_cons_eq_some.mpr ⟨_, applied, rfl⟩⟩
  rw [← alters.onDisk] at replayed
  refine ⟨fun id => ?_, _, replayed, fun id held found => ?_⟩
  · rw [coherent.changedSlots_alters alters]
    by_cases here : id = change.record.page
    · simp [here]
    · have apart : ¬ change.record.page = id := fun same => here same.symm
      simp [here, apart, or_and_right, exists_or, pends.marked id]
  · rw [coherent.changedSlots_alters alters] at found
    split at found
    · next here =>
      cases found
      exact if_pos here
    · next differs => exact (if_neg differs).trans (slots id held found)

end Alters

/-! ## The end of a transaction -/

section Settled

variable (coherent : pool.Coherent) (settled : Settled fate (pool.dirtyPages (some tx)) pool after)
include coherent settled

theorem Coherent.changedSlots_settled (id : PageId) : after.changedSlots tx id = none := by
  refine Option.eq_none_iff_forall_ne_some.mpr fun slots changed => ?_
  obtain ⟨page, found, dirty, _⟩ := changedSlots_eq_some.mp changed
  exact settled.cleaned.cleanOf coherent.named id page found dirty

/-- A page is either one that the transaction changed, and was settled, or it is as before. -/
theorem Coherent.settled_cases (id : PageId) :
    (∃ page clean, pool.cache.get? id = some page ∧ page.dirty = some tx ∧
      after.cache.get? id = some clean ∧ clean.dirty = none ∧ fate page clean) ∨
    (pool.changedSlots tx id = none ∧ after.cache.get? id = pool.cache.get? id ∧
      KeepsBytes pool after id) := by
  by_cases listed : id ∈ (pool.dirtyPages (some tx)).map Page.id
  · obtain ⟨page, member, rfl⟩ := List.mem_map.mp listed
    obtain ⟨found, owner, dirty, own⟩ := (coherent.mem_dirtyPages_iff _).mp member
    obtain ⟨clean, now, unchanged, fated⟩ := settled.settled page member
    exact Or.inl ⟨page, clean, found, dirty.trans (congrArg some (own tx rfl)), now, unchanged, fated⟩
  · have same := settled.others id listed
    refine Or.inr ⟨?_, same, settled.bytes id listed⟩
    rw [← changedSlots_congr same tx, coherent.changedSlots_settled settled]

theorem Coherent.changedSlots_settled_of_ne (differs : other ≠ tx) (id : PageId) :
    after.changedSlots other id = pool.changedSlots other id := by
  obtain ⟨page, clean, found, dirty, now, unchanged, _⟩ | ⟨_, same, _⟩ := coherent.settled_cases settled id
  · have apart : ¬ tx = other := fun same => differs same.symm
    simp [changedSlots, found, dirty, now, unchanged, apart]
  · exact changedSlots_congr same other

theorem Coherent.pends_settled : Pends tx [] after :=
  Pends.of_unchanged (coherent.changedSlots_settled settled)

theorem Coherent.pends_settled_of_ne (differs : other ≠ tx) (pends : Pends other changes pool) :
    Pends other changes after := by
  refine pends.keep (coherent.changedSlots_settled_of_ne settled differs) fun id changed => ?_
  obtain ⟨page, _, found, dirty, _⟩ | ⟨_, _, bytes⟩ := coherent.settled_cases settled id
  · have apart : ¬ tx = other := fun same => differs same.symm
    simp [Pool.changedSlots, found, dirty, apart] at changed
  · exact onDisk_keep settled.stays.grows bytes

end Settled

/-- Once they are written, the files hold what the changes come to. -/
theorem Coherent.onDisk_flushed (coherent : pool.Coherent)
    (settled : Settled Flushed (pool.dirtyPages (some tx)) pool after) (pends : Pends tx changes pool) :
    replay pool.onDisk changes = some after.onDisk := by
  obtain ⟨final, replayed, slots⟩ := pends.replayed
  rw [replayed]
  refine congrArg some (funext fun id => ?_)
  obtain ⟨page, clean, found, dirty, now, unchanged, rfl⟩ | ⟨unchanged, _, bytes⟩ :=
    coherent.settled_cases settled id
  · rw [slots id page.slots (changedSlots_eq_some.mpr ⟨page, found, dirty, rfl⟩),
      settled.coherent.onDisk_of_clean now unchanged]
    rfl
  · rw [pends.replay_unmarked replayed unchanged, onDisk_keep settled.stays.grows bytes]

/-- Pages that are put back were never written. -/
theorem Coherent.onDisk_restored (coherent : pool.Coherent)
    (settled : Settled Restored (pool.dirtyPages (some tx)) pool after) :
    after.onDisk = pool.onDisk := by
  funext id
  obtain ⟨page, clean, found, _, now, unchanged, restored⟩ | ⟨_, _, bytes⟩ :=
    coherent.settled_cases settled id
  · rw [settled.coherent.onDisk_of_clean now unchanged, coherent.onDisk_eq_restored found, restored]
    rfl
  · exact onDisk_keep settled.stays.grows bytes

end Pool

end RowStore
