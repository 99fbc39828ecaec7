import Ruka.RecordCodec
import Ruka.SortedSearch

/-! The companion index of a segment: sixteen bytes an entry on disk, the same
entries in memory. The file is opened without append mode, so every write goes
where the last one or the last load left the cursor. -/
namespace Ruka
open BigEndian LexicalPaths FilePrograms SortedSearch

/-- `index.rs::IndexEntry`. -/
structure IndexEntry where
  offset : Nat
  position : Nat
  deriving DecidableEq

def indexEntrySize : Nat := 16

namespace IndexEntry

def encode (entry : IndexEntry) : Bytes := beBytes 8 entry.offset ++ beBytes 8 entry.position

def decode (buf : Bytes) : IndexEntry := ⟨beNat (buf.take 8), beNat ((buf.drop 8).take 8)⟩

structure Fits (entry : IndexEntry) : Prop where
  offset : entry.offset < 2 ^ 64
  position : entry.position < 2 ^ 64

@[simp] theorem length_encode (entry : IndexEntry) : entry.encode.length = 16 := by
  simp [encode]

private theorem decode_encode (fits : Fits entry) : decode entry.encode = entry := by
  have offset : entry.offset < 256 ^ 8 := fits.offset
  have position : entry.position < 256 ^ 8 := fits.position
  have back : (beBytes 8 entry.position).take 8 = beBytes 8 entry.position :=
    List.take_of_length_le (by simp)
  rw [decode, encode, List.take_left' (length_beBytes 8 _), List.drop_left' (length_beBytes 8 _),
    back, beNat_beBytes_of_lt offset, beNat_beBytes_of_lt position]

end IndexEntry

/-- `index.rs::Index`. -/
structure Index where
  file : File
  entries : List IndexEntry
  deriving DecidableEq

namespace Index

/-- `Index::create`: an existing file is emptied. -/
def create (path : Path) : Program (Except RukaError Index) := do
  match ← File.openWith path { create := true, truncate := true } with
  | .error error => pure (.error (.io error))
  | .ok file => pure (.ok ⟨file, []⟩)

/-- The reading loop of `Index::load`. -/
def readEntries : Nat → File → Program (Except IoError (List IndexEntry) × File)
  | 0, file => pure (.ok [], file)
  | count + 1, file => do
    match ← file.readExact indexEntrySize with
    | (.error error, file) => pure (.error error, file)
    | (.ok buf, file) =>
      match ← readEntries count file with
      | (.error error, file) => pure (.error error, file)
      | (.ok entries, file) => pure (.ok (IndexEntry.decode buf :: entries), file)

/-- `Index::load`: only the length of the file is checked. -/
def load (path : Path) : Program (Except RukaError Index) := do
  match ← File.openWith path {} with
  | .error error => pure (.error (.io error))
  | .ok file =>
    match ← file.len with
    | .error error => pure (.error (.io error))
    | .ok fileLen =>
      if fileLen % indexEntrySize ≠ 0 then pure (.error (.corruptedIndex fileLen))
      else do
        match ← readEntries (fileLen / indexEntrySize) (file.seekStart 0) with
        | (.error error, _) => pure (.error (.io error))
        | (.ok entries, file) =>
          match ← file.seekEnd with
          | .error error => pure (.error (.io error))
          | .ok file => pure (.ok ⟨file, entries⟩)

/-- `Index::append`: the file first, then memory. -/
def append (self : Index) (offset position : Nat) : Program (Except RukaError Unit × Index) := do
  let entry : IndexEntry := ⟨offset, position⟩
  match ← self.file.writeAll entry.encode with
  | (.error error, file) => pure (.error (.io error), { self with file := file })
  | (.ok (), file) => pure (.ok (), ⟨file, self.entries ++ [entry]⟩)

/-- `Index::lookup`. -/
def lookup (self : Index) (targetOffset : Nat) : Option Nat :=
  match binarySearchByKey self.entries IndexEntry.offset targetOffset with
  | .ok position => self.entries[position]?.map IndexEntry.position
  | .error _ => none

/-- `Index::lookup_floor`. -/
def lookupFloor (self : Index) (targetOffset : Nat) : Option IndexEntry :=
  match binarySearchByKey self.entries IndexEntry.offset targetOffset with
  | .ok position => self.entries[position]?
  | .error 0 => none
  | .error (position + 1) => self.entries[position]?

/-- `Index::sync`. -/
def sync (self : Index) : Program (Except RukaError Unit) := do
  match ← self.file.syncData with
  | .error error => pure (.error (.io error))
  | .ok () => pure (.ok ())

/-- `Index::entry_count`. -/
def entryCount (self : Index) : Nat := self.entries.length

end Index

/-- The index file of these entries. -/
def encodeEntries (entries : List IndexEntry) : Bytes := entries.flatMap IndexEntry.encode

@[simp] theorem encodeEntries_nil : encodeEntries [] = [] := rfl

@[simp] theorem encodeEntries_cons (entry : IndexEntry) (entries : List IndexEntry) :
    encodeEntries (entry :: entries) = entry.encode ++ encodeEntries entries := rfl

@[simp] theorem encodeEntries_append (first second : List IndexEntry) :
    encodeEntries (first ++ second) = encodeEntries first ++ encodeEntries second := by
  simp [encodeEntries]

@[simp] theorem length_encodeEntries (entries : List IndexEntry) :
    (encodeEntries entries).length = 16 * entries.length := by
  induction entries with
  | nil => rfl
  | cons entry entries ih =>
    rw [encodeEntries_cons, List.length_append, ih, IndexEntry.length_encode, List.length_cons]
    omega

namespace Index
variable {world : World} {path : Path} {index : Index} {entries : List IndexEntry}

/-- The index of these entries with its cursor behind the last one; every
operation leaves an index in this form. -/
def holding (path : Path) (entries : List IndexEntry) : Index :=
  ⟨⟨path, false, 16 * entries.length⟩, entries⟩

theorem run_append (held : world.file? path = some (encodeEntries entries))
    (offset position : Nat) : ((holding path entries).append offset position).run world =
      (.ok (.ok (), holding path (entries ++ [⟨offset, position⟩])),
        world.put path (encodeEntries (entries ++ [⟨offset, position⟩]))) := by
  have atEnd : (holding path entries).file.AtEnd (encodeEntries entries) := .inr (by simp [holding])
  unfold append
  rw [Program.run_bind_of_run (File.run_writeAll held rfl atEnd _)]
  simp [holding]
  omega

theorem run_create_fresh (free : world.node path = none) (below : path ≠ [])
    (parent : world.isDirectory path.dropLast = true) :
    (create path).run world = (.ok (.ok (holding path [])), world.put path []) := by
  unfold create
  rw [Program.run_bind_of_run (File.run_openWith_create free below _ rfl parent)]
  rfl

theorem run_create_existing (held : world.file? path = some old) (below : path ≠ []) :
    (create path).run world = (.ok (.ok (holding path [])), world.put path []) := by
  unfold create
  rw [Program.run_bind_of_run (File.run_openWith_existing held below _)]
  rfl

/-- An index that was created is empty, and so is its file. -/
theorem create_ok (ran : (create path).run world = (.ok (.ok index), after)) :
    path ≠ [] ∧ index = holding path [] ∧ after.file? path = some [] := by
  have below : path ≠ [] := by
    rintro rfl
    have refused : (create []).run world = (.ok (.error (.io .wrongKind)), world) := rfl
    rw [refused] at ran
    cases ran
  unfold create at ran
  obtain ⟨answer, middle, opened, later⟩ := Program.exists_of_run_bind ran
  cases answer with
  | error error => cases later
  | ok file =>
    obtain ⟨rfl, wrote⟩ := File.openWith_ok opened
    cases later
    refine ⟨below, rfl, ?_⟩
    cases held : world.file? path with
    | none =>
      rw [held] at wrote
      rw [wrote, World.file?_put]
    | some old =>
      rw [held] at wrote
      rw [wrote]
      exact World.file?_put _ _ _

/-- The loop reads back the entries that start at the cursor. -/
theorem run_readEntries (entries : List IndexEntry) (fits : ∀ entry ∈ entries, entry.Fits)
    (before after : Bytes) (file : File) (opened : file.path = path)
    (held : world.file? path = some (before ++ encodeEntries entries ++ after))
    (cursor : file.cursor = before.length) :
    (readEntries entries.length file).run world =
      (.ok (.ok entries, { file with cursor := before.length + 16 * entries.length }), world) := by
  induction entries generalizing before file with
  | nil =>
    obtain ⟨path, append, position⟩ := file
    simp only at cursor
    simp [readEntries, cursor]
  | cons entry entries ih =>
    have head : entry.Fits := fits entry (by simp)
    have tail : ∀ entry ∈ entries, entry.Fits := fun entry member => fits entry (by simp [member])
    have shape : before ++ encodeEntries (entry :: entries) ++ after =
        before ++ (entry.encode ++ (encodeEntries entries ++ after)) := by simp
    have enough : file.cursor + indexEntrySize ≤
        (before ++ encodeEntries (entry :: entries) ++ after).length := by
      rw [shape, cursor]
      simp [indexEntrySize]
    have chunk : ((before ++ encodeEntries (entry :: entries) ++ after).drop file.cursor).take
        indexEntrySize = entry.encode := by
      rw [shape, cursor, List.drop_left, List.take_left' (by simp [indexEntrySize])]
    rw [List.length_cons, readEntries,
      Program.run_bind_of_run (File.run_readExact held opened enough)]
    have moved := ih tail (before ++ entry.encode)
        { file with cursor := file.cursor + indexEntrySize }
      opened (by rw [held]; simp) (by simp [cursor, indexEntrySize])
    simp only [chunk]
    rw [Program.run_bind_of_run moved]
    simp only [IndexEntry.decode_encode head, List.length_append, IndexEntry.length_encode,
      Program.run_pure, Prod.mk.injEq, Except.ok.injEq, File.mk.injEq, true_and, and_true]
    omega

/-- A whole index file loads as the entries it was written from. -/
theorem run_load (entries : List IndexEntry)
    (held : world.file? path = some (encodeEntries entries)) (below : path ≠ [])
    (fits : ∀ entry ∈ entries, entry.Fits) :
    (load path).run world = (.ok (.ok (holding path entries)), world) := by
  have whole : (encodeEntries entries).length % indexEntrySize = 0 := by
    simp [indexEntrySize]
  have count : (encodeEntries entries).length / indexEntrySize = entries.length := by
    simp [indexEntrySize]
  have read := run_readEntries entries fits [] [] ⟨path, false, 0⟩ rfl (by simpa using held) rfl
  unfold load
  rw [Program.run_bind_of_run (File.run_openWith_existing held below _)]
  simp only [Bool.false_eq_true, ↓reduceIte]
  rw [Program.run_bind_of_run (File.run_len held rfl)]
  simp only [whole, ne_eq, not_true_eq_false, ↓reduceIte, count, File.seekStart]
  rw [Program.run_bind_of_run read]
  simp only
  rw [Program.run_bind_of_run (File.run_seekEnd held rfl)]
  simp [holding]

/-- A file cut inside an entry is refused, whatever it holds. -/
theorem run_load_torn (held : world.file? path = some data) (below : path ≠ [])
    (torn : data.length % 16 ≠ 0) :
    (load path).run world = (.ok (.error (.corruptedIndex data.length)), world) := by
  unfold load
  rw [Program.run_bind_of_run (File.run_openWith_existing held below _)]
  simp only [Bool.false_eq_true, ↓reduceIte]
  rw [Program.run_bind_of_run (File.run_len held rfl)]
  simp [indexEntrySize, torn]

/-- A file that is not there is refused as well. -/
theorem run_load_missing (absent : world.file? path = none) :
    ∃ error, (load path).run world = (.ok (.error error), world) := by
  obtain ⟨error, ran⟩ := File.run_openWith_absent absent
  exact ⟨.io error, Program.run_bind_of_run ran _⟩

/-- Entries with strictly increasing offsets are found exactly. -/
theorem lookup_eq_some_iff (sorted : index.entries.Pairwise (fun a b => a.offset < b.offset)) :
    index.lookup target = some position ↔ (⟨target, position⟩ : IndexEntry) ∈ index.entries := by
  unfold lookup
  constructor
  · intro found
    split at found
    · rename_i slot ran
      obtain ⟨entry, held, same⟩ := binarySearchByKey_ok sorted ran
      rw [held] at found
      simp only [Option.map_some, Option.some.injEq] at found
      have whole : (⟨target, position⟩ : IndexEntry) = entry := by
        cases entry
        simp_all
      rw [whole]
      exact List.mem_of_getElem? held
    · cases found
  · intro member
    obtain ⟨slot, held⟩ := List.mem_iff_getElem?.mp member
    rw [binarySearchByKey_hit sorted held]
    simp [held]

private theorem lookupFloor_eq (index : Index) (target : Nat) :
    index.lookupFloor target = (floorByKey index.entries IndexEntry.offset target).bind
      (index.entries[·]?) := by
  unfold lookupFloor floorByKey
  cases binarySearchByKey index.entries IndexEntry.offset target with
  | ok position => rfl
  | error position => cases position <;> rfl

/-- The entry with the largest offset that is not past the target. -/
def IsFloor (entries : List IndexEntry) (target : Nat) (entry : IndexEntry) : Prop :=
  entry ∈ entries ∧ entry.offset ≤ target ∧
    ∀ other ∈ entries, other.offset ≤ target → other.offset ≤ entry.offset

/-- Entries with strictly increasing offsets have one for each offset. -/
theorem eq_of_offset_eq (sorted : entries.Pairwise (fun a b => a.offset < b.offset))
    (member : entry ∈ entries) (otherMember : other ∈ entries)
    (same : entry.offset = other.offset) : entry = other := by
  obtain ⟨slot, held⟩ := List.mem_iff_getElem?.mp member
  obtain ⟨place, found⟩ := List.mem_iff_getElem?.mp otherMember
  have first := binarySearchByKey_hit sorted held
  have second := binarySearchByKey_hit sorted found
  rw [same, second] at first
  rw [Except.ok.inj first, held] at found
  exact Option.some.inj found

theorem lookupFloor_eq_none_iff (sorted : index.entries.Pairwise (fun a b => a.offset < b.offset))
    (target : Nat) :
    index.lookupFloor target = none ↔ ∀ entry ∈ index.entries, target < entry.offset := by
  have spec := floorByKey_spec sorted target
  rw [lookupFloor_eq]
  cases found : floorByKey index.entries IndexEntry.offset target with
  | none =>
    rw [found] at spec
    exact ⟨fun _ => spec, fun _ => rfl⟩
  | some position =>
    rw [found] at spec
    obtain ⟨item, held, low, -⟩ := spec
    rw [Option.bind_some, held]
    constructor
    · intro nothing
      cases nothing
    · intro past
      exact absurd (past item (List.mem_of_getElem? held)) (Nat.not_lt.mpr low)

/-- Entries with strictly increasing offsets have their floor found. -/
theorem lookupFloor_eq_some_iff (sorted : index.entries.Pairwise (fun a b => a.offset < b.offset)) :
    index.lookupFloor target = some entry ↔ IsFloor index.entries target entry := by
  have spec := floorByKey_spec sorted target
  rw [lookupFloor_eq]
  cases found : floorByKey index.entries IndexEntry.offset target with
  | none =>
    rw [found] at spec
    constructor
    · intro missing
      cases missing
    · rintro ⟨member, low, -⟩
      exact absurd (spec entry member) (Nat.not_lt.mpr low)
  | some position =>
    rw [found] at spec
    obtain ⟨item, held, low, greatest⟩ := spec
    rw [Option.bind_some, held]
    have member := List.mem_of_getElem? held
    constructor
    · intro same
      rw [← Option.some.inj same]
      exact ⟨member, low, greatest⟩
    · rintro ⟨otherMember, otherLow, otherGreatest⟩
      have same := Nat.le_antisymm (otherGreatest item member low)
        (greatest entry otherMember otherLow)
      rw [eq_of_offset_eq sorted member otherMember same]

/-- The last entry of an offset is found if none before it has a larger offset
and all behind it do. -/
theorem lookup_last (shape : index.entries = front ++ ⟨target, position⟩ :: back)
    (low : ∀ entry ∈ front, entry.offset ≤ target) (high : ∀ entry ∈ back, target < entry.offset) :
    index.lookup target = some position := by
  unfold lookup
  rw [shape, binarySearchByKey_last low rfl high]
  simp

/-- Among entries without a gap some entry of the offset is found. -/
theorem lookup_gapless (gapless : Gapless index.entries IndexEntry.offset)
    (first : ∀ entry ∈ index.entries.head?, entry.offset ≤ target)
    (last : ∃ entry ∈ index.entries.getLast?, target ≤ entry.offset) :
    ∃ entry ∈ index.entries, entry.offset = target ∧ index.lookup target = some entry.position := by
  obtain ⟨position, entry, ran, held, same⟩ := binarySearchByKey_gapless gapless first last
  refine ⟨entry, List.mem_of_getElem? held, same, ?_⟩
  unfold lookup
  rw [ran]
  simp only [held, Option.map_some]

end Index

end Ruka
