import Ruka.SegmentStorage

/-! What the read paths and the recovery of a segment make of the files the
append paths wrote. Reading goes through the length prefix of a record, so it
needs every record to be shorter than `2 ^ 32` bytes. -/
namespace Ruka
open BigEndian LexicalPaths FilePrograms DecimalNames

/-- Every record is shorter than its length prefix can say. -/
def Small (messages : List Message) : Prop := ∀ message ∈ messages, message.size < 2 ^ 32

theorem small_of_content {messages : List Message}
    (small : ∀ content ∈ messages.map Message.content, recordLen content.1 content.2 < 2 ^ 32) :
    Small messages :=
  fun message member => small message.content (List.mem_map_of_mem member)

/-- The messages at the front that fit a budget of bytes together. -/
def within : Nat → List Message → List Message
  | _, [] => []
  | budget, message :: rest =>
    if message.size ≤ budget then message :: within (budget - message.size) rest else []

/-- What a fetch takes from one segment: the first message in any case, then
as much as the budget leaves room for. -/
def fetched (budget : Nat) : List Message → List Message
  | [] => []
  | message :: rest => message :: within (budget - message.size) rest

theorem within_zero (messages : List Message) : within 0 messages = [] := by
  cases messages with
  | nil => rfl
  | cons message rest =>
    have atLeast : 28 ≤ message.size := recordLen_ge _ _
    exact if_neg (by omega)

/-- The bytes of these messages in a log. -/
def totalSize (messages : List Message) : Nat := (messages.map Message.size).sum

theorem within_isPrefix (budget : Nat) (messages : List Message) :
    within budget messages <+: messages := by
  induction messages generalizing budget with
  | nil => exact List.prefix_refl _
  | cons message rest ih =>
    unfold within
    split
    · exact (List.cons_prefix_cons).mpr ⟨rfl, ih _⟩
    · exact List.nil_prefix

theorem totalSize_within (budget : Nat) (messages : List Message) :
    totalSize (within budget messages) ≤ budget := by
  induction messages generalizing budget with
  | nil => exact Nat.zero_le _
  | cons message rest ih =>
    unfold within
    split
    · have tail := ih (budget - message.size)
      simp only [totalSize, List.map_cons, List.sum_cons] at tail ⊢
      omega
    · exact Nat.zero_le _

theorem fetched_isPrefix (budget : Nat) (messages : List Message) :
    fetched budget messages <+: messages := by
  cases messages with
  | nil => exact List.prefix_refl _
  | cons message rest => exact (List.cons_prefix_cons).mpr ⟨rfl, within_isPrefix _ _⟩

theorem offset_bounds_of_mem_positions
    (member : entry ∈ positions position (numbered offset messages)) :
    offset ≤ entry.offset ∧ entry.offset < offset + messages.length := by
  obtain ⟨⟨record, held, same⟩, -⟩ := positions_bounds member
  rw [same]
  exact numbered_offset_bounds held

theorem positions_sorted (position offset : Nat) (messages : List Message) :
    (positions position (numbered offset messages)).Pairwise (fun a b => a.offset < b.offset) := by
  induction messages generalizing position offset with
  | nil => exact List.Pairwise.nil
  | cons message rest ih =>
    refine List.pairwise_cons.mpr ⟨fun entry member => ?_, ih _ _⟩
    exact Nat.lt_of_succ_le (offset_bounds_of_mem_positions member).1

theorem Message.fits_record {message : Message} (small : message.size < 2 ^ 32)
    (width : offset < 2 ^ 64) : (message.record offset).Fits :=
  ⟨small, width, message.timestampMs.toNat_lt⟩

namespace Tile
variable {world : World} {dir : Path} {tile : Tile} {front back : List Message}

/-- The same segment after reads that left the cursor elsewhere. -/
def moved (tile : Tile) (cursor : Nat) : Tile := { tile with cursor := cursor }

theorem exists_split (low : tile.baseOffset ≤ offset) (high : offset < tile.nextOffset) :
    ∃ front message back, tile.messages = front ++ message :: back ∧
      offset = tile.baseOffset + front.length := by
  have bound : offset - tile.baseOffset < tile.messages.length := by
    unfold nextOffset at high
    omega
  refine ⟨tile.messages.take (offset - tile.baseOffset), tile.messages[offset - tile.baseOffset],
    tile.messages.drop (offset - tile.baseOffset + 1), by simp, ?_⟩
  rw [List.length_take]
  omega

/-- The same segment as a load opens it. -/
def reopened (tile : Tile) : Tile := { tile with appendMode := false, cursor := tile.bytes.length }

/-- The log around one of its records. -/
theorem bytes_split (shape : tile.messages = front ++ message :: back) :
    tile.bytes = encodeAll (numbered tile.baseOffset front) ++
      ((message.record (tile.baseOffset + front.length)).encode ++
        encodeAll (numbered (tile.baseOffset + front.length + 1) back)) := by
  simp [bytes, records, shape, numbered_append, numbered]

/-- The index knows where that record starts. -/
theorem lookup_eq (shape : tile.messages = front ++ message :: back) :
    (Index.holding path tile.entries).lookup (tile.baseOffset + front.length) =
      some (encodeAll (numbered tile.baseOffset front)).length := by
  rw [Index.lookup_eq_some_iff (positions_sorted 0 tile.baseOffset tile.messages)]
  simp [Index.holding, entries, records, shape, numbered_append, positions_append, numbered,
    positions, Message.record]

end Tile

namespace Segment
variable {world : World} {dir path : Path} {tile : Tile} {maxBytes : Nat} {syncLevel : SyncLevel}
  {front back : List Message} {before rest : Bytes} {file : File} {record : Record}

/-- The exact read finds the record that starts at the position. -/
theorem run_readWhole (held : world.file? path = some (before ++ (record.encode ++ rest)))
    (file : File) (opened : file.path = path) (fits : record.Fits) :
    ∃ cursor, (readWhole file before.length).run world =
      (.ok (.ok (some record), { file with cursor := cursor }), world) := by
  have size : recordLen record.key record.value < 256 ^ 4 := fits.size
  have atLeast := recordLen_ge record.key record.value
  have length := record.length_encode
  obtain ⟨body, shape⟩ :
    ∃ body, record.encode = beBytes 4 (recordLen record.key record.value) ++ body :=
    ⟨_, by simp only [Record.encode, List.append_assoc]; rfl⟩
  have bodyLength : body.length = recordLen record.key record.value - 4 := by
    rw [shape, List.length_append, length_beBytes] at length
    omega
  have whole : (before ++ (record.encode ++ rest)).length =
      before.length + recordLen record.key record.value + rest.length := by
    simp only [List.length_append, length]
    omega
  have lead : ((before ++ (record.encode ++ rest)).drop before.length).take 4 =
      beBytes 4 (recordLen record.key record.value) := by
    rw [List.drop_left, shape, List.append_assoc, List.take_left' (length_beBytes 4 _)]
  have remainder : ((before ++ (record.encode ++ rest)).drop (before.length + 4)).take
      (recordLen record.key record.value - 4) = body := by
    rw [← List.drop_drop, List.drop_left, shape, List.append_assoc,
      List.drop_left' (length_beBytes 4 _), List.take_left' bodyLength]
  have decoded := Record.decode_encode fits []
  rw [List.append_nil, shape] at decoded
  have here : (file.seekStart before.length).path = path := opened
  have first : ((file.seekStart before.length).readExact 4).run world =
      (.ok (.ok (beBytes 4 (recordLen record.key record.value)),
        { file with cursor := before.length + 4 }), world) := by
    rw [File.run_readExact held here (by simp only [File.seekStart]; omega)]
    simp only [File.seekStart, lead]
  have there : ({ file with cursor := before.length + 4 } : File).path = path := opened
  have second : (({ file with cursor := before.length + 4 } : File).readExact
      (recordLen record.key record.value - 4)).run world =
      (.ok (.ok body, { file with cursor := before.length + recordLen record.key record.value
        }), world) := by
    rw [File.run_readExact held there (by simp only; omega)]
    simp only [remainder, show before.length + 4 + (recordLen record.key record.value - 4) =
      before.length + recordLen record.key record.value by omega]
  unfold readWhole
  rw [Program.run_bind_of_run first]
  simp only [beNat_beBytes_of_lt size]
  rw [if_neg (by omega), Program.run_bind_of_run second]
  simp only [decoded]
  rw [Program.run_bind_of_run (Program.run_orPanic_some _ _)]
  exact ⟨_, rfl⟩

/-- The offset of a record of the log passes the range check of both read paths. -/
theorem in_range (shape : tile.messages = front ++ message :: back) :
    ¬ (tile.baseOffset + front.length < (tile.segment dir maxBytes syncLevel).baseOffset ∨
      tile.baseOffset + front.length ≥ (tile.segment dir maxBytes syncLevel).nextOffset) := by
  simp only [Tile.segment, Tile.nextOffset, shape, List.length_append, List.length_cons]
  omega

/-- A read of the log from a record on. -/
theorem run_read_from (maxBytes : Nat) (syncLevel : SyncLevel) (disk : tile.OnDisk world dir)
    (shape : tile.messages = front ++ message :: back) (count : Nat) :
    ∃ cursor, (((tile.segment dir maxBytes syncLevel).logFile.seekStart
        (encodeAll (numbered tile.baseOffset front)).length).read count).run world =
      (.ok (.ok (((message.record (tile.baseOffset + front.length)).encode ++
          encodeAll (numbered (tile.baseOffset + front.length + 1) back)).take count),
        ((tile.moved cursor).segment dir maxBytes syncLevel).logFile), world) := by
  have held := disk.log
  rw [Tile.bytes_split shape] at held
  have opened : ((tile.segment dir maxBytes syncLevel).logFile.seekStart
    (encodeAll (numbered tile.baseOffset front)).length).path = logPath dir tile.baseOffset := rfl
  have ran := File.run_read held opened count
  simp only [File.seekStart, List.drop_left, Tile.segment] at ran
  simp only [File.seekStart, Tile.segment, Tile.moved]
  exact ⟨_, ran⟩

/-- Where the index points at a record of the log, `read_at` returns it, whether
it fits the first read or not, and also when it has another offset. -/
theorem run_readAt_at {segment : Segment}
    (held : world.file? segment.logFile.path = some (before ++ (record.encode ++ rest)))
    (inside : ¬ (offset < segment.baseOffset ∨ offset ≥ segment.nextOffset))
    (found : segment.index.lookup offset = some before.length) (fits : record.Fits) :
    ∃ cursor, (segment.readAt offset).run world =
      (.ok (.ok (some record), { segment with logFile := { segment.logFile with cursor := cursor }
        }), world) := by
  have here : (segment.logFile.seekStart before.length).path = segment.logFile.path := rfl
  have chunk := File.run_read held here 4096
  simp only [File.seekStart, List.drop_left] at chunk
  obtain ⟨cursor, ran⟩ : ∃ cursor, ((segment.logFile.seekStart before.length).read 4096).run world =
      (.ok (.ok ((record.encode ++ rest).take 4096), { segment.logFile with cursor := cursor }),
        world) := ⟨_, chunk⟩
  obtain ⟨later, whole⟩ := run_readWhole held { segment.logFile with cursor := cursor } rfl fits
  unfold readAt
  rw [if_neg inside, found]
  simp only
  rw [Program.run_bind_of_run ran]
  simp only
  by_cases short : record.encode.length ≤ 4096
  · rw [List.take_append, List.take_of_length_le short, Record.decode_encode fits,
      Program.run_bind_of_run (Program.run_orPanic_some _ _)]
    simp only [Option.filter_some]
    by_cases same : record.offset = offset
    · simp only [same, decide_true, ↓reduceIte]
      exact ⟨cursor, rfl⟩
    · simp only [same, decide_false, Bool.false_eq_true, ↓reduceIte]
      rw [Program.run_bind_of_run whole]
      exact ⟨later, rfl⟩
  · have torn : 4096 < record.encode.length := by omega
    rw [List.take_append_of_le_length (by omega), Record.decode_torn fits 4096 torn,
      Program.run_bind_of_run (Program.run_orPanic_some _ _)]
    simp only [Option.filter_none]
    rw [Program.run_bind_of_run whole]
    exact ⟨later, rfl⟩

/-- `read_at` returns what the log holds at the offset, whether the record
fits the first read or not. -/
theorem run_readAt (maxBytes : Nat) (syncLevel : SyncLevel) (disk : tile.OnDisk world dir)
    (width : tile.nextOffset < 2 ^ 64) (small : Small tile.messages)
    (low : tile.baseOffset ≤ offset) :
    ∃ cursor, ((tile.segment dir maxBytes syncLevel).readAt offset).run world =
      (.ok (.ok (tile.messages[offset - tile.baseOffset]?.map (·.record offset)),
        (tile.moved cursor).segment dir maxBytes syncLevel), world) := by
  by_cases inside : offset < tile.nextOffset
  · obtain ⟨front, message, back, shape, rfl⟩ := Tile.exists_split low inside
    have fits := Message.fits_record (small message (by simp [shape])) (Nat.lt_trans inside width)
    have held : tile.messages[tile.baseOffset + front.length - tile.baseOffset]? =
        some message := by
      simp [shape]
    have log : world.file? (tile.segment dir maxBytes syncLevel).logFile.path = _ := disk.log
    rw [Tile.bytes_split shape] at log
    rw [held]
    exact run_readAt_at log (in_range shape) (Tile.lookup_eq shape) fits
  · have outside : tile.messages[offset - tile.baseOffset]? = none := by
      unfold Tile.nextOffset at inside
      exact List.getElem?_eq_none (by omega)
    refine ⟨tile.cursor, ?_⟩
    unfold readAt
    rw [if_pos (by simp only [Tile.segment]; omega), outside]
    rfl

/-- Four bytes of a record are its length. -/
theorem getUint_record (fits : record.Fits) (rest : Bytes) (count : Nat)
    (enough : 4 ≤ ((record.encode ++ rest).take count).length) :
    ∃ tail, getUint 4 ((record.encode ++ rest).take count) =
      some (recordLen record.key record.value, tail) := by
  have size : recordLen record.key record.value < 256 ^ 4 := fits.size
  have reach : 4 ≤ count := by
    rw [List.length_take] at enough
    omega
  obtain ⟨body, shape⟩ : ∃ body, record.encode ++ rest =
      beBytes 4 (recordLen record.key record.value) ++ body :=
    ⟨_, by simp only [Record.encode, List.append_assoc]; rfl⟩
  rw [shape, List.take_append, List.take_of_length_le (by simpa using reach)]
  exact ⟨_, getUint_beBytes_of_lt size _⟩

/-- A record that is wholly read and within the budget is taken. -/
theorem collect_step (fits : record.Fits) (low : target ≤ record.offset)
    (room : ¬ (totalBytes + recordLen record.key record.value > maxBytes ∧ records ≠ []))
    (fuel : Nat) (rest : Bytes) :
    collect target maxBytes (fuel + 1) (record.encode ++ rest) records totalBytes =
      collect target maxBytes fuel rest (records ++ [record])
        (totalBytes + recordLen record.key record.value) := by
  have atLeast := recordLen_ge record.key record.value
  have length : (record.encode ++ rest).length = recordLen record.key record.value +
      rest.length := by
    rw [List.length_append, Record.length_encode]
  obtain ⟨tail, peeked⟩ := getUint_record fits rest (record.encode ++ rest).length
    (by rw [List.take_length]; omega)
  rw [List.take_length] at peeked
  rw [collect, if_neg (by omega), peeked]
  simp only [Option.bind_eq_bind, Option.bind_some]
  rw [if_neg (by omega), if_neg room, Record.decode_encode fits]
  simp only [Option.bind_some]
  rw [if_pos low]

/-- The loop ends at a record that is cut off or past the budget. -/
theorem collect_stop (fits : record.Fits) (rest : Bytes) (count fuel : Nat)
    (stops : ((record.encode ++ rest).take count).length < recordLen record.key record.value ∨
      (totalBytes + recordLen record.key record.value > maxBytes ∧ records ≠ [])) :
    collect target maxBytes fuel ((record.encode ++ rest).take count) records totalBytes =
      some records := by
  cases fuel with
  | zero => rfl
  | succ fuel =>
    rw [collect]
    split
    · rfl
    · rename_i long
      obtain ⟨tail, peeked⟩ := getUint_record fits rest count (Nat.le_of_not_lt long)
      rw [peeked]
      simp only [Option.bind_eq_bind, Option.bind_some]
      rcases stops with cut | spent
      · rw [if_pos cut]
      · rw [if_pos spent, ite_self]

/-- Once something has been taken, the decoding loop goes on while the budget lasts. -/
theorem collect_more (messages : List Message) (small : Small messages)
    (width : offset + messages.length ≤ 2 ^ 64) (low : target ≤ offset) (nonempty : records ≠ [])
    (reach : maxBytes - totalBytes ≤ count) (fuel : Nat)
    (enough : ((encodeAll (numbered offset messages)).take count).length ≤ fuel) :
    collect target maxBytes fuel ((encodeAll (numbered offset messages)).take count)
      records totalBytes = some (records ++
        numbered offset (within (maxBytes - totalBytes) messages)) := by
  induction messages generalizing offset records totalBytes count fuel with
  | nil => cases fuel <;> simp [collect, within, numbered]
  | cons message rest ih =>
    have atLeast : 28 ≤ message.size := recordLen_ge _ _
    have length : (message.record offset).encode.length = message.size := Record.length_encode _
    rw [List.length_cons] at width
    have fits : (message.record offset).Fits :=
      Message.fits_record (small message (by simp)) (by omega)
    rw [numbered, encodeAll_cons, within]
    rw [numbered, encodeAll_cons] at enough
    by_cases room : message.size ≤ maxBytes - totalBytes
    · rw [if_pos room]
      rw [List.take_append, List.take_of_length_le (by omega)] at enough ⊢
      rw [List.length_append, length] at enough
      obtain ⟨fuel, rfl⟩ : ∃ less, fuel = less + 1 := ⟨fuel - 1, by omega⟩
      have unspent : ¬ (totalBytes + recordLen (message.record offset).key
          (message.record offset).value > maxBytes ∧ records ≠ []) := by
        change ¬ (totalBytes + message.size > maxBytes ∧ _)
        omega
      rw [collect_step fits low unspent]
      change collect target maxBytes fuel _ _ (totalBytes + message.size) = _
      rw [length, ih (fun other member => small other (by simp [member])) (by omega) (by omega)
        (by simp) (by omega) fuel (by omega)]
      simp [numbered, Nat.sub_sub]
    · rw [if_neg room]
      have spent : totalBytes + message.size > maxBytes := by omega
      rw [collect_stop fits _ count fuel (.inr ⟨spent, nonempty⟩)]
      simp [numbered]

private theorem le_maxReadSize (maxBytes : Nat) :
    maxBytes ≤ maxReadSize maxBytes ∧ 4 ≤ maxReadSize maxBytes := by
  unfold maxReadSize
  split <;> omega

/-- The decoding loop over the first chunk: everything `fetched` says, unless
not even the first record fits the chunk. -/
private theorem collect_first (message : Message) (back : List Message)
    (small : Small (message :: back)) (width : offset + (message :: back).length ≤ 2 ^ 64)
    (reach : maxBytes ≤ count) : collect offset maxBytes
        (((message.record offset).encode ++ encodeAll (numbered (offset + 1) back)).take
          count).length
        (((message.record offset).encode ++
          encodeAll (numbered (offset + 1) back)).take count) [] 0 =
      some (if message.size ≤ count then numbered offset
        (fetched maxBytes (message :: back)) else []) := by
  have atLeast : 28 ≤ message.size := recordLen_ge _ _
  have length : (message.record offset).encode.length = message.size := Record.length_encode _
  have fits : (message.record offset).Fits := Message.fits_record (small message (by simp))
    (by rw [List.length_cons] at width; omega)
  by_cases whole : message.size ≤ count
  · rw [if_pos whole, List.take_append, List.take_of_length_le (by omega), List.length_append]
    obtain ⟨fuel, enough⟩ :
        ∃ fuel, (message.record offset).encode.length +
          ((encodeAll (numbered (offset + 1) back)).take
            (count - (message.record offset).encode.length)).length = fuel + 1 :=
      Nat.exists_eq_add_one.mpr (by omega)
    have low : offset ≤ (message.record offset).offset := Nat.le_refl _
    rw [enough, collect_step fits low (by simp)]
    rw [List.length_cons] at width
    rw [collect_more back (fun other member => small other (by simp [member])) (by omega) (by simp)
      (by simp) (by change maxBytes - (0 + message.size) ≤ _; omega) fuel (by omega)]
    change some (_ ++ numbered _ (within (maxBytes - (0 + message.size)) back)) = _
    simp [fetched, numbered]
  · rw [if_neg whole, collect_stop fits _ count _ (.inl _)]
    change _ < message.size
    rw [List.length_take]
    omega

private theorem run_readBatch_present (limit : Nat) (syncLevel : SyncLevel)
    (disk : tile.OnDisk world dir) (bounded : tile.Bounded limit) (small : Small tile.messages)
    (shape : tile.messages = front ++ message :: back) (maxBytes : Nat) :
    ∃ cursor, ((tile.segment dir limit syncLevel).readBatch
      (tile.baseOffset + front.length) maxBytes).run
        world =
      (.ok (.ok (numbered (tile.baseOffset + front.length) (fetched maxBytes (message :: back))),
        (tile.moved cursor).segment dir limit syncLevel), world) := by
  have held := disk.log
  rw [Tile.bytes_split shape] at held
  have width := bounded.offsets
  simp only [Tile.nextOffset, shape, List.length_append, List.length_cons] at width
  have fits : (message.record (tile.baseOffset + front.length)).Fits :=
    Message.fits_record (small message (by simp [shape])) (by omega)
  have length : (message.record (tile.baseOffset + front.length)).encode.length = message.size :=
    Record.length_encode _
  have found : (tile.segment dir limit syncLevel).index.lookup
      (tile.baseOffset + front.length) = _ :=
    Tile.lookup_eq shape
  obtain ⟨reach, four⟩ := le_maxReadSize maxBytes
  obtain ⟨cursor, chunk⟩ := run_read_from limit syncLevel disk shape (maxReadSize maxBytes)
  have range : tile.baseOffset + front.length + (message :: back).length ≤ 2 ^ 64 := by
    rw [List.length_cons]
    omega
  have collected := collect_first message back
    (fun other member => small other
      (by rw [shape]; exact List.mem_append_right _ member)) range reach
  unfold readBatch
  rw [if_neg (in_range shape), found]
  simp only
  rw [Program.run_bind_of_run chunk]
  simp only
  rw [collected, Program.run_bind_of_run (Program.run_orPanic_some _ _)]
  by_cases whole : message.size ≤ maxReadSize maxBytes
  · rw [if_pos whole, if_neg (by simp [fetched, numbered])]
    exact ⟨cursor, rfl⟩
  · have filled : (((message.record (tile.baseOffset + front.length)).encode ++
        encodeAll (numbered (tile.baseOffset + front.length + 1) back)).take
          (maxReadSize maxBytes)).length > 0 := by
      rw [List.length_take, List.length_append]
      omega
    have alone : within (maxBytes - message.size) back = [] := by
      rw [show maxBytes - message.size = 0 by omega, within_zero]
    obtain ⟨later, exactly⟩ :=
      run_readWhole held ((tile.moved cursor).segment dir limit syncLevel).logFile rfl fits
    rw [if_neg whole, if_pos ⟨rfl, filled⟩, Program.run_bind_of_run exactly]
    refine ⟨later, ?_⟩
    have due : (message.record (tile.baseOffset + front.length)).offset ≥
        tile.baseOffset + front.length :=
      Nat.le_refl _
    simp only [fetched, alone, numbered]
    rw [if_pos due]
    rfl

/-- `read_batch` returns a run of records from the offset on, as long as the budget allows. -/
theorem run_readBatch (limit : Nat) (syncLevel : SyncLevel) (disk : tile.OnDisk world dir)
    (bounded : tile.Bounded limit) (small : Small tile.messages) (low : tile.baseOffset ≤ offset)
    (maxBytes : Nat) :
    ∃ cursor, ((tile.segment dir limit syncLevel).readBatch offset maxBytes).run world =
      (.ok (.ok (numbered offset (fetched maxBytes
        (tile.messages.drop (offset - tile.baseOffset)))),
        (tile.moved cursor).segment dir limit syncLevel), world) := by
  by_cases inside : offset < tile.nextOffset
  · obtain ⟨front, message, back, shape, rfl⟩ := Tile.exists_split low inside
    have rest : tile.messages.drop (tile.baseOffset + front.length - tile.baseOffset) =
        message :: back := by
      rw [shape, Nat.add_sub_cancel_left, List.drop_left]
    rw [rest]
    exact run_readBatch_present limit syncLevel disk bounded small shape maxBytes
  · have outside : tile.messages.drop (offset - tile.baseOffset) = [] := by
      unfold Tile.nextOffset at inside
      exact List.drop_eq_nil_of_le (by omega)
    refine ⟨tile.cursor, ?_⟩
    unfold readBatch
    rw [if_pos (by simp only [Tile.segment]; omega), outside]
    rfl

/-! ## Reads of any log -/

/-- Whatever the log holds, a read looks at nothing else and leaves the segment
as it was apart from the cursor of its log. -/
def Reads (program : Program (α × Segment)) (segment : Segment) : Prop :=
  program.Reading segment.logFile.path fun answer =>
    ∃ cursor, answer.2 = { segment with logFile := { segment.logFile with cursor := cursor } }

private theorem reads_readWhole (logFile : File) (position : Nat) :
    File.Reads (readWhole logFile position) logFile := by
  refine Program.Reading.bind (File.reads_readExact _ 4) ?_
  rintro ⟨reply, first⟩ ⟨cursor, rfl⟩
  cases reply with
  | error error => exact ⟨cursor, rfl⟩
  | ok lenBuf =>
    simp only
    split
    · exact rfl
    refine Program.Reading.bind (File.reads_readExact _ _) ?_
    rintro ⟨reply, second⟩ ⟨cursor, rfl⟩
    cases reply with
    | error error => exact ⟨cursor, rfl⟩
    | ok body => exact Program.Reading.bind_orPanic fun _ => ⟨cursor, rfl⟩

theorem reads_readAt (segment : Segment) (offset : Nat) :
    Reads (segment.readAt offset) segment := by
  unfold readAt
  split
  · exact ⟨segment.logFile.cursor, rfl⟩
  split
  · exact ⟨segment.logFile.cursor, rfl⟩
  refine Program.Reading.bind (File.reads_read (segment.logFile.seekStart _) _) ?_
  rintro ⟨reply, logFile⟩ ⟨cursor, rfl⟩
  cases reply with
  | error error => exact ⟨cursor, rfl⟩
  | ok buf =>
    refine Program.Reading.bind_orPanic ?_
    rintro ⟨decoded, rest⟩
    cases decoded with
    | error error => exact ⟨cursor, rfl⟩
    | ok found =>
      simp only
      split
      · exact ⟨cursor, rfl⟩
      · refine Program.Reading.bind (reads_readWhole _ _) ?_
        rintro ⟨answer, moved⟩ ⟨cursor, rfl⟩
        exact ⟨cursor, rfl⟩

theorem reads_readBatch (segment : Segment) (offset maxBytes : Nat) :
    Reads (segment.readBatch offset maxBytes) segment := by
  unfold readBatch
  split
  · exact ⟨segment.logFile.cursor, rfl⟩
  split
  · exact ⟨segment.logFile.cursor, rfl⟩
  refine Program.Reading.bind (File.reads_read (segment.logFile.seekStart _) _) ?_
  rintro ⟨reply, logFile⟩ ⟨cursor, rfl⟩
  cases reply with
  | error error => exact ⟨cursor, rfl⟩
  | ok buf =>
    refine Program.Reading.bind_orPanic fun records => ?_
    split
    · refine Program.Reading.bind (reads_readWhole _ _) ?_
      rintro ⟨answer, moved⟩ ⟨cursor, rfl⟩
      cases answer with
      | error error => exact ⟨cursor, rfl⟩
      | ok found => cases found <;> exact ⟨cursor, rfl⟩
    · exact ⟨cursor, rfl⟩

/-! ## Recovery -/

/-- The recovery loop reads every whole record and stops at a torn one. With
`rebuildIndex` it writes the index entries on its way. -/
theorem run_recover (rebuildIndex : Bool) (messages : List Message) (small : Small messages)
    (width : offset + messages.length < 2 ^ 64) (torn : Record.decode tail = some (.ok none, tail))
    (old : List IndexEntry) (held : world.file? path = some (encodeEntries old))
    (validBytes fuel : Nat) (enough : messages.length ≤ fuel) :
    (recover rebuildIndex fuel (encodeAll (numbered offset messages) ++ tail) offset validBytes
        (Index.holding path old)).run world =
      (.ok (.ok (offset + messages.length,
        validBytes + (encodeAll (numbered offset messages)).length,
        Index.holding path (old ++ if rebuildIndex then positions validBytes
          (numbered offset messages) else []))),
          world.put path (encodeEntries
            (old ++ if rebuildIndex then positions validBytes
              (numbered offset messages) else []))) := by
  induction messages generalizing offset validBytes old world fuel with
  | nil =>
    cases fuel with
    | zero => simp [recover, numbered, positions, World.put_held held]
    | succ fuel =>
      simp only [recover, numbered, encodeAll_nil, List.nil_append, torn]
      rw [Program.run_bind_of_run (Program.run_orPanic_some _ _)]
      simp [positions, World.put_held held]
  | cons message rest ih =>
    obtain ⟨fuel, rfl⟩ : ∃ less, fuel = less + 1 :=
      ⟨fuel - 1, by rw [List.length_cons] at enough; omega⟩
    rw [List.length_cons] at width enough
    have fits : (message.record offset).Fits :=
      Message.fits_record (small message (by simp)) (by omega)
    have smallRest : Small rest := fun other member => small other (by simp [member])
    have consumed : ((message.record offset).encode ++
        (encodeAll (numbered (offset + 1) rest) ++ tail)).length -
          (encodeAll (numbered (offset + 1) rest) ++ tail).length =
            (message.record offset).encode.length := by
      rw [List.length_append]
      omega
    rw [numbered, encodeAll_cons, List.append_assoc, recover, Record.decode_encode fits,
      Program.run_bind_of_run (Program.run_orPanic_some _ _)]
    have next : ∀ after : World, (Program.checked (2 ^ 64)
        ((message.record offset).offset + 1)).run after = (.ok (offset + 1), after) :=
      fun after => Program.run_checked (show offset + 1 < 2 ^ 64 by omega) after
    have shift : offset + 1 + rest.length = offset + (rest.length + 1) := by omega
    simp only [consumed]
    cases rebuildIndex with
    | false =>
      simp only [Bool.false_eq_true, ↓reduceIte]
      rw [Program.run_bind_of_run (Program.run_pure _ _)]
      simp only
      rw [Program.run_bind_of_run (next _), ih smallRest (by omega) old held _ fuel (by omega)]
      simp [shift, Nat.add_assoc]
    | true =>
      simp only [↓reduceIte]
      rw [Program.run_bind_of_run (Index.run_append held _ _)]
      simp only
      rw [Program.run_bind_of_run (next _),
        ih smallRest (by omega) _ (World.file?_put _ _ _) _ fuel (by omega)]
      simp [shift, Nat.add_assoc, positions]

/-- The entries a load ends up with: those of the file, or of the log when the
file had none. -/
def recoveredEntries (tile : Tile) (old : List IndexEntry) : List IndexEntry :=
  if old = [] then tile.entries else old

private theorem rebuilt_entries (tile : Tile) (old : List IndexEntry) (tail : Bytes) :
    (old ++ if ((Index.holding path old).entryCount =
      0 && (tile.bytes ++ tail).length > 0 : Bool) then
      positions 0 tile.records else []) = recoveredEntries tile old := by
  unfold recoveredEntries
  by_cases empty : old = []
  · subst empty
    by_cases length : (tile.bytes ++ tail).length > 0
    · simp only [Index.holding, Index.entryCount, length, List.length_nil, decide_true,
        Bool.and_self, ↓reduceIte, List.nil_append, Tile.entries]
    · have nothing : tile.messages = [] := by
        refine Decidable.byContradiction fun held => length ?_
        have positive := Tile.bytes_length_pos held
        rw [List.length_append]
        omega
      simp [Tile.entries, Tile.records, nothing, numbered, positions]
  · have counted : (Index.holding path old).entryCount ≠ 0 := by
      simpa [Index.holding, Index.entryCount] using empty
    simp [counted, empty]

theorem length_messages_le (tile : Tile) (tail : Bytes) :
    tile.messages.length ≤ (tile.bytes ++ tail).length := by
  have least := length_le_encodeAll (numbered tile.baseOffset tile.messages)
  rw [length_numbered] at least
  rw [List.length_append]
  exact Nat.le_trans least (Nat.le_add_right _ _)

/-- `Segment::load` once the index file has been dealt with. -/
theorem run_load_from (maxBytes : Nat) (syncLevel : SyncLevel) (small : Small tile.messages)
    (width : tile.nextOffset < 2 ^ 64) (torn : Record.decode tail = some (.ok none, tail))
    (old : List IndexEntry)
    (found : world.file? (logPath dir tile.baseOffset) = some (tile.bytes ++ tail))
    (loaded : (loadIndex (indexPath dir tile.baseOffset)).run world =
      (.ok (.ok (Index.holding (indexPath dir tile.baseOffset) old)), after))
    (log : after.file? (logPath dir tile.baseOffset) = some (tile.bytes ++ tail))
    (index : after.file? (indexPath dir tile.baseOffset) = some (encodeEntries old)) :
    (load dir tile.baseOffset maxBytes syncLevel).run world =
      (.ok (.ok { tile.reopened.segment dir maxBytes syncLevel with
          index := Index.holding (indexPath dir tile.baseOffset) (recoveredEntries tile old) }),
        (after.put (indexPath dir tile.baseOffset) (encodeEntries (recoveredEntries tile old))).put
          (logPath dir tile.baseOffset) tile.bytes) := by
  have opened : (File.openWith (logPath dir tile.baseOffset) {}).run world =
      (.ok (.ok ⟨logPath dir tile.baseOffset, false, 0⟩), world) :=
    File.run_openWith_existing found (logPath_ne_nil dir _) _
  have start : (File.seekStart ⟨logPath dir tile.baseOffset, false, 0⟩ 0).path =
    logPath dir tile.baseOffset := rfl
  have recovered : (recover ((Index.holding (indexPath dir tile.baseOffset) old).entryCount = 0 &&
      (tile.bytes ++ tail).length > 0) (tile.bytes ++ tail).length (tile.bytes ++ tail)
        tile.baseOffset 0
      (Index.holding (indexPath dir tile.baseOffset) old)).run after =
      (.ok (.ok (tile.nextOffset, tile.bytes.length,
        Index.holding (indexPath dir tile.baseOffset) (recoveredEntries tile old))),
        after.put (indexPath dir tile.baseOffset) (encodeEntries (recoveredEntries tile old))) := by
    have ran := run_recover ((Index.holding (indexPath dir tile.baseOffset) old).entryCount = 0 &&
      (tile.bytes ++ tail).length > 0) tile.messages small width torn old index 0 _
        (length_messages_le tile tail)
    rw [show numbered tile.baseOffset tile.messages = tile.records from rfl, rebuilt_entries,
      Nat.zero_add] at ran
    exact ran
  have held : (after.put (indexPath dir tile.baseOffset)
      (encodeEntries (recoveredEntries tile old))).file? (logPath dir tile.baseOffset) =
      some (tile.bytes ++ tail) := by
    rw [World.file?_put_ne _ _ (logPath_ne_indexPath dir _ _), log]
  have cut : ∀ cursor, ((if tile.bytes.length < (tile.bytes ++ tail).length then
      (⟨logPath dir tile.baseOffset, false, cursor⟩ : File).setLen tile.bytes.length
      else pure (.ok ())) : Program (Except IoError Unit)).run
      (after.put (indexPath dir tile.baseOffset) (encodeEntries (recoveredEntries tile old))) =
      (.ok (.ok ()), (after.put (indexPath dir tile.baseOffset)
        (encodeEntries (recoveredEntries tile old))).put (logPath dir tile.baseOffset)
          tile.bytes) := by
    intro cursor
    split
    · rename_i longer
      rw [File.run_setLen held rfl (Nat.le_of_lt longer), List.take_left]
    · rename_i whole
      have empty : tail = [] := by
        rw [List.length_append] at whole
        exact List.length_eq_zero_iff.mp (by omega)
      rw [empty, List.append_nil] at held
      rw [Program.run_pure, World.put_held held]
  unfold load
  rw [Program.run_bind_of_run opened]
  simp only
  rw [Program.run_bind_of_run loaded]
  simp only
  rw [Program.run_bind_of_run (File.run_len log rfl)]
  simp only
  rw [Program.run_bind_of_run (File.run_readToEnd log start)]
  simp only [File.seekStart, List.drop_zero, Nat.zero_add]
  rw [Program.run_bind_of_run recovered]
  simp only
  rw [Program.run_bind_of_run (cut _)]
  simp only
  rw [Program.run_bind_of_run (File.run_seekEnd (World.file?_put _ _ _) rfl)]
  rfl

/-- Index entries of a bounded segment fit their file. -/
theorem fits_entries (bounded : tile.Bounded limit) : ∀ entry ∈ tile.entries, entry.Fits := by
  intro entry member
  obtain ⟨⟨record, found, same⟩, inside⟩ := positions_bounds member
  have offsets := bounded.offsets
  have bytes := bounded.width
  have bounds := numbered_offset_bounds found
  unfold Tile.nextOffset at offsets
  rw [Nat.zero_add] at inside
  exact ⟨by omega, Nat.lt_trans inside bytes⟩

/-- The index file of a segment that was closed properly is used as it is. -/
private theorem run_loadIndex_whole (disk : tile.OnDisk world dir) (bounded : tile.Bounded limit) :
    (loadIndex (indexPath dir tile.baseOffset)).run world =
      (.ok (.ok (Index.holding (indexPath dir tile.baseOffset) tile.entries)), world) := by
  unfold loadIndex
  rw [Program.run_bind_of_run
    (Index.run_load tile.entries disk.index (indexPath_ne_nil dir _) (fits_entries bounded))]
  rfl

/-- Loading a segment that was closed properly gives it back and changes nothing. -/
theorem run_load (maxBytes : Nat) (syncLevel : SyncLevel) (disk : tile.OnDisk world dir)
    (bounded : tile.Bounded limit) (small : Small tile.messages) :
    (load dir tile.baseOffset maxBytes syncLevel).run world =
      (.ok (.ok (tile.reopened.segment dir maxBytes syncLevel)), world) := by
  have log : world.file? (logPath dir tile.baseOffset) = some (tile.bytes ++ []) := by
    rw [List.append_nil, disk.log]
  have same : recoveredEntries tile tile.entries = tile.entries := by
    unfold recoveredEntries
    split
    · rfl
    · rfl
  rw [run_load_from maxBytes syncLevel small bounded.offsets rfl tile.entries log
    (run_loadIndex_whole disk bounded) log disk.index, same, World.put_held disk.index,
    World.put_held disk.log]
  rfl

end Segment

/-- Any first part of some encoded records is whole records and a torn one. -/
theorem take_encodeAll (messages : List Message) (small : Small messages)
    (width : offset + messages.length ≤ 2 ^ 64) (count : Nat) :
    ∃ whole rest tail, messages = whole ++ rest ∧ Record.decode tail = some (.ok none, tail) ∧
      (encodeAll (numbered offset messages)).take count =
        encodeAll (numbered offset whole) ++ tail := by
  induction messages generalizing offset count with
  | nil => exact ⟨[], [], [], rfl, rfl, by simp [numbered]⟩
  | cons message rest ih =>
    rw [List.length_cons] at width
    have fits : (message.record offset).Fits :=
      Message.fits_record (small message (by simp)) (by omega)
    by_cases short : count < (message.record offset).encode.length
    · refine ⟨[], message :: rest, (message.record offset).encode.take count, rfl,
        Record.decode_torn fits count short, ?_⟩
      simp only [numbered, encodeAll_cons, encodeAll_nil, List.nil_append]
      rw [List.take_append_of_le_length (Nat.le_of_lt short)]
    · have shorter : offset + 1 + rest.length ≤ 2 ^ 64 := by omega
      obtain ⟨whole, after, tail, shape, torn, part⟩ :=
        ih (fun other member => small other (by simp [member])) shorter
          (count - (message.record offset).encode.length)
      refine ⟨message :: whole, after, tail, by rw [shape]; rfl, torn, ?_⟩
      rw [numbered, encodeAll_cons, List.take_append, List.take_of_length_le (by omega), part,
        numbered, encodeAll_cons, List.append_assoc]

end Ruka
