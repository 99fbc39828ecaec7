import Mathlib.Data.List.Induction
import Ruka.PartitionOpening

/-! Runs of a partition: any sequence of calls, with or without restarts in
between, and the append-only list such a run is about. -/
namespace Ruka
open BigEndian LexicalPaths FilePrograms

/-- The calls on an open partition. -/
inductive Request where
  | append (key value : Option Bytes)
  | appendBatch (payloads : List Bytes)
  | read (offset : Nat)
  | readBatch (offset maxBytes : Nat)
  deriving DecidableEq

inductive Answer where
  | offset (result : Except RukaError Nat)
  | record (result : Except RukaError (Option Record))
  | records (result : Except RukaError (List Record))
  deriving DecidableEq

def Partition.serve (self : Partition) : Request → Program (Answer × Partition)
  | .append key value => do
    let (result, self) ← self.append key value
    pure (.offset result, self)
  | .appendBatch payloads => do
    let (result, self) ← self.appendBatch payloads
    pure (.offset result, self)
  | .read offset => do
    let (result, self) ← self.read offset
    pure (.record result, self)
  | .readBatch offset maxBytes => do
    let (result, self) ← self.readBatch offset maxBytes
    pure (.records result, self)

namespace Request

/-- Whether the call appends to the log. -/
def Writes : Request → Prop
  | .append .. => True
  | .appendBatch _ => True
  | .read _ => False
  | .readBatch .. => False

/-- The call writes into a segment of this size, rather than into a new one or
not at all. -/
def Lands (limit size : Nat) : Request → Prop
  | .append key value => size + recordLen key value ≤ limit
  | .appendBatch payloads => Segment.Begins limit size payloads
  | .read _ => False
  | .readBatch .. => False

instance (request : Request) : Decidable (request.Lands limit size) := by
  cases request <;> unfold Lands <;> infer_instance

/-- The call hands in no record of `2 ^ 32` bytes or more. -/
def Small : Request → Prop
  | .append key value => recordLen key value < 2 ^ 32
  | .appendBatch payloads => ∀ payload ∈ payloads, 28 + payload.length < 2 ^ 32
  | .read _ => True
  | .readBatch .. => True

instance (request : Request) : Decidable request.Small := by
  cases request <;> unfold Small <;> infer_instance

/-- How many records the call hands in. -/
def count : Request → Nat
  | .append .. => 1
  | .appendBatch payloads => payloads.length
  | .read _ => 0
  | .readBatch .. => 0

end Request

/-- A key and a value, either of which may be missing. -/
abbrev Content := Option Bytes × Option Bytes

/-- The bytes a record of this content takes in a log. -/
def contentSize (content : Content) : Nat := recordLen content.1 content.2

def batchContent (payloads : List Bytes) : List Content :=
  payloads.map fun payload => (none, some payload)

/-- The contents a call hands in. -/
def Request.contents : Request → List Content
  | .append key value => [(key, value)]
  | .appendBatch payloads => batchContent payloads
  | .read _ => []
  | .readBatch .. => []

/-- What a partition is for: one call on an append-only list. It refuses records
that do not fit into a segment of `limit` bytes, and a batch from the first such
record on at the latest. -/
inductive LogStep (limit : Nat) (log : List Content) : Request → Answer → List Content → Prop
  | appended (key value : Option Bytes) :
      LogStep limit log (.append key value) (.offset (.ok log.length)) (log ++ [(key, value)])
  | refused (key value : Option Bytes) (large : limit < recordLen key value) :
      LogStep limit log (.append key value) (.offset (.error .messageTooLarge)) log
  | batchAppended (payloads : List Bytes) :
      LogStep limit log (.appendBatch payloads) (.offset (.ok log.length))
        (log ++ batchContent payloads)
  | batchRefused (taken rest : List Bytes) (large : ∃ payload ∈ rest, limit < 28 + payload.length) :
      LogStep limit log (.appendBatch (taken ++ rest)) (.offset (.error .messageTooLarge))
        (log ++ batchContent taken)
  | found (record : Record) (held : log[record.offset]? = some (record.key, record.value)) :
      LogStep limit log (.read record.offset) (.record (.ok (some record))) log
  | missing (offset : Nat) (beyond : log.length ≤ offset) :
      LogStep limit log (.read offset) (.record (.ok none)) log
  | fetched (offset maxBytes : Nat) (records : List Record)
      (truthful : ∀ record ∈ records, log[record.offset]? = some (record.key, record.value))
      (onward : Onward offset records)
      (first : maxBytes ≠ 0 → ∀ content ∈ log[offset]?, ∃ record rest,
        records = record :: rest ∧ record.offset = offset ∧ (record.key, record.value) = content) :
      LogStep limit log (.readBatch offset maxBytes) (.records (.ok records)) log

/-- Calls and their answers explained by an append-only list that starts empty. -/
inductive LogRun (limit : Nat) : List (Request × Answer) → List Content → Prop
  | empty : LogRun limit [] []
  | step (run : LogRun limit history log) (taken : LogStep limit log request answer grown) :
      LogRun limit (history ++ [(request, answer)]) grown

/-- The directory and configuration a partition is opened with. -/
structure Settings where
  topic : String
  id : UInt32
  baseDir : Path
  maxSegmentBytes : Nat

namespace Settings

def dir (settings : Settings) : Path := partitionDir settings.baseDir settings.topic settings.id

def openOrCreate (settings : Settings) (readDir : Path → List Name) (syncLevel : SyncLevel) :
    Program (Except RukaError Partition) :=
  Partition.openOrCreate readDir settings.topic settings.id settings.baseDir
    settings.maxSegmentBytes syncLevel

/-- A partition with these settings, before it has any segment. -/
def frame (settings : Settings) (syncLevel : SyncLevel) : Partition :=
  ⟨settings.topic, settings.id, settings.dir, [], settings.maxSegmentBytes, syncLevel⟩

end Settings

/-- The states a partition can reach from an empty directory: `restarts` says
whether it may be dropped and opened again, `meets` what holds before a call. -/
inductive Life (settings : Settings) (restarts : Prop) (meets : Partition → Request → Prop) :
    World → Partition → List (Request × Answer) → Prop
  | opened (readDir : Path → List Name) (syncLevel : SyncLevel)
      (vacant : Vacant before settings.dir)
      (enumerates : Enumerates before settings.dir (readDir settings.dir))
      (ran : (settings.openOrCreate readDir syncLevel).run before = (.ok (.ok partition), world)) :
      Life settings restarts meets world partition []
  | served (life : Life settings restarts meets world partition history)
      (met : meets partition request)
      (ran : (partition.serve request).run world = (.ok (answer, result), after)) :
      Life settings restarts meets after result (history ++ [(request, answer)])
  | restarted (life : Life settings restarts meets world partition history) (allowed : restarts)
      (readDir : Path → List Name) (syncLevel : SyncLevel)
      (enumerates : Enumerates world settings.dir (readDir settings.dir))
      (ran : (settings.openOrCreate readDir syncLevel).run world = (.ok (.ok result), after)) :
      Life settings restarts meets after result history

/-- One process lifetime. -/
abbrev Session (settings : Settings) := Life settings False fun _ _ => True

/-- The list a layout stands for. -/
def logOf (tiles : List Tile) : List Content := (contents tiles).map Message.content

@[simp] theorem length_logOf (tiles : List Tile) :
    (logOf tiles).length = (contents tiles).length := by
  simp [logOf]

theorem logOf_fresh (tiles : List Tile) (baseOffset : Nat) :
    logOf (tiles ++ [Tile.fresh baseOffset]) = logOf tiles := by
  rw [logOf, contents_fresh, logOf]

theorem logOf_extend (front : List Tile) (last : Tile) (more : List Message) :
    logOf (front ++ [last.extend more]) = logOf (front ++ [last]) ++ more.map Message.content := by
  rw [logOf, contents_extend, List.map_append, logOf]

theorem Small.append (first : Small messages) (second : Small more) : Small (messages ++ more) := by
  intro message member
  rcases List.mem_append.mp member with before | added
  · exact first message before
  · exact second message added

/-- The messages of a batch are as small as its payloads. -/
theorem small_of_batch (small : ∀ payload ∈ payloads, 28 + payload.length < 2 ^ 32)
    (same : more.map Message.content = batchContent payloads) : Small more := by
  intro message member
  have image : message.content ∈ batchContent payloads := same ▸ List.mem_map_of_mem member
  obtain ⟨payload, found, equal⟩ := List.mem_map.mp image
  simp only [Message.content, Prod.mk.injEq] at equal
  have size := small payload found
  simp only [Message.size, recordLen, ← equal.1, ← equal.2, fieldLen, Option.map_none,
    Option.map_some, Option.getD_none, Option.getD_some]
  omega

/-- What one call leaves behind. -/
structure Served (world : World) (partition : Partition) (tiles : List Tile) (request : Request)
    (reply : Answer × Partition) (after : World) (others : List Tile) : Prop where
  result : reply.2 = partition.withTiles others
  filed : Filed after partition.baseDir partition.maxSegmentBytes others
  mode : AppendMode tiles → AppendMode others
  outside : World.SameOutside partition.baseDir world after
  small : Small (contents tiles) → request.Small → Small (contents others)
  explained : Small (contents tiles) →
    LogStep partition.maxSegmentBytes (logOf tiles) request reply.1 (logOf others)

/-- A call failed because a directory stands in the place of a new segment. -/
def Blocked (world : World) (partition : Partition) (answer : Answer) : Prop :=
  world.Nests partition.baseDir ∧ ∃ error, answer = .offset (.error (.io error))

namespace Partition
variable {world after : World} {partition : Partition} {tiles front : List Tile} {last : Tile}

private theorem served_of_grown (grown : Grown world partition tiles more after result)
    (small : Ruka.Small (contents tiles) → request.Small → Ruka.Small more)
    (explained : LogStep partition.maxSegmentBytes (logOf tiles) request answer
      (logOf tiles ++ more.map Message.content)) :
    ∃ others, Served world partition tiles request (answer, result) after others := by
  obtain ⟨others, shape, filed, appended, mode, outside, -⟩ := grown
  refine ⟨others, shape, filed, mode, outside, fun before handed => ?_, fun _ => ?_⟩
  · rw [appended]
    exact before.append (small before handed)
  · simpa [logOf, appended] using explained

private theorem append_served
    (filed : Filed world partition.baseDir partition.maxSegmentBytes (front ++ [last]))
    (key value : Option Bytes)
    (atEnd : last.bytes.length + recordLen key value ≤ partition.maxSegmentBytes → last.AtEnd) :
    ((partition.withTiles (front ++ [last])).serve (.append key value)).Ensures world
      (Segment.Overflows partition.maxSegmentBytes (contents (front ++ [last])).length 1)
        fun reply after =>
        Blocked world partition reply.1 ∨
          ∃ others, Served world partition (front ++ [last]) (.append key value) reply
            after others := by
  apply Program.ensures_bind (append_ensures filed key value atEnd)
  rintro ⟨result, self⟩ after ended
  apply Program.ensures_of_run rfl
  cases ended with
  | tooLarge large =>
    exact .inr ⟨front ++ [last], rfl, filed, fun mode => mode, .refl _ _, fun small _ => small,
      fun _ => .refused key value large⟩
  | blocked nests error => exact .inl ⟨nests, error, rfl⟩
  | stored stamp grown =>
    refine .inr (served_of_grown grown (fun _ small message member => ?_) ?_)
    · rw [List.mem_singleton.mp member]
      exact small
    · rw [← length_logOf]
      exact .appended key value

private theorem batch_served
    (filed : Filed world partition.baseDir partition.maxSegmentBytes (front ++ [last]))
    (payloads : List Bytes)
    (atEnd : Segment.Begins partition.maxSegmentBytes last.bytes.length payloads → last.AtEnd) :
    ((partition.withTiles (front ++ [last])).serve (.appendBatch payloads)).Ensures world
      (Segment.Overflows partition.maxSegmentBytes (contents (front ++ [last])).length
        payloads.length)
      fun reply after => Blocked world partition reply.1 ∨
        ∃ others, Served world partition (front ++ [last]) (.appendBatch payloads) reply
          after others := by
  apply Program.ensures_bind (appendBatch_ensures filed payloads atEnd)
  rintro ⟨result, self⟩ after ended
  apply Program.ensures_of_run rfl
  cases ended with
  | tooLarge shape large same grown whole =>
    subst shape
    refine .inr (served_of_grown grown (fun _ small => small_of_batch
      (fun payload member => small payload (List.mem_append_left _ member)) same) ?_)
    rw [same]
    exact .batchRefused _ _ large
  | blocked nests error => exact .inl ⟨nests, error, rfl⟩
  | stored same grown =>
    refine .inr (served_of_grown grown (fun _ small => small_of_batch small same) ?_)
    rw [same, Option.getD_none, ← length_logOf]
    exact .batchAppended payloads

private theorem logStep_read (limit : Nat) (tiles : List Tile) (offset : Nat) :
    LogStep limit (logOf tiles) (.read offset)
      (.record (.ok ((contents tiles)[offset]?.map (·.record offset)))) (logOf tiles) := by
  cases held : (contents tiles)[offset]? with
  | none =>
    refine .missing offset ?_
    rw [length_logOf]
    exact List.getElem?_eq_none_iff.mp held
  | some message =>
    refine .found (message.record offset) ?_
    change (logOf tiles)[offset]? = _
    simp only [logOf, List.getElem?_map, held]
    rfl

/-- A batch read gives records of the log, and the one it was asked for first. -/
private theorem logStep_readBatch {back : List Tile} {tile : Tile}
    (filed : Filed world dir limit (front ++ tile :: back)) (low : tile.baseOffset ≤ offset)
    (high : ∀ later ∈ back, offset < later.baseOffset) (maxBytes : Nat) :
    LogStep limit (logOf (front ++ tile :: back)) (.readBatch offset maxBytes)
      (.records (.ok (fetchAcross (tile :: back) offset maxBytes [])))
        (logOf (front ++ tile :: back)) := by
  have onward := onward_fetchAcross filed.tiled.from_block low high maxBytes
  refine .fetched offset maxBytes _ (fun record member => ?_) onward fun nonzero content held => ?_
  · have lowest : ∀ first ∈ (tile :: back).head?, first.baseOffset ≤ offset := by simpa using low
    rcases mem_fetchAcross lowest member with empty | ⟨other, listed, found⟩
    · cases empty
    · obtain ⟨message, there, same⟩ :=
        getElem?_contents filed (List.mem_append_right _ listed) found
      rw [logOf, List.getElem?_map, Option.mem_def.mp there, same]
      rfl
  · rw [logOf, List.getElem?_map] at held
    obtain ⟨message, there, rfl⟩ := Option.map_eq_some_iff.mp held
    obtain ⟨rest, shape⟩ := fetchAcross_head filed low high nonzero there
    exact ⟨_, rest, shape, rfl, rfl⟩

private theorem served_of_moved
    (filed : Filed world partition.baseDir partition.maxSegmentBytes tiles)
    (same : SameTiles tiles others)
    (explained : Ruka.Small (contents tiles) →
      LogStep partition.maxSegmentBytes (logOf tiles) request answer (logOf tiles)) :
      Served world partition tiles request (answer, partition.withTiles others) world others where
  result := rfl
  filed := filed.of_sameLogs same.sameLogs
  mode := same.appendMode
  outside := .refl _ _
  small := fun small _ => same.sameLogs.contents ▸ small
  explained := by
    have log : logOf others = logOf tiles :=
      congrArg (List.map Message.content) same.sameLogs.contents
    rw [log]
    exact explained

private theorem read_served (filed : Filed world partition.baseDir partition.maxSegmentBytes tiles)
    (offset : Nat) :
    ((partition.withTiles tiles).serve (.read offset)).Ensures world (¬ Ruka.Small (contents tiles))
      fun reply after =>
        ∃ others, Served world partition tiles (.read offset) reply after others := by
  by_cases small : Ruka.Small (contents tiles)
  · obtain ⟨others, same, ran⟩ := run_read filed small offset
    exact Program.ensures_bind_of_run ran (Program.ensures_of_run rfl
      ⟨others, served_of_moved filed same fun _ => logStep_read _ tiles offset⟩)
  · refine Program.ensures_bind ((reads_read partition tiles offset world).mono (fun _ => small)
      fun _ _ read => read) ?_
    rintro ⟨answer, self⟩ after ⟨rfl, others, same, rfl⟩
    exact Program.ensures_of_run rfl ⟨others,
      served_of_moved filed same fun all => absurd all small⟩

private theorem readBatch_served
    (filed : Filed world partition.baseDir partition.maxSegmentBytes tiles)
    (offset maxBytes : Nat) :
    ((partition.withTiles tiles).serve (.readBatch offset maxBytes)).Ensures world
      (¬ Ruka.Small (contents tiles)) fun reply after =>
        ∃ others, Served world partition tiles (.readBatch offset maxBytes) reply after others := by
  by_cases small : Ruka.Small (contents tiles)
  · obtain ⟨front, tile, back, rfl, low, high⟩ := filed.tiled.exists_floor (Nat.zero_le offset)
    obtain ⟨others, same, ran⟩ := run_readBatch filed small low high maxBytes
    exact Program.ensures_bind_of_run ran (Program.ensures_of_run rfl
      ⟨others, served_of_moved filed same fun _ => logStep_readBatch filed low high maxBytes⟩)
  · refine Program.ensures_bind
      ((reads_readBatch partition tiles offset maxBytes world).mono (fun _ => small)
        fun _ _ read => read) ?_
    rintro ⟨answer, self⟩ after ⟨rfl, others, same, rfl⟩
    exact Program.ensures_of_run rfl ⟨others,
      served_of_moved filed same fun all => absurd all small⟩

/-- Every call is answered as the abstract list says, fails on a directory in
the way of a new segment, or stops the process because a record in the log is
too long to read or a counter runs over. -/
theorem serve_ensures (partition : Partition)
    (filed : Filed world partition.baseDir partition.maxSegmentBytes tiles) (request : Request)
    (atEnd : ∀ last ∈ tiles.getLast?, request.Lands partition.maxSegmentBytes last.bytes.length →
      last.AtEnd) :
    ((partition.withTiles tiles).serve request).Ensures world
      (¬ Ruka.Small (contents tiles) ∨
        Segment.Overflows partition.maxSegmentBytes (contents tiles).length request.count)
      fun reply after => Blocked world partition reply.1 ∨
        ∃ others, Served world partition tiles request reply after others := by
  obtain ⟨front, last, rfl⟩ : ∃ front last, tiles = front ++ [last] :=
    ⟨_, _, (List.dropLast_append_getLast filed.tiled.nonempty).symm⟩
  cases request with
  | append key value =>
    exact (append_served filed key value (atEnd last (by simp))).mono .inr fun _ _ served => served
  | appendBatch payloads =>
    exact (batch_served filed payloads (atEnd last (by simp))).mono .inr fun _ _ served => served
  | read offset => exact (read_served filed offset).mono .inl fun _ _ served => .inr served
  | readBatch offset maxBytes =>
    exact (readBatch_served filed offset maxBytes).mono .inl fun _ _ served => .inr served

/-- A partition alone in its directory is never blocked, and stays alone. -/
theorem serve_ensures_alone (partition : Partition)
    (layout : Layout world partition.baseDir partition.maxSegmentBytes tiles)
    (request : Request)
    (atEnd : ∀ last ∈ tiles.getLast?, request.Lands partition.maxSegmentBytes last.bytes.length →
      last.AtEnd) :
    ((partition.withTiles tiles).serve request).Ensures world
      (¬ Ruka.Small (contents tiles) ∨
        Segment.Overflows partition.maxSegmentBytes (contents tiles).length request.count)
      fun reply after => ∃ others, Served world partition tiles request reply after others ∧
        Layout after partition.baseDir partition.maxSegmentBytes others := by
  refine (serve_ensures partition layout.toFiled request atEnd).mono (fun trap => trap) ?_
  rintro reply after (⟨nests, -⟩ | ⟨others, served⟩)
  · exact absurd nests layout.sole
  · exact ⟨others, served, layout.of_filed served.filed served.outside⟩

end Partition

/-- Before a call that writes into the active segment, the handle of its log is in
append mode, or its cursor is where the log ends. -/
def Unmoved (partition : Partition) (request : Request) : Prop :=
  ∀ active ∈ partition.segments.getLast?, request.Lands active.maxBytes active.currentSize →
    active.logFile.append = true ∨ active.logFile.cursor = active.currentSize

instance (partition : Partition) (request : Request) : Decidable (Unmoved partition request) := by
  unfold Unmoved
  infer_instance

/-- What a run keeps: the partition and its disk stand for an append-only list
that explains every answer so far. -/
structure Kept (settings : Settings) (restarts : Prop) (world : World) (partition : Partition)
    (history : List (Request × Answer)) (syncLevel : SyncLevel) (tiles : List Tile) : Prop where
  shape : partition = (settings.frame syncLevel).withTiles tiles
  layout : Layout world settings.dir settings.maxSegmentBytes tiles
  mode : ¬ restarts → AppendMode tiles
  small : (∀ call ∈ history, call.1.Small) → Small (contents tiles)
  explained : (∀ call ∈ history, call.1.Small) →
    LogRun settings.maxSegmentBytes history (logOf tiles)

namespace Kept
variable {settings : Settings} {world after : World} {partition result : Partition}
  {tiles : List Tile}

theorem atEnd (kept : Kept settings restarts world partition history syncLevel tiles)
    (safe : ¬ restarts ∨ Unmoved partition request) :
    ∀ last ∈ tiles.getLast?, request.Lands settings.maxSegmentBytes last.bytes.length →
    last.AtEnd := by
  intro last active lands
  have member : last ∈ tiles := List.mem_of_getLast? active
  rcases safe with once | unmoved
  · exact .inl (kept.mode once last member)
  · have segment : last.segment settings.dir settings.maxSegmentBytes syncLevel ∈
        partition.segments.getLast? := by
      rw [kept.shape]
      simp only [Settings.frame, Partition.withBlocks, List.getLast?_map,
        Option.mem_def] at active ⊢
      rw [active]
      rfl
    exact unmoved _ segment lands

/-- One call keeps it. -/
theorem serve (kept : Kept settings restarts world partition history syncLevel tiles)
    (safe : ¬ restarts ∨ Unmoved partition request)
    (ran : (partition.serve request).run world = (.ok (answer, result), after)) :
    ∃ others, Kept settings restarts after result (history ++ [(request, answer)])
      syncLevel others := by
  have ends := Partition.serve_ensures_alone (settings.frame syncLevel) kept.layout request
    (kept.atEnd safe)
  rw [← kept.shape] at ends
  obtain ⟨others, served, layout⟩ := ends.of_run ran
  have before : (∀ call ∈ history ++ [(request, answer)], call.1.Small) →
      ∀ call ∈ history, call.1.Small :=
    fun all call member => all call (List.mem_append_left _ member)
  refine ⟨others, served.result, layout, fun once => served.mode (kept.mode once), ?_, ?_⟩
  · intro all
    exact served.small (kept.small (before all)) (all (request, answer) (by simp))
  · intro all
    exact .step (kept.explained (before all)) (served.explained (kept.small (before all)))

/-- A restart keeps it, with every log opened anew. -/
theorem restart (kept : Kept settings restarts world partition history syncLevel tiles)
    (small : ∀ call ∈ history, call.1.Small) (readDir : Path → List Name) (level : SyncLevel)
    (enumerates : Enumerates world settings.dir (readDir settings.dir)) :
    (settings.openOrCreate readDir level).run world =
      (.ok (.ok ((settings.frame level).withTiles (tiles.map Tile.reopened))), world) :=
  Partition.run_openOrCreate_existing readDir settings.topic settings.id settings.baseDir
    settings.maxSegmentBytes level kept.layout (kept.small small) enumerates

end Kept

theorem contents_reopened (tiles : List Tile) :
    contents (tiles.map Tile.reopened) = contents tiles :=
  (SameLogs.reopened tiles).contents

namespace Life
variable {settings : Settings} {world : World} {partition : Partition}

/-- Every run whose appends find the active log unmoved keeps it; a run
without restarts always does. -/
theorem kept (life : Life settings restarts meets world partition history)
    (safe : ∀ partition request, meets partition request → ¬ restarts ∨ Unmoved partition request)
    (small : restarts → ∀ call ∈ history, call.1.Small) :
    ∃ syncLevel tiles, Kept settings restarts world partition history syncLevel tiles := by
  induction life with
  | opened readDir syncLevel vacant enumerates ran =>
    obtain ⟨fresh, layout⟩ := Partition.run_openOrCreate_vacant readDir settings.topic settings.id
      settings.baseDir settings.maxSegmentBytes syncLevel vacant enumerates
    rw [Settings.openOrCreate, fresh] at ran
    cases ran
    refine ⟨syncLevel, [Tile.fresh 0], rfl, layout, fun _ tile member => ?_,
      fun _ message member => ?_, fun _ => .empty⟩
    · rw [List.mem_singleton.mp member]
      rfl
    · cases member
  | served life met ran ih =>
    obtain ⟨syncLevel, tiles, kept⟩ := ih fun allowed call member =>
      small allowed call (List.mem_append_left _ member)
    obtain ⟨others, later⟩ := kept.serve (safe _ _ met) ran
    exact ⟨syncLevel, others, later⟩
  | restarted life allowed readDir level enumerates ran ih =>
    obtain ⟨syncLevel, tiles, kept⟩ := ih small
    rw [kept.restart (small allowed) readDir level enumerates] at ran
    cases ran
    refine ⟨level, tiles.map Tile.reopened, rfl, kept.layout.reopened,
      fun never => absurd allowed never, fun all => ?_, fun all => ?_⟩
    · rw [contents_reopened]
      exact kept.small all
    · rw [logOf, contents_reopened]
      exact kept.explained all

end Life

/-- A process lifetime needs no condition at all. -/
theorem Session.kept {settings : Settings} (session : Session settings world partition history) :
    ∃ syncLevel tiles, Kept settings False world partition history syncLevel tiles :=
  Life.kept session (fun _ _ _ => .inl not_false) False.elim

private theorem LogStep.length_le (taken : LogStep limit log request answer grown) :
    grown.length ≤ log.length + request.count := by
  cases taken <;> simp [batchContent, Request.count]

private theorem LogRun.length_le (run : LogRun limit history log) :
    log.length ≤ (history.map fun call => call.1.count).sum := by
  induction run with
  | empty => exact Nat.le_refl _
  | step run taken ih =>
    have grows := taken.length_le
    rw [List.map_append, List.sum_append, List.map_singleton, List.sum_singleton]
    simp only
    omega

theorem vacant_of_blank {world : World} (blank : ∀ path, world.node path = none) (dir : Path) :
    Vacant world dir where
  empty := fun _ => blank _
  clear := fun ancestor _ _ => by rw [World.file?, blank]

theorem enumerates_of_blank {world : World} (blank : ∀ path, world.node path = none) (dir : Path) :
    Enumerates world dir [] :=
  ⟨List.nodup_nil, fun _ => ⟨fun member => absurd member List.not_mem_nil,
    fun present => absurd (blank _) present⟩⟩

theorem vacant_blankWorld (dir : Path) : Vacant blankWorld dir := vacant_of_blank (fun _ => rfl) dir

theorem enumerates_blankWorld (dir : Path) : Enumerates blankWorld dir [] :=
  enumerates_of_blank (fun _ => rfl) dir

/-- Every sequence of calls can be run from an empty directory, as long as no
counter passes its width. -/
theorem exists_session_from (settings : Settings) (limit : settings.maxSegmentBytes < 2 ^ 63)
    {before : World} (vacant : Vacant before settings.dir)
    (enumerates : Enumerates before settings.dir []) (requests : List Request)
    (small : ∀ request ∈ requests, request.Small)
    (few : (requests.map Request.count).sum < 2 ^ 64) :
    ∃ world partition history,
      Session settings world partition history ∧ history.map Prod.fst = requests ∧
        partition.syncLevel = .none ∧ world.clock = before.clock := by
  induction requests using List.reverseRecOn with
  | nil =>
    obtain ⟨fresh, -⟩ := Partition.run_openOrCreate_vacant (fun _ => []) settings.topic settings.id
      settings.baseDir settings.maxSegmentBytes .none vacant enumerates
    exact ⟨_, _, [], .opened (fun _ => []) .none vacant enumerates fresh, rfl, rfl, rfl⟩
  | append_singleton requests request ih =>
    rw [List.map_append, List.sum_append, List.map_singleton, List.sum_singleton] at few
    obtain ⟨world, partition, history, session, shape, level, clock⟩ := ih
      (fun other member => small other (List.mem_append_left _ member)) (by omega)
    have allSmall : ∀ call ∈ history, call.1.Small := by
      intro call member
      exact small call.1 (List.mem_append_left _ (shape ▸ List.mem_map_of_mem member))
    obtain ⟨syncLevel, tiles, kept⟩ := session.kept
    have length := (kept.explained allSmall).length_le
    rw [length_logOf] at length
    have counts : (history.map fun call => call.1.count).sum =
        (requests.map Request.count).sum := by
      rw [← shape, List.map_map]
      rfl
    have ends := Partition.serve_ensures_alone (settings.frame syncLevel) kept.layout request
      (kept.atEnd (.inl not_false))
    rw [← kept.shape] at ends
    obtain ⟨⟨answer, result⟩, after, ran, others, served, -⟩ := ends.returns fun trap => trap.elim
      (fun large => large (kept.small allSmall)) fun overflow => by
        rcases overflow with wide | long
        · exact absurd limit (Nat.not_lt.mpr wide)
        · omega
    refine ⟨after, result, history ++ [(request, answer)], .served session trivial ran,
      by simp [shape], ?_, ?_⟩
    · have same : result.syncLevel = syncLevel := congrArg Partition.syncLevel served.result
      rw [same, ← level, kept.shape]
      rfl
    · have same := Program.run_clock (partition.serve request) world
      rw [ran] at same
      exact same.trans clock

theorem exists_session (settings : Settings) (limit : settings.maxSegmentBytes < 2 ^ 63)
    (requests : List Request) (small : ∀ request ∈ requests, request.Small)
    (few : (requests.map Request.count).sum < 2 ^ 64) :
    ∃ world partition history, Session settings world partition history ∧
    history.map Prod.fst = requests := by
  obtain ⟨world, partition, history, session, shape, -⟩ := exists_session_from settings limit
    (vacant_blankWorld settings.dir) (enumerates_blankWorld settings.dir) requests small few
  exact ⟨world, partition, history, session, shape⟩

/-- Some calls one after the other, each of them allowed, with their answers. -/
def Partition.serveAll (allowed : Partition → Request → Bool) :
    Partition → List Request → Program (List (Request × Answer) × Partition)
  | self, [] => pure ([], self)
  | self, request :: rest =>
    if allowed self request then do
      let (answer, self) ← self.serve request
      let (calls, self) ← self.serveAll allowed rest
      pure ((request, answer) :: calls, self)
    else .halt .panic

/-- The same on a partition opened first. -/
def Settings.openThen (settings : Settings) (allowed : Partition → Request → Bool)
    (listing : List Name) (requests : List Request) :
    Program (List (Request × Answer) × Partition) := do
  match ← settings.openOrCreate (fun _ => listing) .none with
  | .error _ => .halt .panic
  | .ok partition => partition.serveAll allowed requests

theorem Life.serveAll {settings : Settings} {world after : World} {partition result : Partition}
    (life : Life settings restarts meets world partition history)
    (met : ∀ partition request, allowed partition request = true → meets partition request)
    (ran : (partition.serveAll allowed requests).run world = (.ok (calls, result), after)) :
    Life settings restarts meets after result (history ++ calls) := by
  induction requests generalizing world partition history calls with
  | nil =>
    cases ran
    simpa using life
  | cons request rest ih =>
    unfold Partition.serveAll at ran
    split at ran
    · rename_i permitted
      obtain ⟨⟨answer, middle⟩, between, first, later⟩ := Program.exists_of_run_bind ran
      obtain ⟨⟨more, last⟩, final, second, done⟩ := Program.exists_of_run_bind later
      cases done
      have step := ih (life.served (met _ _ permitted) first) second
      rwa [List.append_assoc] at step
    · cases ran

/-- Opening an empty directory and making some calls is a session. -/
theorem Session.of_run {settings : Settings}
    (ran : (settings.openThen allowed [] requests).run blankWorld =
      (.ok (calls, partition), world)) :
    Session settings world partition calls := by
  obtain ⟨reply, middle, first, later⟩ := Program.exists_of_run_bind ran
  cases reply with
  | error error => cases later
  | ok fresh =>
    have start : Session settings middle fresh [] :=
      .opened (fun _ => []) .none (vacant_blankWorld _) (enumerates_blankWorld _) first
    exact start.serveAll (fun _ _ _ => trivial) later

/-- The same, for a run of which only the answers were looked at. -/
theorem Session.of_calls {settings : Settings} (calls : List (Request × Answer))
    (ran : ((settings.openThen (fun _ _ => true) [] (calls.map Prod.fst)).run blankWorld).1.map
      Prod.fst = .ok calls) :
    ∃ world partition, Session settings world partition calls := by
  generalize whole :
    (settings.openThen (fun _ _ => true) [] (calls.map Prod.fst)).run blankWorld = outcome at ran
  obtain ⟨result, world⟩ := outcome
  cases result with
  | error reason => cases ran
  | ok reply =>
    obtain ⟨answers, partition⟩ := reply
    obtain rfl : answers = calls := Except.ok.inj ran
    exact ⟨world, partition, Session.of_run whole⟩

end Ruka
