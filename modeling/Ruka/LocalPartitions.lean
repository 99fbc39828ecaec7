import Ruka.LocalPrograms
import Ruka.PartitionSessions

/-! A partition works in its own directory: whatever is asked of it and whatever
its files hold, it opens, reads and writes nothing elsewhere. -/
namespace Ruka
open BigEndian LexicalPaths FilePrograms

/-! ## Files, indexes and segments of a directory -/

namespace FilePrograms.File
variable {dir : Path} {file : File}

/-- A file of this directory. -/
def In (dir : Path) (file : File) : Prop := ∃ name, file.path = dir ++ [name]

private theorem Reads.makes {program : Program (α × File)} (reads : Reads program file)
    (inside : file.In dir) : program.Makes (Call.Inside dir) fun reply => reply.2.In dir := by
  refine (Program.Reading.makes reads fun request here => ?_).mono ?_
  · cases request with
    | length path | read path _ _ | readToEnd path _ =>
      obtain rfl : path = file.path := here
      exact inside
    | _ => exact here.elim
  · rintro reply ⟨cursor, moved⟩
    rw [moved]
    exact inside

private theorem makes_openWith (dir : Path) (name : Name) (options : OpenOptions) :
    (openWith (dir ++ [name]) options).Makes (Call.Inside dir) fun answer =>
      ∀ file, answer = .ok file → file.In dir := by
  refine Program.makes_call ⟨name, rfl⟩ fun reply file opened => ?_
  cases reply with
  | error error => cases opened
  | ok _ =>
    cases opened
    exact ⟨name, rfl⟩

private theorem makes_writeAll (inside : file.In dir) (data : Bytes) :
    (file.writeAll data).Makes (Call.Inside dir) fun reply => reply.2.In dir :=
  Program.makes_call inside fun _ => inside

private theorem makes_seekEnd (inside : file.In dir) :
    file.seekEnd.Makes (Call.Inside dir) fun answer =>
      ∀ moved, answer = .ok moved → moved.In dir := by
  refine Program.makes_call inside fun reply moved sought => ?_
  cases reply with
  | error error => cases sought
  | ok _ =>
    cases sought
    exact inside

private theorem makes_len (inside : file.In dir) : file.len.Makes (Call.Inside dir) fun _ => True :=
  Program.makes_call inside fun _ => trivial

private theorem makes_setLen (inside : file.In dir) (length : Nat) :
    (file.setLen length).Makes (Call.Inside dir) fun _ => True :=
  Program.makes_call inside fun _ => trivial

private theorem makes_syncData (inside : file.In dir) :
    file.syncData.Makes (Call.Inside dir) fun _ => True :=
  Program.makes_call inside fun _ => trivial

end FilePrograms.File

private theorem FilePrograms.makes_createDirAll (dir : Path) :
    (createDirAll dir).Makes (Call.Inside dir) fun _ => True :=
  Program.makes_call rfl fun _ => trivial

private theorem FilePrograms.makes_now (dir : Path) : now.Makes (Call.Inside dir) fun _ => True :=
  Program.makes_call trivial fun _ => trivial

namespace Index
variable {dir : Path} {index : Index}

private theorem makes_create (dir : Path) (name : Name) :
    (create (dir ++ [name])).Makes (Call.Inside dir) fun answer =>
      ∀ index, answer = .ok index → index.file.In dir := by
  refine (File.makes_openWith dir name _).bind fun answer opened => ?_
  cases answer with
  | error error => exact nofun
  | ok file =>
    rintro index ⟨⟩
    exact opened file rfl

private theorem makes_readEntries (count : Nat) {file : File} (inside : file.In dir) :
    (readEntries count file).Makes (Call.Inside dir) fun reply => reply.2.In dir := by
  induction count generalizing file with
  | zero => exact inside
  | succ count ih =>
    refine ((File.reads_readExact file _).makes inside).bind ?_
    rintro ⟨reply, file⟩ still
    cases reply with
    | error error => exact still
    | ok buf =>
      refine (ih still).bind ?_
      rintro ⟨reply, file⟩ later
      cases reply <;> exact later

private theorem makes_load (dir : Path) (name : Name) :
    (load (dir ++ [name])).Makes (Call.Inside dir) fun answer =>
      ∀ index, answer = .ok index → index.file.In dir := by
  refine (File.makes_openWith dir name _).bind fun answer opened => ?_
  cases answer with
  | error error => exact nofun
  | ok file =>
    refine (File.makes_len (opened file rfl)).bind fun answer _ => ?_
    cases answer with
    | error error => exact nofun
    | ok fileLen =>
      change Program.Makes _ _ (if _ then _ else _)
      split
      · exact nofun
      have rewound : (file.seekStart 0).In dir := opened file rfl
      refine (makes_readEntries _ rewound).bind ?_
      rintro ⟨reply, file⟩ still
      cases reply with
      | error error => exact nofun
      | ok entries =>
        refine (File.makes_seekEnd still).bind fun answer sought => ?_
        cases answer with
        | error error => exact nofun
        | ok file =>
          rintro index ⟨⟩
          exact sought file rfl

private theorem makes_append (inside : index.file.In dir) (offset position : Nat) :
    (index.append offset position).Makes (Call.Inside dir) fun reply => reply.2.file.In dir := by
  refine (File.makes_writeAll inside _).bind ?_
  rintro ⟨answer, file⟩ still
  cases answer <;> exact still

private theorem makes_sync (inside : index.file.In dir) :
    index.sync.Makes (Call.Inside dir) fun _ => True := by
  refine (File.makes_syncData inside).bind fun answer _ => ?_
  cases answer <;> exact trivial

end Index

namespace Segment
variable {dir : Path} {segment : Segment}

/-- Its log and its index are files of this directory. -/
structure In (dir : Path) (segment : Segment) : Prop where
  log : segment.logFile.In dir
  index : segment.index.file.In dir

private theorem makes_create (dir : Path) (baseOffset maxBytes : Nat) (syncLevel : SyncLevel) :
    (create dir baseOffset maxBytes syncLevel).Makes (Call.Inside dir) fun answer =>
      ∀ segment, answer = .ok segment → segment.In dir := by
  refine (makes_createDirAll dir).bind fun answer _ => ?_
  cases answer with
  | error error => exact nofun
  | ok made =>
    refine (File.makes_openWith dir _ _).bind fun answer opened => ?_
    cases answer with
    | error error => exact nofun
    | ok logFile =>
      refine (Index.makes_create dir _).bind fun answer created => ?_
      cases answer with
      | error error => exact nofun
      | ok index =>
        rintro segment ⟨⟩
        exact ⟨opened logFile rfl, created index rfl⟩

private theorem makes_recover (rebuildIndex : Bool) (fuel : Nat) (src : Bytes)
    (currentOffset validBytes : Nat) {index : Index} (inside : index.file.In dir) :
    (recover rebuildIndex fuel src currentOffset validBytes index).Makes
      (Call.Inside dir) fun answer =>
      ∀ recovered, answer = .ok recovered → recovered.2.2.file.In dir := by
  induction fuel generalizing src currentOffset validBytes index with
  | zero =>
    rintro recovered ⟨⟩
    exact inside
  | succ fuel ih =>
    have stops : (pure (.ok (currentOffset, validBytes, index)) :
        Program (Except RukaError (Nat × Nat × Index))).Makes (Call.Inside dir) fun answer =>
          ∀ recovered, answer = .ok recovered → recovered.2.2.file.In dir := by
      rintro recovered ⟨⟩
      exact inside
    refine (Program.makes_orPanic _).bind ?_
    rintro ⟨decoded, rest⟩ -
    match decoded with
    | .error error => exact stops
    | .ok none => exact stops
    | .ok (some record) =>
      have entering : (if rebuildIndex then index.append record.offset validBytes else pure
          (.ok (), index)).Makes (Call.Inside dir) fun reply => reply.2.file.In dir := by
        split
        · exact Index.makes_append inside _ _
        · exact inside
      refine entering.bind ?_
      rintro ⟨answer, index⟩ still
      cases answer with
      | error error => exact nofun
      | ok done => exact (Program.makes_checked _ _).bind fun _ _ => ih _ _ _ still

private theorem makes_loadIndex (dir : Path) (name : Name) :
    (loadIndex (dir ++ [name])).Makes (Call.Inside dir) fun answer =>
      ∀ index, answer = .ok index → index.file.In dir := by
  refine (Index.makes_load dir name).bind fun answer loaded => ?_
  cases answer with
  | ok index => exact loaded
  | error error => exact Index.makes_create dir name

private theorem makes_load (dir : Path) (baseOffset maxBytes : Nat) (syncLevel : SyncLevel) :
    (load dir baseOffset maxBytes syncLevel).Makes (Call.Inside dir) fun answer =>
      ∀ segment, answer = .ok segment → segment.In dir := by
  refine (File.makes_openWith dir _ _).bind fun answer opened => ?_
  cases answer with
  | error error => exact nofun
  | ok logFile =>
    refine (makes_loadIndex dir _).bind fun answer loaded => ?_
    cases answer with
    | error error => exact nofun
    | ok index =>
      refine (File.makes_len (opened logFile rfl)).bind fun answer _ => ?_
      cases answer with
      | error error => exact nofun
      | ok fileLen =>
        have rewound : (logFile.seekStart 0).In dir := opened logFile rfl
        refine ((File.reads_readToEnd _).makes rewound).bind ?_
        rintro ⟨answer, logFile⟩ inside
        cases answer with
        | error error => exact nofun
        | ok buf =>
          refine (makes_recover _ _ _ _ _ (loaded index rfl)).bind fun answer recovered => ?_
          cases answer with
          | error error => exact nofun
          | ok result =>
            have cutting : (if result.2.1 <
                fileLen then logFile.setLen result.2.1 else pure (.ok ())).Makes (Call.Inside dir)
                  fun _ => True := by
              split
              · exact File.makes_setLen inside _
              · exact trivial
            refine cutting.bind fun answer _ => ?_
            cases answer with
            | error error => exact nofun
            | ok cut =>
              refine (File.makes_seekEnd inside).bind fun answer sought => ?_
              cases answer with
              | error error => exact nofun
              | ok logFile =>
                rintro segment ⟨⟩
                exact ⟨sought logFile rfl, recovered result rfl⟩

private theorem makes_appendEntries {index : Index} (inside : index.file.In dir)
    (entries : List IndexEntry) : (appendEntries index entries).Makes (Call.Inside dir) fun reply =>
      reply.2.file.In dir := by
  induction entries generalizing index with
  | nil => exact inside
  | cons entry rest ih =>
    refine (Index.makes_append inside _ _).bind ?_
    rintro ⟨answer, index⟩ still
    cases answer with
    | error error => exact still
    | ok done => exact ih still

private theorem makes_store (inside : segment.In dir) (data : Bytes) (entries : List IndexEntry) :
    (segment.store data entries).Makes (Call.Inside dir) fun reply => reply.2.In dir := by
  refine (File.makes_writeAll inside.log data).bind ?_
  rintro ⟨answer, logFile⟩ log
  cases answer with
  | error error => exact ⟨log, inside.index⟩
  | ok done =>
    have syncing : (syncLog segment.syncLevel logFile).Makes (Call.Inside dir) fun _ => True := by
      unfold syncLog
      split
      · exact trivial
      · exact File.makes_syncData log
    refine syncing.bind fun answer _ => ?_
    cases answer with
    | error error => exact ⟨log, inside.index⟩
    | ok done =>
      refine (makes_appendEntries inside.index entries).bind ?_
      rintro ⟨answer, index⟩ still
      cases answer with
      | error error => exact ⟨log, still⟩
      | ok done =>
        have syncing : (syncIndex segment.syncLevel index).Makes (Call.Inside dir)
            fun _ => True := by
          unfold syncIndex
          split
          · exact Index.makes_sync still
          · exact trivial
        refine syncing.bind fun answer _ => ?_
        cases answer <;> exact ⟨log, still⟩

private theorem makes_append (inside : segment.In dir) (key value : Option Bytes) :
    (segment.append key value).Makes (Call.Inside dir) fun reply => reply.2.In dir := by
  unfold append
  split
  · exact inside
  refine (Program.makes_checked _ _).bind fun total _ => ?_
  split
  · exact inside
  refine (makes_now dir).bind fun timestampMs _ => ?_
  refine (makes_store inside _ _).bind ?_
  rintro ⟨answer, stored⟩ still
  cases answer with
  | error error => exact still
  | ok done =>
    refine (Program.makes_checked _ _).bind fun _ _ => ?_
    exact (Program.makes_checked _ _).bind fun _ _ => ⟨still.log, still.index⟩

private theorem makes_fill {kind : Call → Prop} (segment : Segment) (timestampMs : Nat)
    (payloads : List Bytes) (batch : Batch) :
    (segment.fill timestampMs payloads batch).Makes kind fun _ => True := by
  induction payloads generalizing batch with
  | nil => exact trivial
  | cons payload rest ih =>
    unfold fill
    split
    · exact trivial
    refine (Program.makes_checked _ _).bind fun total _ => ?_
    split
    · split <;> exact trivial
    refine (Program.makes_checked _ _).bind fun _ _ => ?_
    exact (Program.makes_checked _ _).bind fun _ _ => ih _

private theorem makes_appendBatch (inside : segment.In dir) (payloads : List Bytes) :
    (segment.appendBatch payloads).Makes (Call.Inside dir) fun reply => reply.2.In dir := by
  unfold appendBatch
  split
  · exact inside
  refine (makes_now dir).bind fun timestampMs _ => ?_
  refine (makes_fill segment _ payloads _).bind fun answer _ => ?_
  cases answer with
  | error error => exact inside
  | ok batch =>
    change Program.Makes _ _ (if _ then _ else _)
    split
    · exact inside
    refine (makes_store inside _ _).bind ?_
    rintro ⟨answer, stored⟩ still
    cases answer with
    | error error => exact still
    | ok done => exact (Program.makes_checked _ _).bind fun _ _ => ⟨still.log, still.index⟩

private theorem In.moved (inside : segment.In dir) (cursor : Nat) :
    ({ segment with logFile := { segment.logFile with cursor := cursor } } : Segment).In dir :=
  ⟨inside.log, inside.index⟩

end Segment

/-! ## Partitions of a directory -/

namespace Partition

section Reads
variable {kind : Call → Prop} {held : Segment → Prop}
  (moved : ∀ segment cursor, held segment →
    held { segment with logFile := { segment.logFile with cursor := cursor } })
  (allowed : ∀ segment, held segment →
    ∀ request : Call, request.ReadsFile segment.logFile.path → kind request)
include moved allowed

/-- A read looks into the logs of the partition's own segments. -/
theorem makes_read (partition : Partition) (all : ∀ segment ∈ partition.segments, held segment)
    (offset : Nat) : (partition.read offset).Makes kind fun reply =>
      ∃ segments, reply.2 = { partition with segments := segments } ∧
        ∀ segment ∈ segments, held segment := by
  unfold read
  split
  · exact ⟨partition.segments, rfl, all⟩
  split
  · exact trivial
  rename_i segment found
  have own := all segment (List.mem_of_getElem? found)
  refine ((Segment.reads_readAt segment offset).makes (allowed segment own)).bind ?_
  rintro ⟨answer, reread⟩ ⟨cursor, rfl⟩
  refine ⟨_, rfl, fun other listed => ?_⟩
  rcases List.mem_or_eq_of_mem_set listed with old | rfl
  · exact all other old
  · exact moved segment cursor own

omit moved allowed in
private theorem makes_takeRecords (records : List Record) (budget : Nat) (results : List Record) :
    (takeRecords records budget results).Makes kind fun _ => True := by
  induction records generalizing budget results with
  | nil => exact trivial
  | cons record rest ih =>
    refine (Program.makes_checked _ _).bind fun recLen _ => ?_
    split
    · exact (Program.makes_checked _ _).bind fun _ _ => ih _ _
    · split <;> exact trivial

private theorem makes_readFrom (segments : List Segment) (all : ∀ segment ∈ segments, held segment)
    (offset budget : Nat) (results : List Record) :
    (readFrom segments offset budget results).Makes kind fun reply =>
      ∀ segment ∈ reply.2, held segment := by
  induction segments generalizing offset budget results with
  | nil => exact all
  | cons segment rest ih =>
    obtain ⟨own, others⟩ := List.forall_mem_cons.mp all
    unfold readFrom
    split
    · exact all
    refine ((Segment.reads_readBatch segment offset budget).makes (allowed segment own)).bind ?_
    rintro ⟨answer, reread⟩ ⟨cursor, rfl⟩
    have goesOn (budget : Nat) (results : List Record)
        {next : Except RukaError (List Record) × List Segment → _}
        (returns : ∀ answer later, next (answer, later) = pure (answer, { segment with logFile :=
            { segment.logFile with cursor := cursor } } :: later)) :
        (readFrom rest (nextBase rest offset) budget results >>= next).Makes kind fun reply =>
          ∀ segment ∈ reply.2, held segment := by
      refine (ih others (nextBase rest offset) budget results).bind ?_
      rintro ⟨answer, later⟩ still
      rw [returns]
      exact List.forall_mem_cons.mpr ⟨moved segment cursor own, still⟩
    cases answer with
    | error error => exact List.forall_mem_cons.mpr ⟨moved segment cursor own, others⟩
    | ok found =>
      cases found with
      | nil => exact goesOn _ _ fun _ _ => rfl
      | cons record records =>
        refine (makes_takeRecords _ _ _).bind fun taken _ => ?_
        cases taken with
        | full results => exact List.forall_mem_cons.mpr ⟨moved segment cursor own, others⟩
        | more budget results => exact goesOn _ _ fun _ _ => rfl

theorem makes_readBatch (partition : Partition) (all : ∀ segment ∈ partition.segments, held segment)
    (offset maxBytes : Nat) :
    (partition.readBatch offset maxBytes).Makes kind fun reply =>
      ∃ segments, reply.2 = { partition with segments := segments } ∧
        ∀ segment ∈ segments, held segment := by
  unfold readBatch
  split
  · exact ⟨partition.segments, rfl, all⟩
  refine (makes_readFrom moved allowed _
    (fun segment listed => all segment (List.mem_of_mem_drop listed)) offset maxBytes []).bind ?_
  rintro ⟨answer, reread⟩ later
  refine ⟨_, rfl, fun segment listed => ?_⟩
  rcases List.mem_append.mp listed with before | read
  · exact all segment (List.mem_of_mem_take before)
  · exact later segment read

end Reads

variable {dir : Path} {partition : Partition}

/-- The partition of this directory, with segments of its own. -/
structure In (dir : Path) (partition : Partition) : Prop where
  base : partition.baseDir = dir
  segments : ∀ segment ∈ partition.segments, segment.In dir

private theorem makes_onActive (inside : partition.In dir)
    {operation : Segment → Program (α × Segment)}
    (makes : ∀ segment, segment.In dir →
      (operation segment).Makes (Call.Inside dir) fun reply => reply.2.In dir) :
      (partition.onActive operation).Makes (Call.Inside dir) fun reply => reply.2.2.In dir := by
  unfold onActive
  split
  · exact trivial
  rename_i active isLast
  refine (makes active (inside.segments active (List.mem_of_getLast? isLast))).bind ?_
  rintro ⟨answer, changed⟩ still
  refine ⟨inside.base, fun segment listed => ?_⟩
  rcases List.mem_append.mp listed with before | isActive
  · exact inside.segments segment (List.mem_of_mem_dropLast before)
  · rw [List.mem_singleton.mp isActive]
    exact still

private theorem makes_rotate (inside : partition.In dir) (active : Segment) :
    (partition.rotate active).Makes (Call.Inside dir) fun reply => reply.2.In dir := by
  obtain ⟨rfl, own⟩ := inside
  have flushing : active.flush.Makes (Call.Inside partition.baseDir) fun _ => True := trivial
  refine flushing.bind fun answer _ => ?_
  cases answer with
  | error error => exact ⟨rfl, own⟩
  | ok flushed =>
    refine (Segment.makes_create partition.baseDir active.nextOffset partition.maxSegmentBytes
      partition.syncLevel).bind fun answer created => ?_
    cases answer with
    | error error => exact ⟨rfl, own⟩
    | ok segment =>
      refine ⟨rfl, fun other listed => ?_⟩
      rcases List.mem_append.mp listed with before | isNew
      · exact own other before
      · rw [List.mem_singleton.mp isNew]
        exact created segment rfl

private theorem makes_append (inside : partition.In dir) (key value : Option Bytes) :
    (partition.append key value).Makes (Call.Inside dir) fun reply => reply.2.In dir := by
  refine (makes_onActive inside fun segment own => Segment.makes_append own key value).bind ?_
  rintro ⟨answer, active, first⟩ still
  cases answer with
  | ok offset => exact still
  | error error =>
    cases error with
    | segmentFull current max =>
      refine (makes_rotate still active).bind ?_
      rintro ⟨answer, second⟩ later
      cases answer with
      | error error => exact later
      | ok done =>
        exact (makes_onActive later fun segment own => Segment.makes_append own key value).bind
          fun _ last => last
    | _ => exact still

private theorem makes_appendPayloads (fuel : Nat) (inside : partition.In dir)
    (payloads : List Bytes) (baseOffset : Option Nat) :
    (appendPayloads fuel partition payloads baseOffset).Makes (Call.Inside dir) fun reply =>
      reply.2.In dir := by
  induction fuel generalizing partition payloads baseOffset with
  | zero => exact trivial
  | succ fuel ih =>
    -- both ways on lead through a rotation
    have goesOn {first : Partition} (active : Segment) (left : List Bytes) (base : Option Nat)
        (still : first.In dir) {next : Except RukaError Unit × Partition → _}
        (failed : ∀ error second, next (.error error, second) = pure (.error error, second))
        (went : ∀ second, next (.ok (), second) = appendPayloads fuel second left base) :
        (first.rotate active >>= next).Makes (Call.Inside dir) fun reply => reply.2.In dir := by
      refine (makes_rotate still active).bind ?_
      rintro ⟨answer, second⟩ later
      cases answer with
      | error error =>
        rw [failed]
        exact later
      | ok done =>
        rw [went]
        exact ih later left base
    unfold appendPayloads
    split
    · exact inside
    refine (makes_onActive inside fun segment own => Segment.makes_appendBatch own payloads).bind ?_
    rintro ⟨answer, active, first⟩ still
    cases answer with
    | ok reply =>
      change Program.Makes _ _ (if _ then _ else _)
      split
      · exact ih still _ _
      · exact goesOn active _ _ still (fun _ _ => rfl) fun _ => rfl
    | error error =>
      cases error with
      | segmentFull current max => exact goesOn active _ _ still (fun _ _ => rfl) fun _ => rfl
      | _ => exact still

/-- A command to a partition stays in its directory. -/
theorem makes_serve (inside : partition.In dir) (request : Request) :
    (partition.serve request).Makes (Call.Inside dir) fun reply => reply.2.In dir := by
  have moved (segment : Segment) (cursor : Nat) (own : segment.In dir) := own.moved cursor
  have allowed (segment : Segment) (own : segment.In dir) (request : Call)
      (reads : request.ReadsFile segment.logFile.path) : request.Inside dir := by
    cases request with
    | length path | read path _ _ | readToEnd path _ =>
      obtain rfl : path = segment.logFile.path := reads
      exact own.log
    | _ => exact reads.elim
  cases request with
  | append key value => exact (makes_append inside key value).bind fun _ still => still
  | appendBatch payloads =>
    exact (makes_appendPayloads _ inside payloads none).bind fun _ still => still
  | read offset =>
    refine (makes_read moved allowed partition inside.segments offset).bind ?_
    rintro ⟨answer, _⟩ ⟨segments, rfl, all⟩
    exact ⟨inside.base, all⟩
  | readBatch offset maxBytes =>
    refine (makes_readBatch moved allowed partition inside.segments offset maxBytes).bind ?_
    rintro ⟨answer, _⟩ ⟨segments, rfl, all⟩
    exact ⟨inside.base, all⟩

private theorem makes_loadSegments (dir : Path) (maxBytes : Nat) (syncLevel : SyncLevel)
    (entries : List Name) :
    (loadSegments dir maxBytes syncLevel entries).Makes (Call.Inside dir) fun answer =>
      ∀ segments, answer = .ok segments → ∀ segment ∈ segments, segment.In dir := by
  induction entries with
  | nil =>
    rintro segments ⟨⟩
    exact fun _ listed => absurd listed List.not_mem_nil
  | cons entry rest ih =>
    unfold loadSegments
    split
    · exact ih
    refine (Segment.makes_load dir _ maxBytes syncLevel).bind fun answer loaded => ?_
    cases answer with
    | error error => exact nofun
    | ok segment =>
      refine ih.bind fun answer others => ?_
      cases answer with
      | error error => exact nofun
      | ok segments =>
        rintro all ⟨⟩
        exact List.forall_mem_cons.mpr ⟨loaded segment rfl, others segments rfl⟩

/-- So does opening it. -/
theorem makes_openOrCreate (readDir : Path → List Name) (topic : String) (id : UInt32)
    (baseDir : Path) (maxBytes : Nat) (syncLevel : SyncLevel) :
    (openOrCreate readDir topic id baseDir maxBytes syncLevel).Makes
      (Call.Inside (partitionDir baseDir topic id)) fun answer =>
        ∀ partition, answer = .ok partition → partition.In (partitionDir baseDir topic id) := by
  refine (makes_createDirAll _).bind fun answer _ => ?_
  cases answer with
  | error error => exact nofun
  | ok made =>
    refine (makes_loadSegments _ maxBytes syncLevel _).bind fun answer loaded => ?_
    cases answer with
    | error error => exact nofun
    | ok segments =>
      change Program.Makes _ _ (if _ then _ else _)
      split
      · refine (Segment.makes_create _ 0 maxBytes syncLevel).bind fun answer created => ?_
        cases answer with
        | error error => exact nofun
        | ok segment =>
          rintro partition ⟨⟩
          refine ⟨rfl, fun other listed => ?_⟩
          rw [List.mem_singleton.mp listed]
          exact created segment rfl
      · rintro partition ⟨⟩
        exact ⟨rfl, fun other listed =>
          loaded segments rfl other ((List.mem_insertionSort _).mp listed)⟩

end Partition

end Ruka
