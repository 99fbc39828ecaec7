import Ruka.FaultyPrograms
import Ruka.PartitionSessions
import Ruka.RotationProgress
import Ruka.TopicRegistry

/-! What a call on a partition can come to when nothing is known about the
files: it returns or panics, and the partition it returns is still the one of
its key. -/
namespace Ruka
open BigEndian LexicalPaths FilePrograms

/-! ## Every call ends -/

namespace Index

private theorem ends_readEntries (count : Nat) (file : File) : (readEntries count file).Ends := by
  induction count generalizing file with
  | zero => trivial
  | succ count ih =>
    refine Program.Ends.bind (File.reads_readExact file _).ends ?_
    rintro ⟨reply, file⟩
    cases reply with
    | error error => trivial
    | ok buf =>
      refine Program.Ends.bind (ih file) ?_
      rintro ⟨reply, file⟩
      cases reply <;> trivial

private theorem ends_load (path : Path) : (load path).Ends := by
  apply Program.Ends.after_call
  intro answer
  cases answer with
  | error error => trivial
  | ok file =>
    apply Program.Ends.after_call
    intro answer
    cases answer with
    | error error => trivial
    | ok fileLen =>
      change Program.Ends (if _ then _ else _)
      split
      · trivial
      refine Program.Ends.bind (ends_readEntries _ _) ?_
      rintro ⟨reply, file⟩
      cases reply with
      | error error => trivial
      | ok entries =>
        apply Program.Ends.after_call
        intro answer
        cases answer <;> trivial

end Index

namespace Segment

private theorem ends_loadIndex (path : Path) : (loadIndex path).Ends := by
  refine Program.Ends.bind (Index.ends_load path) fun answer => ?_
  cases answer with
  | ok index => trivial
  | error error => exact (Index.create_returns path).ends

private theorem ends_recover (rebuildIndex : Bool) (fuel : Nat) (src : Bytes)
    (currentOffset validBytes : Nat) (index : Index) :
    (recover rebuildIndex fuel src currentOffset validBytes index).Ends := by
  induction fuel generalizing src currentOffset validBytes index with
  | zero => trivial
  | succ fuel ih =>
    refine Program.Ends.bind (Program.ends_orPanic _) ?_
    rintro ⟨decoded, rest⟩
    match decoded with
    | .error error => trivial
    | .ok none => trivial
    | .ok (some record) =>
      have entering : (if rebuildIndex then index.append record.offset validBytes else pure (.ok (),
          index)).Ends := by
        split
        · exact (index.append_returns _ _).ends
        · trivial
      refine Program.Ends.bind entering ?_
      rintro ⟨answer, index⟩
      cases answer with
      | error error => trivial
      | ok done => exact Program.Ends.bind (Program.ends_checked _ _) fun _ => ih _ _ _ _

private theorem ends_load (dir : Path) (baseOffset maxBytes : Nat) (syncLevel : SyncLevel) :
    (load dir baseOffset maxBytes syncLevel).Ends := by
  apply Program.Ends.after_call
  intro answer
  cases answer with
  | error error => trivial
  | ok logFile =>
    refine Program.Ends.bind (ends_loadIndex _) fun answer => ?_
    cases answer with
    | error error => trivial
    | ok index =>
      apply Program.Ends.after_call
      intro answer
      cases answer with
      | error error => trivial
      | ok fileLen =>
        refine Program.Ends.bind (File.reads_readToEnd _).ends ?_
        rintro ⟨answer, logFile⟩
        cases answer with
        | error error => trivial
        | ok buf =>
          refine Program.Ends.bind (ends_recover _ _ _ _ _ _) fun answer => ?_
          cases answer with
          | error error => trivial
          | ok recovered =>
            refine Program.Ends.bind ?_ fun answer => ?_
            · split
              · exact fun _ => trivial
              · trivial
            cases answer with
            | error error => trivial
            | ok cut =>
              apply Program.Ends.after_call
              intro answer
              cases answer <;> trivial

private theorem ends_append (segment : Segment) (key value : Option Bytes) :
    (segment.append key value).Ends := by
  unfold append
  split
  · trivial
  refine Program.Ends.bind (Program.ends_checked _ _) fun total => ?_
  split
  · trivial
  apply Program.Ends.after_call
  intro timestampMs
  refine Program.Ends.bind (store_returns segment _ _).ends ?_
  rintro ⟨answer, stored⟩
  cases answer with
  | error error => trivial
  | ok done =>
    refine Program.Ends.bind (Program.ends_checked _ _) fun _ => ?_
    exact Program.Ends.bind (Program.ends_checked _ _) fun _ => trivial

end Segment

namespace Partition

private theorem ends_loadSegments (dir : Path) (maxBytes : Nat) (syncLevel : SyncLevel)
    (entries : List Name) : (loadSegments dir maxBytes syncLevel entries).Ends := by
  induction entries with
  | nil => trivial
  | cons entry rest ih =>
    unfold loadSegments
    split
    · exact ih
    refine Program.Ends.bind (Segment.ends_load _ _ _ _) fun answer => ?_
    cases answer with
    | error error => trivial
    | ok segment =>
      refine Program.Ends.bind ih fun answer => ?_
      cases answer <;> trivial

private theorem ends_openOrCreate (readDir : Path → List Name) (topic : String) (id : UInt32)
    (baseDir : Path) (maxBytes : Nat) (syncLevel : SyncLevel) :
    (openOrCreate readDir topic id baseDir maxBytes syncLevel).Ends := by
  apply Program.Ends.after_call
  intro answer
  cases answer with
  | error error => trivial
  | ok made =>
    refine Program.Ends.bind (ends_loadSegments _ _ _ _) fun answer => ?_
    cases answer with
    | error error => trivial
    | ok loaded =>
      change Program.Ends (if _ then _ else _)
      split
      · refine Program.Ends.bind (Segment.create_returns _ _ _ _).ends fun answer => ?_
        cases answer <;> trivial
      · trivial

private theorem ends_onActive (partition : Partition) (operation : Segment → Program (α × Segment))
    (ends : ∀ segment, (operation segment).Ends) : (partition.onActive operation).Ends := by
  unfold onActive
  split
  · exact rfl
  · exact Program.Ends.bind (ends _) fun _ => trivial

private theorem ends_append (partition : Partition) (key value : Option Bytes) :
    (partition.append key value).Ends := by
  have active (partition : Partition) : (partition.onActive (·.append key value)).Ends :=
    partition.ends_onActive _ fun segment => segment.ends_append key value
  refine Program.Ends.bind (active partition) ?_
  rintro ⟨answer, segment, partition⟩
  cases answer with
  | ok offset => trivial
  | error error =>
    cases error with
    | segmentFull current max =>
      refine Program.Ends.bind (rotate_returns partition segment).ends ?_
      rintro ⟨answer, partition⟩
      cases answer with
      | error error => trivial
      | ok done => exact Program.Ends.bind (active partition) fun _ => trivial
    | _ => trivial

private theorem ends_takeRecords (records : List Record) (bytesBudget : Nat)
    (results : List Record) : (takeRecords records bytesBudget results).Ends := by
  induction records generalizing bytesBudget results with
  | nil => trivial
  | cons record rest ih =>
    refine Program.Ends.bind (Program.ends_checked _ _) fun recLen => ?_
    split
    · exact Program.Ends.bind (Program.ends_checked _ _) fun _ => ih _ _
    · split <;> trivial

private theorem ends_readFrom (segments : List Segment) (offset bytesBudget : Nat)
    (results : List Record) : (readFrom segments offset bytesBudget results).Ends := by
  induction segments generalizing offset bytesBudget results with
  | nil => trivial
  | cons segment rest ih =>
    unfold readFrom
    split
    · trivial
    refine Program.Ends.bind (segment.reads_readBatch offset bytesBudget).ends ?_
    rintro ⟨error | _ | ⟨record, records⟩, segment⟩
    · trivial
    · exact Program.Ends.bind (ih _ _ _) fun _ => trivial
    · refine Program.Ends.bind (ends_takeRecords _ _ _) fun taken => ?_
      cases taken with
      | full results => trivial
      | more bytesBudget results => exact Program.Ends.bind (ih _ _ _) fun _ => trivial

private theorem ends_read (partition : Partition) (offset : Nat) :
    (partition.read offset).Ends := by
  unfold read
  split
  · trivial
  split
  · exact rfl
  · exact Program.Ends.bind (Segment.reads_readAt _ offset).ends fun _ => trivial

private theorem ends_readBatch (partition : Partition) (offset maxBytes : Nat) :
    (partition.readBatch offset maxBytes).Ends := by
  unfold readBatch
  split
  · trivial
  · exact Program.Ends.bind (ends_readFrom _ _ _ _) fun _ => trivial

/-- The loop over the payloads of a batch ends because it rotates. -/
theorem appendBatch_ends (partition : Partition) (payloads : List Bytes) (world : World) :
    (partition.appendBatch payloads).Ensures world True fun _ _ => True := by
  cases last : partition.segments.getLast? with
  | none =>
    unfold appendBatch appendPayloads
    split
    · exact Program.ensures_of_run rfl trivial
    · unfold onActive
      rw [last]
      exact Program.ensures_panic trivial
  | some active =>
    have enough := (rounds_le active payloads).1
    exact (appendPayloads_settles _ last payloads none (by omega) world).mono (fun _ => trivial)
      fun _ _ _ => trivial

/-- A command is carried out or stops its task; no loop in it goes on for ever. -/
theorem serve_ends (partition : Partition) (request : Request) (world : World) :
    (partition.serve request).Ensures world True fun _ _ => True := by
  cases request with
  | append key value =>
    exact Program.ensures_bind ((partition.ends_append key value).ensures world)
      fun _ _ _ => Program.ensures_of_run rfl trivial
  | appendBatch payloads =>
    exact Program.ensures_bind (partition.appendBatch_ends payloads world)
      fun _ _ _ => Program.ensures_of_run rfl trivial
  | read offset =>
    exact Program.ensures_bind ((partition.ends_read offset).ensures world)
      fun _ _ _ => Program.ensures_of_run rfl trivial
  | readBatch offset maxBytes =>
    exact Program.ensures_bind ((partition.ends_readBatch offset maxBytes).ensures world)
      fun _ _ _ => Program.ensures_of_run rfl trivial

end Partition

theorem TopicRegistry.ends_createPartition (registry : TopicRegistry) (readDir : Path → List Name)
    (topic : String) (id : UInt32) : (registry.createPartition readDir topic id).Ends := by
  unfold createPartition
  split
  · trivial
  · exact Program.Ends.bind (Partition.ends_openOrCreate _ _ _ _ _ _) fun _ => trivial

/-! ## The partition stays the one of its key -/

namespace Partition

private theorem meets_onActive (partition : Partition)
    (operation : Segment → Program (α × Segment)) :
    (partition.onActive operation).Meets fun reply => reply.2.2.key = partition.key := by
  unfold onActive
  split
  · trivial
  · exact (Program.meets_any _).bind fun _ _ => rfl

private theorem meets_rotate (partition : Partition) (active : Segment) :
    (partition.rotate active).Meets fun reply => reply.2.key = partition.key := by
  refine (Program.meets_any _).bind fun answer _ => ?_
  cases answer with
  | error error => rfl
  | ok done =>
    refine (Program.meets_any _).bind fun answer _ => ?_
    cases answer <;> rfl

private theorem meets_append (partition : Partition) (key value : Option Bytes) :
    (partition.append key value).Meets fun reply => reply.2.key = partition.key := by
  refine (partition.meets_onActive _).bind ?_
  rintro ⟨answer, active, first⟩ same
  cases answer with
  | ok offset => exact same
  | error error =>
    cases error with
    | segmentFull current max =>
      refine (first.meets_rotate active).bind ?_
      rintro ⟨answer, second⟩ still
      cases answer with
      | error error => exact still.trans same
      | ok done =>
        exact (second.meets_onActive _).bind fun reply last => last.trans (still.trans same)
    | _ => exact same

private theorem meets_appendPayloads (fuel : Nat) (partition : Partition) (payloads : List Bytes)
    (baseOffset : Option Nat) :
    (appendPayloads fuel partition payloads baseOffset).Meets fun reply =>
      reply.2.key = partition.key := by
  induction fuel generalizing partition payloads baseOffset with
  | zero => trivial
  | succ fuel ih =>
    -- both ways on lead through a rotation
    have goesOn (first : Partition) (active : Segment) (left : List Bytes) (base : Option Nat)
        (same : first.key = partition.key) {next : Except RukaError Unit × Partition → _}
        (failed : ∀ error second, next (.error error, second) = pure (.error error, second))
        (went : ∀ second, next (.ok (), second) = appendPayloads fuel second left base) :
        (first.rotate active >>= next).Meets fun reply => reply.2.key = partition.key := by
      refine (first.meets_rotate active).bind ?_
      rintro ⟨answer, second⟩ still
      cases answer with
      | error error =>
        rw [failed]
        exact still.trans same
      | ok done =>
        rw [went]
        have later := ih second left base
        rwa [still.trans same] at later
    unfold appendPayloads
    split
    · rfl
    refine (partition.meets_onActive _).bind ?_
    rintro ⟨answer, active, first⟩ same
    cases answer with
    | ok reply =>
      change Program.Meets _ (if _ then _ else _)
      split
      · have later := ih first (payloads.drop reply.2) (some (baseOffset.getD reply.1))
        rwa [same] at later
      · exact goesOn first active _ _ same (fun _ _ => rfl) fun _ => rfl
    | error error =>
      cases error with
      | segmentFull current max => exact goesOn first active _ _ same (fun _ _ => rfl) fun _ => rfl
      | _ => exact same

theorem meets_serve (partition : Partition) (request : Request) :
    (partition.serve request).Meets fun reply => reply.2.key = partition.key := by
  cases request with
  | append key value => exact (partition.meets_append key value).bind fun _ same => same
  | appendBatch payloads =>
    exact (meets_appendPayloads _ partition payloads none).bind fun _ same => same
  | read offset =>
    have reads : (partition.read offset).Meets fun reply => reply.2.key = partition.key := by
      unfold read
      split
      · rfl
      split
      · trivial
      · exact (Program.meets_any _).bind fun _ _ => rfl
    exact reads.bind fun _ same => same
  | readBatch offset maxBytes =>
    have reads : (partition.readBatch offset maxBytes).Meets fun reply =>
        reply.2.key = partition.key := by
      unfold readBatch
      split
      · rfl
      · exact (Program.meets_any _).bind fun _ _ => rfl
    exact reads.bind fun _ same => same

theorem meets_openOrCreate (readDir : Path → List Name) (topic : String) (id : UInt32)
    (baseDir : Path) (maxBytes : Nat) (syncLevel : SyncLevel) :
    (openOrCreate readDir topic id baseDir maxBytes syncLevel).Meets fun answer =>
      ∀ partition, answer = .ok partition → partition.key = (topic, id) := by
  refine (Program.meets_any _).bind fun answer _ => ?_
  cases answer with
  | error error => exact nofun
  | ok made =>
    refine (Program.meets_any _).bind fun answer _ => ?_
    cases answer with
    | error error => exact nofun
    | ok loaded =>
      change Program.Meets _ (if _ then _ else _)
      split
      · refine (Program.meets_any _).bind fun answer _ => ?_
        cases answer with
        | error error => exact nofun
        | ok segment =>
          rintro partition ⟨⟩
          rfl
      · rintro partition ⟨⟩
        rfl

end Partition

end Ruka
