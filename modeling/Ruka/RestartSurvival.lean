import Ruka.AppendOnlyRefinement

/-! Restarts. Dropping a partition and opening it again gives back the same
segments from the same files. What a restart does change is the mode of the log
handles: a loaded log is not in append mode, so a read between the restart and
the next append can leave the cursor inside the log, and the append then writes
over records that were acknowledged. -/
namespace Ruka
open BigEndian LexicalPaths FilePrograms TiledBlocks

/-- The segment with its log opened by `Segment::load`. -/
def Segment.reloaded (segment : Segment) : Segment :=
  { segment with
    logFile := { segment.logFile with append := false, cursor := segment.currentSize } }

/-- A clean restart gives back the partition it closed, apart from the mode and
cursor of the log handles, and leaves the disk as it was. -/
theorem clean_restart_is_identity {settings : Settings}
    (session : Session settings world partition history) (small : ∀ call ∈ history, call.1.Small)
    (readDir : Path → List Name)
    (enumerates : Enumerates world settings.dir (readDir settings.dir)) :
    (settings.openOrCreate readDir partition.syncLevel).run world =
      (.ok (.ok { partition with segments := partition.segments.map Segment.reloaded }),
        world) := by
  obtain ⟨syncLevel, tiles, kept⟩ := session.kept
  have level : partition.syncLevel = syncLevel := by
    rw [kept.shape]
    rfl
  rw [level, kept.restart small readDir syncLevel enumerates, kept.shape]
  simp only [Partition.withBlocks, List.map_map]
  rfl

/-- The files of the segments a session ends with are what its directory lists. -/
theorem Session.enumerates {settings : Settings}
    (session : Session settings world partition history) :
    Enumerates world settings.dir ((partition.segments.map Segment.baseOffset).flatMap fun base =>
      [logName base, indexName base]) := by
  obtain ⟨syncLevel, tiles, kept⟩ := session.kept
  have listed := kept.layout.enumerates
  have bases : partition.segments.map Segment.baseOffset = tiles.map Tile.baseOffset := by
    rw [kept.shape]
    simp [Partition.withBlocks, Tile.segment]
  rw [bases, List.flatMap_map]
  exact listed

theorem clean_restart_is_identity_two_calls : ∃ world partition history listing,
    Session ⟨"t", 0, [], 60⟩ world partition history ∧
      history.map Prod.fst = [.append none (some [1]), .appendBatch [[2], [3]]] ∧
      (Settings.openOrCreate ⟨"t", 0, [], 60⟩ (fun _ => listing) partition.syncLevel).run world =
        (.ok (.ok { partition with segments := partition.segments.map Segment.reloaded }),
          world) := by
  obtain ⟨world, partition, history, session, shape⟩ := exists_session ⟨"t", 0, [], 60⟩ (by decide)
    [.append none (some [1]), .appendBatch [[2], [3]]] (by decide) (by decide)
  have small : ∀ request ∈ history.map Prod.fst, request.Small := by
    rw [shape]
    decide
  exact ⟨world, partition, history, _, session, shape, clean_restart_is_identity session
    (fun call member => small call.1 (List.mem_map_of_mem member)) _ session.enumerates⟩

/-- The offsets and contents a call acknowledged. -/
def acknowledged : Request × Answer → List (Nat × Content)
  | (.append key value, .offset (.ok offset)) => [(offset, (key, value))]
  | (.appendBatch payloads, .offset (.ok offset)) =>
    payloads.mapIdx fun place payload => (offset + place, (none, some payload))
  | _ => []

private theorem LogStep.mono {offset : Nat} (taken : LogStep limit log request answer grown)
    (held : log[offset]? = some content) : grown[offset]? = some content := by
  have inside := (List.getElem?_eq_some_iff.mp held).1
  cases taken with
  | appended | batchAppended | batchRefused => rw [List.getElem?_append_left inside, held]
  | refused | found | missing | fetched => exact held

theorem LogStep.acknowledged (taken : LogStep limit log request answer grown)
    (member : receipt ∈ acknowledged (request, answer)) : grown[receipt.1]? = some receipt.2 := by
  cases taken with
  | appended key value =>
    rw [List.mem_singleton.mp member]
    simp
  | batchAppended payloads =>
    obtain ⟨place, inside, rfl⟩ := List.mem_mapIdx.mp member
    rw [List.getElem?_append_right (by simp)]
    simp [batchContent, inside]
  | refused | batchRefused | found | missing | fetched => cases member

/-- What was acknowledged stays in the list. -/
theorem LogRun.acknowledged (run : LogRun limit history log) (called : call ∈ history)
    (member : receipt ∈ Ruka.acknowledged call) : log[receipt.1]? = some receipt.2 := by
  induction run with
  | empty => cases called
  | step run taken ih =>
    rcases List.mem_append.mp called with before | now
    · exact taken.mono (ih before)
    · rw [List.mem_singleton.mp now] at member
      exact taken.acknowledged member

/-- Without restarts every handle is in append mode. -/
theorem Session.unmoved {settings : Settings} (session : Session settings world partition history) :
    Life settings True Unmoved world partition history := by
  induction session with
  | opened readDir syncLevel vacant enumerates ran =>
    exact .opened readDir syncLevel vacant enumerates ran
  | restarted _ never => exact never.elim
  | served session _ ran ih =>
    obtain ⟨syncLevel, tiles, kept⟩ := Session.kept session
    refine .served ih (fun active last _ => .inl ?_) ran
    rw [kept.shape] at last
    obtain ⟨tile, member, rfl⟩ := List.mem_map.mp (List.mem_of_getLast? last)
    exact kept.mode not_false tile member

private theorem Life.weaken {settings : Settings}
    (life : Life settings restarts meets world partition history)
    (weaker : ∀ partition request, meets partition request → meets' partition request) :
    Life settings restarts meets' world partition history := by
  induction life with
  | opened readDir syncLevel vacant enumerates ran =>
    exact .opened readDir syncLevel vacant enumerates ran
  | served _ met ran ih => exact .served ih (weaker _ _ met) ran
  | restarted _ allowed readDir syncLevel enumerates ran ih =>
    exact .restarted ih allowed readDir syncLevel enumerates ran

/-- Some calls on a new partition, a restart with a listing, and further calls that
are allowed. -/
def restartTrial (settings : Settings) (allowed : Partition → Request → Bool) (bases : List Nat)
    (before after : List Request) :
    Program (List (Request × Answer) × List Nat × List (Request × Answer)) := do
  let (first, partition) ← settings.openThen (fun _ _ => true) [] before
  let (second, _) ← settings.openThen allowed
    (bases.flatMap fun base => [logName base, indexName base]) after
  pure (first, partition.segments.map Segment.baseOffset, second)

/-- A trial whose listing was the right one is a run with a restart. -/
theorem life_of_restartTrial {settings : Settings}
    (ran : ((restartTrial settings allowed bases before after).run blankWorld).1 =
      .ok (first, bases, second)) :
    ∃ middle reopened world partition, Life settings True Unmoved middle reopened first ∧
      (reopened.serveAll allowed after).run middle = (.ok (second, partition), world) := by
  obtain ⟨final, whole⟩ := Program.exists_run ran
  obtain ⟨⟨calls, partition⟩, middle, head, rest⟩ := Program.exists_of_run_bind whole
  obtain ⟨⟨more, result⟩, last, tail, done⟩ := Program.exists_of_run_bind rest
  simp only [Program.run_pure, Prod.mk.injEq, Except.ok.injEq] at done
  obtain ⟨⟨rfl, listed, rfl⟩, rfl⟩ := done
  have session := Session.of_run head
  obtain ⟨reply, loaded, reopen, later⟩ := Program.exists_of_run_bind tail
  cases reply with
  | error error => cases later
  | ok fresh =>
    have enumerates := session.enumerates
    rw [listed] at enumerates
    exact ⟨_, _, _, _, session.unmoved.restarted trivial _ .none enumerates reopen, later⟩

/-- In every run with restarts whose calls, where they write into the active segment,
find its log in append mode or the cursor at the end, each acknowledged record is
returned unchanged. -/
theorem acknowledged_records_survive {settings : Settings}
    (life : Life settings True Unmoved world partition history)
    (small : ∀ call ∈ history, call.1.Small) (called : call ∈ history)
    (member : receipt ∈ acknowledged call) :
    ∃ record result,
      (partition.read receipt.1).run world = (.ok (.ok (some record), result), world) ∧
      record.offset = receipt.1 ∧ (record.key, record.value) = receipt.2 := by
  obtain ⟨syncLevel, tiles, kept⟩ := life.kept (fun _ _ met => .inr met) fun _ => small
  obtain ⟨found, result, ran, same⟩ := kept.run_read small receipt.1
  rw [(kept.explained small).acknowledged called member] at same
  obtain ⟨record, rfl, fields⟩ := Option.map_eq_some_iff.mp same
  simp only [Prod.mk.injEq] at fields
  exact ⟨record, result, ran, fields.1, Prod.ext fields.2.1 fields.2.2⟩

/-- A record too long for the first read, so that reading it leaves the cursor
at its own end, before the record behind it. -/
def longValue : Bytes := List.replicate 4100 7

set_option maxRecDepth 100000 in
/-- After a restart a record is written behind the long one. Reading the long one
moves the cursor back, but the last record does not fit any more and goes into a
new segment. -/
private theorem rotating_trial :
    ((restartTrial ⟨"t", 0, [], 4160⟩ (fun partition request => Unmoved partition request) [0]
      [.append none (some longValue)]
      [.append none (some [1]), .read 0, .append none (some [2])]).run blankWorld).1 =
    .ok ([(.append none (some longValue), .offset (.ok 0))], [0],
      [(.append none (some [1]), .offset (.ok 1)),
        (.read 0, .record (.ok (some ⟨0, 0, none, some longValue⟩))),
        (.append none (some [2]), .offset (.ok 2))]) := by
  decide +kernel

theorem acknowledged_records_survive_one_restart : ∃ world partition history record result,
    Life ⟨"t", 0, [], 4160⟩ True Unmoved world partition history ∧
      history.map Prod.fst = [.append none (some longValue), .append none (some [1]), .read 0,
        .append none (some [2])] ∧
      (partition.read 1).run world = (.ok (.ok (some record), result), world) ∧
      (record.key, record.value) = (none, some [1]) := by
  obtain ⟨middle, reopened, world, partition, before, ran⟩ := life_of_restartTrial rotating_trial
  have life := before.serveAll (fun _ _ unmoved => of_decide_eq_true unmoved) ran
  have acked : (1, (none, some [1])) ∈
      acknowledged (.append none (some [1]), .offset (.ok 1)) := by decide
  obtain ⟨record, result, read, -, same⟩ :=
    acknowledged_records_survive life (by decide +kernel) (by simp) acked
  exact ⟨world, partition, _, record, result, life, rfl, read, same⟩

set_option maxRecDepth 100000 in
/-- Reading the long record after a restart moves the cursor back; the next
append overwrites the record at offset 1, and reading that offset then gives
the record of offset 2. -/
private theorem overwriting_trial :
    ((restartTrial ⟨"t", 0, [], 1000000⟩ (fun _ _ => true) [0] [.append none (some longValue),
      .append none (some [1])] [.read 0, .append none (some [2]), .read 1]).run blankWorld).1 =
    .ok ([(.append none (some longValue), .offset (.ok 0)),
      (.append none (some [1]), .offset (.ok 1))], [0],
      [(.read 0, .record (.ok (some ⟨0, 0, none, some longValue⟩))),
        (.append none (some [2]), .offset (.ok 2)),
        (.read 1, .record (.ok (some ⟨2, 2, none, some [2]⟩)))]) := by
  decide +kernel

/-- Without the condition an acknowledged record is lost: the run acknowledges
a record at offset 1 and later answers a read of that offset with another one. -/
theorem acknowledged_record_overwritten : ∃ world partition history,
    Life ⟨"t", 0, [], 1000000⟩ True (fun _ _ => True) world partition history ∧
      (∀ call ∈ history, call.1.Small) ∧
      (1, (none, some [1])) ∈ history.dropLast.flatMap acknowledged ∧
      history.getLast? = some (.read 1, .record (.ok (some ⟨2, 2, none, some [2]⟩))) := by
  obtain ⟨middle, reopened, world, partition, before, ran⟩ := life_of_restartTrial overwriting_trial
  have life := (before.weaken fun _ _ _ => trivial).serveAll (fun _ _ _ => trivial) ran
  refine ⟨world, partition, _, life, ?_, ?_, rfl⟩
  · decide +kernel
  · decide +kernel

end Ruka
