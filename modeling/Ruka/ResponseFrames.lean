import Mathlib.Data.Nat.Digits.Defs
import Mathlib.Data.String.Basic
import Ruka.BrokerRuns
import Ruka.FetchGaps

/-! Whether a client can read what the broker sends. The decoder refuses frames
of more than sixteen megabytes, and nothing between `read_batch` and the
encoder keeps a fetch response below that. -/
namespace Ruka
open BigEndian LexicalPaths FilePrograms Protocol Ruka.Partition

/-! ## How much a fetch returns -/

/-- The bytes at the front that fit a budget. -/
def fittingBytes (budget : Nat) (sizes : List Nat) : Nat := (sizes.take (fitting budget sizes)).sum

/-- What a fetch adds to the records it already has: from each segment the
records that still fit, until the first one of a segment does not. -/
def addedBytes : List (List Nat) → Nat → Nat
  | [], _ => 0
  | [] :: rest, budget => addedBytes rest budget
  | (size :: sizes) :: rest, budget =>
    if size ≤ budget then
      fittingBytes budget (size :: sizes) +
        addedBytes rest (budget - fittingBytes budget (size :: sizes))
    else 0

/-- The bytes of the records a fetch of `maxBytes` takes from segments with
records of these sizes. A first record that does not fit is taken alone. -/
def fetchBytes (segments : List (List Nat)) (maxBytes : Nat) : Nat :=
  match segments.flatten with
  | [] => 0
  | first :: _ =>
    if maxBytes = 0 then 0 else if maxBytes < first then first else addedBytes segments maxBytes

/-- The distances between positions, the last one to the end of the log. -/
def distances : List IndexEntry → Nat → List Nat
  | [], _ => []
  | [entry], stop => [stop - entry.position]
  | entry :: next :: rest, stop => (next.position - entry.position) :: distances (next :: rest) stop

/-- The sizes of the records of a segment, from its index. -/
def Segment.recordSizes (self : Segment) : List Nat := distances self.index.entries self.currentSize

/-- The sizes of the records from `offset` on, segment by segment. -/
def Partition.sizesFrom (self : Partition) (offset : Nat) : List (List Nat) :=
  (self.segments.filter fun segment => offset < segment.nextOffset).map fun segment =>
    segment.recordSizes.drop (offset - segment.baseOffset)

private theorem length_encodeAll_numbered (offset : Nat) (messages : List Message) :
    (encodeAll (numbered offset messages)).length = totalSize messages := by
  induction messages generalizing offset with
  | nil => rfl
  | cons message rest ih =>
    simp only [numbered, encodeAll_cons, List.length_append, ih, totalSize, List.map_cons,
      List.sum_cons, Record.length_encode]
    rfl

private theorem length_encode_le_of_mem (member : record ∈ records) :
    record.encode.length ≤ (encodeAll records).length := by
  obtain ⟨front, back, rfl⟩ := List.append_of_mem member
  rw [encodeAll_append, encodeAll_cons, List.length_append, List.length_append]
  omega

private theorem fittingBytes_map_size (budget : Nat) (messages : List Message) :
    fittingBytes budget (messages.map Message.size) = totalSize (within budget messages) := by
  have taken := List.prefix_iff_eq_take.mp (within_isPrefix budget messages)
  rw [fittingBytes, ← length_within, ← List.map_take, ← taken, totalSize]

private theorem addedBytes_zero (segments : List (List Nat))
    (positive : ∀ sizes ∈ segments, ∀ size ∈ sizes, 0 < size) : addedBytes segments 0 = 0 := by
  induction segments with
  | nil => rfl
  | cons sizes rest ih =>
    cases sizes with
    | nil => exact ih fun sizes member => positive sizes (List.mem_cons_of_mem _ member)
    | cons size sizes =>
      have sized := positive (size :: sizes) (by simp) size (by simp)
      exact if_neg (by omega)

/-- The sizes of the messages a fetch at `offset` has ahead of it. -/
private def sizesAhead : List Tile → Nat → List (List Nat)
  | [], _ => []
  | tile :: rest, offset =>
    (tile.remaining offset).map Message.size :: rest.map fun later =>
      later.messages.map Message.size

private theorem sizesAhead_next (rest : List Tile) (offset : Nat) :
    sizesAhead rest (nextTileBase rest offset) = rest.map fun later =>
      later.messages.map Message.size := by
  cases rest with
  | nil => rfl
  | cons next rest =>
    have base : nextTileBase (next :: rest) offset = next.baseOffset := rfl
    rw [base, sizesAhead, Tile.remaining_baseOffset, List.map_cons]

private theorem sizesAhead_positive (tiles : List Tile) (offset : Nat) :
    ∀ sizes ∈ sizesAhead tiles offset, ∀ size ∈ sizes, 0 < size := by
  intro sizes member size inside
  have sized {messages : List Message} (listed : size ∈ messages.map Message.size) : 0 < size := by
    obtain ⟨message, -, rfl⟩ := List.mem_map.mp listed
    have atLeast : 28 ≤ message.size := recordLen_ge _ _
    omega
  cases tiles with
  | nil => cases member
  | cons tile rest =>
    rcases List.mem_cons.mp member with rfl | later
    · exact sized inside
    · obtain ⟨other, -, rfl⟩ := List.mem_map.mp later
      exact sized inside

/-- A fetch that has something adds what fits. -/
private theorem length_fetchAcross_more (tiles : List Tile) (offset budget : Nat)
    (results : List Record) (nonempty : results ≠ []) :
    (encodeAll (fetchAcross tiles offset budget results)).length =
      (encodeAll results).length + addedBytes (sizesAhead tiles offset) budget := by
  induction tiles generalizing offset budget results with
  | nil => rfl
  | cons tile rest ih =>
    by_cases spent : budget = 0
    · rw [fetchAcross, if_pos spent, spent, addedBytes_zero _ (sizesAhead_positive _ _)]
      rfl
    cases shape : tile.remaining offset with
    | nil =>
      have skipped : fetchAcross (tile :: rest) offset budget results =
          fetchAcross rest (nextTileBase rest offset) budget results := by
        rw [fetchAcross, if_neg spent,
          show tile.messages.drop (offset - tile.baseOffset) = [] from shape]
        rfl
      rw [skipped, ih _ _ _ nonempty, sizesAhead_next, sizesAhead, shape, List.map_nil, addedBytes]
    | cons message back =>
      by_cases room : message.size ≤ budget
      · rw [fetchAcross_cons shape room, ih _ _ _ (by simp [nonempty]), sizesAhead_next, sizesAhead,
          shape, List.map_cons, addedBytes, if_pos room, ← List.map_cons, fittingBytes_map_size,
          encodeAll_append, List.length_append, length_encodeAll_numbered, Nat.add_assoc]
      · have ended : fetchAcross (tile :: rest) offset budget results = results := by
          rw [fetchAcross, if_neg spent, show tile.messages.drop (offset - tile.baseOffset) =
            message :: back from shape]
          simp [fetched, room, nonempty]
        rw [ended, sizesAhead, shape, List.map_cons, addedBytes, if_neg room]
        rfl

/-- A fetch returns as many bytes of records as the sizes ahead say. -/
private theorem length_fetchAcross (tiles : List Tile) (offset maxBytes : Nat) :
    (encodeAll (fetchAcross tiles offset maxBytes [])).length =
      fetchBytes (sizesAhead tiles offset) maxBytes := by
  induction tiles generalizing offset with
  | nil => rfl
  | cons tile rest ih =>
    by_cases spent : maxBytes = 0
    · rw [fetchAcross, if_pos spent, spent, fetchBytes]
      split <;> rfl
    cases shape : tile.remaining offset with
    | nil =>
      have skipped : fetchAcross (tile :: rest) offset maxBytes [] =
          fetchAcross rest (nextTileBase rest offset) maxBytes [] := by
        rw [fetchAcross, if_neg spent,
          show tile.messages.drop (offset - tile.baseOffset) = [] from shape]
        rfl
      rw [skipped, ih, sizesAhead_next, sizesAhead, shape, List.map_nil]
      rfl
    | cons message back =>
      have first : (sizesAhead (tile :: rest) offset).flatten = message.size ::
          (back.map Message.size ++ (rest.map fun later =>
            later.messages.map Message.size).flatten) := by
        rw [sizesAhead, shape]
        rfl
      rw [fetchBytes, first]
      simp only [spent, ↓reduceIte]
      by_cases room : message.size ≤ maxBytes
      · have taken : within maxBytes (message :: back) ≠ [] := by simp [within, room]
        have numbered_ne : numbered offset (within maxBytes (message :: back)) ≠ [] := by
          intro nothing
          have length := congrArg List.length nothing
          rw [length_numbered] at length
          exact taken (List.eq_nil_of_length_eq_zero length)
        rw [fetchAcross_cons shape room, List.nil_append,
          length_fetchAcross_more _ _ _ _ numbered_ne, if_neg (Nat.not_lt.mpr room),
          sizesAhead_next, sizesAhead, shape, List.map_cons, addedBytes, if_pos room,
          ← List.map_cons, fittingBytes_map_size, length_encodeAll_numbered]
      · have alone : fetchAcross (tile :: rest) offset maxBytes [] = [message.record offset] := by
          rw [fetchAcross, if_neg spent, show tile.messages.drop (offset - tile.baseOffset) =
            message :: back from shape]
          simp [fetched, room]
        rw [alone, if_pos (Nat.lt_of_not_le room)]
        simp [encodeAll, Message.record, Message.size]

/-! ## The sizes in the state of the broker -/

private theorem distances_positions (position : Nat) (records : List Record) :
    distances (positions position records) (position + (encodeAll records).length) =
      records.map fun record => record.encode.length := by
  induction records generalizing position with
  | nil => rfl
  | cons record rest ih =>
    have tail := ih (position + record.encode.length)
    cases rest with
    | nil => simp [positions, distances]
    | cons next rest =>
      rw [Nat.add_assoc, ← List.length_append, ← encodeAll_cons] at tail
      rw [List.map_cons, ← tail]
      simp [positions, distances]

private theorem Tile.recordSizes_segment (dir : Path) (maxBytes : Nat) (syncLevel : SyncLevel)
    (tile : Tile) : (tile.segment dir maxBytes syncLevel).recordSizes =
      tile.messages.map Message.size := by
  have whole := distances_positions 0 tile.records
  rw [Nat.zero_add] at whole
  have sizes : (tile.segment dir maxBytes syncLevel).recordSizes =
      tile.records.map fun record => record.encode.length := whole
  rw [sizes, Tile.records]
  generalize tile.baseOffset = offset
  induction tile.messages generalizing offset with
  | nil => rfl
  | cons message rest ih =>
    rw [numbered, List.map_cons, ih, List.map_cons, Record.length_encode]
    rfl

/-- What the partition knows of the sizes ahead. -/
private theorem fetchBytes_sizesFrom {world : World} {tile : Tile} {front back : List Tile}
    (partition : Partition) (filed : Filed world dir limit (front ++ tile :: back))
    (low : tile.baseOffset ≤ offset) (high : ∀ later ∈ back, offset < later.baseOffset)
    (maxBytes : Nat) :
    fetchBytes ((partition.withTiles (front ++ tile :: back)).sizesFrom offset) maxBytes =
      fetchBytes (sizesAhead (tile :: back) offset) maxBytes := by
  have early : front.filter (fun earlier => decide (offset < earlier.nextOffset)) = [] := by
    rw [List.filter_eq_nil_iff]
    intro earlier member
    obtain ⟨before, between, rfl⟩ := List.append_of_mem member
    rw [List.append_assoc, List.cons_append] at filed
    have ended := filed.nextOffset_le (List.mem_append_right between (List.mem_cons_self ..))
    simp only [decide_eq_true_eq]
    omega
  have late : back.filter (fun later => decide (offset < later.nextOffset)) = back := by
    rw [List.filter_eq_self]
    intro later member
    have above := high later member
    apply decide_eq_true
    unfold Tile.nextOffset
    omega
  have behind : back.map (fun later => (later.messages.map Message.size).drop
      (offset - later.baseOffset)) = back.map fun later => later.messages.map Message.size := by
    refine List.map_congr_left fun later member => ?_
    rw [Nat.sub_eq_zero_of_le (Nat.le_of_lt (high later member)), List.drop_zero]
  have sizes : (partition.withTiles (front ++ tile :: back)).sizesFrom offset =
      ((front ++ tile :: back).filter fun other =>
        decide (offset < other.nextOffset)).map fun other =>
        (other.messages.map Message.size).drop (offset - other.baseOffset) := by
    simp only [sizesFrom, withBlocks, List.filter_map, List.map_map]
    refine List.map_congr_left fun other _ => ?_
    simp only [Function.comp_apply, Tile.recordSizes_segment]
    rfl
  rw [sizes, List.filter_append, early, List.nil_append, List.filter_cons, sizesAhead,
    Tile.remaining, List.map_drop]
  split
  · rw [late, List.map_cons, behind]
  · rename_i beyond
    have past : tile.nextOffset ≤ offset := by simpa using beyond
    have nothing : (tile.messages.map Message.size).drop (offset - tile.baseOffset) = [] := by
      apply List.drop_of_length_le
      simp only [Tile.nextOffset] at past
      simp only [List.length_map]
      omega
    rw [late, behind, nothing]
    rfl

/-! ## Responses and their frames -/

/-- The codec reads a response back from the bytes it is sent as. -/
def Protocol.Response.Decodes (response : Response) : Prop :=
  Frame.decode response.intoFrame.encode = some (.ok (some response.intoFrame), [])

private theorem decodes_iff {response : Response} (wellFormed : response.intoFrame.WellFormed) :
    response.Decodes ↔ response.intoFrame.bodyLen ≤ maxFrameSize := by
  constructor
  · intro decodes
    obtain ⟨-, trailing, length, limit, -⟩ := Frame.decode_accepted decodes
    omega
  · intro limit
    have back := Frame.decode_encode_of_wellFormed wellFormed limit []
    rwa [List.append_nil] at back

private theorem utf8_append (first second : String) :
    utf8 (first ++ second) = utf8 first ++ utf8 second := by
  simp [utf8, String.toByteArray_append]

private theorem length_utf8_le (text : String) : (utf8 text).length ≤ 4 * text.length := by
  have measured (chars : List Char) : String.utf8Len chars ≤ 4 * chars.length := by
    induction chars with
    | nil => exact Nat.zero_le _
    | cons char rest ih =>
      have four := char.utf8Size_le_four
      simp only [String.utf8Len_cons, List.length_cons]
      omega
  have size : (utf8 text).length = text.utf8ByteSize := rfl
  have chars := String.utf8ByteSize_ofList text.toList
  rw [String.ofList_toList] at chars
  rw [size, chars]
  exact measured text.toList

private theorem length_utf8_repr (width : n < 10 ^ 20) : (utf8 n.repr).length ≤ 80 := by
  have digits := Nat.repr_length n 20 (by decide) width
  have bytes := length_utf8_le n.repr
  omega

/-- The texts of the errors a request can be answered with are short. -/
inductive Short : RukaError → Prop
  | io (error : IoError) : Short (.io error)
  | messageTooLarge : Short .messageTooLarge
  | offsetNotFound (width : offset < 2 ^ 64) : Short (.offsetNotFound offset)
  | partitionNotFound (id : UInt32) (topic : (utf8 name).length ≤ 255) :
      Short (.partitionNotFound name id)

/-- The text around the names and numbers of an error. -/
private theorem length_around (front middle back : String) (before : (utf8 front).length ≤ 300)
    (inside : (utf8 middle).length ≤ 300) (behind : (utf8 back).length ≤ 300) :
    (utf8 (front ++ middle ++ back)).length ≤ 1000 := by
  rw [utf8_append, utf8_append, List.length_append, List.length_append]
  omega

private theorem Short.length_text (short : Short error) : (utf8 error.text).length ≤ 1000 := by
  cases short with
  | io error => cases error <;> decide
  | messageTooLarge => decide
  | @offsetNotFound offset width =>
    have wide : (2 : Nat) ^ 64 < 10 ^ 20 := by decide
    have digits := length_utf8_repr (Nat.lt_trans width wide)
    exact length_around "offset " offset.repr " not found in any segment" (by decide)
      (Nat.le_trans digits (by decide)) (by decide)
  | @partitionNotFound name id topic =>
    have wide : (2 : Nat) ^ 32 < 10 ^ 20 := by decide
    have digits := length_utf8_repr (Nat.lt_trans id.toNat_lt wide)
    have front : (utf8 ("partition " ++ name ++ "/")).length ≤ 300 := by
      rw [utf8_append, utf8_append, List.length_append, List.length_append]
      exact Nat.le_trans (Nat.add_le_add_right (Nat.add_le_add_left topic _) _) (by decide)
    exact length_around ("partition " ++ name ++ "/") id.toNat.repr " does not exist" front
      (Nat.le_trans digits (by decide)) (by decide)

private theorem error_decodes (correlationId : UInt32) (code : ErrorCode) (text : String)
    (short : (utf8 text).length ≤ 1000) : (Response.error ⟨correlationId, code, text⟩).Decodes := by
  refine (decodes_iff ⟨rfl, fun _ => rfl, Nat.zero_le _⟩).mpr ?_
  have empty : (utf8 "").length = 0 := by decide
  have limit : maxFrameSize = 2 ^ 24 := rfl
  simp only [Response.intoFrame, Frame.bodyLen, List.length_append, length_beBytes, empty, limit]
  omega

private theorem ofError_decodes (correlationId : UInt32) (short : Short error) :
    (Response.ofError correlationId error).Decodes :=
  error_decodes _ _ _ short.length_text

private theorem undelivered_decodes (correlationId : UInt32) (failure : Undelivered) :
    (Response.error ⟨correlationId, .serverError, failure.text⟩).Decodes := by
  apply error_decodes
  cases failure <;> decide

/-- A decoded request names a topic that a response may repeat. -/
theorem Protocol.Request.Decoded.topic {request : Protocol.Request} (decoded : request.Decoded) :
    utf8 request.key.1 ≠ [] ∧ (utf8 request.key.1).length ≤ 255 := by
  obtain ⟨src, frame, rest, accepted, read⟩ := decoded
  obtain ⟨wellFormed, -⟩ := Frame.decode_accepted accepted
  have same := Protocol.Request.intoFrame_of_fromFrame wellFormed.magic read
  have topic : request.key.1 = frame.topic := by
    rw [← same]
    cases request <;> rfl
  rw [topic]
  refine ⟨fun empty => ?_, wellFormed.topic⟩
  have isError := wellFormed.named empty
  rw [← same] at isError
  cases request <;> cases isError

/-- A response with the topic of a decoded request is well formed. -/
private theorem wellFormed_of_topic {frame : Frame} {topic : String}
    (magic : frame.magic = magicByte) (same : frame.topic = topic)
    (named : utf8 topic ≠ [] ∧ (utf8 topic).length ≤ 255) : frame.WellFormed :=
  ⟨magic, fun empty => absurd (same ▸ empty) named.1, same ▸ named.2⟩

private theorem offset_decodes {request : Protocol.Request} (decoded : request.Decoded)
    (creates : request.Creates) (offset : Nat) :
    (request.respond (.ok (.offset (.ok offset)))).Decodes := by
  have named := decoded.topic
  have short := named.2
  have limit : maxFrameSize = 2 ^ 24 := rfl
  have wellFormed : (request.respond (.ok (.offset (.ok offset)))).intoFrame.WellFormed := by
    cases request with
    | fetch req => exact creates.elim
    | _ => exact wellFormed_of_topic rfl rfl named
  refine (decodes_iff wellFormed).mpr ?_
  cases request with
  | fetch req => exact creates.elim
  | _ =>
    simp only [Request.key] at short
    simp only [Request.respond, Response.intoFrame, Frame.bodyLen, length_beBytes, limit]
    omega

/-- A fetch response is read back exactly when its records leave room for the
rest of the frame. -/
private theorem records_decodes_iff {req : FetchRequest} (decoded : Request.Decoded (.fetch req))
    (records : List Record) :
    (Request.respond (.fetch req) (.ok (.records (.ok records)))).Decodes ↔
      21 + (utf8 req.topic).length + (encodeAll records).length ≤ maxFrameSize := by
  have named := decoded.topic
  have short : (utf8 req.topic).length ≤ 255 := named.2
  have limit : maxFrameSize = 2 ^ 24 := rfl
  by_cases nothing : records = []
  · have missing := ofError_decodes req.correlationId (Short.offsetNotFound req.offset.toNat_lt)
    have shape : Request.respond (.fetch req) (.ok (.records (.ok records))) =
        .ofError req.correlationId (.offsetNotFound req.offset.toNat) := if_pos nothing
    rw [shape, nothing]
    refine iff_of_true missing ?_
    rw [limit, encodeAll_nil, List.length_nil]
    omega
  · have shape : Request.respond (.fetch req) (.ok (.records (.ok records))) =
        .fetch ⟨req.correlationId, req.topic, req.partition, fetchPayload records⟩ := if_neg nothing
    have wellFormed : (Response.fetch ⟨req.correlationId, req.topic, req.partition,
        fetchPayload records⟩).intoFrame.WellFormed := wellFormed_of_topic rfl rfl named
    rw [shape, decodes_iff wellFormed]
    simp only [Response.intoFrame, Frame.bodyLen, fetchPayload, List.length_append, length_beBytes]
    omega

/-! ## Every response -/

/-- The response to a fetch fits a frame: the records from `offset` on that the
fetch takes, with the count, the topic and the header, stay within the limit.
Other requests are always answered in a small frame. -/
def FetchFits (broker : Broker) : Protocol.Request → Prop
  | .fetch req =>
    ∀ sender ∈ broker.registry.find req.topic req.partition,
      ∀ partition ∈ broker.registry.actors[sender]?,
      21 + (utf8 req.topic).length + fetchBytes (partition.sizesFrom req.offset.toNat)
        req.maxBytes.toNat ≤ maxFrameSize
  | _ => True

instance (broker : Broker) (request : Protocol.Request) : Decidable (FetchFits broker request) := by
  cases request <;> unfold FetchFits <;> infer_instance

private theorem fetchFits_of_creates {request : Protocol.Request} (broker : Broker)
    (creates : request.Creates) : FetchFits broker request := by
  cases request with
  | fetch req => exact creates.elim
  | _ => trivial

private theorem LogStep.answer_of_writes (taken : LogStep limit log request answer grown)
    (writes : request.Writes) :
    answer = .offset (.ok log.length) ∨ answer = .offset (.error .messageTooLarge) := by
  cases taken with
  | appended | batchAppended => exact .inl rfl
  | refused | batchRefused => exact .inr rfl
  | _ => exact writes.elim

/-- A fetch from a registered partition, and how much it returns. -/
theorem Lives.run_handleFetch {world : World} {broker : Broker} {partition : Partition}
    {tiles : List Tile} {req : FetchRequest}
    (lives : Lives world broker.registry.baseDir broker.registry.maxSegmentBytes
      broker.registry.syncLevel partition tiles) (alive : broker.dead = [])
    (held : broker.registry.find req.topic req.partition = some sender)
    (there : broker.registry.actors[sender]? = some partition) :
    ∃ records changed, (broker.handleFetch req).run world =
        (.ok (Request.respond (.fetch req) (.ok (.records (.ok records))), changed), world) ∧
      (encodeAll records).length =
        fetchBytes (partition.sizesFrom req.offset.toNat) req.maxBytes.toNat ∧
      (req.maxBytes.toNat ≠ 0 → ∀ message ∈ (contents tiles)[req.offset.toNat]?,
        message.record req.offset.toNat ∈ records) := by
  obtain ⟨front, tile, back, rfl, low, high⟩ :=
    lives.filed.tiled.exists_floor (Nat.zero_le req.offset.toNat)
  let frame := (⟨partition.topic, partition.id, broker.registry.baseDir,
    broker.registry.maxSegmentBytes⟩ : Settings).frame broker.registry.syncLevel
  have filed : Filed world frame.baseDir frame.maxSegmentBytes
      (front ++ tile :: back) := lives.filed
  obtain ⟨others, -, ran⟩ := Partition.run_readBatch filed lives.small low high req.maxBytes.toNat
  rw [← lives.shape] at ran
  generalize taken :
    fetchAcross (tile :: back) req.offset.toNat req.maxBytes.toNat [] = records at ran
  have served : (partition.serve (.readBatch req.offset.toNat req.maxBytes.toNat)).run world =
      (.ok (.records (.ok records), frame.withTiles others), world) := Program.run_bind_of_run ran _
  have tried : ((partition.serve
      (.readBatch req.offset.toNat req.maxBytes.toNat)).attempt).run world =
        (.ok (some (.records (.ok records), frame.withTiles others)), world) := by
    rw [Program.run_attempt, served]
  have asked : (broker.ask sender (.readBatch req.offset.toNat req.maxBytes.toNat)).run world =
      (.ok (.ok (.records (.ok records)),
        { broker with registry := broker.registry.replace sender (frame.withTiles others)
          }), world) := by
    unfold Broker.ask
    rw [there]
    simp only [alive, List.not_mem_nil, ↓reduceIte]
    exact Program.run_bind_of_run tried _
  refine ⟨records,
    { broker with registry := broker.registry.replace sender (frame.withTiles others) },
    ?_, ?_, ?_⟩
  · unfold Broker.handleFetch Broker.handleWith TopicRegistry.getPartition
    rw [held]
    exact Program.run_bind_of_run asked _
  · rw [← taken, length_fetchAcross, lives.shape, fetchBytes_sizesFrom frame filed low high]
  · intro nonzero message stored
    obtain ⟨rest, first⟩ := fetchAcross_head filed low high nonzero stored
    rw [← taken, first]
    exact List.mem_cons_self ..

namespace Housed
variable {keys : String × UInt32 → Prop} {world : World} {broker : Broker}

/-- An append is answered with an offset or a short error. -/
theorem handled_decodes {request : Protocol.Request} (housed : Housed keys world broker.registry)
    (apart : Apart keys broker.registry.baseDir) (alive : broker.dead = [])
    (readDir : Path → List Name) (decoded : request.Decoded) (creates : request.Creates)
    (known : keys request.key) :
    ∃ response changed after,
      (broker.handleRequest readDir request).run world = (.ok (response, changed), after) ∧
        response.Decodes := by
  rw [Broker.handleRequest_eq]
  obtain ⟨⟨answer, registry⟩, middle, looked, found⟩ :=
    (housed.lookup_ensures known readDir).returns not_false
  unfold Broker.handleWith
  rw [Program.run_bind_of_run looked]
  cases answer with
  | error error =>
    refine ⟨_, _, _, rfl, ofError_decodes _ ?_⟩
    cases found with
    | failed creates error => exact .io error
    | absent missing reads => exact absurd creates reads
  | ok sender =>
    obtain ⟨partition, tiles, -, -, -, asks⟩ :=
      (found.housed housed apart known).ask_ensures found.find broker.dead (by simp [alive])
        request.command
    obtain ⟨⟨reply, changed⟩, after, asked, replied⟩ := asks.returns not_false
    refine ⟨_, _, _, Program.run_bind_of_run asked _, ?_⟩
    cases replied with
    | lost overflow => exact undelivered_decodes _ _
    | failed error => exact ofError_decodes _ (.io error)
    | answered keyed lives outside explained =>
      have writes : request.command.Writes := by
        cases request with
        | fetch req => exact creates.elim
        | _ => exact trivial
      rcases explained.answer_of_writes writes with rfl | rfl
      · exact offset_decodes decoded creates _
      · exact ofError_decodes _ .messageTooLarge

end Housed

/-- Whatever a run has stored, a request gets a response that its client can
read back, unless it fetches more than a frame can carry. -/
theorem response_decodes_iff {keys : String × UInt32 → Prop} {start world : World} {baseDir : Path}
    {maxSegmentBytes : Nat} {syncLevel : SyncLevel} {broker : Broker}
    {history : List (Protocol.Request × Response)} (unwritten : Unwritten keys start baseDir)
    (apart : Apart keys baseDir)
    (run : BrokerRun start (.new baseDir maxSegmentBytes syncLevel) world broker history)
    (known : ∀ call ∈ history, keys call.1.key) (alive : broker.dead = [])
    (faultless : Faultless history) (readDir : Path → List Name) (request : Protocol.Request)
    (decoded : request.Decoded) (asked : keys request.key) :
    ∃ response changed after,
      (broker.handleRequest readDir request).run world = (.ok (response, changed), after) ∧
      (response.Decodes ↔ FetchFits broker request) := by
  have housed := run.housed (.new baseDir maxSegmentBytes syncLevel unwritten) apart known
    alive faultless
  by_cases creates : request.Creates
  · obtain ⟨response, changed, after, ran, decodes⟩ :=
      housed.handled_decodes (run.baseDir ▸ apart) alive readDir decoded creates asked
    exact ⟨response, changed, after, ran, iff_of_true decodes (fetchFits_of_creates broker creates)⟩
  cases request with
  | fetch req =>
    cases held : broker.registry.find req.topic req.partition with
    | none =>
      have decodes := ofError_decodes req.correlationId
        (Short.partitionNotFound req.partition decoded.topic.2)
      refine ⟨_, broker, world, ?_, iff_of_true decodes fun sender found => ?_⟩
      · simp only [Broker.handleRequest, Broker.handleFetch, Broker.handleWith,
          TopicRegistry.getPartition, held]
        rfl
      · rw [held] at found
        cases found
    | some sender =>
      obtain ⟨partition, there, -⟩ := housed.owned.getElem? held
      obtain ⟨tiles, lives⟩ := housed.lives partition (List.mem_of_getElem? there)
      obtain ⟨records, changed, ran, length, -⟩ := lives.run_handleFetch alive held there
      refine ⟨_, changed, world, ran, (records_decodes_iff decoded records).trans ?_⟩
      rw [length]
      constructor
      · intro fits other found another listed
        rw [held] at found
        cases found
        rw [there] at listed
        cases listed
        exact fits
      · intro fits
        exact fits sender held partition there
  | _ => exact absurd trivial creates

/-- A request whose frame the decoder accepts. -/
private theorem decoded_produce {request : ProduceRequest} (named : utf8 request.topic ≠ [])
    (topic : (utf8 request.topic).length ≤ 255)
    (limit : (Protocol.Request.intoFrame (.produce request)).bodyLen ≤ maxFrameSize) :
    Protocol.Request.Decoded (.produce request) := by
  have read := Frame.decode_encode_of_wellFormed
    ⟨rfl, fun empty => absurd empty named, topic⟩ limit []
  exact ⟨_, _, _, read, rfl⟩

/-- A small message is produced and fetched back. -/
private def fetchTrial : Program (Response × List Nat × Bool × Response) := do
  let (first, broker) ← (⟨.new [] 100 .none, []⟩ : Broker).handleRequest (fun _ => [])
    (.produce ⟨1, "t", 0, [7]⟩)
  let (second, _) ← broker.handleRequest (fun _ => []) (.fetch ⟨2, "t", 0, 0, 100⟩)
  pure (first, broker.dead, decide (FetchFits broker (.fetch ⟨2, "t", 0, 0, 100⟩)), second)

private theorem fetchTrial_outcome : (fetchTrial.run blankWorld).1 =
    .ok (.produce ⟨1, "t", 0, 0⟩, [], true,
      .fetch ⟨2, "t", 0, fetchPayload [⟨0, 0, none, some [7]⟩]⟩) := by
  decide +kernel

/-- A fetch of a stored message is answered in a frame of any client. -/
theorem response_decodes_iff_stored_message :
    let stored : Protocol.Request := .produce ⟨1, "t", 0, [7]⟩
    let fetch : Protocol.Request := .fetch ⟨2, "t", 0, 0, 100⟩
    let response : Response := .fetch ⟨2, "t", 0, fetchPayload [⟨0, 0, none, some [7]⟩]⟩
    ∃ world broker history changed after,
      BrokerRun blankWorld (.new [] 100 .none) world broker history ∧
      history.map Prod.fst = [stored] ∧ FetchFits broker fetch ∧
      (broker.handleRequest (fun _ => []) fetch).run world = (.ok (response, changed), after) ∧
      response.Decodes := by
  obtain ⟨final, whole⟩ := Program.exists_run fetchTrial_outcome
  obtain ⟨⟨first, broker⟩, world, produced, later⟩ := Program.exists_of_run_bind whole
  obtain ⟨⟨second, changed⟩, after, fetched, done⟩ := Program.exists_of_run_bind later
  simp only [Program.run_pure, Prod.mk.injEq, Except.ok.injEq] at done
  obtain ⟨⟨rfl, alive, fits, rfl⟩, rfl⟩ := done
  have fits := of_decide_eq_true fits
  have decoded : Protocol.Request.Decoded (.produce ⟨1, "t", 0, [7]⟩) :=
    decoded_produce (by decide) (by decide) (by decide)
  let frame := Protocol.Request.intoFrame (.fetch ⟨2, "t", 0, 0, 100⟩)
  have asked : Protocol.Request.Decoded (.fetch ⟨2, "t", 0, 0, 100⟩) :=
    ⟨frame.encode, frame, [], by decide +kernel, by decide +kernel⟩
  have run : BrokerRun blankWorld (.new [] 100 .none) world broker
      [(.produce ⟨1, "t", 0, [7]⟩, .produce ⟨1, "t", 0, 0⟩)] :=
      .handled .started (fun _ => []) decoded produced
  have unwritten : Unwritten (· = ("t", 0)) blankWorld [] := fun _ _ _ _ => rfl
  have apart : Apart (· = ("t", 0)) [] := fun _ _ _ _ first second _ => first.trans second.symm
  have faultless :
      Faultless [(Protocol.Request.produce ⟨1, "t", 0, [7]⟩, Response.produce ⟨1, "t", 0, 0⟩)] := by
    intro call only error
    rw [List.mem_singleton.mp only]
    nofun
  obtain ⟨response, other, last, ran, decodes⟩ := response_decodes_iff unwritten apart run
    (fun call only => by rw [List.mem_singleton.mp only]; rfl) alive faultless
      (fun _ => []) _ asked rfl
  obtain ⟨⟨rfl, -⟩, -⟩ : (response = _ ∧ other = changed) ∧ last = after := by
    simpa using ran.symm.trans fetched
  exact ⟨world, broker, _, changed, after, run, rfl, fits, fetched, decodes.mpr fits⟩

/-- A message that just fits a request does not fit a response. -/
private theorem large_record_unreadable (payload : Bytes) (length : payload.length = 2 ^ 24 - 18) :
    let stored : Protocol.Request := .produce ⟨1, "t", 0, payload⟩
    let fetch : Protocol.Request := .fetch ⟨2, "t", 0, 0, 1⟩
    ∃ world broker history response changed after,
      BrokerRun blankWorld (.new [] (2 ^ 25) .none) world broker history ∧
      history.map Prod.fst = [stored] ∧ Faultless history ∧ broker.dead = [] ∧ fetch.Decoded ∧
      (broker.handleRequest (fun _ => []) fetch).run world = (.ok (response, changed), after) ∧
      ¬ response.Decodes := by
  have size : recordLen none (some payload) = 2 ^ 24 + 10 := by
    simp only [recordLen, fieldLen, Option.map_none, Option.map_some, Option.getD_none,
      Option.getD_some, length]
    omega
  have decoded : Protocol.Request.Decoded (.produce ⟨1, "t", 0, payload⟩) := by
    refine decoded_produce (by decide : utf8 "t" ≠ []) (by decide : (utf8 "t").length ≤ 255) ?_
    have topic : (utf8 "t").length = 1 := by decide
    simp only [Protocol.Request.intoFrame, Frame.bodyLen, topic, length, maxFrameSize]
    decide
  let frame := Protocol.Request.intoFrame (.fetch ⟨2, "t", 0, 0, 1⟩)
  have asked : Protocol.Request.Decoded (.fetch ⟨2, "t", 0, 0, 1⟩) :=
    ⟨frame.encode, frame, [], by decide +kernel, by decide +kernel⟩
  obtain ⟨world, broker, partition, tiles, stamp, ran, alive, found, there, lives, held⟩ :=
    run_first_produce [] (2 ^ 25) .none ⟨1, "t", 0, payload⟩ (by decide) (by rw [size]; decide)
      (by rw [size]; decide)
  have find : broker.registry.find (⟨2, "t", 0, 0, 1⟩ : FetchRequest).topic 0 = some 0 := found
  obtain ⟨records, changed, fetched, -, first⟩ := lives.run_handleFetch alive find there
  have member := first (by decide) _ (by rw [held]; rfl)
  have atLeast := length_encode_le_of_mem member
  refine ⟨world, broker, _, _, changed, world, .handled .started (fun _ => []) decoded ran, rfl, ?_,
    alive, asked, fetched, fun decodes => ?_⟩
  · intro call only error
    rw [List.nil_append, List.mem_singleton] at only
    rw [only]
    intro same
    cases same
  · have limit := (records_decodes_iff asked records).mp decodes
    have record : (Message.record ⟨stamp, none, some payload⟩ 0).encode.length = 2 ^ 24 + 10 := by
      rw [Record.length_encode, ← size]
      rfl
    have most : maxFrameSize = 2 ^ 24 := rfl
    rw [most] at limit
    change (Message.record ⟨stamp, none, some payload⟩ 0).encode.length ≤ _ at atLeast
    rw [record] at atLeast
    omega

/-- Storing `2 ^ 24 - 18` bytes on topic `t` and fetching them back with
`max_bytes = 1` gives a response that the codec itself refuses. -/
theorem fetch_response_exceeds_frame :
    let stored : Protocol.Request := .produce ⟨1, "t", 0, List.replicate (2 ^ 24 - 18) 7⟩
    let fetch : Protocol.Request := .fetch ⟨2, "t", 0, 0, 1⟩
    ∃ world broker history response changed after,
      BrokerRun blankWorld (.new [] (2 ^ 25) .none) world broker history ∧
      history.map Prod.fst = [stored] ∧ Faultless history ∧ broker.dead = [] ∧ fetch.Decoded ∧
      (broker.handleRequest (fun _ => []) fetch).run world = (.ok (response, changed), after) ∧
      ¬ response.Decodes :=
  large_record_unreadable _ List.length_replicate

end Ruka
