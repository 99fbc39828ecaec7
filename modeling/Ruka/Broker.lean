import Ruka.PartitionSessions
import Ruka.RequestFrames
import Ruka.TopicRegistry

/-! The broker behind one request: `handle_request` finds the task of a
partition, sends it a command and turns the reply into a response. The task
runs the command alone on its partition, so a request that nothing else
interferes with is one program. -/
namespace Ruka
open BigEndian LexicalPaths FilePrograms Protocol

namespace TopicRegistry

/-- A task goes on with another state of its partition. -/
def replace (self : TopicRegistry) (sender : Nat) (partition : Partition) : TopicRegistry :=
  { self with actors := self.actors.set sender partition }

end TopicRegistry

/-- Why a command got no reply; only a task that panicked drops its channel. -/
inductive Undelivered where
  | writerDied
  | replyLost
  deriving DecidableEq

def Undelivered.text : Undelivered → String
  | .writerDied => "Writer task died: channel closed"
  | .replyLost => "Failed to receive reply: channel closed"

/-- The payload of a fetch response. -/
def fetchPayload (records : List Record) : Bytes := beBytes 4 records.length ++ encodeAll records

namespace Protocol.Request

/-- The `BrokerCommand` of a request. -/
def command : Protocol.Request → Ruka.Request
  | .produce request => .append none (some request.payload)
  | .produceBatch request => .appendBatch request.payloads
  | .fetch request => .readBatch request.offset.toNat request.maxBytes.toNat

/-- What the handlers make of a reply. The last case is a reply of another
command's type, which its channel does not carry. -/
def respond (request : Protocol.Request) : Except Undelivered Answer → Response
  | .error failure => .error ⟨request.correlationId, .serverError, failure.text⟩
  | .ok (.offset (.error error)) => .ofError request.correlationId error
  | .ok (.records (.error error)) => .ofError request.correlationId error
  | .ok (.offset (.ok offset)) =>
    match request with
    | .produce request => .produce ⟨request.correlationId, request.topic, request.partition, offset⟩
    | .produceBatch request =>
      .produceBatch ⟨request.correlationId, request.topic, request.partition, offset⟩
    | .fetch request => .error ⟨request.correlationId, .serverError, Undelivered.replyLost.text⟩
  | .ok (.records (.ok records)) =>
    match request with
    | .fetch request =>
      if records = [] then .ofError request.correlationId (.offsetNotFound request.offset.toNat)
      else .fetch ⟨request.correlationId, request.topic, request.partition, fetchPayload records⟩
    | other => .error ⟨other.correlationId, .serverError, Undelivered.replyLost.text⟩
  | .ok (.record _) => .error ⟨request.correlationId, .serverError, Undelivered.replyLost.text⟩

end Protocol.Request

/-- The registry as the tasks have it by now, and the tasks that panicked. -/
structure Broker where
  registry : TopicRegistry
  dead : List Nat

namespace Broker

/-- Sends a command to a task and waits for the reply. -/
def ask (self : Broker) (sender : Nat) (command : Request) :
    Program (Except Undelivered Answer × Broker) :=
  match self.registry.actors[sender]? with
  | none => pure (.error .writerDied, self)
  | some partition =>
    if sender ∈ self.dead then pure (.error .writerDied, self)
    else do
      match ← (partition.serve command).attempt with
      | none => pure (.error .replyLost, { self with dead := sender :: self.dead })
      | some (answer, partition) =>
        pure (.ok answer, { self with registry := self.registry.replace sender partition })

/-- What the three handlers have in common, given how they find the task. -/
def handleWith (self : Broker) (request : Protocol.Request)
    (lookup : Program (Except RukaError Nat × TopicRegistry)) : Program (Response × Broker) := do
  match ← lookup with
  | (.error error, registry) =>
    pure (.ofError request.correlationId error, { self with registry := registry })
  | (.ok sender, registry) => do
    let (reply, self) ← ({ self with registry := registry } : Broker).ask sender request.command
    pure (request.respond reply, self)

/-- `handler.rs::handle_produce`. -/
def handleProduce (readDir : Path → List Name) (self : Broker) (req : ProduceRequest) :
    Program (Response × Broker) :=
  self.handleWith (.produce req)
    (self.registry.getOrCreatePartition readDir req.topic req.partition)

/-- `handler.rs::handle_produce_batch`. -/
def handleProduceBatch (readDir : Path → List Name) (self : Broker) (req : ProduceBatchRequest) :
    Program (Response × Broker) :=
  self.handleWith (.produceBatch req)
    (self.registry.getOrCreatePartition readDir req.topic req.partition)

/-- `handler.rs::handle_fetch`: the only one that does not create a partition. -/
def handleFetch (self : Broker) (req : FetchRequest) : Program (Response × Broker) :=
  self.handleWith (.fetch req)
    (pure (self.registry.getPartition req.topic req.partition, self.registry))

/-- `handler.rs::handle_request`. -/
def handleRequest (readDir : Path → List Name) (self : Broker) :
    Protocol.Request → Program (Response × Broker)
  | .produce req => self.handleProduce readDir req
  | .produceBatch req => self.handleProduceBatch readDir req
  | .fetch req => self.handleFetch req

end Broker

namespace Protocol.Request

/-- A response answers the request it belongs to. -/
theorem correlationId_respond (request : Protocol.Request) (reply : Except Undelivered Answer) :
    (request.respond reply).correlationId = request.correlationId := by
  unfold respond
  split
  · rfl
  · rfl
  · rfl
  · cases request <;> rfl
  · cases request with
    | fetch request =>
      simp only
      split <;> rfl
    | _ => rfl
  · rfl

/-- What came in a frame is small enough for a record. -/
theorem Decoded.small_command {request : Protocol.Request} (decoded : request.Decoded) :
    request.command.Small := by
  have bound := decoded.payload_length
  cases request with
  | produce request =>
    have length : request.payload.length ≤ 2 ^ 24 :=
      bound request.payload (List.mem_singleton.mpr rfl)
    simp only [command, Ruka.Request.Small, recordLen, fieldLen, Option.map_none, Option.map_some,
      Option.getD_none, Option.getD_some]
    omega
  | produceBatch request =>
    intro payload member
    have length : payload.length ≤ 2 ^ 24 := bound payload member
    omega
  | fetch request => exact trivial

end Protocol.Request

end Ruka
