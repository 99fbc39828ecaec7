import Ruka.FilePrograms

/-! The broker's error type with its texts, and the fsync levels it can be
configured with. -/
namespace Ruka
open FilePrograms

/-- `error.rs::RukaError`. -/
inductive RukaError where
  | invalidMagicByte (got : UInt8)
  | invalidFrame (reason : String)
  | unknownApiKey (value : Nat)
  | frameTooShort (needed available : Nat)
  | invalidTopicName
  | messageTooLarge
  | frameTooLarge (max got : Nat)
  | segmentFull (current max : Nat)
  | offsetNotFound (offset : Nat)
  | corruptedIndex (position : Nat)
  | partitionNotFound (topic : String) (partition : UInt32)
  | io (error : IoError)
  | connectionReset
  | writeFailed (reason : String)
  deriving DecidableEq

/-- What the operating system calls an error. -/
def ioText : IoError → String
  | .notFound => "No such file or directory (os error 2)"
  | .wrongKind => "Is a directory (os error 21)"
  | .unexpectedEof => "failed to fill whole buffer"
  | .fault => "Input/output error (os error 5)"

/-- Two upper-case hexadecimal digits. -/
def hexByte (byte : UInt8) : String :=
  String.ofList ([byte.toNat / 16, byte.toNat % 16].map fun digit => (Nat.digitChar digit).toUpper)

/-- The `Display` texts of `error.rs`. -/
def RukaError.text : RukaError → String
  | .invalidMagicByte got => "invalid magic byte: expected 0xCA, got 0x" ++ hexByte got
  | .invalidFrame reason => "invalid frame: " ++ reason
  | .unknownApiKey value => "unknown API key: " ++ value.repr
  | .frameTooShort needed available =>
    "frame too short: need " ++ needed.repr ++ " bytes, have " ++ available.repr
  | .invalidTopicName => "Topic name is invalid (not UTF-8 or exceeds max length)"
  | .messageTooLarge => "Message is too large to fit in a segment"
  | .frameTooLarge max got =>
    "frame exceeds maximum size of " ++ max.repr ++ " bytes (got " ++ got.repr ++ ")"
  | .segmentFull current max =>
    "segment is full (current: " ++ current.repr ++ " bytes, max: " ++ max.repr ++ " bytes)"
  | .offsetNotFound offset => "offset " ++ offset.repr ++ " not found in any segment"
  | .corruptedIndex position => "corrupted index entry at position " ++ position.repr
  | .partitionNotFound topic partition =>
    "partition " ++ topic ++ "/" ++ partition.toNat.repr ++ " does not exist"
  | .io error => "I/O error: " ++ ioText error
  | .connectionReset => "connection reset by peer"
  | .writeFailed reason => "write failed: " ++ reason

/-- `config.rs::SyncLevel`. -/
inductive SyncLevel where
  | none
  | log
  | logAndIndex
  deriving DecidableEq

end Ruka
