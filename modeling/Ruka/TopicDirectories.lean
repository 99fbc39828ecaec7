import Ruka.PartitionLog
import Ruka.WireFrames

/-! Where the partitions of a topic live. Nothing between the wire and
`Path::join` looks at a topic's name, so a topic is a path: it can climb out of
the data directory, and different topics can name the same directory. -/
namespace Ruka
open BigEndian LexicalPaths DecimalNames Protocol

theorem plain_decimal (n : Nat) : Plain (decimal n) := by
  have plain := plain_padded 0 n [] (by decide)
  rwa [List.append_nil, ← decimal_eq_padded] at plain

/-- The directory of a partition is named after its id, inside that of its topic. -/
theorem partitionDir_eq (baseDir : Path) (topic : String) (id : UInt32) :
    partitionDir baseDir topic id =
      join baseDir topic.toList ++ [⟨decimal id.toNat, plain_decimal id.toNat⟩] :=
  join_plain _ _

theorem partitionDir_inj {baseDir : Path} {topic other : String} {id otherId : UInt32} :
    partitionDir baseDir topic id = partitionDir baseDir other otherId ↔
      join baseDir topic.toList = join baseDir other.toList ∧ id = otherId := by
  rw [partitionDir_eq, partitionDir_eq, List.append_singleton_inj, Subtype.mk.injEq]
  refine and_congr_right fun _ =>
    ⟨fun same => UInt32.toNat_inj.mp (decimal_injective same), fun same => ?_⟩
  rw [same]

/-- A path below a directory, not the directory itself. -/
def StrictlyInside (baseDir path : Path) : Prop := baseDir <+: path ∧ path ≠ baseDir

instance (baseDir path : Path) : Decidable (StrictlyInside baseDir path) :=
  inferInstanceAs (Decidable (_ ∧ _))

private theorem partitionDir_inside_iff (baseDir : Path) (topic : String) (id : UInt32) :
    StrictlyInside baseDir (partitionDir baseDir topic id) ↔
    ∃ rest, Returns baseDir topic.toList rest := by
  rw [partitionDir_eq]
  constructor
  · rintro ⟨above, other⟩
    rcases List.prefix_concat_iff.mp above with whole | ⟨rest, shape⟩
    · exact absurd whole.symm other
    · exact ⟨rest, (join_eq_append_iff _ _ _).mp shape.symm⟩
  · rintro ⟨rest, returns⟩
    rw [(join_eq_append_iff _ _ _).mpr returns, List.append_assoc]
    exact ⟨List.prefix_append _ _, by simp⟩

/-- Two partitions have directories of their own inside the data directory
exactly when both topics return to it and, for equal ids, name different things
there. -/
theorem partitions_isolated_iff (baseDir : Path) (topic other : String) (id otherId : UInt32) :
    (partitionDir baseDir topic id ≠ partitionDir baseDir other otherId ∧
        StrictlyInside baseDir (partitionDir baseDir topic id) ∧
        StrictlyInside baseDir (partitionDir baseDir other otherId)) ↔
      ∃ rest otherRest, Returns baseDir topic.toList rest ∧ Returns baseDir other.toList otherRest ∧
        (rest ≠ otherRest ∨ id ≠ otherId) := by
  rw [partitionDir_inside_iff, partitionDir_inside_iff, Ne, partitionDir_inj]
  constructor
  · rintro ⟨apart, ⟨rest, returns⟩, otherRest, otherReturns⟩
    refine ⟨rest, otherRest, returns, otherReturns, ?_⟩
    rw [(join_eq_append_iff _ _ _).mpr returns, (join_eq_append_iff _ _ _).mpr otherReturns,
      List.append_right_inj] at apart
    have apart : ¬ (rest = otherRest ∧ id = otherId) := apart
    exact not_and_or.mp apart
  · rintro ⟨rest, otherRest, returns, otherReturns, apart⟩
    refine ⟨?_, ⟨rest, returns⟩, otherRest, otherReturns⟩
    rw [(join_eq_append_iff _ _ _).mpr returns, (join_eq_append_iff _ _ _).mpr otherReturns,
      List.append_right_inj]
    exact not_and_or.mpr apart

/-- A topic some frame that stores messages can carry. -/
def AcceptedTopic (topic : String) : Prop :=
  ∃ src frame rest, Frame.decode src = some (.ok (some frame), rest) ∧
    (frame.apiKey = .produce ∨ frame.apiKey = .produceBatch) ∧ frame.topic = topic

/-- A topic that is its own parent, and two topics for one directory: both get
through the decoder. -/
theorem accepted_topics_collide_and_escape :
    let baseDir : Path := [⟨['d'], by decide⟩]
    (AcceptedTopic "a" ∧ AcceptedTopic "a/." ∧
      partitionDir baseDir "a" 0 = partitionDir baseDir "a/." 0) ∧
      AcceptedTopic ".." ∧ ¬ StrictlyInside baseDir (partitionDir baseDir ".." 0) := by
  have carried (topic : String)
      (decodes : Frame.decode (⟨magicByte, .produce, 1, topic, 0, []⟩ : Frame).encode =
        some (.ok (some ⟨magicByte, .produce, 1, topic, 0, []⟩), [])) : AcceptedTopic topic :=
    ⟨_, _, _, decodes, .inl rfl, rfl⟩
  exact ⟨⟨carried _ (by decide +kernel), carried _ (by decide +kernel), by decide +kernel⟩,
    carried _ (by decide +kernel), by decide +kernel⟩

end Ruka
