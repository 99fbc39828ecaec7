import Ruka.Broker

/-! What the tasks of a registry keep on the disk, when every key has a
directory of its own: each partition owns the files of its directory, so a
command on one of them leaves all the others as they are. -/
namespace Ruka
open LexicalPaths FilePrograms

private theorem Filed.transport {before after : World} {dir : Path} {tiles : List Tile}
    (filed : Filed before dir maxBytes tiles) (directory : after.HasDirectory dir)
    (files : ∀ name, after.file? (dir ++ [name]) = before.file? (dir ++ [name])) :
    Filed after dir maxBytes tiles where
  tiled := filed.tiled
  bounded := filed.bounded
  directory := directory
  onDisk := fun tile member => (filed.onDisk tile member).of_same files
  files := by
    intro name data held
    rw [← World.file?_eq_some, files, World.file?_eq_some] at held
    exact filed.files name data held

/-- A partition as its task holds it, with the tiles it has on disk. -/
structure Lives (world : World) (baseDir : Path) (maxSegmentBytes : Nat) (syncLevel : SyncLevel)
    (partition : Partition) (tiles : List Tile) : Prop where
  shape : partition = ((⟨partition.topic, partition.id, baseDir, maxSegmentBytes⟩ : Settings).frame
    syncLevel).withTiles tiles
  filed : Filed world (partitionDir baseDir partition.topic partition.id) maxSegmentBytes tiles
  mode : AppendMode tiles
  small : Small (contents tiles)

/-- Different keys have different directories. -/
def Apart (keys : String × UInt32 → Prop) (baseDir : Path) : Prop :=
  ∀ topic id other otherId, keys (topic, id) → keys (other, otherId) →
    partitionDir baseDir topic id = partitionDir baseDir other otherId →
    (topic, id) = (other, otherId)

/-- No file lies in a directory that one of these keys would use. -/
def Unwritten (keys : String × UInt32 → Prop) (world : World) (baseDir : Path) : Prop :=
  ∀ topic id, keys (topic, id) →
    ∀ name, world.file? (partitionDir baseDir topic id ++ [name]) = none

/-- Every task finds its partition as it left it, and no other directory of
these keys has been written to. -/
structure Housed (keys : String × UInt32 → Prop) (world : World)
    (registry : TopicRegistry) : Prop where
  owned : registry.Owned
  known : ∀ partition ∈ registry.actors, keys partition.key
  lives : ∀ partition ∈ registry.actors,
    ∃ tiles, Lives world registry.baseDir registry.maxSegmentBytes registry.syncLevel
      partition tiles
  unwritten : Unwritten (fun key => keys key ∧ registry.find key.1 key.2 = none) world
    registry.baseDir

namespace TopicRegistry
variable {registry : TopicRegistry} {partition result : Partition}

theorem find_replace (registry : TopicRegistry) (sender : Nat) (partition : Partition)
    (topic : String) (id : UInt32) :
    (registry.replace sender partition).find topic id = registry.find topic id := rfl

private theorem map_key_replace (held : registry.actors[sender]? = some partition)
    (same : result.key = partition.key) :
    (registry.replace sender result).actors.map Partition.key =
      registry.actors.map Partition.key := by
  have place : (registry.actors.map Partition.key)[sender]? = some result.key := by
    rw [List.getElem?_map, held, same]
    rfl
  obtain ⟨within, entry⟩ := List.getElem?_eq_some_iff.mp place
  rw [replace, List.map_set, ← entry, List.set_getElem_self]

theorem Owned.replace (owned : registry.Owned) (held : registry.actors[sender]? = some partition)
    (same : result.key = partition.key) : (registry.replace sender result).Owned := by
  intro topic id other
  rw [find_replace, map_key_replace held same]
  exact owned topic id other

/-- The task a key leads to holds the partition of that key. -/
theorem Owned.getElem? {topic : String} {id : UInt32} (owned : registry.Owned)
    (found : registry.find topic id = some sender) :
    ∃ partition, registry.actors[sender]? = some partition ∧ partition.key = (topic, id) := by
  have held := (owned topic id sender).mp found
  rw [List.getElem?_map] at held
  obtain ⟨partition, there, keyed⟩ := Option.map_eq_some_iff.mp held
  exact ⟨partition, there, keyed⟩

theorem Owned.find_of_getElem? (owned : registry.Owned)
    (held : registry.actors[sender]? = some partition) :
    registry.find partition.topic partition.id = some sender := by
  apply (owned partition.topic partition.id sender).mpr
  rw [List.getElem?_map, held]
  rfl

/-- A task that goes on with its partition leaves the tasks of other keys. -/
theorem Owned.mem_replace {other : Partition} (owned : registry.Owned)
    (held : registry.actors[sender]? = some partition)
    (member : other ∈ (registry.replace sender result).actors) :
    other = result ∨ other ∈ registry.actors ∧ other.key ≠ partition.key := by
  obtain ⟨place, there⟩ :
    ∃ place : Nat, (registry.replace sender result).actors[place]? = some other :=
    List.mem_iff_getElem?.mp member
  by_cases here : place = sender
  · subst here
    rw [TopicRegistry.replace, List.getElem?_set_self
      (List.getElem?_eq_some_iff.mp held).1] at there
    exact .inl (Option.some.inj there).symm
  · rw [TopicRegistry.replace, List.getElem?_set_ne (Ne.symm here)] at there
    refine .inr ⟨List.mem_of_getElem? there, fun keyed => here ?_⟩
    have first := owned.find_of_getElem? there
    obtain ⟨sameTopic, sameId⟩ := Prod.mk.inj keyed
    rw [sameTopic, sameId, owned.find_of_getElem? held] at first
    exact (Option.some.inj first).symm

/-- A key without a task is the key of no partition. -/
theorem Owned.key_ne {topic : String} {id : UInt32} (owned : registry.Owned)
    (missing : registry.find topic id = none) (member : partition ∈ registry.actors) :
    partition.key ≠ (topic, id) := by
  obtain ⟨place, there⟩ : ∃ place : Nat, registry.actors[place]? = some partition :=
    List.mem_iff_getElem?.mp member
  have found := owned.find_of_getElem? there
  rintro keyed
  obtain ⟨sameTopic, sameId⟩ := Prod.mk.inj keyed
  rw [sameTopic, sameId, missing] at found
  cases found

end TopicRegistry

namespace Lives
variable {before after : World} {baseDir : Path} {syncLevel : SyncLevel} {partition : Partition}
  {tiles : List Tile}

private theorem transport (lives : Lives before baseDir maxSegmentBytes syncLevel partition tiles)
    (directory : after.HasDirectory (partitionDir baseDir partition.topic partition.id))
    (files : ∀ name, after.file? (partitionDir baseDir partition.topic partition.id ++ [name]) =
      before.file? (partitionDir baseDir partition.topic partition.id ++ [name])) :
    Lives after baseDir maxSegmentBytes syncLevel partition tiles :=
  ⟨lives.shape, lives.filed.transport directory files, lives.mode, lives.small⟩

/-- A command on another directory changes nothing here. -/
theorem elsewhere (lives : Lives before baseDir maxSegmentBytes syncLevel partition tiles)
    (outside : World.SameOutside dir before after)
    (apart : partitionDir baseDir partition.topic partition.id ≠ dir) :
    Lives after baseDir maxSegmentBytes syncLevel partition tiles := by
  refine lives.transport (lives.filed.directory.of_sameOutside outside) fun name =>
    outside.file? fun other same => ?_
  exact apart (List.append_inj_left' same rfl)

/-- Every call on a living partition is answered as its log says and leaves it
living, trips over a nested directory, or stops at a counter that runs over. -/
theorem serve_ensures (lives : Lives before baseDir maxSegmentBytes syncLevel partition tiles)
    (request : Request) : (partition.serve request).Ensures before
      (Segment.Overflows maxSegmentBytes (contents tiles).length request.count) fun reply after =>
        (∃ error, reply.1 = .offset (.error (.io error))) ∨
          ∃ others, reply.2.key = partition.key ∧
            (request.Small → Lives after baseDir maxSegmentBytes syncLevel reply.2 others) ∧
            World.SameOutside (partitionDir baseDir partition.topic partition.id) before after ∧
            LogStep maxSegmentBytes (logOf tiles) request reply.1 (logOf others) := by
  have filed := lives.filed
  have ends := Partition.serve_ensures
    ((⟨partition.topic, partition.id, baseDir, maxSegmentBytes⟩ : Settings).frame syncLevel)
    filed request
    fun last active _ => .inl (lives.mode last (List.mem_of_getLast? active))
  rw [← lives.shape] at ends
  refine ends.mono (fun trap => trap.resolve_left (not_not_intro lives.small)) ?_
  rintro ⟨answer, result⟩ after (⟨-, error, failed⟩ | ⟨others, served⟩)
  · exact .inl ⟨error, failed⟩
  · obtain rfl : result = _ := served.result
    refine .inr ⟨others, rfl, fun small => ?_, served.outside, served.explained lives.small⟩
    exact ⟨rfl, served.filed, served.mode lives.mode, served.small lives.small small⟩

end Lives

namespace Housed
variable {keys : String × UInt32 → Prop} {world after : World} {registry : TopicRegistry}
  {partition result : Partition} {topic : String} {id : UInt32}

theorem new (baseDir : Path) (maxSegmentBytes : Nat) (syncLevel : SyncLevel)
    (unwritten : Unwritten keys world baseDir) :
    Housed keys world (.new baseDir maxSegmentBytes syncLevel) where
  owned := TopicRegistry.owned_new baseDir maxSegmentBytes syncLevel
  known := nofun
  lives := nofun
  unwritten := fun topic id known => unwritten topic id known.1

/-- A command on one partition leaves the other tasks as they were. -/
theorem serve (housed : Housed keys world registry) (apart : Apart keys registry.baseDir)
    (held : registry.actors[sender]? = some partition) (same : result.key = partition.key)
    (lives : Lives after registry.baseDir registry.maxSegmentBytes registry.syncLevel result others)
    (outside : World.SameOutside (partitionDir registry.baseDir partition.topic partition.id)
      world after) :
    Housed keys after (registry.replace sender result) where
  owned := housed.owned.replace held same
  known := by
    intro other member
    rcases List.mem_or_eq_of_mem_set member with old | rfl
    · exact housed.known other old
    · rw [same]
      exact housed.known partition (List.mem_of_getElem? held)
  lives := by
    intro other member
    rcases housed.owned.mem_replace held member with rfl | ⟨old, differ⟩
    · exact ⟨others, lives⟩
    · obtain ⟨tiles, before⟩ := housed.lives other old
      refine ⟨tiles, before.elsewhere outside fun shared => differ ?_⟩
      exact apart _ _ _ _ (housed.known other old)
        (housed.known partition (List.mem_of_getElem? held)) shared
  unwritten := by
    intro topic id known name
    have free := housed.unwritten topic id known name
    refine (outside.file? fun other equal => ?_).trans free
    refine housed.owned.key_ne known.2 (List.mem_of_getElem? held) ?_
    exact (apart _ _ _ _ known.1 (housed.known partition (List.mem_of_getElem? held))
      (List.append_inj_left' equal rfl)).symm

end Housed

namespace Partition.Fresh
variable {world after : World} {topic : String} {id : UInt32} {baseDir : Path} {maxBytes : Nat}
  {syncLevel : SyncLevel} {partition : Partition}

theorem key (fresh : Fresh world after topic id baseDir maxBytes syncLevel partition) :
    partition.key = (topic, id) := by
  rw [fresh.shape]
  rfl

theorem lives (fresh : Fresh world after topic id baseDir maxBytes syncLevel partition) :
    Lives after baseDir maxBytes syncLevel partition [Tile.fresh 0] := by
  obtain rfl := fresh.shape
  refine ⟨rfl, fresh.filed, fun tile member => ?_, nofun⟩
  rw [List.mem_singleton.mp member]
  rfl

/-- New directories stand where nothing stood, so no file goes. -/
theorem file? (fresh : Fresh world after topic id baseDir maxBytes syncLevel partition)
    (outside : ∀ name, probe ≠ partitionDir baseDir topic id ++ [name]) :
    after.file? probe = world.file? probe := by
  rw [fresh.outside.file? outside]
  by_cases above : probe ≠ [] ∧ probe <+: partitionDir baseDir topic id
  · rw [fresh.clear probe above.1 above.2]
    simp [World.file?, World.putDirectories, above]
  · simp only [World.file?, World.putDirectories, above, ↓reduceIte]

theorem hasDirectory (fresh : Fresh world after topic id baseDir maxBytes syncLevel partition)
    (present : world.HasDirectory path) : after.HasDirectory path := by
  intro ancestor below above
  apply fresh.outside.directory
  unfold World.putDirectories
  simp only
  split
  · rfl
  · exact present ancestor below above

/-- A partition somewhere else does not notice. -/
theorem elsewhere {other : Partition}
    (fresh : Fresh world after topic id baseDir maxBytes syncLevel partition)
    (lives : Lives world baseDir limit level other tiles)
    (apart : partitionDir baseDir other.topic other.id ≠ partitionDir baseDir topic id) :
    Lives after baseDir limit level other tiles :=
  lives.transport (fresh.hasDirectory lives.filed.directory) fun _ => fresh.file? fun _ equal =>
    apart (List.append_inj_left' equal rfl)

end Partition.Fresh

/-- A partition opened for a key that had none. -/
theorem Housed.register {keys : String × UInt32 → Prop} {world after : World}
    {registry : TopicRegistry} {partition : Partition} {topic : String} {id : UInt32}
    (housed : Housed keys world registry) (apart : Apart keys registry.baseDir)
    (known : keys (topic, id)) (missing : registry.find topic id = none)
    (fresh : Partition.Fresh world after topic id registry.baseDir registry.maxSegmentBytes
      registry.syncLevel partition) :
    Housed keys after ((registry.enterTopic topic).register topic id partition) where
  owned := (housed.owned.enterTopic topic).register
    (by rw [TopicRegistry.find_enterTopic, missing]) fresh.key
  known := by
    intro other member
    rcases List.mem_append.mp member with old | new
    · exact housed.known other old
    · rw [List.mem_singleton.mp new, fresh.key]
      exact known
  lives := by
    intro other member
    rcases List.mem_append.mp member with old | new
    · obtain ⟨tiles, before⟩ := housed.lives other old
      refine ⟨tiles, fresh.elsewhere before fun shared => housed.owned.key_ne missing old ?_⟩
      exact apart _ _ _ _ (housed.known other old) known shared
    · rw [List.mem_singleton.mp new]
      exact ⟨_, fresh.lives⟩
  unwritten := by
    intro other otherId others name
    obtain ⟨knownOther, free⟩ := others
    rw [TopicRegistry.find_register, TopicRegistry.find_enterTopic] at free
    split at free
    · cases free
    · rename_i differ
      refine (fresh.file? fun file equal => differ ?_).trans
        (housed.unwritten other otherId ⟨knownOther, free⟩ name)
      exact apart _ _ _ _ knownOther known (List.append_inj_left' equal rfl)

end Ruka
