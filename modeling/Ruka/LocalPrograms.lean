import Ruka.CachedPrograms

/-! Programs that work inside one directory. They leave everything elsewhere as it
is, and what happens elsewhere makes no difference to them: between its calls
such a program can wait as long as it likes. -/
namespace Ruka.FilePrograms
open BigEndian LexicalPaths

/-- A call on a file of this directory, on the directory itself, or for the time. -/
def Call.Inside (dir : Path) : Call → Prop
  | .createDirAll path => path = dir
  | .openFile path _ => ∃ name, path = dir ++ [name]
  | .length path => ∃ name, path = dir ++ [name]
  | .read path _ _ => ∃ name, path = dir ++ [name]
  | .readToEnd path _ => ∃ name, path = dir ++ [name]
  | .write path _ _ => ∃ name, path = dir ++ [name]
  | .setLen path _ => ∃ name, path = dir ++ [name]
  | .syncData path => ∃ name, path = dir ++ [name]
  | .isDir _ => False
  | .now => True

/-- Where such a call can make a difference. -/
def Near (dir path : Path) : Prop := path <+: dir ∨ ∃ name, path = dir ++ [name]

/-- Neither directory lies inside the other. -/
def Aside (dir other : Path) : Prop := ¬ dir <+: other ∧ ¬ other <+: dir

variable {dir other path : Path} {request : Call}

theorem Aside.ne (aside : Aside dir other) :
    dir ≠ other := fun same =>
      aside.1 (same ▸ List.prefix_refl _)
  
/-- What is near both lies above both. -/
theorem Aside.near (aside : Aside dir other) (here : Near dir path) (there : Near other path) :
    path <+: dir ∧ path <+: other := by
  rcases here with above | ⟨name, rfl⟩
  · rcases there with higher | ⟨name, rfl⟩
    · exact ⟨above, higher⟩
    · exact absurd ((List.prefix_append _ _).trans above) aside.2
  · rcases there with higher | ⟨other, same⟩
    · exact absurd ((List.prefix_append _ _).trans higher) aside.1
    · exact absurd (List.append_inj_left' same rfl) aside.ne

/-- So a file of one directory is not near the other. -/
theorem Aside.not_near (aside : Aside dir other) (name : Name) : ¬ Near dir (other ++ [name]) := by
  intro near
  have length := (aside.near near (.inr ⟨name, rfl⟩)).2.length_le
  simp at length

namespace World
variable {before after : World}

theorem file?_congr (same : after.node path = before.node path) :
    after.file? path = before.file? path := by
  rw [file?, same, file?]

theorem isDirectory_congr (same : after.node path = before.node path) :
    after.isDirectory path = before.isDirectory path := by
  rw [isDirectory, same, isDirectory]

/-- The readings the clock has yet to give. -/
def upcoming (world : World) (count : Nat) : Nat := world.clock (world.readings + count)

end World

/-! ## What a call inside a directory leaves alone -/

private theorem node_createDirAll (path dir : Path) (world : World) :
    ((perform (.createDirAll dir) world).2.node path = world.node path ∧
        ∀ count, (partway (.createDirAll dir) count world).node path = world.node path) ∨
      (path <+: dir ∧ path ≠ [] ∧ world.node path = none ∧
        (perform (.createDirAll dir) world).2.node path = some .directory ∧
        ∀ count, (partway (.createDirAll dir) count world).node path = none ∨
          (partway (.createDirAll dir) count world).node path = some .directory) := by
  by_cases clear : ∀ ancestor, ancestor ≠ [] → ancestor <+: dir → world.file? ancestor = none
  · have made : (perform (.createDirAll dir) world).2 = world.putDirectories dir :=
      congrArg Prod.snd (run_createDirAll clear)
    simp only [made, partway_createDirAll clear, World.putDirectories]
    by_cases above : path ≠ [] ∧ path <+: dir
    · rcases World.node_of_no_file (clear path above.1 above.2) with absent | present
      · refine .inr ⟨above.2, above.1, absent, if_pos above, fun count => ?_⟩
        rw [absent]
        exact (ite_eq_or_eq _ _ _).symm
      · refine .inl ⟨(if_pos above).trans present.symm, fun count => ?_⟩
        rw [present, ite_self]
    · refine .inl ⟨if_neg above, fun count => if_neg fun higher => above ⟨higher.1, ?_⟩⟩
      exact higher.2.trans (List.take_prefix _ _)
  · have blocked :
        dir.inits.any (fun ancestor => ancestor ≠ [] && (world.file? ancestor).isSome) = true := by
      by_contra passable
      refine clear fun ancestor below above => ?_
      have unobstructed :=
        List.any_eq_false.mp (Bool.eq_false_iff.mpr passable) ancestor
          ((List.mem_inits _ _).mpr above)
      simpa [below] using unobstructed
    refine .inl ⟨?_, fun count => ?_⟩
    · simp only [perform]
      rw [if_pos blocked]
    · simp only [partway]
      rw [if_pos blocked]

/-- Only directories above, and only where there was nothing. -/
theorem node_of_inside (inside : request.Inside dir) (world : World)
    (other : ∀ name, path ≠ dir ++ [name]) :
    ((perform request world).2.node path = world.node path ∧
        ∀ bytes, (partway request bytes world).node path = world.node path) ∨
      (path <+: dir ∧ path ≠ [] ∧ world.node path = none ∧ (perform request world).2.node path =
        some .directory ∧ ∀ bytes, (partway request bytes world).node path = none ∨
          (partway request bytes world).node path = some .directory) := by
  cases request with
  | createDirAll target =>
    obtain rfl : target = dir := inside
    exact node_createDirAll path target world
  | openFile target options =>
    obtain ⟨name, rfl⟩ := inside
    refine .inl ⟨?_, fun _ => rfl⟩
    simp only [perform]
    split
    · rfl
    split
    · simp only
      split
      · exact World.node_put_ne _ _ (other name)
      · rfl
    · split
      · exact World.node_put_ne _ _ (other name)
      · rfl
  | length target | read target _ _ | readToEnd target _ =>
    refine .inl ⟨?_, fun _ => rfl⟩
    simp only [perform]
    split <;> rfl
  | write target position data =>
    obtain ⟨name, rfl⟩ := inside
    have written (data : Bytes) :
        (perform (.write (dir ++ [name]) position data) world).2.node path = world.node path := by
      simp only [perform]
      split
      · exact World.node_put_ne _ _ (other name)
      · rfl
    refine .inl ⟨written data, fun bytes => ?_⟩
    simp only [partway, cut]
    split
    · rfl
    · exact written _
  | setLen target length =>
    obtain ⟨name, rfl⟩ := inside
    refine .inl ⟨?_, fun _ => rfl⟩
    simp only [perform]
    split
    · exact World.node_put_ne _ _ (other name)
    · rfl
  | syncData _ | now => exact .inl ⟨rfl, fun _ => rfl⟩
  | isDir _ => exact inside.elim

namespace Cached
variable {lossy : Prop} {state middle after : Cached lossy}

/-- Nothing has changed but files of this directory, and directories made on the
way down to it. -/
structure Elsewhere (dir : Path) (state after : Cached lossy) : Prop where
  far : ∀ path, ¬ Near dir path → state.Keeps after path
  above : ∀ path, path <+: dir → state.Keeps after path ∨
    (path ≠ [] ∧ state.world.node path = none ∧ after.world.node path = some .directory ∧
      ∀ data, after.may path data → state.may path data)

namespace Elsewhere

theorem refl (dir : Path) (state : Cached lossy) : Elsewhere dir state state :=
  ⟨fun path _ => .refl state path, fun path _ => .inl (.refl state path)⟩

theorem trans (first : Elsewhere dir state middle) (second : Elsewhere dir middle after) :
    Elsewhere dir state after where
  far path away := (first.far path away).trans (second.far path away)
  above path higher := by
    rcases first.above path higher with same | ⟨below, absent, made, may⟩
    · rcases second.above path higher with still | ⟨below, absent, made, may⟩
      · exact .inl (same.trans still)
      · exact .inr ⟨below, same.node ▸ absent, made, fun data held => same.may data (may data held)⟩
    · rcases second.above path higher with still | ⟨-, missing, -⟩
      · exact .inr ⟨below, absent, still.node.trans made,
          fun data held => may data (still.may data held)⟩
      · rw [made] at missing
        cases missing

/-- Outside the directory no file comes or goes. -/
theorem left (elsewhere : Elsewhere dir state after) (other : ∀ name, path ≠ dir ++ [name])
    (present : state.world.node path ≠ none) : state.Keeps after path := by
  by_cases near : Near dir path
  · rcases near with above | ⟨name, rfl⟩
    · exact (elsewhere.above path above).elim id fun made => absurd made.2.1 present
    · exact absurd rfl (other name)
  · exact elsewhere.far path near

theorem noFile (elsewhere : Elsewhere dir state after) (other : ∀ name, path ≠ dir ++ [name])
    (absent : state.world.file? path = none) : after.world.file? path = none := by
  by_cases present : state.world.node path = none
  · by_cases near : Near dir path
    · rcases near with above | ⟨name, rfl⟩
      · rcases elsewhere.above path above with same | ⟨-, -, made, -⟩
        · exact same.file?_eq.trans absent
        · rw [World.file?, made]
      · exact absurd rfl (other name)
    · exact (elsewhere.far path near).file?_eq.trans absent
  · exact (elsewhere.left other present).file?_eq.trans absent

theorem hasDirectory (elsewhere : Elsewhere dir state after)
    (present : state.world.HasDirectory path) (other : ∀ name, ¬ dir ++ [name] <+: path) :
    after.world.HasDirectory path := by
  intro ancestor below above
  have there := present ancestor below above
  refine (elsewhere.left (fun name same => other name (same ▸ above)) ?_).node.trans there
  rw [there]
  exact Option.some_ne_none _

end Elsewhere

/-- One call inside a directory. -/
theorem elsewhere_called (inside : request.Inside dir) (state : Cached lossy) :
    Elsewhere dir state (state.called request) := by
  have ways (path : Path) (other : ∀ name, path ≠ dir ++ [name]) :=
    node_of_inside inside state.world other
  refine ⟨fun path away => ?_, fun path above => ?_⟩
  · rcases ways path fun name same => away (.inr ⟨name, same⟩) with ⟨same, uncut⟩ | ⟨above, -⟩
    · exact keeps_called same uncut
    · exact absurd (.inl above) away
  · have other (name : Name) : path ≠ dir ++ [name] := by
      rintro rfl
      have length := above.length_le
      simp at length
    rcases ways path other with ⟨same, uncut⟩ | ⟨-, below, absent, made, -⟩
    · exact .inl (keeps_called same uncut)
    · refine .inr ⟨below, absent, made, fun data held => ?_⟩
      rcases held with now | ⟨-, -, present, -⟩
      · rw [World.file?, made] at now
        cases now
      · exact absurd (by rw [World.file?, absent]) present

/-- A stop inside such a call. -/
theorem elsewhere_during (inside : request.Inside dir) (state : Cached lossy) (bytes : Nat) :
    Elsewhere dir state (state.during request bytes) := by
  have ways (path : Path) (other : ∀ name, path ≠ dir ++ [name]) :=
    node_of_inside inside state.world other
  refine ⟨fun path away => ?_, fun path above => ?_⟩
  · rcases ways path fun name same => away (.inr ⟨name, same⟩) with ⟨-, uncut⟩ | ⟨above, -⟩
    · exact keeps_during (uncut bytes)
    · exact absurd (.inl above) away
  · have other (name : Name) : path ≠ dir ++ [name] := by
      rintro rfl
      have length := above.length_le
      simp at length
    rcases ways path other with ⟨-, uncut⟩ | ⟨-, below, absent, -, part⟩
    · exact .inl (keeps_during (uncut bytes))
    · rcases part bytes with empty | made
      · exact .inl (keeps_during (empty.trans absent.symm))
      · refine .inr ⟨below, absent, made, fun data held => ?_⟩
        rcases held with now | ⟨-, old⟩
        · rw [World.file?, made] at now
          cases now
        · exact old

/-! ## What makes no difference inside a directory -/

/-- For a program in this directory the state is as it was. -/
def Agrees (dir : Path) (state after : Cached lossy) : Prop :=
  ∀ path, Near dir path → state.Keeps after path

theorem Agrees.refl (dir : Path) (state : Cached lossy) :
    Agrees dir state state := fun path _ =>
      .refl state path
  
theorem Agrees.trans (first : Agrees dir state middle) (second : Agrees dir middle after) :
    Agrees dir state after :=
  fun path near => (first path near).trans (second path near)

/-- Work in one directory makes no difference in another once one of them is there. -/
theorem Elsewhere.agrees (elsewhere : Elsewhere dir state after) (aside : Aside dir other)
    (present : state.world.HasDirectory dir ∨ state.world.HasDirectory other) :
    Agrees other state after := by
  intro path near
  by_cases here : Near dir path
  · have above := aside.near here near
    rcases elsewhere.above path above.1 with same | ⟨below, absent, -⟩
    · exact same
    · have there : state.world.node path = some .directory :=
        present.elim (fun held => held path below above.1) fun held => held path below above.2
      rw [there] at absent
      cases absent
  · exact elsewhere.far path here

end Cached

/-- The answer to a call inside a directory depends on what is near it and on the
clock, and so does what it leaves there. -/
theorem perform_near (inside : request.Inside dir) {world twin : World}
    (same : ∀ path, Near dir path → twin.node path = world.node path) :
    (request ≠ .now → (perform request twin).1 = (perform request world).1) ∧
      (∀ path, Near dir path →
        (perform request twin).2.node path = (perform request world).2.node path) ∧
      ∀ bytes path, Near dir path →
      (partway request bytes twin).node path = (partway request bytes world).node path := by
  have put (target : Path) (data : Bytes) (path : Path) (near : Near dir path) :
      (twin.put target data).node path = (world.put target data).node path := by
    by_cases here : path = target
    · simp [here, World.put]
    · rw [World.node_put_ne _ _ here, World.node_put_ne _ _ here, same path near]
  have file (name : Name) : twin.file? (dir ++ [name]) = world.file? (dir ++ [name]) :=
    World.file?_congr (same _ (.inr ⟨name, rfl⟩))
  cases request with
  | createDirAll target =>
    obtain rfl : target = dir := inside
    have blocked : target.inits.any
        (fun ancestor => ancestor ≠ [] && (twin.file? ancestor).isSome) =
          target.inits.any (fun ancestor => ancestor ≠ [] && (world.file? ancestor).isSome) := by
      rw [Bool.eq_iff_iff, List.any_eq_true, List.any_eq_true]
      refine exists_congr fun ancestor => and_congr_right fun above => ?_
      rw [World.file?_congr (same ancestor (.inl ((List.mem_inits _ _).mp above)))]
    have directories (made path : Path) (near : Near target path) :
        (twin.putDirectories made).node path = (world.putDirectories made).node path := by
      simp only [World.putDirectories, same path near]
    refine ⟨fun _ => ?_, fun path near => ?_, fun bytes path near => ?_⟩
    · simp only [perform, blocked]
      split <;> rfl
    · simp only [perform, blocked]
      split
      · exact same path near
      · exact directories target path near
    · simp only [partway, blocked]
      split
      · exact same path near
      · exact directories _ path near
  | openFile target options =>
    obtain ⟨name, rfl⟩ := inside
    have parent : twin.isDirectory (dir ++ [name]).dropLast =
        world.isDirectory (dir ++ [name]).dropLast := by
      rw [List.dropLast_concat]
      exact World.isDirectory_congr (same dir (.inl (List.prefix_refl _)))
    have taken : twin.isDirectory (dir ++ [name]) = world.isDirectory (dir ++ [name]) :=
      World.isDirectory_congr (same _ (.inr ⟨name, rfl⟩))
    refine ⟨fun _ => ?_, fun path near => ?_, fun _ => same⟩
    · simp only [perform, parent, taken, file]
      split
      · rfl
      split
      · rfl
      split <;> rfl
    · simp only [perform, parent, taken, file]
      split
      · exact same path near
      split
      · simp only
        split
        · exact put _ _ path near
        · exact same path near
      split
      · exact put _ _ path near
      · exact same path near
  | length target | read target _ _ | readToEnd target _ =>
    obtain ⟨name, rfl⟩ := inside
    refine ⟨fun _ => ?_, fun path near => ?_, fun _ => same⟩
    · simp only [perform, file]
      split <;> rfl
    · simp only [perform, file]
      split <;> exact same path near
  | write target position data =>
    obtain ⟨name, rfl⟩ := inside
    have written (data : Bytes) (path : Path) (near : Near dir path) :
        (perform (.write (dir ++ [name]) position data) twin).2.node path =
          (perform (.write (dir ++ [name]) position data) world).2.node path := by
      simp only [perform, file]
      split
      · exact put _ _ path near
      · exact same path near
    refine ⟨fun _ => ?_, written data, fun bytes path near => ?_⟩
    · simp only [perform, file]
      split <;> rfl
    · simp only [partway, cut]
      split
      · exact same path near
      · exact written _ path near
  | setLen target length =>
    obtain ⟨name, rfl⟩ := inside
    refine ⟨fun _ => ?_, fun path near => ?_, fun _ => same⟩
    · simp only [perform, file]
      split <;> rfl
    · simp only [perform, file]
      split
      · exact put _ _ path near
      · exact same path near
  | syncData _ => exact ⟨fun _ => rfl, same, fun _ => same⟩
  | now => exact ⟨fun other => absurd rfl other, same, fun _ => same⟩
  | isDir _ => exact inside.elim

/-- Only asking for the time moves the clock. -/
theorem upcoming_perform (other : request ≠ .now) (world : World) :
    (perform request world).2.upcoming = world.upcoming := by
  have readings : (perform request world).2.readings = world.readings := by
    cases request with
    | createDirAll _ | length _ | read _ _ _ | readToEnd _ _ | write _ _ _ | setLen _ _ =>
      simp only [perform]
      split <;> rfl
    | openFile _ options =>
      simp only [perform]
      split
      · rfl
      split
      · simp only
        split <;> rfl
      split <;> rfl
    | syncData _ | isDir _ => rfl
    | now => exact absurd rfl other
  funext count
  rw [World.upcoming, perform_clock, readings, World.upcoming]

namespace Cached
variable {lossy : Prop} {state ghost after : Cached lossy} {crash : World → Prop}

theorem Agrees.called (agrees : Agrees dir ghost state) (inside : request.Inside dir) :
    Agrees dir (ghost.called request) (state.called request) := by
  obtain ⟨-, nodes, parts⟩ := perform_near inside fun path near => (agrees path near).node
  intro path near
  refine ⟨nodes path near, fun data held => ?_⟩
  rcases held with now | ⟨loses, other, present, possible⟩
  · rw [World.file?_congr (nodes path near)] at now
    exact .inl now
  · rw [(agrees path near).file?_eq] at present
    refine .inr ⟨loses, other, present,
      possible.imp ((agrees path near).may data) fun ⟨bytes, part⟩ => ?_⟩
    rw [World.file?_congr (parts bytes path near)] at part
    exact ⟨bytes, part⟩

theorem Agrees.during (agrees : Agrees dir ghost state) (inside : request.Inside dir)
    (bytes : Nat) : Agrees dir (ghost.during request bytes) (state.during request bytes) := by
  obtain ⟨-, -, parts⟩ := perform_near inside fun path near => (agrees path near).node
  intro path near
  refine ⟨parts bytes path near, fun data held => ?_⟩
  rcases held with now | ⟨loses, old⟩
  · rw [World.file?_congr (parts bytes path near)] at now
    exact .inl now
  · exact .inr ⟨loses, (agrees path near).may data old⟩

/-- The same disk, with another clock. -/
def reclock (state : Cached lossy) (clock : Nat → Nat) : Cached lossy where
  world := { state.world with clock := clock, readings := 0 }
  may := state.may
  current := state.current
  durable := state.durable

theorem agrees_reclock (state : Cached lossy) (clock : Nat → Nat) (dir : Path) :
    Agrees dir state (state.reclock clock) ∧ Agrees dir (state.reclock clock) state :=
  ⟨fun _ _ => ⟨rfl, fun _ held => held⟩, fun _ _ => ⟨rfl, fun _ held => held⟩⟩

theorem agrees_settled {world twin : World}
    (same : ∀ path, Near dir path → twin.node path = world.node path) :
    Agrees dir (settled lossy world) (settled lossy twin) := by
  refine fun path near => ⟨same path near, fun data held => ?_⟩
  have held : twin.file? path = some data := held
  rw [World.file?_congr (same path near)] at held
  exact held

end Cached

/-- Whether a disk meets this can be seen near the directory. -/
def SeenNear (dir : Path) (crash : World → Prop) : Prop :=
  ∀ world twin, (∀ path, Near dir path → twin.node path = world.node path) →
    crash world → crash twin

open Cached

variable {lossy : Prop} {state ghost after : Cached lossy} {crash : World → Prop}

/-- What the machine can come up with near the directory depends on what is near it. -/
theorem Cached.Agrees.safe (agrees : Agrees dir ghost state) (seen : SeenNear dir crash)
    (safe : ghost.Safe crash) : state.Safe crash := by
  classical
  intro disk survives
  let mixed : World :=
    { ghost.world with
      node := fun path => if Near dir path then disk.node path else ghost.world.node path }
  have mixedNear (path : Path) (near : Near dir path) :
      mixed.node path = disk.node path := if_pos near
  have mixedFar (path : Path) (far : ¬ Near dir path) :
      mixed.node path = ghost.world.node path := if_neg far
  refine seen mixed disk (fun path near => (mixedNear path near).symm)
    (safe mixed ⟨fun path now held => ?_, fun path absent => ?_⟩)
  · by_cases near : Near dir path
    · rw [← (agrees path near).file?_eq] at held
      obtain ⟨data, found, possible⟩ := survives.file path now held
      rw [← World.file?_congr (mixedNear path near)] at found
      exact ⟨data, found, (agrees path near).may data possible⟩
    · exact ⟨now, by rw [World.file?_congr (mixedFar path near), held], ghost.current path now held⟩
  · by_cases near : Near dir path
    · rw [← (agrees path near).file?_eq] at absent
      rw [mixedNear path near, survives.other path absent, (agrees path near).node]
    · exact mixedFar path near

namespace Program
variable {post : α → Cached lossy → Prop}

section Frames
variable {given : α → Prop} {program : Program α}

/-- What the program leaves alone, up to its end and up to a stop. -/
theorem Makes.elsewhere (makes : program.Makes (Call.Inside dir) given) (state : Cached lossy) :
    Elsewhere dir state (program.cached state).2 ∧
      ∀ calls bytes, Elsewhere dir state (program.stopped state calls bytes) := by
  induction program generalizing state with
  | done value => exact ⟨.refl dir state, fun _ _ => .refl dir state⟩
  | halt reason => exact ⟨.refl dir state, fun _ _ => .refl dir state⟩
  | call request next ih =>
    obtain ⟨inside, later⟩ := makes
    obtain ⟨ended, cut⟩ := ih (perform request state.world).1 (later _) (state.called request)
    refine ⟨(elsewhere_called inside state).trans ended, fun calls bytes => ?_⟩
    cases calls with
    | zero => exact elsewhere_during inside state bytes
    | succ calls => exact (elsewhere_called inside state).trans (cut calls bytes)

/-- What is done elsewhere meanwhile is left alone, at the end and at a stop. -/
theorem Completes.framed (completes : program.Completes state crash post)
    (makes : program.Makes (Call.Inside dir) given) {wider : World → Prop}
    (frame : ∀ middle, Elsewhere dir state middle → middle.Safe crash → middle.Safe wider) :
    program.Completes state wider fun value after =>
      Elsewhere dir state after ∧ post value after := by
  obtain ⟨ended, cut⟩ := makes.elsewhere state
  obtain ⟨⟨safe, holds⟩, returns⟩ := completes
  refine ⟨⟨fun calls bytes => frame _ (cut calls bytes) (safe calls bytes),
    fun value after ran => ?_⟩, returns⟩
  rw [ran] at ended
  exact ⟨ended, holds value after ran⟩

/-- Two runs that see the same near the directory and on the clock. -/
theorem Makes.agrees (makes : program.Makes (Call.Inside dir) given)
    (agrees : Agrees dir ghost state) (clocks : state.world.upcoming = ghost.world.upcoming) :
    (program.cached state).1 = (program.cached ghost).1 ∧
      Agrees dir (program.cached ghost).2 (program.cached state).2 ∧
      ∀ calls bytes, Agrees dir (program.stopped ghost calls bytes)
        (program.stopped state calls bytes) := by
  induction program generalizing state ghost with
  | done value => exact ⟨rfl, agrees, fun _ _ => agrees⟩
  | halt reason => exact ⟨rfl, agrees, fun _ _ => agrees⟩
  | call request next ih =>
    obtain ⟨inside, later⟩ := makes
    obtain ⟨answers, -⟩ := perform_near inside fun path near => (agrees path near).node
    have both : (perform request state.world).1 = (perform request ghost.world).1 ∧
        (perform request state.world).2.upcoming = (perform request ghost.world).2.upcoming := by
      cases request with
      | now =>
        refine ⟨congrFun clocks 0, funext fun count => ?_⟩
        have shifted := congrFun clocks (count + 1)
        simp only [World.upcoming, perform, World.tick] at shifted ⊢
        rw [Nat.add_right_comm, Nat.add_assoc, shifted, Nat.add_right_comm, Nat.add_assoc]
      | _ =>
        refine ⟨answers (by simp), ?_⟩
        rw [upcoming_perform (by simp), upcoming_perform (by simp), clocks]
    have rest := ih (perform request ghost.world).1 (later _) (agrees.called inside) both.2
    refine ⟨?_, ?_, fun calls bytes => ?_⟩
    · rw [cached, cached, both.1]
      exact rest.1
    · rw [cached, cached, both.1]
      exact rest.2.1
    · cases calls with
      | zero => exact agrees.during inside bytes
      | succ calls =>
        rw [stopped, stopped, both.1]
        exact rest.2.2 calls bytes

/-- So what it weathers in one state it weathers in the other. -/
theorem Weathers.agrees (weathers : program.Weathers ghost crash post)
    (makes : program.Makes (Call.Inside dir) given) (agrees : Agrees dir ghost state)
    (clocks : state.world.upcoming = ghost.world.upcoming) (seen : SeenNear dir crash)
    (moves : ∀ value before after, Agrees dir before after → post value before →
      post value after) : program.Weathers state crash post := by
  obtain ⟨same, ended, cut⟩ := makes.agrees agrees clocks
  refine ⟨fun calls bytes => (cut calls bytes).safe seen (weathers.safe calls bytes),
    fun value after ran => ?_⟩
  rw [ran] at same ended
  exact moves value _ after ended (weathers.holds value _ (Prod.ext same.symm rfl))

end Frames

/-- What is left of a program in this directory weathers a stop anywhere, however
long it waits and whatever happens elsewhere meanwhile. -/
structure Endures (dir : Path) (program : Program α) (state : Cached lossy) (crash : World → Prop)
    (post : α → Cached lossy → Prop) : Prop where
  makes : program.Makes (Call.Inside dir) fun _ => True
  weathers : ∀ other, Agrees dir state other → program.Weathers other crash post
  seen : SeenNear dir crash
  moves : ∀ value before after, Agrees dir before after → post value before → post value after

namespace Endures
variable {program : Program α} {next : request.Reply → Program α}

/-- Others go on. -/
theorem wait (endures : Endures dir program state crash post) (agrees : Agrees dir state after) :
    Endures dir program after crash post :=
  ⟨endures.makes, fun other later => endures.weathers other (agrees.trans later),
    endures.seen, endures.moves⟩

/-- The program makes its next call. -/
theorem call (endures : Endures dir (.call request next) state crash post) :
    Endures dir (next (perform request state.world).1) (state.called request) crash post := by
  obtain ⟨⟨inside, later⟩, weathers, seen, moves⟩ := endures
  refine ⟨later _, fun other agrees => ?_, seen, moves⟩
  -- the state before the call with the clock the other state will have after it
  have before (clock : Nat → Nat) (answer : (perform request (state.reclock clock).world).1 =
      (perform request state.world).1)
      (clocks : other.world.upcoming = ((state.reclock clock).called request).world.upcoming) :
      (next (perform request state.world).1).Weathers other crash post := by
    have whole := weathers (state.reclock clock) (agrees_reclock state clock dir).1
    have rest : (next (perform request state.world).1).Weathers
        ((state.reclock clock).called request) crash post := by
      rw [← answer]
      exact ⟨fun calls bytes => whole.safe (calls + 1) bytes,
        fun value after ran => whole.holds value after ran⟩
    exact rest.agrees (later _) (((agrees_reclock state clock dir).2.called inside).trans agrees)
      clocks seen moves
  cases request with
  | now =>
    refine before (fun count => if count = 0 then state.world.clock state.world.readings
      else other.world.upcoming (count - 1)) rfl (funext fun count => ?_)
    simp only [World.upcoming, Cached.called, Cached.reclock, perform, World.tick]
    rw [if_neg (by omega)]
    congr 1
    omega
  | _ =>
    refine before other.world.upcoming ?_ ?_
    · exact (perform_near inside fun path near =>
        ((agrees_reclock state _ dir).1 path near).node).1 (by simp)
    · rw [Cached.called, upcoming_perform (by simp)]
      funext count
      simp [World.upcoming, Cached.reclock]

theorem safe_during (endures : Endures dir (.call request next) state crash post) (bytes : Nat) :
    (state.during request bytes).Safe crash :=
  (endures.weathers state (.refl dir state)).safe 0 bytes

/-- The machine stops before the next call. -/
theorem safe (endures : Endures dir program state crash post) : state.Safe crash := by
  cases program with
  | done value => exact (endures.weathers state (.refl dir state)).safe 0 0
  | halt reason => exact (endures.weathers state (.refl dir state)).safe 0 0
  | call request next =>
    intro disk survives
    have nothing : partway request 0 state.world = state.world := by
      cases request with
      | createDirAll target =>
        simp only [partway, List.take_zero, ite_eq_left_iff]
        exact fun _ => World.putDirectories_eq_self fun ancestor below above =>
          absurd (List.prefix_nil.mp above) below
      | write target position data => rfl
      | _ => rfl
    refine endures.safe_during 0 disk ⟨fun path now held => ?_, fun path absent => ?_⟩
    · have held : (partway request 0 state.world).file? path = some now := held
      rw [nothing] at held
      obtain ⟨data, found, possible⟩ := survives.file path now held
      refine ⟨data, found, ?_⟩
      by_cases loses : lossy
      · exact .inr ⟨loses, possible⟩
      · refine .inl ?_
        rw [nothing]
        exact state.durable loses path data possible
    · have absent : (partway request 0 state.world).file? path = none := absent
      change disk.node path = (partway request 0 state.world).node path
      rw [nothing] at absent ⊢
      exact survives.other path absent

/-- The program is done. -/
theorem done {value : α} (endures : Endures dir (.done value) state crash post) :
    post value state :=
  (endures.weathers state (.refl dir state)).holds value state rfl

end Endures

end Program

end Ruka.FilePrograms
