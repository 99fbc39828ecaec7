import Ruka.FilePrograms

/-! Programs whose calls fail. The device answers a call with an error and the
program goes on from there; a write that fails can have put a part of its data
into the file. `Fails` is a run with a single such call, `Yields` a run with any
number of them. -/
namespace Ruka.FilePrograms
open BigEndian LexicalPaths

/-- What a call that fails answers and leaves behind. Asking for the kind of a
path or for the time does not fail. -/
def Failing : (request : Call) → World → request.Reply → World → Prop
  | .write path position data, world, reply, after => ∃ bytes,
    reply = (.error .fault, (perform (.write path position (data.take bytes)) world).1.2) ∧
      after = cut (.write path position data) bytes world
  | .length _, world, reply, after => reply = (.error .fault : Except IoError Nat) ∧ after = world
  | .read .., world, reply, after => reply = (.error .fault : Except IoError Bytes) ∧ after = world
  | .readToEnd .., world, reply, after =>
    reply = (.error .fault : Except IoError Bytes) ∧ after = world
  | .createDirAll _, world, reply, after =>
    reply = (.error .fault : Except IoError Unit) ∧ after = world
  | .openFile .., world, reply, after =>
    reply = (.error .fault : Except IoError Unit) ∧ after = world
  | .setLen .., world, reply, after => reply = (.error .fault : Except IoError Unit) ∧ after = world
  | .syncData _, world, reply, after =>
    reply = (.error .fault : Except IoError Unit) ∧ after = world
  | .isDir _, _, _, _ => False
  | .now, _, _, _ => False

namespace Program
variable {site : Call → Prop} {world after : World}

/-- Exactly one call fails, one of those in `site`, and the program still
returns `value`. -/
def Fails (site : Call → Prop) : Program α → World → α → World → Prop
  | .done _, _, _, _ => False
  | .halt _, _, _, _ => False
  | .call request next, world, value, after =>
    (site request ∧ ∃ reply middle, Failing request world reply middle ∧
      (next reply).run middle = (.ok value, after)) ∨
    (next (perform request world).1).Fails site (perform request world).2 value after

/-- A failure inside a sequence is a failure of its first part, after which the
second runs as usual, or one of the second part. -/
theorem Fails.of_bind {first : Program α} {next : α → Program β}
    (fails : (first >>= next).Fails site world value after) :
    (∃ middle between, first.Fails site world middle between ∧
      (next middle).run between = (.ok value, after)) ∨ ∃ middle between,
      first.run world = (.ok middle, between) ∧ (next middle).Fails site between value after := by
  induction first generalizing world with
  | done result => exact .inr ⟨result, world, rfl, fails⟩
  | halt reason => exact fails.elim
  | call request rest ih =>
    rcases fails with ⟨here, reply, middle, failing, ran⟩ | later
    · obtain ⟨result, between, first, second⟩ := exists_of_run_bind ran
      exact .inl ⟨result, between, .inl ⟨here, reply, middle, failing, first⟩, second⟩
    · rcases ih _ later with ⟨result, between, first, second⟩ | ⟨result, between, first, second⟩
      · exact .inl ⟨result, between, .inr first, second⟩
      · exact .inr ⟨result, between, first, second⟩

theorem Fails.of_bind_checked {next : Nat → Program β}
    (fails : (checked bound number >>= next).Fails site world value after) :
    number < bound ∧ (next number).Fails site world value after := by
  unfold checked at fails
  split at fails
  · rename_i fits
    exact ⟨fits, fails⟩
  · exact fails.elim

/-- What a run can come to when every call in `site` may fail. -/
def Yields (site : Call → Prop) : Program α → World → Except Halt α → World → Prop
  | .done value, world, outcome, after => outcome = .ok value ∧ after = world
  | .halt reason, world, outcome, after => outcome = .error reason ∧ after = world
  | .call request next, world, outcome, after =>
    (next (perform request world).1).Yields site (perform request world).2 outcome after ∨
      (site request ∧ ∃ reply middle, Failing request world reply middle ∧
        (next reply).Yields site middle outcome after)

/-- The run in which nothing fails is one of them. -/
theorem yields_of_run {program : Program α} (ran : program.run world = (outcome, after)) :
    program.Yields site world outcome after := by
  induction program generalizing world with
  | done value =>
    cases ran
    exact ⟨rfl, rfl⟩
  | halt reason =>
    cases ran
    exact ⟨rfl, rfl⟩
  | call request next ih => exact .inl (ih _ ran)

/-- Where no call may fail it is the only one. -/
theorem Yields.run_eq {program : Program α} (yields : program.Yields site world outcome after)
    (sure : ∀ request, ¬ site request) : program.run world = (outcome, after) := by
  induction program generalizing world with
  | done value =>
    obtain ⟨rfl, rfl⟩ := yields
    rfl
  | halt reason =>
    obtain ⟨rfl, rfl⟩ := yields
    rfl
  | call request next ih =>
    rcases yields with answered | ⟨failing, -⟩
    · exact ih _ answered
    · exact absurd failing (sure request)

/-- A sequence that returned did so with both of its parts. -/
theorem Yields.of_bind {first : Program α} {next : α → Program β}
    (yields : (first >>= next).Yields site world (.ok result) after) :
    ∃ value middle, first.Yields site world (.ok value) middle ∧
    (next value).Yields site middle (.ok result) after := by
  induction first generalizing world with
  | done value => exact ⟨value, world, ⟨rfl, rfl⟩, yields⟩
  | halt reason => cases yields.1
  | call request rest ih =>
    rcases yields with answered | ⟨failing, reply, middle, failed, later⟩
    · obtain ⟨value, between, head, tail⟩ := ih _ answered
      exact ⟨value, between, .inl head, tail⟩
    · obtain ⟨value, between, head, tail⟩ := ih _ later
      exact ⟨value, between, .inr ⟨failing, reply, middle, failed, head⟩, tail⟩

/-- Whatever its calls are answered, what the program returns meets `post`. -/
def Meets (post : α → Prop) : Program α → Prop
  | .done value => post value
  | .halt _ => True
  | .call _ next => ∀ reply, (next reply).Meets post

theorem Meets.bind {first : Program α} {next : α → Program β} {middle : α → Prop} {post : β → Prop}
    (head : first.Meets middle) (tail : ∀ value, middle value → (next value).Meets post) :
    (first >>= next).Meets post := by
  induction first with
  | done value => exact tail value head
  | halt reason => exact trivial
  | call request rest ih => exact fun reply => ih reply (head reply)

/-- Nothing is asked of the first part. -/
theorem meets_any (program : Program α) : program.Meets fun _ => True := by
  induction program with
  | done value => exact trivial
  | halt reason => exact trivial
  | call request next ih => exact fun reply => ih reply

theorem Meets.of_yields {program : Program α} {post : α → Prop} (meets : program.Meets post)
    (yields : program.Yields site world (.ok value) after) : post value := by
  induction program generalizing world with
  | done result =>
    obtain ⟨same, -⟩ := yields
    cases same
    exact meets
  | halt reason => cases yields.1
  | call request next ih =>
    rcases yields with answered | ⟨-, reply, middle, -, later⟩
    · exact ih _ (meets _) answered
    · exact ih reply (meets reply) later

end Program

theorem Program.Fails.of_bind_now {site : Call → Prop} {world after : World}
    {next : Nat → Program β} (fails : (now >>= next).Fails site world value after) :
    (next (world.clock world.readings)).Fails site world.tick value after := by
  rcases fails with ⟨-, reply, middle, failing, -⟩ | later
  · exact failing.elim
  · exact later

theorem file?_cut_ne {world : World} {path probe : Path} (position : Option Nat) (data : Bytes)
    (bytes : Nat) (other : probe ≠ path) :
    (cut (.write path position data) bytes world).file? probe = world.file? probe := by
  simp only [cut, perform]
  split
  · rfl
  · cases world.file? path with
    | none => rfl
    | some old => exact World.file?_put_ne _ _ other

namespace File
variable {site : Call → Prop} {world after : World} {file moved : File}

theorem fails_writeAll (fails : (file.writeAll data).Fails site world (answer, moved) after) :
    (∃ position, site (.write file.path position data)) ∧ answer = .error .fault ∧
      (∃ cursor, moved = { file with cursor := cursor }) ∧
      ∀ probe, probe ≠ file.path → after.file? probe = world.file? probe := by
  rcases fails with ⟨here, reply, middle, ⟨bytes, rfl, rfl⟩, ran⟩ | later
  · cases ran
    exact ⟨⟨_, here⟩, rfl, ⟨_, rfl⟩, fun probe other => file?_cut_ne _ _ _ other⟩
  · exact later.elim

theorem fails_syncData (fails : file.syncData.Fails site world answer after) :
    answer = .error .fault ∧ after = world := by
  rcases fails with ⟨-, reply, middle, ⟨rfl, rfl⟩, ran⟩ | later
  · cases ran
    exact ⟨rfl, rfl⟩
  · exact later.elim

end File

end Ruka.FilePrograms
