import Ruka.FilePrograms

/-! Programs on a machine that stops. Beside the disk as a program sees it stand
the contents each file can come up with when the machine starts again. On a lossy
machine what was written to a file can be missing, from any point on, until the
file is synced; on any other only the call under way is cut short. That the names
of files and directories are never lost, synced or not, is an assumption about the
file system. -/
namespace Ruka.FilePrograms
open BigEndian LexicalPaths

/-- The disk inside a call: after a part of the data of a write, or with some of
the directories that are being made. -/
def partway : Call → Nat → World → World
  | .createDirAll path, count, world =>
    if path.inits.any (fun ancestor => ancestor ≠ [] && (world.file? ancestor).isSome) then world
    else world.putDirectories (path.take count)
  | request, bytes, world => cut request bytes world

/-- A disk, and for each of its files the contents it can come up with. -/
structure Cached (lossy : Prop) where
  world : World
  may : Path → Bytes → Prop
  current : ∀ path data, world.file? path = some data → may path data
  durable : ¬ lossy → ∀ path data, may path data → world.file? path = some data

namespace Cached
variable {lossy : Prop} {state middle after : Cached lossy} {path probe : Path}
  {crash : World → Prop} {allowed wider : Bytes → Prop} {request : Call}

/-- A disk with nothing left to write out. -/
def settled (lossy : Prop) (world : World) : Cached lossy where
  world := world
  may path data := world.file? path = some data
  current _ _ held := held
  durable _ _ _ held := held

/-- Inside a call, so many bytes or directories into it. -/
def during (request : Call) (bytes : Nat) (state : Cached lossy) : Cached lossy where
  world := partway request bytes state.world
  may path data :=
    (partway request bytes state.world).file? path = some data ∨ lossy ∧ state.may path data
  current _ _ held := .inl held
  durable keeps _ _ held := held.elim id fun lost => absurd lost.1 keeps

/-- After a call. A file just created has only the contents it was created with. -/
def called (request : Call) (state : Cached lossy) : Cached lossy where
  world := (perform request state.world).2
  may path data := (perform request state.world).2.file? path = some data ∨
    lossy ∧ request ≠ .syncData path ∧ state.world.file? path ≠ none ∧
      (state.may path data ∨ ∃ bytes, (partway request bytes state.world).file? path = some data)
  current _ _ held := .inl held
  durable keeps _ _ held := held.elim id fun lost => absurd lost.1 keeps

/-- The machine can come up with this disk: every name is there, and each file has
one of its contents. -/
structure Survives (state : Cached lossy) (disk : World) : Prop where
  file : ∀ path now, state.world.file? path = some now →
    ∃ data, disk.file? path = some data ∧ state.may path data
  other : ∀ path, state.world.file? path = none → disk.node path = state.world.node path

/-- Whatever the machine comes up with meets `crash`. -/
def Safe (state : Cached lossy) (crash : World → Prop) : Prop :=
  ∀ disk, state.Survives disk → crash disk

theorem survives_settled (state : Cached lossy) : state.Survives state.world :=
  ⟨fun path now held => ⟨now, held, state.current path now held⟩, fun _ _ => rfl⟩

/-- At this path there is what there was, and no more that it can turn into. -/
structure Keeps (state after : Cached lossy) (path : Path) : Prop where
  node : after.world.node path = state.world.node path
  may : ∀ data, after.may path data → state.may path data

/-- The same up to the contents of a file. -/
structure Left (state after : Cached lossy) (path : Path) : Prop where
  absent : after.world.node path = none ↔ state.world.node path = none
  directory : after.world.node path = some .directory ↔ state.world.node path = some .directory
  may : ∀ data, after.may path data → state.may path data

/-- Nothing on the disk has changed. -/
def Quiet (state after : Cached lossy) : Prop := ∀ path, state.Keeps after path

/-- Nothing but the file at `path` has changed, and that one has become one of
the `allowed` contents. -/
structure Turns (path : Path) (allowed : Bytes → Prop) (state after : Cached lossy) : Prop where
  file : after.world.file? path ≠ none
  may : ∀ data, after.may path data → allowed data
  others : ∀ probe, probe ≠ path → state.Keeps after probe

theorem Keeps.refl (state : Cached lossy) (path : Path) : state.Keeps state path :=
  ⟨rfl, fun _ held => held⟩

theorem Keeps.trans (first : state.Keeps middle path) (second : middle.Keeps after path) :
    state.Keeps after path :=
  ⟨second.node.trans first.node, fun data held => first.may data (second.may data held)⟩

theorem Keeps.file?_eq (keeps : state.Keeps after path) :
    after.world.file? path = state.world.file? path := by
  rw [World.file?, keeps.node, World.file?]

theorem Keeps.left (keeps : state.Keeps after path) : state.Left after path :=
  ⟨by rw [keeps.node], by rw [keeps.node], keeps.may⟩

theorem Left.trans (first : state.Left middle path) (second : middle.Left after path) :
    state.Left after path :=
  ⟨second.absent.trans first.absent, second.directory.trans first.directory,
    fun data held => first.may data (second.may data held)⟩

theorem file?_ne_none {world : World} :
    world.file? path ≠ none ↔ world.node path ≠ none ∧ world.node path ≠ some .directory := by
  rw [World.file?]
  cases world.node path with
  | none => simp
  | some node => cases node <;> simp

theorem Left.file? (left : state.Left after path) (held : state.world.file? path ≠ none) :
    after.world.file? path ≠ none := by
  rw [file?_ne_none] at held ⊢
  exact ⟨fun gone => held.1 (left.absent.mp gone), fun taken => held.2 (left.directory.mp taken)⟩

theorem Left.of_file? (left : state.Left after path) (held : after.world.file? path ≠ none) :
    state.world.file? path ≠ none := by
  rw [file?_ne_none] at held ⊢
  exact ⟨fun gone => held.1 (left.absent.mpr gone), fun taken => held.2 (left.directory.mpr taken)⟩

/-- What the machine comes up with is left of the state. -/
theorem Survives.left {disk : World} (survives : state.Survives disk) (path : Path) :
    state.Left (settled lossy disk) path := by
  cases held : state.world.file? path with
  | none =>
    have same := survives.other path held
    refine ⟨by rw [settled, same], by rw [settled, same], fun data found => ?_⟩
    have there : disk.file? path = some data := found
    rw [World.file?, same, ← World.file?, held] at there
    cases there
  | some now =>
    obtain ⟨data, found, possible⟩ := survives.file path now held
    have before := file?_ne_none.mp (Option.ne_none_iff_exists'.mpr ⟨now, held⟩)
    have later := file?_ne_none.mp (Option.ne_none_iff_exists'.mpr ⟨data, found⟩)
    refine ⟨by simp [settled, before, later], by simp [settled, before, later],
      fun other there => ?_⟩
    obtain rfl : data = other := Option.some.inj (found.symm.trans there)
    exact possible

theorem Quiet.refl (state : Cached lossy) : state.Quiet state := Keeps.refl state

theorem Quiet.trans (first : state.Quiet middle) (second : middle.Quiet after) :
    state.Quiet after :=
  fun path => (first path).trans (second path)

theorem Turns.trans (first : Turns path allowed state middle)
    (second : Turns path wider middle after) : Turns path wider state after :=
  ⟨second.file, second.may, fun probe other => (first.others probe other).trans
    (second.others probe other)⟩

theorem Turns.of_quiet (first : state.Quiet middle) (second : Turns path allowed middle after) :
    Turns path allowed state after :=
  ⟨second.file, second.may, fun probe other => (first probe).trans (second.others probe other)⟩

theorem Turns.quiet (first : Turns path allowed state middle) (second : middle.Quiet after) :
    Turns path allowed state after where
  file := by
    rw [(second path).file?_eq]
    exact first.file
  may data held := first.may data ((second path).may data held)
  others probe other := (first.others probe other).trans (second probe)

/-- A file left alone has turned into what it could be already. -/
theorem Quiet.turns (quiet : state.Quiet after) (held : state.world.file? path ≠ none)
    (within : ∀ data, state.may path data → allowed data) : Turns path allowed state after where
  file := by
    rw [(quiet path).file?_eq]
    exact held
  may data found := within data ((quiet path).may data found)
  others probe _ := quiet probe

theorem keeps_during {bytes : Nat}
    (same : (partway request bytes state.world).node path = state.world.node path) :
    state.Keeps (state.during request bytes) path := by
  refine ⟨same, fun data held => ?_⟩
  rcases held with now | ⟨-, old⟩
  · rw [World.file?, same] at now
    exact state.current path data now
  · exact old

theorem keeps_called (same : (perform request state.world).2.node path = state.world.node path)
    (uncut : ∀ bytes, (partway request bytes state.world).node path = state.world.node path) :
    state.Keeps (state.called request) path := by
  refine ⟨same, fun data held => ?_⟩
  rcases held with now | ⟨-, -, -, old | ⟨bytes, now⟩⟩
  · rw [World.file?, same] at now
    exact state.current path data now
  · exact old
  · rw [World.file?, uncut] at now
    exact state.current path data now

end Cached

namespace Program
variable {lossy : Prop} {state : Cached lossy} {crash : World → Prop}

/-- The run on such a machine. -/
def cached : Program α → Cached lossy → Except Halt α × Cached lossy
  | .done value, state => (.ok value, state)
  | .halt reason, state => (.error reason, state)
  | .call request next, state =>
    (next (perform request state.world).1).cached (state.called request)

/-- The machine stops in call number `calls` of the program, counted from zero,
after `bytes` bytes of it if it is a write. -/
def stopped : Program α → Cached lossy → Nat → Nat → Cached lossy
  | .done _, state, _, _ => state
  | .halt _, state, _, _ => state
  | .call request _, state, 0, bytes => state.during request bytes
  | .call request next, state, calls + 1, bytes =>
    (next (perform request state.world).1).stopped (state.called request) calls bytes

/-- The disk when `program` is killed in its call number `calls`, counted from
zero, after `bytes` bytes of it if it is a write. -/
def killed : Program α → World → Nat → Nat → World
  | .done _, world, _, _ => world
  | .halt _, world, _, _ => world
  | .call request _, world, 0, bytes => cut request bytes world
  | .call request next, world, calls + 1, bytes =>
    (next (perform request world).1).killed (perform request world).2 calls bytes

/-- The program sees nothing of the cache. -/
theorem cached_run (program : Program α) (state : Cached lossy) :
    (program.cached state).1 = (program.run state.world).1 ∧
      (program.cached state).2.world = (program.run state.world).2 := by
  induction program generalizing state with
  | done value => exact ⟨rfl, rfl⟩
  | halt reason => exact ⟨rfl, rfl⟩
  | call request next ih => exact ih _ (state.called request)

/-- Wherever the machine stops, what it comes up with meets `crash`, and a run
that returns meets `post`. -/
structure Weathers (program : Program α) (state : Cached lossy) (crash : World → Prop)
    (post : α → Cached lossy → Prop) : Prop where
  safe : ∀ calls bytes, (program.stopped state calls bytes).Safe crash
  holds : ∀ value after, program.cached state = (.ok value, after) → post value after

variable {post : α → Cached lossy → Prop}

/-- The disk a killed program leaves is one of those the machine can come up with
when it stops at that place: nothing is lost, and no directory is half made. -/
theorem exists_stopped (program : Program α) (state : Cached lossy) (calls bytes : Nat) :
    ∃ into, (program.stopped state calls into).world = program.killed state.world calls bytes := by
  induction program generalizing state calls with
  | done value => exact ⟨bytes, rfl⟩
  | halt reason => exact ⟨bytes, rfl⟩
  | call request next ih =>
    cases calls with
    | succ calls => exact ih _ (state.called request) calls
    | zero =>
      cases request with
      | createDirAll path =>
        refine ⟨0, ?_⟩
        simp [stopped, killed, Cached.during, partway, cut, World.putDirectories]
      | _ => exact ⟨bytes, rfl⟩

theorem Weathers.killed {program : Program α} (weathers : program.Weathers state crash post)
    (calls bytes : Nat) : crash (program.killed state.world calls bytes) := by
  obtain ⟨into, same⟩ := exists_stopped program state calls bytes
  rw [← same]
  exact weathers.safe calls into _ (Cached.survives_settled _)

theorem weathers_pure {value : α} (safe : state.Safe crash) (holds : post value state) :
    (pure value : Program α).Weathers state crash post := by
  refine ⟨fun _ _ => safe, fun _ _ ran => ?_⟩
  cases ran
  exact holds

theorem weathers_halt (safe : state.Safe crash) (reason : Halt) :
    (halt reason : Program α).Weathers state crash post := by
  refine ⟨fun _ _ => safe, fun _ _ ran => ?_⟩
  cases ran

/-- A program stopped after its end has done everything. -/
theorem Weathers.safe_end {program : Program α} (weathers : program.Weathers state crash post)
    (ran : program.cached state = (outcome, after)) : after.Safe crash := by
  obtain ⟨safe, -⟩ := weathers
  induction program generalizing state with
  | done value =>
    cases ran
    exact safe 0 0
  | halt reason =>
    cases ran
    exact safe 0 0
  | call request rest ih =>
    exact ih (perform request state.world).1 ran fun calls bytes => safe (calls + 1) bytes

theorem Weathers.mono {program : Program α} {weaker : α → Cached lossy → Prop}
    (weathers : program.Weathers state crash post)
    (implies : ∀ value after, after.Safe crash → post value after → weaker value after) :
    program.Weathers state crash weaker :=
  ⟨weathers.safe, fun value after ran => implies value after (weathers.safe_end ran)
    (weathers.holds value after ran)⟩

/-- Inside a sequence the machine stops in the first part, or in the second once
the first is complete. -/
theorem weathers_bind {first : Program β} {next : β → Program α} {middle : β → Cached lossy → Prop}
    (head : first.Weathers state crash middle)
    (tail : ∀ value after, after.Safe crash → middle value after →
      (next value).Weathers after crash post) :
    (first >>= next).Weathers state crash post := by
  induction first generalizing state with
  | done value => exact tail value state (head.safe 0 0) (head.holds value state rfl)
  | halt reason => exact weathers_halt (head.safe 0 0) reason
  | call request rest ih =>
    have later := ih (perform request state.world).1
      ⟨fun calls bytes => head.safe (calls + 1) bytes,
        fun value after ran => head.holds value after ran⟩
    refine ⟨fun calls bytes => ?_, later.holds⟩
    cases calls with
    | zero => exact head.safe 0 bytes
    | succ calls => exact later.safe calls bytes

/-- A run that is known says what the program returns and leaves. -/
theorem Weathers.with_run {program : Program α} {world : World}
    (weathers : program.Weathers state crash post)
    (ran : program.run state.world = (.ok value, world)) :
    program.Weathers state crash fun reply after =>
      reply = value ∧ after.world = world ∧ post reply after := by
  refine ⟨weathers.safe, fun reply after done => ?_⟩
  obtain ⟨same, disk⟩ := cached_run program state
  rw [done, ran] at same disk
  cases same
  exact ⟨rfl, disk, weathers.holds _ _ done⟩

theorem Weathers.crash_mono {program : Program α} {wider : World → Prop}
    (weathers : program.Weathers state crash post) (implies : ∀ disk, crash disk → wider disk) :
    program.Weathers state wider post :=
  ⟨fun calls bytes disk survives => implies disk (weathers.safe calls bytes disk survives),
    weathers.holds⟩

theorem weathers_bind_of_run {first : Program β} {next : β → Program α}
    {middle : β → Cached lossy → Prop} {world : World} (head : first.Weathers state crash middle)
    (ran : first.run state.world = (.ok value, world))
    (tail : ∀ after, after.Safe crash → after.world = world → middle value after →
      (next value).Weathers after crash post) :
    (first >>= next).Weathers state crash post := by
  refine weathers_bind (head.with_run ran) ?_
  rintro _ after safe ⟨rfl, disk, held⟩
  exact tail after safe disk held

theorem weathers_bind_pure {value : β} {next : β → Program α}
    (tail : (next value).Weathers state crash post) :
    (pure value >>= next).Weathers state crash post := tail

theorem weathers_bind_orPanic {outcome : Option β} {next : β → Program α}
    (found : outcome = some value) (tail : (next value).Weathers state crash post) :
    (orPanic outcome >>= next).Weathers state crash post := by
  rw [found]
  exact tail

theorem weathers_bind_checked {next : Nat → Program α} (safe : state.Safe crash)
    (tail : value < bound → (next value).Weathers state crash post) :
    (checked bound value >>= next).Weathers state crash post := by
  unfold checked
  split
  · rename_i fits
    exact tail fits
  · exact weathers_halt safe .panic

theorem weathers_call {request : Call} {result : request.Reply → α}
    (safe : ∀ bytes, (state.during request bytes).Safe crash)
    (ended : (state.called request).Safe crash)
    (holds : post (result (perform request state.world).1) (state.called request)) :
    (call request fun reply => .done (result reply)).Weathers state crash post := by
  refine ⟨fun calls bytes => ?_, fun value after ran => ?_⟩
  · cases calls with
    | zero => exact safe bytes
    | succ calls => exact ended
  · cases ran
    exact holds

/-- A single call that leaves the disk as it is. -/
theorem weathers_quiet {request : Call} {result : request.Reply → α}
    (whole : ∀ bytes, partway request bytes state.world = state.world)
    (same : (perform request state.world).2.node = state.world.node)
    (safe : ∀ middle, state.Quiet middle → middle.Safe crash)
    (holds : ∀ after, state.Quiet after → after.world = (perform request state.world).2 →
      post (result (perform request state.world).1) after) :
    (call request fun reply => .done (result reply)).Weathers state crash post := by
  have unmoved : state.Quiet (state.called request) := fun path =>
    Cached.keeps_called (congrFun same path) fun bytes => by rw [whole]
  refine weathers_call (fun bytes => safe _ fun path => Cached.keeps_during ?_) (safe _ unmoved)
    (holds _ unmoved rfl)
  rw [whole]

/-- The program makes only calls of this kind and returns what meets `given`,
whatever its calls are answered. -/
def Makes (kind : Call → Prop) (given : α → Prop) : Program α → Prop
  | .done value => given value
  | .halt _ => True
  | .call request next => kind request ∧ ∀ reply, (next reply).Makes kind given

section Rules
variable {kind : Call → Prop} {given : α → Prop}

theorem Makes.bind {first : Program β} {next : β → Program α} {middle : β → Prop}
    (head : first.Makes kind middle)
    (tail : ∀ value, middle value → (next value).Makes kind given) :
    (first >>= next).Makes kind given := by
  induction first with
  | done value => exact tail value head
  | halt reason => exact trivial
  | call request rest ih => exact ⟨head.1, fun reply => ih reply (head.2 reply)⟩

theorem Makes.mono {program : Program α} {wider : α → Prop} (makes : program.Makes kind given)
    (implies : ∀ value, given value → wider value) : program.Makes kind wider := by
  induction program with
  | done value => exact implies value makes
  | halt reason => exact trivial
  | call request next ih => exact ⟨makes.1, fun reply => ih reply (makes.2 reply)⟩

theorem makes_call {request : Call} {result : request.Reply → α} (allowed : kind request)
    (holds : ∀ reply, given (result reply)) :
    (call request fun reply => .done (result reply)).Makes kind given :=
  ⟨allowed, holds⟩

theorem makes_checked (bound value : Nat) : (checked bound value).Makes kind fun _ => True := by
  unfold checked
  split <;> exact trivial

theorem makes_orPanic (outcome : Option α) : (orPanic outcome).Makes kind fun _ => True := by
  cases outcome <;> exact trivial

theorem Reading.makes {program : Program α} (reading : program.Reading path given)
    (allowed : ∀ request : Call, request.ReadsFile path → kind request) :
    program.Makes kind given := by
  induction program with
  | done value => exact reading
  | halt reason => exact trivial
  | call request next ih =>
    exact ⟨allowed request reading.1, fun reply => ih reply (reading.2 reply)⟩

end Rules

/-- A program that only reads, in whichever files. -/
def Silent (program : Program α) : Prop :=
  program.Makes (fun request => ∃ path, request.ReadsFile path) fun _ => True

/-- Such a program leaves the disk alone and finds what it would find without a cache. -/
theorem Silent.weathers {program : Program α} (silent : program.Silent)
    (safe : ∀ middle, state.Quiet middle → middle.Safe crash)
    (holds : ∀ value after, state.Quiet after → after.world = state.world →
      program.run state.world = (.ok value, state.world) → post value after) :
    program.Weathers state crash post := by
  induction program generalizing state with
  | done value => exact weathers_pure (safe _ (.refl _)) (holds _ _ (.refl _) rfl rfl)
  | halt reason => exact weathers_halt (safe _ (.refl _)) reason
  | call request next ih =>
    obtain ⟨⟨path, reads⟩, later⟩ := silent
    have unchanged := (reads.perform_eq (rfl : state.world.file? path = state.world.file? path)).2.1
    have whole : ∀ bytes, partway request bytes state.world = state.world := by
      intro bytes
      cases request with
      | write | createDirAll => exact reads.elim
      | _ => rfl
    have unmoved : state.Quiet (state.called request) := fun probe =>
      Cached.keeps_called (by rw [unchanged]) fun bytes => by rw [whole]
    have rest := ih (perform request state.world).1 (later _)
      (fun middle quiet => safe _ (unmoved.trans quiet)) fun value after quiet disk ran =>
        holds value after (unmoved.trans quiet) (disk.trans unchanged)
          (by rw [run]; simpa only [Cached.called, unchanged] using ran)
    refine ⟨fun calls bytes => ?_, rest.holds⟩
    cases calls with
    | zero =>
      refine safe _ fun probe => Cached.keeps_during ?_
      rw [whole]
    | succ calls => exact rest.safe calls bytes

theorem Reading.weathers {program : Program α} {given : α → Prop}
    (reading : program.Reading path given) (safe : ∀ middle, state.Quiet middle → middle.Safe crash)
    (holds : ∀ value after, state.Quiet after → after.world = state.world →
      program.run state.world = (.ok value, state.world) → post value after) :
    program.Weathers state crash post :=
  Silent.weathers ((reading.makes fun _ reads => ⟨path, reads⟩).mono fun _ _ => trivial) safe holds

/-- The program weathers a stop anywhere, and it does return. -/
structure Completes (program : Program α) (state : Cached lossy) (crash : World → Prop)
    (post : α → Cached lossy → Prop) : Prop where
  weathers : program.Weathers state crash post
  returns : ∃ value after, program.cached state = (.ok value, after)

theorem cached_bind_of_cached {first : Program β} {next : β → Program α}
    (ran : first.cached state = (.ok value, after)) :
    (first >>= next).cached state = (next value).cached after := by
  induction first generalizing state with
  | done result =>
    cases ran
    rfl
  | halt reason => cases ran
  | call request rest ih => exact ih _ ran

theorem cached_of_run {program : Program α} {world : World}
    (ran : program.run state.world = (outcome, world)) :
    program.cached state = (outcome, (program.cached state).2) := by
  obtain ⟨same, -⟩ := cached_run program state
  rw [ran] at same
  exact Prod.ext same rfl

theorem Weathers.completes {program : Program α} {world : World}
    (weathers : program.Weathers state crash post)
    (ran : program.run state.world = (.ok value, world)) : program.Completes state crash post :=
  ⟨weathers, value, _, cached_of_run ran⟩

theorem completes_pure {value : α} (safe : state.Safe crash) (holds : post value state) :
    (pure value : Program α).Completes state crash post :=
  ⟨weathers_pure safe holds, value, state, rfl⟩

theorem completes_bind {first : Program β} {next : β → Program α} {middle : β → Cached lossy → Prop}
    (head : first.Completes state crash middle)
    (tail : ∀ value after, after.Safe crash → middle value after →
      (next value).Completes after crash post) :
    (first >>= next).Completes state crash post := by
  refine ⟨weathers_bind head.weathers fun value after safe met =>
    (tail value after safe met).weathers, ?_⟩
  obtain ⟨value, between, ran⟩ := head.returns
  obtain ⟨result, after, done⟩ :=
    (tail value between (head.weathers.safe_end ran)
      (head.weathers.holds value between ran)).returns
  exact ⟨result, after, (cached_bind_of_cached ran).trans done⟩

theorem Completes.mono {program : Program α} {weaker : α → Cached lossy → Prop}
    (completes : program.Completes state crash post)
    (implies : ∀ value after, after.Safe crash → post value after → weaker value after) :
    program.Completes state crash weaker :=
  ⟨completes.weathers.mono implies, completes.returns⟩

theorem Completes.crash_mono {program : Program α} {wider : World → Prop}
    (completes : program.Completes state crash post) (implies : ∀ disk, crash disk → wider disk) :
    program.Completes state wider post :=
  ⟨completes.weathers.crash_mono implies, completes.returns⟩

end Program

open Cached

variable {lossy : Prop} {state : Cached lossy} {crash : World → Prop} {path : Path} {old : Bytes}
  {allowed : Bytes → Prop}

theorem weathers_now (safe : ∀ middle, state.Quiet middle → middle.Safe crash) :
    now.Weathers state crash fun _ after => state.Quiet after :=
  Program.weathers_quiet (fun _ => rfl) rfl safe fun _ quiet _ => quiet

theorem completes_isDir (path : Path) (safe : ∀ middle, state.Quiet middle → middle.Safe crash) :
    (isDir path).Completes state crash fun reply after =>
      reply = state.world.isDirectory path ∧ state.Quiet after :=
  (Program.weathers_quiet (fun _ => rfl) rfl safe fun _ quiet _ => ⟨rfl, quiet⟩).completes
    (run_isDir _ _)

theorem reading_checked (bound value : Nat) :
    (Program.checked bound value).Reading path fun _ => True := by
  unfold Program.checked
  split
  · exact trivial
  · exact rfl

/-- No directory that is made is a file. -/
theorem World.file?_putDirectories {world : World} {probe : Path}
    (absent : world.file? probe = none) (path : Path) :
    (world.putDirectories path).file? probe = none := by
  by_cases above : probe ≠ [] ∧ probe <+: path
  · simp [World.file?, World.putDirectories, above]
  · simpa only [World.file?, World.putDirectories, above, ↓reduceIte] using absent

/-- Directories are made from the top. -/
theorem partway_createDirAll {world : World}
    (clear : ∀ ancestor, ancestor ≠ [] → ancestor <+: path → world.file? ancestor = none)
    (count : Nat) : partway (.createDirAll path) count world =
      world.putDirectories (path.take count) := by
  simp only [partway]
  split
  · rename_i blocked
    obtain ⟨ancestor, above, file⟩ := List.any_eq_true.mp blocked
    rw [Bool.and_eq_true, decide_eq_true_eq] at file
    rw [clear ancestor file.1 ((List.mem_inits _ _).mp above)] at file
    cases file.2
  · rfl

theorem weathers_createDirAll (present : state.world.HasDirectory path)
    (safe : ∀ middle, state.Quiet middle → middle.Safe crash) :
    (createDirAll path).Weathers state crash fun _ after => state.Quiet after := by
  have ran := congrArg Prod.snd (run_createDirAll_present present)
  have same : (perform (.createDirAll path) state.world).2.node = state.world.node :=
    congrArg World.node ran
  refine Program.weathers_quiet (fun count => ?_) same safe fun _ quiet _ => quiet
  rw [partway_createDirAll fun ancestor below above => ?_]
  · apply World.putDirectories_eq_self
    exact fun ancestor below above => present ancestor below (above.trans (List.take_prefix _ _))
  · rw [World.file?, present ancestor below above]

/-- The directories are made one after the other. -/
theorem weathers_createDirAll_clear
    (clear : ∀ ancestor, ancestor ≠ [] → ancestor <+: path → state.world.file? ancestor = none)
    (made : ∀ (middle : Cached lossy) (above : Path), above <+: path →
      middle.world = state.world.putDirectories above → middle.Safe crash) :
    (createDirAll path).Weathers state crash fun _ after =>
      after.world = state.world.putDirectories path := by
  have ran : (state.called (.createDirAll path)).world = state.world.putDirectories path :=
    congrArg Prod.snd (run_createDirAll clear)
  exact Program.weathers_call (fun count => made _ _ (List.take_prefix count path)
    (partway_createDirAll clear count)) (made _ _ (List.prefix_refl _) ran) ran

namespace File

/-- Opening a file for reading and writing creates none. -/
theorem weathers_openWith (path : Path) (safe : ∀ middle, state.Quiet middle → middle.Safe crash) :
    (openWith path {}).Weathers state crash fun _ after => state.Quiet after := by
  have same : (perform (.openFile path {}) state.world).2 = state.world := by
    simp only [perform]
    split
    · rfl
    · split <;> rfl
  exact Program.weathers_quiet (fun _ => rfl) (congrArg World.node same) safe fun _ quiet _ => quiet

/-- A single call that replaces the contents of the file at `path`. -/
private theorem weathers_put {request : Call} {result : request.Reply → α}
    {post : α → Cached lossy → Prop} {data : Bytes}
    (whole : ∀ bytes, partway request bytes state.world = state.world)
    (written : (perform request state.world).2 = state.world.put path data)
    (old : state.world.file? path ≠ none → ∀ data, state.may path data → allowed data)
    (new : allowed data) (before : ∀ middle, state.Quiet middle → middle.Safe crash)
    (safe : ∀ middle, Turns path allowed state middle → middle.Safe crash)
    (holds : ∀ after, Turns path allowed state after →
      post (result (perform request state.world).1) after) :
      (Program.call request fun reply => .done (result reply)).Weathers state crash post := by
  have turned : Turns path allowed state (state.called request) := by
    refine ⟨?_, fun found held => ?_, fun probe other => keeps_called ?_ fun bytes => by rw [whole]⟩
    · simp [Cached.called, written]
    · rcases held with now | ⟨-, -, present, possible | ⟨bytes, now⟩⟩
      · rw [written, World.file?_put, Option.some.injEq] at now
        rwa [← now]
      · exact old present found possible
      · rw [whole] at now
        exact old present found (state.current path found now)
    · rw [written, World.node_put_ne _ _ other]
  refine Program.weathers_call (fun bytes => before _ fun probe => keeps_during ?_) (safe _ turned)
    (holds _ turned)
  rw [whole]

/-- A file that is not there is created empty. -/
theorem weathers_create (free : state.world.node path = none) (below : path ≠ [])
    (options : OpenOptions) (create : options.create = true)
    (parent : state.world.isDirectory path.dropLast = true)
    (before : ∀ middle, state.Quiet middle → middle.Safe crash)
    (safe : ∀ middle, Turns path (· = []) state middle → middle.Safe crash) :
    (openWith path options).Weathers state crash fun _ after =>
      Turns path (· = []) state after := by
  have ran := congrArg Prod.snd (run_openWith_create free below options create parent)
  have absent : state.world.file? path = none := by simp [World.file?, free]
  refine weathers_put (fun _ => rfl) ran (fun present => absurd absent present) ?_ before safe
    fun _ turned => turned
  rfl

/-- A file that is there is emptied. -/
theorem weathers_truncate (held : state.world.file? path = some old) (below : path ≠ [])
    (options : OpenOptions) (truncate : options.truncate = true)
    (within : ∀ data, state.may path data → allowed data) (empty : allowed [])
    (before : ∀ middle, state.Quiet middle → middle.Safe crash)
    (safe : ∀ middle, Turns path allowed state middle → middle.Safe crash) :
    (openWith path options).Weathers state crash fun _ after => Turns path allowed state after := by
  have ran := congrArg Prod.snd (run_openWith_existing held below options)
  simp only [truncate, ↓reduceIte] at ran
  exact weathers_put (fun _ => rfl) ran (fun _ => within) empty before safe fun _ turned => turned

theorem weathers_setLen {file : File} (held : state.world.file? path = some old)
    (place : file.path = path) (shorter : length ≤ old.length)
    (within : ∀ data, state.may path data → allowed data) (cut : allowed (old.take length))
    (before : ∀ middle, state.Quiet middle → middle.Safe crash)
    (safe : ∀ middle, Turns path allowed state middle → middle.Safe crash) :
    (file.setLen length).Weathers state crash fun _ after => Turns path allowed state after := by
  have ran := congrArg Prod.snd (run_setLen held place shorter)
  exact weathers_put (fun _ => rfl) ran (fun _ => within) cut before safe fun _ turned => turned

/-- After a sync the file can come up with nothing but what it holds. -/
theorem weathers_syncData (file : File) (safe : ∀ middle, state.Quiet middle → middle.Safe crash) :
    file.syncData.Weathers state crash fun _ after => state.Quiet after ∧
      ∀ data, after.may file.path data → state.world.file? file.path = some data := by
  have unmoved : state.Quiet (state.called (.syncData file.path)) := fun probe =>
    keeps_called rfl fun _ => rfl
  refine Program.weathers_call (fun bytes => safe _ fun probe => keeps_during rfl)
    (safe _ unmoved) ⟨unmoved, ?_⟩
  rintro data (now | ⟨-, other, -⟩)
  · exact now
  · exact absurd rfl other

/-- A write at the end of a file: until it is synced, the file can come up with
any part of the data, or with what it could come up with before. -/
theorem weathers_writeAll {file : File} (held : state.world.file? path = some old)
    (place : file.path = path) (atEnd : file.AtEnd old) (data : Bytes)
    (within : ∀ data, state.may path data → allowed data)
    (parts : ∀ count, allowed (old ++ data.take count))
    (safe : ∀ middle, Turns path allowed state middle → middle.Safe crash) :
    (file.writeAll data).Weathers state crash fun _ after => Turns path allowed state after := by
  subst place
  have written := perform_write held atEnd data
  have part (bytes : Nat) :
      partway (.write file.path (if file.append then none else some file.cursor) data) bytes
        state.world = state.world.put file.path (old ++ data.take bytes) := by
    simp only [partway, cut]
    split
    · rename_i nothing
      rw [nothing, List.take_zero, List.append_nil, World.put_held held]
    · rw [perform_write held atEnd]
  have whole : allowed (old ++ data) := by
    have all := parts data.length
    rwa [List.take_length] at all
  have turned : Turns file.path allowed state
      (state.called (.write file.path (if file.append then none else some file.cursor) data)) := by
    refine ⟨?_, fun found possible => ?_, fun probe other => keeps_called ?_ fun bytes => ?_⟩
    · simp [Cached.called, written]
    · rcases possible with now | ⟨-, -, -, before | ⟨bytes, now⟩⟩
      · rw [written, World.file?_put, Option.some.injEq] at now
        rwa [← now]
      · exact within found before
      · rw [part, World.file?_put, Option.some.injEq] at now
        rw [← now]
        exact parts bytes
    · rw [written, World.node_put_ne _ _ other]
    · rw [part, World.node_put_ne _ _ other]
  refine Program.weathers_call
    (fun bytes => safe _ ⟨?_, fun found possible => ?_, fun probe other =>
    keeps_during ?_⟩) (safe _ turned) turned
  · simp [Cached.during, part]
  · rcases possible with now | ⟨-, before⟩
    · rw [part, World.file?_put, Option.some.injEq] at now
      rw [← now]
      exact parts bytes
    · exact within found before
  · rw [part, World.node_put_ne _ _ other]

end File

end Ruka.FilePrograms
