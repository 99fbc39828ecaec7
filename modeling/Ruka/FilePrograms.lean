import Mathlib.Data.List.Infix
import Mathlib.Logic.Function.Basic
import Ruka.BigEndian
import Ruka.LexicalPaths

/-! Programs that call a file system, and the run of such a program when no
call fails for an outside reason. A program is the tree of the calls it makes,
so the same text can also be read as the disks a kill leaves behind.

Open files are values: a handle carries its own cursor and whether it was
opened for appending, and every operation on it returns the moved handle. -/
namespace Ruka.FilePrograms
open BigEndian LexicalPaths

inductive Node where
  | directory
  | file (data : Bytes)
  deriving DecidableEq

/-- The disk, and the readings the clock will give. -/
structure World where
  node : Path → Option Node
  clock : Nat → Nat
  readings : Nat

/-- A disk with nothing on it. -/
def blankWorld : World := ⟨fun _ => none, fun reading => reading, 0⟩

inductive IoError where
  | notFound
  | wrongKind
  | unexpectedEof
  | fault
  deriving DecidableEq

structure OpenOptions where
  append : Bool := false
  create : Bool := false
  truncate : Bool := false

namespace World
variable {world before middle after : World} {path probe : Path} {data : Bytes}

def file? (world : World) (path : Path) : Option Bytes :=
  match world.node path with
  | some (.file data) => some data
  | _ => none

/-- The root is a directory on every disk. -/
def isDirectory (world : World) (path : Path) : Bool :=
  path = [] || world.node path = some .directory

def put (world : World) (path : Path) (data : Bytes) : World :=
  { world with node := Function.update world.node path (some (.file data)) }

/-- Every missing directory down to `path`. -/
def putDirectories (world : World) (path : Path) : World :=
  { world with node := fun probe =>
      if probe ≠ [] ∧ probe <+: path then some .directory else world.node probe }

def tick (world : World) : World := { world with readings := world.readings + 1 }

@[simp] theorem file?_put (world : World) (path : Path) (data : Bytes) :
    (world.put path data).file? path = some data := by
  simp [put, file?]

theorem node_put_ne (world : World) (data : Bytes) (other : probe ≠ path) :
    (world.put path data).node probe = world.node probe :=
  Function.update_of_ne other _ _

theorem file?_put_ne (world : World) (data : Bytes) (other : probe ≠ path) :
    (world.put path data).file? probe = world.file? probe := by
  simp only [file?, node_put_ne world data other]

theorem isDirectory_put_ne (world : World) (data : Bytes) (other : probe ≠ path) :
    (world.put path data).isDirectory probe = world.isDirectory probe := by
  simp only [isDirectory, node_put_ne world data other]

theorem file?_eq_some : world.file? path = some data ↔ world.node path = some (.file data) := by
  unfold file?
  split <;> simp_all

@[simp] theorem put_put (world : World) (path : Path) (old new : Bytes) :
    (world.put path old).put path new = world.put path new := by
  simp [put]

theorem put_held (held : world.file? path = some data) : world.put path data = world := by
  have same : Function.update world.node path (some (.file data)) = world.node := by
    rw [← file?_eq_some.mp held, Function.update_eq_self]
  rw [put, same]

@[simp] theorem node_tick (world : World) : world.tick.node = world.node := rfl

@[simp] theorem file?_tick (world : World) (path : Path) :
    world.tick.file? path = world.file? path := rfl

theorem node_ne_none (held : world.file? path = some data) : world.node path ≠ none := by
  rw [file?_eq_some.mp held]
  exact Option.some_ne_none _

theorem isDirectory_eq_false_of_file (held : world.file? path = some data) (below : path ≠ []) :
    world.isDirectory path = false := by
  simp [isDirectory, file?_eq_some.mp held, below]

/-- Another directory lies inside this one. -/
def Nests (world : World) (dir : Path) : Prop :=
  ∃ name, world.node (dir ++ [name]) = some .directory

theorem node_of_no_file (absent : world.file? path = none) :
    world.node path = none ∨ world.node path = some .directory := by
  unfold file? at absent
  split at absent
  · cases absent
  · rename_i other
    cases held : world.node path with
    | none => exact .inl rfl
    | some node =>
      cases node with
      | directory => exact .inr rfl
      | file data => exact absurd held (other data)

/-- Two disks differ only in files of one directory: outside it nothing
changes, and no directory comes or goes. -/
def SameOutside (dir : Path) (before after : World) : Prop :=
  ∀ probe, after.node probe ≠ before.node probe →
    (∃ name, probe = dir ++ [name]) ∧ before.node probe ≠ some .directory ∧
      ∃ data, after.node probe = some (.file data)

theorem SameOutside.refl (dir : Path) (world : World) : SameOutside dir world world :=
  fun _ changed => absurd rfl changed

theorem SameOutside.trans (first : SameOutside dir before middle)
    (second : SameOutside dir middle after) : SameOutside dir before after := by
  intro probe changed
  by_cases early : middle.node probe = before.node probe
  · have late := second probe (early ▸ changed)
    rwa [early] at late
  · obtain ⟨inside, other, data, written⟩ := first probe early
    by_cases late : after.node probe = middle.node probe
    · exact ⟨inside, other, data, late.trans written⟩
    · exact ⟨inside, other, (second probe late).2.2⟩

theorem sameOutside_put (data : Bytes) (other : world.node (dir ++ [name]) ≠ some .directory) :
    SameOutside dir world (world.put (dir ++ [name]) data) := by
  intro probe changed
  by_cases same : probe = dir ++ [name]
  · subst same
    exact ⟨⟨name, rfl⟩, other, data, Function.update_self _ _ _⟩
  · exact absurd (node_put_ne world data same) changed

/-- Directories stay directories. -/
theorem SameOutside.directory (same : SameOutside dir before after)
    (present : before.node probe = some .directory) : after.node probe = some .directory :=
  Decidable.byContradiction fun changed =>
    (same probe fun equal => changed (equal.trans present)).2.1 present

/-- No directory is new. -/
theorem SameOutside.of_directory (same : SameOutside dir before after)
    (present : after.node probe = some .directory) : before.node probe = some .directory := by
  by_cases equal : after.node probe = before.node probe
  · exact equal ▸ present
  · obtain ⟨-, -, data, written⟩ := same probe equal
    rw [present] at written
    cases written

theorem SameOutside.nests_iff (same : SameOutside dir before after) (inner : Path) :
    after.Nests inner ↔ before.Nests inner :=
  ⟨fun ⟨name, present⟩ => ⟨name, same.of_directory present⟩,
    fun ⟨name, present⟩ => ⟨name, same.directory present⟩⟩

/-- Files of other directories stay as they are. -/
theorem SameOutside.file? (same : SameOutside dir before after)
    (outside : ∀ name, probe ≠ dir ++ [name]) : after.file? probe = before.file? probe := by
  have equal : after.node probe = before.node probe := Decidable.byContradiction fun changed => by
    obtain ⟨⟨name, inside⟩, -⟩ := same probe changed
    exact outside name inside
  rw [World.file?, equal, World.file?]

/-- `path` and everything above it are directories. -/
def HasDirectory (world : World) (path : Path) : Prop :=
  ∀ ancestor, ancestor ≠ [] → ancestor <+: path → world.node ancestor = some .directory

theorem HasDirectory.isDirectory (present : world.HasDirectory path) :
    world.isDirectory path = true := by
  by_cases root : path = []
  · simp [World.isDirectory, root]
  · simp [World.isDirectory, present path root (List.prefix_refl _)]

theorem HasDirectory.of_sameOutside (present : before.HasDirectory path)
    (same : SameOutside dir before after) : after.HasDirectory path :=
  fun ancestor below above => same.directory (present ancestor below above)

theorem hasDirectory_putDirectories (world : World) (path : Path) :
    (world.putDirectories path).HasDirectory path :=
  fun _ below above => if_pos ⟨below, above⟩

theorem putDirectories_eq_self (present : world.HasDirectory path) :
    world.putDirectories path = world := by
  have same : (world.putDirectories path).node = world.node := by
    funext probe
    simp only [putDirectories]
    split
    · rename_i above
      exact (present probe above.1 above.2).symm
    · rfl
  exact congrArg (fun node => ({ world with node := node } : World)) same

end World

/-- Bytes of a file after `data` is written at `start`; a write past the end
leaves zeros in between. -/
def splice (old : Bytes) (start : Nat) (data : Bytes) : Bytes :=
  old.take start ++ List.replicate (start - old.length) 0 ++ data ++ old.drop (start + data.length)

/-- The calls a program can make. `write` without a position appends. -/
inductive Call where
  | createDirAll (path : Path)
  | openFile (path : Path) (options : OpenOptions)
  | length (path : Path)
  | read (path : Path) (start count : Nat)
  | readToEnd (path : Path) (start : Nat)
  | write (path : Path) (position : Option Nat) (data : Bytes)
  | setLen (path : Path) (length : Nat)
  | syncData (path : Path)
  | isDir (path : Path)
  | now

/-- A write also reports where it left the cursor, since it can fail half way. -/
def Call.Reply : Call → Type
  | .length _ => Except IoError Nat
  | .read .. => Except IoError Bytes
  | .readToEnd .. => Except IoError Bytes
  | .write .. => Except IoError Unit × Nat
  | .isDir _ => Bool
  | .now => Nat
  | .createDirAll _ => Except IoError Unit
  | .openFile .. => Except IoError Unit
  | .setLen .. => Except IoError Unit
  | .syncData _ => Except IoError Unit

/-- What the file system answers and becomes. -/
def perform : (call : Call) → World → call.Reply × World
  | .createDirAll path, world =>
    if path.inits.any (fun ancestor => ancestor ≠ [] && (world.file? ancestor).isSome) then
      (.error .wrongKind, world)
    else (.ok (), world.putDirectories path)
  | .openFile path options, world =>
    if world.isDirectory path then (.error .wrongKind, world)
    else match world.file? path with
      | some _ => (.ok (), if options.truncate then world.put path [] else world)
      | none =>
        if options.create && world.isDirectory path.dropLast then (.ok (), world.put path [])
        else (.error .notFound, world)
  | .length path, world =>
    match world.file? path with
    | some data => (.ok data.length, world)
    | none => (.error .notFound, world)
  | .read path start count, world =>
    match world.file? path with
    | some data => (.ok ((data.drop start).take count), world)
    | none => (.error .notFound, world)
  | .readToEnd path start, world =>
    match world.file? path with
    | some data => (.ok (data.drop start), world)
    | none => (.error .notFound, world)
  | .write path position data, world =>
    match world.file? path with
    | some old =>
      ((.ok (), position.getD old.length + data.length),
        world.put path (splice old (position.getD old.length) data))
    | none => ((.error .notFound, position.getD 0), world)
  | .setLen path length, world =>
    match world.file? path with
    | some old =>
      (.ok (), world.put path (old.take length ++ List.replicate (length - old.length) 0))
    | none => (.error .notFound, world)
  | .syncData _, world => (.ok (), world)
  | .isDir path, world => (world.isDirectory path, world)
  | .now, world => (world.clock world.readings, world.tick)

/-- What a call cut after so many bytes has done. Only writes can be cut. -/
def cut : Call → Nat → World → World
  | .write path position data, bytes, world =>
    if bytes = 0 then world else (perform (.write path position (data.take bytes)) world).2
  | _, _, world => world

/-- No call takes a file away. -/
theorem perform_keeps_file (request : Call) {world : World} {path : Path}
    (held : world.file? path ≠ none) (below : path ≠ []) :
    (perform request world).2.file? path ≠ none := by
  have written (probe : Path) (data : Bytes) : (world.put probe data).file? path ≠ none := by
    by_cases same : path = probe
    · subst same
      simp
    · rwa [World.file?_put_ne world data same]
  cases request with
  | createDirAll dir =>
    simp only [perform]
    split
    · exact held
    · rename_i clear
      have apart : ¬ (path ≠ [] ∧ path <+: dir) := by
        rintro ⟨-, above⟩
        refine clear (List.any_eq_true.mpr ⟨path, (List.mem_inits _ _).mpr above, ?_⟩)
        simp [below, Option.isSome_iff_ne_none, held]
      simpa only [World.file?, World.putDirectories, apart, ↓reduceIte] using held
  | openFile probe options =>
    simp only [perform]
    split
    · exact held
    · split
      · simp only
        split
        · exact written probe []
        · exact held
      · split
        · exact written probe []
        · exact held
  | length probe | read probe _ _ | readToEnd probe _ =>
    simp only [perform]
    split <;> exact held
  | write probe _ _ | setLen probe _ =>
    simp only [perform]
    split
    · exact written probe _
    · exact held
  | syncData _ | isDir _ | now => exact held

/-- No call sets the clock. -/
theorem perform_clock (request : Call) (world : World) :
    (perform request world).2.clock = world.clock := by
  cases request with
  | createDirAll dir =>
    simp only [perform]
    split <;> rfl
  | openFile probe options =>
    simp only [perform]
    split
    · rfl
    · split
      · simp only
        split <;> rfl
      · split <;> rfl
  | length probe | read probe _ _ | readToEnd probe _ | write probe _ _ | setLen probe _ =>
    simp only [perform]
    split <;> rfl
  | syncData _ | isDir _ | now => rfl

/-- Whether a call reads the file at `path` and nothing else. -/
def Call.ReadsFile (path : Path) : Call → Prop
  | .length probe => probe = path
  | .read probe _ _ => probe = path
  | .readToEnd probe _ => probe = path
  | _ => False

theorem Call.ReadsFile.perform_eq {request : Call} {path : Path} (reads : request.ReadsFile path)
    {world other : World} (same : world.file? path = other.file? path) :
    (perform request other).1 = (perform request world).1 ∧ (perform request world).2 = world ∧
      (perform request other).2 = other := by
  cases request with
  | length probe | read probe _ _ | readToEnd probe _ =>
    obtain rfl : probe = path := reads
    simp only [perform, ← same]
    cases world.file? probe <;> exact ⟨rfl, rfl, rfl⟩
  | _ => exact reads.elim

/-- Why a program stops without a result: the process panicked, or a loop of
the model ran past the bound it was given. -/
inductive Halt where
  | panic
  | unfinished
  deriving DecidableEq

inductive Program (α : Type) : Type where
  | done (value : α)
  | halt (reason : Halt)
  | call (request : Call) (next : request.Reply → Program α)

namespace Program
variable {world after : World}

def bind : Program α → (α → Program β) → Program β
  | .done value, next => next value
  | .halt reason, _ => .halt reason
  | .call request rest, next => .call request fun reply => (rest reply).bind next

instance : Monad Program where
  pure := .done
  bind := bind

/-- The run in which every call is answered by `perform`. -/
def run : Program α → World → Except Halt α × World
  | .done value, world => (.ok value, world)
  | .halt reason, world => (.error reason, world)
  | .call request next, world => (next (perform request world).1).run (perform request world).2

@[simp] theorem run_pure (value : α) (world : World) :
    (pure value : Program α).run world = (.ok value, world) := rfl

@[simp] theorem run_halt (reason : Halt) (world : World) :
    (halt reason : Program α).run world = (.error reason, world) := rfl

theorem run_call {reply : request.Reply} (answered : perform request world = (reply, after))
    (next : request.Reply → Program α) :
    (call request next).run world = (next reply).run after := by
  rw [run, answered]

theorem run_bind (first : Program α) (next : α → Program β) (world : World) :
    (first >>= next).run world = match first.run world with
      | (.ok value, after) => (next value).run after
      | (.error reason, after) => (.error reason, after) := by
  induction first generalizing world with
  | done value => rfl
  | halt reason => rfl
  | call request rest ih => exact ih _ _

/-- The usual way to step over a call whose run is known. -/
theorem run_bind_of_run {first : Program α} (ran : first.run world = (.ok value, after))
    (next : α → Program β) : (first >>= next).run world = (next value).run after := by
  rw [run_bind, ran]

/-- A sequence that returned ran both of its parts. -/
theorem exists_of_run_bind {first : Program α} {next : α → Program β}
    (ran : (first >>= next).run world = (.ok result, after)) :
    ∃ value middle, first.run world = (.ok value, middle) ∧
    (next value).run middle = (.ok result, after) := by
  rw [run_bind] at ran
  split at ran
  · rename_i value middle head
    exact ⟨value, middle, head, ran⟩
  · cases ran

/-- What was a file before a run is one afterwards. -/
theorem run_keeps_file (program : Program α) (held : world.file? path ≠ none) (below : path ≠ []) :
    (program.run world).2.file? path ≠ none := by
  induction program generalizing world with
  | done value => exact held
  | halt reason => exact held
  | call request next ih => exact ih _ (perform_keeps_file request held below)

theorem run_clock (program : Program α) (world : World) :
    (program.run world).2.clock = world.clock := by
  induction program generalizing world with
  | done value => rfl
  | halt reason => rfl
  | call request next ih => exact (ih _ _).trans (perform_clock request world)

/-- Checked machine arithmetic: a value past its width stops the process. -/
def checked (bound value : Nat) : Program Nat :=
  if value < bound then .done value else .halt .panic

theorem run_checked (fits : value < bound) (world : World) :
    (checked bound value).run world = (.ok value, world) := by
  rw [checked, if_pos fits]
  rfl

/-- A pure computation that stops the process where it has no result. -/
def orPanic : Option α → Program α
  | some value => .done value
  | none => .halt .panic

@[simp] theorem run_orPanic_some (value : α) (world : World) :
    (orPanic (some value)).run world = (.ok value, world) := rfl

/-- The program as a task of its own: a panic ends the task, and whoever waits
for it learns that there is no result. -/
def attempt : Program α → Program (Option α)
  | .done value => .done (some value)
  | .halt .panic => .done none
  | .halt .unfinished => .halt .unfinished
  | .call request next => .call request fun reply => (next reply).attempt

theorem run_attempt (program : Program α) (world : World) :
    program.attempt.run world = match program.run world with
      | (.ok value, after) => (.ok (some value), after)
      | (.error .panic, after) => (.ok none, after)
      | (.error .unfinished, after) => (.error .unfinished, after) := by
  induction program generalizing world with
  | done value => rfl
  | halt reason => cases reason <;> rfl
  | call request next ih => exact ih _ _

/-- A run that returns meets `post`; a panic happens only under `trap`; no
loop of the model runs out. -/
def Ensures (program : Program α) (world : World) (trap : Prop) (post : α → World → Prop) : Prop :=
  match program.run world with
  | (.ok value, after) => post value after
  | (.error .panic, _) => trap
  | (.error .unfinished, _) => False

theorem exists_run {program : Program α} {outcome : Except Halt α}
    (ran : (program.run world).1 = outcome) : ∃ after, program.run world = (outcome, after) :=
    ⟨_, Prod.ext ran rfl⟩

theorem ensures_of_run {program : Program α} {post : α → World → Prop}
    (ran : program.run world = (.ok value, after)) (holds : post value after) :
    program.Ensures world trap post := by
  simp only [Ensures, ran, holds]

theorem ensures_bind {first : Program α} {next : α → Program β} {post : β → World → Prop}
    (head : first.Ensures world trap middle)
    (tail : ∀ value after, middle value after → (next value).Ensures after trap post) :
    (first >>= next).Ensures world trap post := by
  unfold Ensures at head ⊢
  rw [run_bind]
  split at head
  · rename_i value after ran
    simp only [ran]
    exact tail value after head
  · rename_i ran
    simp only [ran]
    exact head
  · exact head.elim

theorem ensures_bind_of_run {first : Program α} {next : α → Program β} {post : β → World → Prop}
    (ran : first.run world = (.ok value, after)) (tail : (next value).Ensures after trap post) :
    (first >>= next).Ensures world trap post := by
  simpa only [Ensures, run_bind_of_run ran] using tail

theorem Ensures.mono {program : Program α} {post weaker : α → World → Prop}
    (holds : program.Ensures world trap post) (traps : trap → wider)
    (implies : ∀ value after, post value after → weaker value after) :
    program.Ensures world wider weaker := by
  unfold Ensures at holds ⊢
  split at holds
  · exact implies _ _ holds
  · exact traps holds
  · exact holds.elim

/-- What a run that returned is known to satisfy. -/
theorem Ensures.of_run {program : Program α} {post : α → World → Prop}
    (holds : program.Ensures world trap post) (ran : program.run world = (.ok value, after)) :
    post value after := by
  simpa only [Ensures, ran] using holds

/-- Away from the trap the program does return. -/
theorem Ensures.returns {program : Program α} {post : α → World → Prop}
    (holds : program.Ensures world trap post) (safe : ¬ trap) :
    ∃ value after, program.run world = (.ok value, after) ∧ post value after := by
  unfold Ensures at holds
  split at holds
  · rename_i value after ran
    exact ⟨value, after, ran, holds⟩
  · exact (safe holds).elim
  · exact holds.elim

/-- A program returns or panics; there is no third way. -/
theorem Ensures.returns_or_panics {program : Program α} {post : α → World → Prop}
    (holds : program.Ensures world trap post) :
    (∃ value after, program.run world = (.ok value, after) ∧ post value after) ∨
      ((∃ after, program.run world = (.error .panic, after)) ∧ trap) := by
  unfold Ensures at holds
  split at holds
  · rename_i value after ran
    exact .inl ⟨value, after, ran, holds⟩
  · rename_i after ran
    exact .inr ⟨⟨after, ran⟩, holds⟩
  · exact holds.elim

theorem ensures_panic {post : α → World → Prop} (holds : trap) :
    (halt .panic : Program α).Ensures world trap post := holds

/-- A checked operation either leaves its width, under `trap`, or goes on. -/
theorem ensures_bind_checked {next : Nat → Program β} {post : β → World → Prop}
    (past : bound ≤ value → trap) (tail : value < bound → (next value).Ensures world trap post) :
    (checked bound value >>= next).Ensures world trap post := by
  unfold checked
  split
  · rename_i fits
    exact ensures_bind_of_run rfl (tail fits)
  · rename_i large
    exact past (Nat.le_of_not_lt large)

/-- The program returns what meets `post`, whatever its calls are answered. -/
def Returns (post : α → Prop) : Program α → Prop
  | .done value => post value
  | .halt _ => False
  | .call _ next => ∀ reply, (next reply).Returns post

theorem Returns.bind {first : Program α} {next : α → Program β} {middle : α → Prop}
    {post : β → Prop} (head : first.Returns middle)
    (tail : ∀ value, middle value → (next value).Returns post) : (first >>= next).Returns post := by
  induction first with
  | done value => exact tail value head
  | halt reason => exact head.elim
  | call request rest ih => exact fun reply => ih reply (head reply)

/-- After a single call the program goes on with any answer. -/
theorem Returns.after_call {request : Call} {result : request.Reply → α} {next : α → Program β}
    {post : β → Prop} (later : ∀ value, (next value).Returns post) :
    ((call request fun reply => .done (result reply)) >>= next).Returns post :=
  fun _ => later _

theorem Returns.ensures {program : Program α} {post : α → Prop} (returns : program.Returns post)
    (world : World) : program.Ensures world trap fun value _ => post value := by
  induction program generalizing world with
  | done value => exact ensures_of_run rfl returns
  | halt reason => exact returns.elim
  | call request next ih =>
    have later := ih (perform request world).1 (returns _) (perform request world).2
    unfold Ensures at later ⊢
    exact later

/-- No loop of the program runs out, whatever its calls are answered. -/
def Ends : Program α → Prop
  | .done _ => True
  | .halt reason => reason = .panic
  | .call _ next => ∀ reply, (next reply).Ends

theorem Ends.bind {first : Program α} {next : α → Program β} (head : first.Ends)
    (tail : ∀ value, (next value).Ends) : (first >>= next).Ends := by
  induction first with
  | done value => exact tail value
  | halt reason => exact head
  | call request rest ih => exact fun reply => ih reply (head reply)

/-- After a single call the program goes on with any answer. -/
theorem Ends.after_call {request : Call} {result : request.Reply → α} {next : α → Program β}
    (later : ∀ value, (next value).Ends) :
    ((call request fun reply => .done (result reply)) >>= next).Ends :=
  fun _ => later _

theorem ends_checked (bound value : Nat) : (checked bound value).Ends := by
  unfold checked
  split <;> trivial

theorem ends_orPanic (outcome : Option α) : (orPanic outcome).Ends := by
  cases outcome <;> trivial

theorem Returns.ends {program : Program α} {post : α → Prop} (returns : program.Returns post) :
    program.Ends := by
  induction program with
  | done value => exact trivial
  | halt reason => exact returns.elim
  | call request next ih => exact fun reply => ih reply (returns reply)

theorem Ends.ensures {program : Program α} (ends : program.Ends) (world : World) :
    program.Ensures world True fun _ _ => True := by
  induction program generalizing world with
  | done value => exact ensures_of_run rfl trivial
  | halt reason =>
    cases (ends : reason = .panic)
    exact ensures_panic trivial
  | call request next ih =>
    have later := ih (perform request world).1 (ends _) (perform request world).2
    unfold Ensures at later ⊢
    exact later

/-- A program that only reads the file at `path` and returns what meets `post`,
whatever the file holds. -/
def Reading (path : Path) (post : α → Prop) : Program α → Prop
  | .done value => post value
  | .halt reason => reason = .panic
  | .call request next => request.ReadsFile path ∧ ∀ reply, (next reply).Reading path post

theorem Reading.bind {first : Program α} {next : α → Program β} {middle : α → Prop}
    {post : β → Prop} (head : first.Reading path middle)
    (tail : ∀ value, middle value → (next value).Reading path post) :
    (first >>= next).Reading path post := by
  induction first with
  | done value => exact tail value head
  | halt reason => exact head
  | call request rest ih => exact ⟨head.1, fun reply => ih reply (head.2 reply)⟩

theorem Reading.bind_orPanic {outcome : Option α} {next : α → Program β} {post : β → Prop}
    (tail : ∀ value, (next value).Reading path post) :
    (orPanic outcome >>= next).Reading path post := by
  cases outcome with
  | none => exact rfl
  | some value => exact tail value

theorem Reading.ends {program : Program α} {post : α → Prop} (reading : program.Reading path post) :
    program.Ends := by
  induction program with
  | done value => exact trivial
  | halt reason => exact reading
  | call request next ih => exact fun reply => ih reply (reading.2 reply)

/-- The outcome depends on that file alone, and the disk stays as it is. -/
theorem Reading.run_eq {program : Program α} {post : α → Prop} (reading : program.Reading path post)
    {world other : World} (same : world.file? path = other.file? path) :
    program.run other = ((program.run world).1, other) := by
  induction program with
  | done value => rfl
  | halt reason => rfl
  | call request next ih =>
    obtain ⟨answered, before, after⟩ := reading.1.perform_eq same
    rw [run, run, answered, after, before]
    exact ih _ (reading.2 _)

theorem Reading.ensures {program : Program α} {post : α → Prop}
    (reading : program.Reading path post) (world : World) :
    program.Ensures world True fun value after => after = world ∧ post value := by
  induction program with
  | done value => exact ⟨rfl, reading⟩
  | halt reason =>
    cases (reading : reason = .panic)
    trivial
  | call request next ih =>
    have unchanged := (reading.1.perform_eq (rfl : world.file? path = world.file? path)).2.1
    have rest := ih (perform request world).1 (reading.2 _)
    unfold Ensures at rest ⊢
    rwa [run, unchanged]

-- from here on a goal about a program is taken apart by these rules, not by running it
attribute [irreducible] Ensures

end Program

def now : Program Nat := .call .now fun (reading : Nat) => .done reading

theorem run_now (world : World) :
    now.run world = (.ok (world.clock world.readings), world.tick) := rfl

/-- The next reading of the clock, cut to 64 bits. -/
def World.stamp (world : World) : UInt64 := UInt64.ofNat (world.clock world.readings)

theorem World.toNat_stamp (world : World) :
    world.stamp.toNat = world.clock world.readings % 2 ^ 64 := by
  simp [stamp]

def isDir (path : Path) : Program Bool := .call (.isDir path) fun (reply : Bool) => .done reply

theorem run_isDir (path : Path) (world : World) :
    (isDir path).run world = (.ok (world.isDirectory path), world) := rfl

def createDirAll (path : Path) : Program (Except IoError Unit) :=
  .call (.createDirAll path) fun (reply : Except IoError Unit) => .done reply

/-- No file is in the way: every directory down to `path` is there afterwards. -/
theorem run_createDirAll {world : World}
    (clear : ∀ ancestor, ancestor ≠ [] → ancestor <+: path → world.file? ancestor = none) :
    (createDirAll path).run world = (.ok (.ok ()), world.putDirectories path) := by
  have answered : perform (.createDirAll path) world = (.ok (), world.putDirectories path) := by
    have unobstructed :
        path.inits.any (fun ancestor => ancestor ≠
          [] && (world.file? ancestor).isSome) = false := by
      rw [List.any_eq_false]
      intro ancestor member
      by_cases top : ancestor = []
      · simp [top]
      · simp [clear ancestor top ((List.mem_inits _ _).mp member)]
    simp only [perform, unobstructed, Bool.false_eq_true, ↓reduceIte]
  exact Program.run_call answered _

/-- A file in the way stops it. -/
theorem run_createDirAll_blocked {world : World} (below : ancestor ≠ []) (above : ancestor <+: path)
    (held : world.file? ancestor ≠ none) :
    (createDirAll path).run world = (.ok (.error .wrongKind), world) := by
  have answered : perform (.createDirAll path) world = (.error .wrongKind, world) := by
    have obstructed :
        path.inits.any (fun ancestor => ancestor ≠ [] && (world.file? ancestor).isSome) = true := by
      refine List.any_eq_true.mpr ⟨ancestor, (List.mem_inits _ _).mpr above, ?_⟩
      simp [below, Option.isSome_iff_ne_none.mpr held]
    simp only [perform, obstructed, ↓reduceIte]
  exact Program.run_call answered _

theorem run_createDirAll_present {world : World} (present : world.HasDirectory path) :
    (createDirAll path).run world = (.ok (.ok ()), world) := by
  rw [run_createDirAll, World.putDirectories_eq_self present]
  intro ancestor below above
  simp [World.file?, present ancestor below above]

/-- An open file: its path, whether writes go to the end whatever the cursor
says, and the cursor reads and other writes share. -/
structure File where
  path : Path
  append : Bool
  cursor : Nat
  deriving DecidableEq

namespace File

def openWith (path : Path) (options : OpenOptions) : Program (Except IoError File) :=
  .call (.openFile path options) fun (reply : Except IoError Unit) =>
    .done (reply.map fun _ => ⟨path, options.append, 0⟩)

def writeAll (file : File) (data : Bytes) : Program (Except IoError Unit × File) :=
  .call (.write file.path (if file.append then none else some file.cursor) data)
    fun (reply : Except IoError Unit × Nat) => .done (reply.1, { file with cursor := reply.2 })

def seekStart (file : File) (position : Nat) : File := { file with cursor := position }

def seekEnd (file : File) : Program (Except IoError File) :=
  .call (.length file.path) fun (reply : Except IoError Nat) =>
    .done (reply.map fun length => { file with cursor := length })

def len (file : File) : Program (Except IoError Nat) :=
  .call (.length file.path) fun (reply : Except IoError Nat) => .done reply

def read (file : File) (count : Nat) : Program (Except IoError Bytes × File) :=
  .call (.read file.path file.cursor count) fun (reply : Except IoError Bytes) =>
    match reply with
    | .ok data => .done (.ok data, { file with cursor := file.cursor + data.length })
    | .error error => .done (.error error, file)

/-- All `count` bytes, or an error once the end comes first. -/
def readExact (file : File) (count : Nat) : Program (Except IoError Bytes × File) := do
  let (reply, file) ← file.read count
  match reply with
  | .ok data =>
    if data.length < count then pure (.error .unexpectedEof, file) else pure (.ok data, file)
  | .error error => pure (.error error, file)

def readToEnd (file : File) : Program (Except IoError Bytes × File) :=
  .call (.readToEnd file.path file.cursor) fun (reply : Except IoError Bytes) =>
    match reply with
    | .ok data => .done (.ok data, { file with cursor := file.cursor + data.length })
    | .error error => .done (.error error, file)

def setLen (file : File) (length : Nat) : Program (Except IoError Unit) :=
  .call (.setLen file.path length) fun (reply : Except IoError Unit) => .done reply

def syncData (file : File) : Program (Except IoError Unit) :=
  .call (.syncData file.path) fun (reply : Except IoError Unit) => .done reply

/-- The next write lands behind everything the file holds. -/
def AtEnd (file : File) (contents : Bytes) : Prop :=
  file.append = true ∨ file.cursor = contents.length

variable {world : World} {path : Path} {file : File} {old : Bytes}

theorem splice_end (old data : Bytes) : splice old old.length data = old ++ data := by
  simp [splice, List.drop_eq_nil_of_le]

theorem AtEnd.position (atEnd : file.AtEnd old) :
    (if file.append then none else some file.cursor).getD old.length = old.length := by
  rcases atEnd with mode | cursor
  · simp [mode]
  · cases file.append <;> simp [cursor]

theorem perform_write (held : world.file? file.path = some old) (atEnd : file.AtEnd old)
    (data : Bytes) :
    perform (.write file.path (if file.append then none else some file.cursor) data) world =
      ((.ok (), old.length + data.length), world.put file.path (old ++ data)) := by
  simp only [perform, held, atEnd.position, splice_end]
  rfl

theorem run_writeAll (held : world.file? path = some old) (place : file.path = path)
    (atEnd : file.AtEnd old) (data : Bytes) :
    (file.writeAll data).run world =
      (.ok (.ok (), { file with cursor := old.length + data.length }),
        world.put path (old ++ data)) := by
  subst place
  exact Program.run_call (perform_write held atEnd data) _

/-- A write moves the cursor and touches no other file; at the end of the file
it succeeds and stays at the end. -/
structure Wrote (world : World) (file : File) (data : Bytes) (answer : Except IoError Unit)
    (moved : File) (after : World) : Prop where
  handle : ∃ cursor, moved = { file with cursor := cursor }
  others : ∀ probe, probe ≠ file.path → after.file? probe = world.file? probe
  behind : ∀ old, world.file? file.path = some old → file.AtEnd old →
    answer = .ok () ∧ after.file? file.path = some (old ++ data) ∧ moved.AtEnd (old ++ data)

theorem writeAll_ensures (file : File) (data : Bytes) (world : World) :
    (file.writeAll data).Ensures world False fun reply after =>
      Wrote world file data reply.1 reply.2 after := by
  cases held : world.file? file.path with
  | none =>
    have answered : perform (.write file.path
        (if file.append then none else some file.cursor) data) world =
          ((.error .notFound, (if file.append then none else some file.cursor).getD 0), world) := by
      simp only [perform, held]
      rfl
    refine Program.ensures_of_run (Program.run_call answered _) ⟨⟨_, rfl⟩, fun _ _ => rfl,
      fun old present => ?_⟩
    rw [held] at present
    cases present
  | some old =>
    have answered : perform (.write file.path
        (if file.append then none else some file.cursor) data) world =
          ((.ok (), (if file.append then none else some file.cursor).getD old.length + data.length),
            world.put file.path (splice old
              ((if file.append then none else some file.cursor).getD old.length) data)) := by
      simp only [perform, held]
      rfl
    refine Program.ensures_of_run (Program.run_call answered _)
      ⟨⟨_, rfl⟩, fun probe other => World.file?_put_ne _ _ other, fun same present atEnd => ?_⟩
    obtain rfl : old = same := Option.some.inj (held.symm.trans present)
    rw [atEnd.position]
    refine ⟨rfl, ?_, .inr ?_⟩
    · rw [World.file?_put, splice_end]
    · rw [List.length_append]

theorem run_syncData (file : File) (world : World) :
    file.syncData.run world = (.ok (.ok ()), world) := rfl

theorem run_len (held : world.file? path = some old) (place : file.path = path) :
    file.len.run world = (.ok (.ok old.length), world) := by
  subst place
  have answered : perform (.length file.path) world = (.ok old.length, world) := by
    simp only [perform, held]
  exact Program.run_call answered _

theorem run_seekEnd (held : world.file? path = some old) (place : file.path = path) :
    file.seekEnd.run world = (.ok (.ok { file with cursor := old.length }), world) := by
  subst place
  have answered : perform (.length file.path) world = (.ok old.length, world) := by
    simp only [perform, held]
  exact Program.run_call answered _

theorem run_read (held : world.file? path = some old) (place : file.path = path) (count : Nat) :
    (file.read count).run world =
      (.ok (.ok ((old.drop file.cursor).take count),
        { file with cursor := file.cursor + ((old.drop file.cursor).take count).length
          }), world) := by
  subst place
  have answered : perform (.read file.path file.cursor count) world =
      (.ok ((old.drop file.cursor).take count), world) := by
    simp only [perform, held]
  exact Program.run_call answered _

theorem run_readToEnd (held : world.file? path = some old) (place : file.path = path) :
    file.readToEnd.run world =
      (.ok (.ok (old.drop file.cursor),
        { file with cursor := file.cursor + (old.drop file.cursor).length }), world) := by
  subst place
  have answered : perform (.readToEnd file.path file.cursor) world =
      (.ok (old.drop file.cursor), world) := by
    simp only [perform, held]
  exact Program.run_call answered _

theorem run_readExact (held : world.file? path = some old) (place : file.path = path)
    (enough : file.cursor + count ≤ old.length) :
    (file.readExact count).run world =
      (.ok (.ok ((old.drop file.cursor).take count), { file with cursor := file.cursor + count }),
        world) := by
  have length : ((old.drop file.cursor).take count).length = count := by
    rw [List.length_take, List.length_drop]
    omega
  unfold readExact
  rw [Program.run_bind_of_run (run_read held place count)]
  simp only [length, Nat.lt_irrefl, ↓reduceIte, Program.run_pure]

theorem run_setLen (held : world.file? path = some old) (place : file.path = path)
    (shorter : length ≤ old.length) :
    (file.setLen length).run world = (.ok (.ok ()), world.put path (old.take length)) := by
  subst place
  have answered : perform (.setLen file.path length) world =
      (.ok (), world.put file.path (old.take length)) := by
    simp [perform, held, Nat.sub_eq_zero_of_le shorter]
  exact Program.run_call answered _

theorem run_openWith_existing (held : world.file? path = some old) (below : path ≠ [])
    (options : OpenOptions) :
    (openWith path options).run world = (.ok (.ok ⟨path, options.append, 0⟩),
      if options.truncate then world.put path [] else world) := by
  have answered : perform (.openFile path options) world =
      (.ok (), if options.truncate then world.put path [] else world) := by
    simp [perform, World.isDirectory_eq_false_of_file held below, held]
  exact Program.run_call answered _

theorem run_openWith_directory (taken : world.node path = some .directory) (options : OpenOptions) :
    (openWith path options).run world = (.ok (.error .wrongKind), world) := by
  have answered : perform (.openFile path options) world = (.error .wrongKind, world) := by
    simp [perform, World.isDirectory, taken]
  exact Program.run_call answered _

/-- Without `create`, a path that is no file cannot be opened. -/
theorem run_openWith_absent (absent : world.file? path = none) :
    ∃ error, (openWith path {}).run world = (.ok (.error error), world) := by
  by_cases directory : world.isDirectory path = true
  · have answered : perform (.openFile path {}) world = (.error .wrongKind, world) := by
      simp [perform, directory]
    exact ⟨.wrongKind, Program.run_call answered _⟩
  · have answered : perform (.openFile path {}) world = (.error .notFound, world) := by
      simp [perform, directory, absent]
    exact ⟨.notFound, Program.run_call answered _⟩

theorem run_openWith_create (free : world.node path = none) (below : path ≠ [])
    (options : OpenOptions) (create : options.create = true)
    (parent : world.isDirectory path.dropLast = true) :
    (openWith path options).run world =
      (.ok (.ok ⟨path, options.append, 0⟩), world.put path []) := by
  have absent : world.file? path = none := by simp [World.file?, free]
  have notDirectory : world.isDirectory path = false := by simp [World.isDirectory, free, below]
  have answered : perform (.openFile path options) world = (.ok (), world.put path []) := by
    simp [perform, notDirectory, absent, create, parent]
  exact Program.run_call answered _

/-- An open that succeeded found the file or made it. -/
theorem openWith_ok (ran : (openWith path options).run world = (.ok (.ok file), after)) :
    file = ⟨path, options.append, 0⟩ ∧
      match world.file? path with
      | some _ => after = if options.truncate then world.put path [] else world
      | none => after = world.put path [] := by
  change (Except.ok ((perform (.openFile path options) world).1.map _),
    (perform (.openFile path options) world).2) = (.ok (.ok file), after) at ran
  simp only [perform] at ran
  split at ran
  · cases ran
  split at ran
  · cases ran
    exact ⟨rfl, rfl⟩
  · split at ran
    · cases ran
      exact ⟨rfl, rfl⟩
    · cases ran

/-- A read of any kind looks at this file alone and only moves the cursor. -/
def Reads (program : Program (α × File)) (file : File) : Prop :=
  program.Reading file.path fun answer => ∃ cursor, answer.2 = { file with cursor := cursor }

theorem reads_read (file : File) (count : Nat) : Reads (file.read count) file := by
  refine ⟨rfl, fun (reply : Except IoError Bytes) => ?_⟩
  cases reply with
  | error error => exact ⟨file.cursor, rfl⟩
  | ok data => exact ⟨_, rfl⟩

theorem reads_readToEnd (file : File) : Reads file.readToEnd file := by
  refine ⟨rfl, fun (reply : Except IoError Bytes) => ?_⟩
  cases reply with
  | error error => exact ⟨file.cursor, rfl⟩
  | ok data => exact ⟨_, rfl⟩

theorem reads_readExact (file : File) (count : Nat) : Reads (file.readExact count) file := by
  refine Program.Reading.bind (reads_read file count) ?_
  rintro ⟨reply, moved⟩ ⟨cursor, rfl⟩
  cases reply with
  | error error => exact ⟨cursor, rfl⟩
  | ok data =>
    simp only
    split <;> exact ⟨cursor, rfl⟩

end File

end Ruka.FilePrograms
