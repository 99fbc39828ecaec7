import Ruka.SegmentFiles

/-! An index over its life: created once, appended to, dropped and loaded again.
The file is written where the cursor stands and nowhere else, so every step has
to leave the cursor behind the last entry. -/
namespace Ruka
open BigEndian LexicalPaths FilePrograms SortedSearch

namespace Index

/-- A run of an index: `Index::create`, then `Index::append` with growing offsets
and reloads in any order, none of which failed. The entries are the appended ones. -/
inductive Run (path : Path) : World → Index → List IndexEntry → Prop
  | created {before world : World} {index : Index}
      (ran : (create path).run before = (.ok (.ok index), world)) : Run path world index []
  | appended {before world : World} {old index : Index} {entries : List IndexEntry}
      (run : Run path before old entries) (entry : IndexEntry) (fits : entry.Fits)
      (increasing : ∀ earlier ∈ entries, earlier.offset < entry.offset)
      (ran : (old.append entry.offset entry.position).run before = (.ok (.ok (), index), world)) :
      Run path world index (entries ++ [entry])
  | reloaded {before world : World} {old index : Index} {entries : List IndexEntry}
      (run : Run path before old entries)
      (ran : (load path).run before = (.ok (.ok index), world)) : Run path world index entries

/-- What holds between the steps of a run: memory, file and cursor agree. -/
structure Mirrors (path : Path) (world : World) (index : Index)
    (entries : List IndexEntry) : Prop where
  below : path ≠ []
  memory : index = holding path entries
  file : world.file? path = some (encodeEntries entries)
  fits : ∀ entry ∈ entries, entry.Fits
  sorted : entries.Pairwise (fun a b => a.offset < b.offset)

namespace Mirrors
variable {path : Path} {world after : World} {index grown : Index} {entries : List IndexEntry}

private theorem run_load (mirrors : Mirrors path world index entries) :
    (load path).run world = (.ok (.ok index), world) := by
  rw [mirrors.memory]
  exact Index.run_load entries mirrors.file mirrors.below mirrors.fits

/-- An append extends memory and file by the same entry. -/
theorem append (mirrors : Mirrors path world index entries) {entry : IndexEntry} (fits : entry.Fits)
    (increasing : ∀ earlier ∈ entries, earlier.offset < entry.offset)
    (ran : (index.append entry.offset entry.position).run world = (.ok (.ok (), grown), after)) :
    Mirrors path after grown (entries ++ [entry]) := by
  have stored := run_append mirrors.file entry.offset entry.position
  rw [← mirrors.memory, ran] at stored
  cases stored
  constructor
  · exact mirrors.below
  · rfl
  · exact World.file?_put _ _ _
  · intro other member
    rcases List.mem_append.mp member with old | isNew
    · exact mirrors.fits other old
    · rw [List.mem_singleton.mp isNew]
      exact fits
  · apply List.pairwise_append.mpr
    refine ⟨mirrors.sorted, List.pairwise_singleton _ _, ?_⟩
    intro earlier member later isNew
    rw [List.mem_singleton.mp isNew]
    exact increasing earlier member

end Mirrors

private theorem Run.mirrors {index : Index} {entries : List IndexEntry}
    (run : Run path world index entries) : Mirrors path world index entries := by
  induction run with
  | created ran =>
    obtain ⟨below, memory, file⟩ := create_ok ran
    exact ⟨below, memory, file, List.forall_mem_nil _, List.Pairwise.nil⟩
  | appended run entry fits increasing ran ih => exact ih.append fits increasing ran
  | reloaded run ran ih =>
    have loaded := ih.run_load
    rw [ran] at loaded
    cases loaded
    exact ih

/-- At every point of a run a load succeeds with the index that is in memory,
which has the appended entries; the file is their encodings one behind the other,
and both lookups are exact. -/
theorem mirrored_lookups_exact (path : Path) (world : World) (index : Index)
    (entries : List IndexEntry) (run : Run path world index entries) :
    (load path).run world = (.ok (.ok index), world) ∧ index.entries = entries ∧
      world.file? path = some (entries.flatMap fun entry =>
        beBytes 8 entry.offset ++ beBytes 8 entry.position) ∧
      (∀ target position, index.lookup target = some position ↔
        (⟨target, position⟩ : IndexEntry) ∈ entries) ∧
      (∀ target entry, index.lookupFloor target = some entry ↔ IsFloor entries target entry) ∧
      ∀ target, index.lookupFloor target = none ↔ ∀ entry ∈ entries, target < entry.offset := by
  have mirrors := run.mirrors
  have memory : index.entries = entries := by
    rw [mirrors.memory]
    rfl
  have sorted : index.entries.Pairwise (fun a b => a.offset < b.offset) := memory ▸ mirrors.sorted
  refine ⟨mirrors.run_load, memory, mirrors.file, ?_, ?_, ?_⟩
  · intro target position
    rw [← memory]
    exact lookup_eq_some_iff sorted
  · intro target entry
    rw [← memory]
    exact lookupFloor_eq_some_iff sorted
  · intro target
    rw [← memory]
    exact lookupFloor_eq_none_iff sorted target

/-- An index that was dropped and loaded between its two entries. -/
theorem mirrored_lookups_exact_reloaded :
    ∃ world index, Run (indexPath [] 0) world index [⟨3, 0⟩, ⟨7, 40⟩] ∧ index.lookup 7 = some 40 ∧
      index.lookupFloor 6 = some ⟨3, 0⟩ ∧ index.lookupFloor 2 = none := by
  have fits : ∀ entry ∈ [(⟨3, 0⟩ : IndexEntry)], entry.Fits :=
    List.forall_mem_singleton.mpr ⟨by decide, by decide⟩
  have created := Run.created (run_create_fresh (show blankWorld.node (indexPath [] 0) = none from
    rfl) (by decide) rfl)
  have first := created.appended ⟨3, 0⟩ ⟨by decide, by decide⟩ (List.forall_mem_nil _)
    (run_append (World.file?_put _ _ _) 3 0)
  have loaded := first.reloaded (run_load [⟨3, 0⟩] (World.file?_put _ _ _) (by decide) fits)
  have second := loaded.appended ⟨7, 40⟩ ⟨by decide, by decide⟩
    (List.forall_mem_singleton.mpr (by decide)) (run_append (World.file?_put _ _ _) 7 40)
  obtain ⟨-, -, -, lookups, floors, empty⟩ := mirrored_lookups_exact _ _ _ _ second
  refine ⟨_, _, second, (lookups 7 40).mpr (by decide), (floors 6 ⟨3, 0⟩).mpr ?_,
    (empty 2).mpr (by decide)⟩
  unfold IsFloor
  decide

end Index

end Ruka
