import Bxxt.CpioIn

/-! Where the entries of a ramdisk go. No name of an entry is refused: those whose way stays inside the
directory are created there, and the way of any other leads where it leads. -/

namespace Bxxt.Proofs
open Bxxt ByteLayout DirTree

section Calls
variable {d after : Disk} {base place : DiskPlace} {path : DiskPath} {object : DiskObject}

theorem find_put (other : DiskPlace) : (d.put place object).find other =
    if other = [] then some .dir else if other = place then some object else d.find other := by
  unfold Disk.find Disk.put
  by_cases top : other = []
  · rw [if_pos top, if_pos top]
  · rw [if_neg top, if_neg top, if_neg top]
    by_cases same : other = place
    · subst same
      simp
    · rw [if_neg same]
      dsimp only
      rw [List.find?_cons_of_neg (by simpa using Ne.symm same), List.find?_filter]
      congr 2
      funext item
      by_cases here : item.1 = other
      · simp [here, same]
      · simp [here]

theorem find_remove (other : DiskPlace) : (d.remove place).find other =
    if other = [] then some .dir else if other = place then none else d.find other := by
  unfold Disk.find Disk.remove
  by_cases top : other = []
  · rw [if_pos top, if_pos top]
  · rw [if_neg top, if_neg top, if_neg top]
    by_cases same : other = place
    · subst same
      simp
    · rw [if_neg same, List.find?_filter]
      congr 2
      funext item
      by_cases here : item.1 = other
      · simp [here, same]
      · simp [here]

theorem find_top (d : Disk) : d.find [] = some .dir := if_pos rfl

theorem remove_extends : SubTree (d.remove place).find d.find := by
  intro other object found
  rw [find_remove] at found
  split at found
  next top =>
    rw [top, find_top]
    exact found
  next =>
    split at found
    next => cases found
    next => exact found

theorem put_grows (missing : d.find place = none) : Grows d.find (d.put place .dir).find := by
  constructor
  · intro other object found
    rw [find_put]
    split
    next top =>
      rw [top, find_top] at found
      exact found
    next =>
      split
      next same =>
        rw [same, missing] at found
        cases found
      next => exact found
  · intro other none
    rw [find_put]
    split
    next => exact Or.inr rfl
    next =>
      split
      next => exact Or.inr rfl
      next => exact Or.inl none

theorem resolve_iff : d.resolve base path = .ok place ↔ walk d.find Disk.maxLinks base path = .ok place := by
  unfold Disk.resolve
  cases walk d.find Disk.maxLinks base path with
  | error failure => constructor <;> rintro ⟨⟩
  | ok found => exact ⟨fun same => congrArg _ (Except.ok.inj same), fun same => congrArg _ (Except.ok.inj same)⟩

/-- The last name of a path, in the directory that the others lead to. -/
theorem locate_some (located : d.locate base path = .ok (some place)) :
    ∃ front name next, path = front ++ [.name name] ∧
    walk d.find Disk.maxLinks base front = .ok next ∧ place = next ++ [name] := by
  unfold Disk.locate at located
  split at located
  next => cases located
  next part last =>
    obtain ⟨front, rfl⟩ := List.getLast?_eq_some_iff.mp last
    rw [List.dropLast_concat] at located
    cases resolved : d.resolve base front with
    | error failure =>
      rw [resolved] at located
      cases located
    | ok next =>
      rw [resolved] at located
      change (if isDir d.find next = true then _ else _) = _ at located
      split at located
      next =>
        split at located
        next name =>
          cases located
          exact ⟨front, name, next, rfl, resolve_iff.mp resolved, rfl⟩
        next => cases located
        next => cases located
      next => cases located

theorem create_ok (created : d.create path object = .ok (place, after)) :
    d.locate [] path = .ok (some place) ∧ d.find place = none ∧ after = d.put place object := by
  unfold Disk.create at created
  cases located : d.locate [] path with
  | error failure =>
    rw [located] at created
    cases created
  | ok found =>
    rw [located] at created
    cases found with
    | none => cases created
    | some found =>
      change (if (d.find found).isSome = true then _ else _) = _ at created
      split at created
      next => cases created
      next missing =>
        cases created
        exact ⟨rfl, Option.not_isSome_iff_eq_none.mp missing, rfl⟩

end Calls
section Inside
variable {root : DiskPlace} {d : Disk} {grown : DiskPlace → Option DiskObject}

/-- Wherever the directories of a path lead, also through links, is in the root. Where there is no
directory yet, one would be made there. -/
def StaysIn (root : DiskPlace) (d : Disk) (path : DiskPath) : Prop :=
  ∀ front, front <+: path.dropLast → ∃ place, way d.find Disk.maxLinks root front = some place ∧ root <+: place

/-- The root is where its path says: no link and nothing missing is on the way to it. -/
def Real (root : DiskPlace) (d : Disk) : Prop := ∀ front, front <+: root → d.find front = some .dir

theorem StaysIn.front {names front : DiskPath} (stays : StaysIn root d names) (inside : front <+: names) :
    StaysIn root d front := by
  intro other before
  obtain ⟨rest, rfl⟩ := inside
  rcases List.eq_nil_or_concat' rest with rfl | ⟨rest, part, rfl⟩
  · rw [List.append_nil] at stays
    exact stays other before
  · refine stays other (before.trans ((List.dropLast_prefix front).trans ?_))
    rw [← List.append_assoc, List.dropLast_concat]
    exact List.prefix_append front rest

theorem walk_real (real : Real root d) (grows : Grows d.find grown) {front : DiskPlace} (inside : front <+: root) :
    walk grown Disk.maxLinks [] (front.map .name) = .ok front := by
  have walked := @walk_names _ _ grown Disk.maxLinks [] front fun other before => by
    exact grows.keeps _ _ (real _ (before.trans inside))
  rwa [List.nil_append] at walked

/-- Whatever is named by the path of an entry on the way is in the root. -/
theorem place_inside (real : Real root d) {names : DiskPath} (stays : StaysIn root d names) (grows : Grows d.find grown)
    {now : Disk} (below : SubTree now.find grown) {place : DiskPlace}
    (located : now.locate [] (root.map .name ++ names) = .ok (some place)) : root <+: place := by
  obtain ⟨front, name, next, shape, walked, rfl⟩ := locate_some located
  have walked := walk_mono below (Nat.le_refl _) walked
  rcases List.eq_nil_or_concat' names with rfl | ⟨names, part, rfl⟩
  · rw [List.append_nil] at shape
    obtain ⟨above, last, rfl, rfl, same⟩ := List.map_eq_append_iff.mp shape
    obtain ⟨_, rfl, ⟨⟩⟩ := List.map_eq_singleton_iff.mp same
    have reached := walk_real real grows (List.prefix_append above _)
    cases walked.symm.trans reached
    exact List.prefix_refl _
  · rw [← List.append_assoc] at shape
    obtain ⟨rfl, ⟨⟩⟩ := List.append_inj' shape rfl
    obtain ⟨middle, first, second⟩ := walk_append walked
    cases first.symm.trans (walk_real real grows (List.prefix_refl root))
    obtain ⟨goal, goes, inside⟩ := stays names (by rw [List.dropLast_concat])
    rw [way_of_walk second (way_grows grows goes)]
    exact inside.trans (List.prefix_append goal _)

end Inside
section Directories
variable {root : DiskPlace} {d : Disk} {a : WriteDisk}

structure OnlyGrown (root : DiskPlace) (d : Disk) (a : WriteDisk) : Prop where
  grows : Grows d.find a.disk.find
  cwd : a.disk.cwd = d.cwd
  inside : ∀ event ∈ a.made, root <+: event.place

theorem stat_iff {path : DiskPath} {object : DiskObject} : a.disk.stat path = .ok object ↔
    ∃ place, walk a.disk.find Disk.maxLinks [] path = .ok place ∧ a.disk.find place = some object := by
  have there (place : DiskPlace) : a.disk.object place = .ok object ↔ a.disk.find place = some object := by
    unfold Disk.object
    cases a.disk.find place with
    | none => constructor <;> rintro ⟨⟩
    | some other => exact ⟨fun same => congrArg some (Except.ok.inj same),
        fun same => congrArg _ (Option.some.inj same)⟩
  unfold Disk.stat
  cases resolved : a.disk.resolve [] path with
  | error failure =>
    constructor
    · rintro ⟨⟩
    · rintro ⟨place, walked, _⟩
      rw [resolve_iff.mpr walked] at resolved
      cases resolved
  | ok place =>
    constructor
    · intro found
      exact ⟨place, resolve_iff.mp resolved, (there place).mp found⟩
    · rintro ⟨other, walked, found⟩
      cases (resolve_iff.mpr walked).symm.trans resolved
      exact (there place).mpr found

theorem OnlyGrown.creates (growing : OnlyGrown root d a) {path : DiskPath} {made : DiskPlace × Disk}
    (created : a.disk.create path .dir = .ok made) (inside : root <+: made.1) : OnlyGrown root d (a.creates made) := by
  obtain ⟨place, after⟩ := made
  obtain ⟨_, missing, rfl⟩ := create_ok created
  constructor
  · exact growing.grows.trans (put_grows missing)
  · exact growing.cwd
  · intro event member
    rcases List.mem_append.mp member with before | new
    · exact growing.inside event before
    · rw [List.mem_singleton.mp new]
      exact inside

theorem makeDir_growing {path : DiskPath} (growing : OnlyGrown root d a)
    (inside : ∀ place, a.disk.locate [] path = .ok (some place) → root <+: place) :
    OnlyGrown root d (a.makeDir path).2 := by
  unfold WriteDisk.makeDir
  split
  next made created => exact growing.creates created (inside _ (create_ok created).1)
  next => split <;> exact growing

theorem createDir_there {name : Bytes} {rest : DiskPath} (there : a.disk.stat (.name name :: rest).reverse = .ok .dir) :
    a.createDir (.name name :: rest) = (archiveOk, a) := by
  rw [WriteDisk.createDir]
  dsimp only
  rw [there]

theorem createDir_real (real : Real root d) (growing : OnlyGrown root d a) {front : DiskPlace}
    (inside : front <+: root) :
    a.createDir (front.map PathPart.name).reverse = (archiveOk, a) := by
  have there : a.disk.stat (front.map PathPart.name) = .ok .dir :=
    stat_iff.mpr ⟨front, walk_real real growing.grows inside, growing.grows.keeps _ _ (real front inside)⟩
  rcases List.eq_nil_or_concat' front with rfl | ⟨above, name, rfl⟩
  · rfl
  · have shape : ((above ++ [name]).map PathPart.name).reverse = .name name :: (above.map PathPart.name).reverse := by
      rw [List.map_append, List.reverse_append]
      rfl
    rw [shape, createDir_there]
    rw [← shape, List.reverse_reverse]
    exact there

/-- Making the directories of a path adds directories in the root, and no file is in their way. -/
theorem createDir_growing (real : Real root d) {front : DiskPath}
    (stays : ∀ other, other <+: front → ∃ place, way d.find Disk.maxLinks root other = some place ∧
      root <+: place)
    (growing : OnlyGrown root d a) : OnlyGrown root d (a.createDir (root.map PathPart.name ++ front).reverse).2 := by
  induction front using List.reverseRecOn generalizing a with
  | nil =>
    rw [List.append_nil, createDir_real real growing (List.prefix_refl root)]
    exact growing
  | append_singleton front part ih =>
    have before := fun other inside => stays other (List.IsPrefix.trans inside (List.prefix_append front [part]))
    rw [← List.append_assoc, List.reverse_append, List.reverse_singleton, List.singleton_append]
    cases part with
    | here => exact ih before growing
    | up => exact ih before growing
    | name name =>
      rw [WriteDisk.createDir]
      have shape : (.name name :: (root.map PathPart.name ++ front).reverse).reverse = root.map .name ++
          (front ++ [.name name]) := by
        rw [List.reverse_cons, List.reverse_reverse, List.append_assoc]
      dsimp only
      rw [shape]
      have own : StaysIn root d (front ++ [.name name]) := by
        intro other inside
        rw [List.dropLast_concat] at inside
        exact before other inside
      have made {a : WriteDisk} (growing : OnlyGrown root d a) :
        OnlyGrown root d (a.makeDir (root.map .name ++ (front ++ [.name name]))).2 :=
        makeDir_growing growing fun place located => place_inside real own growing.grows (.refl _) located
      split
      next => exact growing
      next object notDir found =>
        -- the way of the path ends at a directory
        obtain ⟨place, walked, there⟩ := stat_iff.mp found
        obtain ⟨middle, first, second⟩ := walk_append walked
        cases first.symm.trans (walk_real real growing.grows (List.prefix_refl root))
        obtain ⟨goal, goes, _⟩ := stays _ (List.prefix_refl _)
        have goes := way_grows growing.grows goes
        obtain rfl := way_of_walk second goes
        rcases way_name goes with none | dir
        · cases there.symm.trans none
        · cases there.symm.trans dir
          exact absurd rfl notDir
      next =>
        split
        next => exact ih before growing
        next => exact made (ih before growing)
      next =>
        split
        next => exact ih before growing
        next => exact made (ih before growing)
      next => exact growing

end Directories
section Objects
variable {root : DiskPlace} {d : Disk} {a : WriteDisk} {e : ReadEntry} {names : DiskPath}

/-- The invariant while an entry is written: the disk has more directories than before and perhaps
less of the rest, because what is in the way is removed, and all that was done is in the root. -/
structure Within (root : DiskPlace) (d : Disk) (a : WriteDisk) : Prop where
  below : ∃ grown, Grows d.find grown ∧ SubTree a.disk.find grown
  cwd : a.disk.cwd = d.cwd
  inside : ∀ event ∈ a.made, root <+: event.place

theorem OnlyGrown.within (growing : OnlyGrown root d a) : Within root d a :=
  ⟨⟨a.disk.find, growing.grows, .refl _⟩, growing.cwd, growing.inside⟩

theorem Within.smaller (within : Within root d a) {disk : Disk} (extends_ : SubTree disk.find a.disk.find)
    (cwd : disk.cwd = a.disk.cwd) : Within root d { a with disk } := by
  obtain ⟨grown, grows, below⟩ := within.below
  exact ⟨⟨grown, grows, fun place object found => below _ _ (extends_ _ _ found)⟩,
    cwd.trans within.cwd, within.inside⟩

def linkBase (d : Disk) (linkname : Bytes) : DiskPlace := if isAbsolute linkname then [] else d.cwd

/-- The file that a hard link shares its data with is in the root, if it is written. It is no symbolic link,
which would be removed. -/
structure LinkedIn (root : DiskPlace) (d : Disk) (e : ReadEntry) : Prop where
  written : ∀ linkname, e.hardlink = some linkname → e.size = 0 ∨ ∃ place,
    way d.find Disk.maxLinks (linkBase d linkname) (partsOf linkname).dropLast = some place ∧ root <+: place
  kept : ∀ linkname after, e.hardlink = some linkname →
    WriteDisk.checkSymlinks d (linkBase d linkname) (cleanupPathname (partsOf linkname)) = .ok after → after = d

theorem checkSymlinks_extends {before after : Disk} {base : DiskPlace} {path : DiskPath}
    (checked : WriteDisk.checkSymlinks before base path = .ok after) :
    SubTree after.find before.find ∧ after.cwd = before.cwd := by
  induction path generalizing base with
  | nil =>
    cases checked
    exact ⟨.refl _, rfl⟩
  | cons part rest ih =>
    cases part with
    | here => exact ih checked
    | up => exact ih checked
    | name name =>
      rw [WriteDisk.checkSymlinks] at checked
      split at checked
      next =>
        cases checked
        exact ⟨.refl _, rfl⟩
      next => exact ih checked
      next =>
        split at checked
        next =>
          cases checked
          exact ⟨.refl _, rfl⟩
        next => cases checked
      next =>
        split at checked
        next =>
          cases checked
          exact ⟨remove_extends, rfl⟩
        next =>
          split at checked
          next =>
            cases checked
            exact ⟨.refl _, rfl⟩
          next => cases checked
          next =>
            split at checked
            next => exact ih checked
            next => cases checked

theorem Within.place_inside (within : Within root d a) (real : Real root d) (stays : StaysIn root d names)
    {place : DiskPlace} (located : a.disk.locate [] (root.map .name ++ names) = .ok (some place)) : root <+: place := by
  obtain ⟨grown, grows, below⟩ := within.below
  exact Proofs.place_inside real stays grows below located

theorem link_ok {disk after : Disk} {linkname : Bytes} {path : DiskPath} {source place : DiskPlace}
    (linked : disk.link linkname path = .ok (source, place, after)) :
    disk.locate (if isAbsolute linkname then [] else disk.cwd) (partsOf linkname) = .ok (some source) ∧
      disk.locate [] path = .ok (some place) := by
  unfold Disk.link at linked
  cases located : disk.locate (if isAbsolute linkname then [] else disk.cwd) (partsOf linkname) with
  | error failure =>
    rw [located] at linked
    cases linked
  | ok found =>
    rw [located] at linked
    dsimp only [bind, Except.bind] at linked
    cases found with
    | none =>
      dsimp only at linked
      split at linked <;> cases linked
    | some found =>
      dsimp only at linked
      split at linked
      next => cases linked
      next object _ =>
        split at linked
        next => cases linked
        next made created =>
          split at linked
          next => cases linked
          next =>
            cases linked
            exact ⟨rfl, (create_ok created).1⟩

/-- A hard link is created in the root, and writes to a file that is. -/
theorem createHardlink_inside (within : Within root d a) (real : Real root d) (stays : StaysIn root d names)
    {linkname : Bytes}
    {size : Nat} (linked : size = 0 ∨ ∃ place, way d.find Disk.maxLinks (linkBase d linkname)
      (partsOf linkname).dropLast = some place ∧
      root <+: place) : ∀ event ∈ (a.createHardlink linkname size (root.map .name ++ names)).2.made,
        root <+: event.place := by
  unfold WriteDisk.createHardlink
  split
  next => exact within.inside
  next =>
    split
    next => exact within.inside
    next disk checked =>
      obtain ⟨extends_, cwd⟩ := checkSymlinks_extends checked
      have within := within.smaller extends_ cwd
      dsimp only
      split
      next => exact within.inside
      next source place after made =>
        obtain ⟨sourceLocated, located⟩ := link_ok made
        have inside := within.place_inside real stays located
        have both : ∀ event ∈ a.made ++ [.created place], root <+: event.place := by
          intro event member
          rcases List.mem_append.mp member with before | new
          · exact within.inside event before
          · rw [List.mem_singleton.mp new]
            exact inside
        split
        next ino there =>
          split
          next => exact both
          next some =>
            intro event member
            rcases List.mem_append.mp member with before | new
            · exact both event before
            · rw [List.mem_singleton.mp new]
              obtain ⟨goal, goes, inRoot⟩ := linked.resolve_left some
              obtain ⟨front, name, next, shape, walked, rfl⟩ := locate_some sourceLocated
              obtain ⟨grown, grows, below⟩ := within.below
              have base : disk.cwd = d.cwd := within.cwd
              rw [shape, List.dropLast_concat, linkBase, ← base] at goes
              obtain rfl := way_of_walk (walk_mono below (Nat.le_refl _) walked) (way_grows grows goes)
              exact inRoot.trans (List.prefix_append next [name])
        next => exact both

theorem openExcl_ok {disk : Disk} {path : DiskPath} {made : DiskPlace × Disk}
    (opened : disk.openExcl path = .ok made) :
    disk.locate [] path = .ok (some made.1) := by
  unfold Disk.openExcl at opened
  cases created : disk.create path (.leaf (.regular disk.inodes)) with
  | error failure =>
    rw [created] at opened
    cases opened
  | ok result =>
    rw [created] at opened
    cases opened
    exact (create_ok created).1

theorem symlink_ok {disk : Disk} {path : DiskPath} {target : Bytes} {made : DiskPlace × Disk}
    (linked : disk.symlink target path = .ok made) : disk.locate [] path = .ok (some made.1) := by
  unfold Disk.symlink at linked
  split at linked
  next => cases linked
  next => exact (create_ok linked).1

theorem createObject_inside (within : Within root d a) (real : Real root d) (stays : StaysIn root d names)
    (linked : LinkedIn root d e) {result : Option Errno × WriteDisk}
    (run : a.createFilesystemObject e (root.map .name ++ names) = result) : ∀ event ∈ result.2.made,
    root <+: event.place := by
  subst run
  unfold WriteDisk.createFilesystemObject
  split
  next linkname hardlink => exact createHardlink_inside within real stays (linked.written linkname hardlink)
  next =>
    dsimp only
    split
    next => exact within.inside
    next made created =>
      have located : a.disk.locate [] (root.map .name ++ names) = .ok (some made.1) := by
        split at created
        next => exact symlink_ok created
        next => exact (create_ok created).1
        next => exact (create_ok created).1
        next => exact openExcl_ok created
      intro event member
      rcases List.mem_append.mp member with before | new
      · exact within.inside event before
      · rw [List.mem_singleton.mp new]
        exact within.place_inside real stays located

/-- Where nothing came to be, a link may be gone that a hard link has named. -/
theorem createObject_failed {path : DiskPath} {en : Errno} {after : WriteDisk}
    (run : a.createFilesystemObject e path = (some en, after)) : after = a ∨
    ∃ linkname disk, e.hardlink = some linkname ∧
      WriteDisk.checkSymlinks a.disk (linkBase a.disk linkname) (cleanupPathname (partsOf linkname)) = .ok disk ∧
        after = { a with disk } := by
  unfold WriteDisk.createFilesystemObject at run
  split at run
  next linkname hardlink =>
    unfold WriteDisk.createHardlink at run
    split at run
    next =>
      cases run
      exact Or.inl rfl
    next =>
      split at run
      next =>
        cases run
        exact Or.inl rfl
      next disk checked =>
        dsimp only at run
        split at run
        next =>
          cases run
          exact Or.inr ⟨linkname, disk, hardlink, checked, rfl⟩
        next =>
          split at run
          next => split at run <;> cases run
          next => cases run
  next =>
    dsimp only at run
    split at run
    next =>
      cases run
      exact Or.inl rfl
    next => cases run

theorem Within.failed (within : Within root d a) {path : DiskPath} {en : Errno} {after : WriteDisk}
    (run : a.createFilesystemObject e path = (some en, after)) : Within root d after := by
  rcases createObject_failed run with rfl | ⟨linkname, disk, _, checked, rfl⟩
  · exact within
  · obtain ⟨extends_, cwd⟩ := checkSymlinks_extends checked
    exact within.smaller extends_ cwd

end Objects
section Entries
variable {root : DiskPlace} {d : Disk} {a : WriteDisk} {e : ReadEntry} {names : DiskPath}

theorem unlink_extends {disk after : Disk} {path : DiskPath} (unlinked : disk.unlink path = .ok after) :
    SubTree after.find disk.find ∧ after.cwd = disk.cwd := by
  unfold Disk.unlink at unlinked
  cases located : disk.locate [] path with
  | error failure =>
    rw [located] at unlinked
    cases unlinked
  | ok found =>
    rw [located] at unlinked
    cases found with
    | none => cases unlinked
    | some place =>
      dsimp only [bind, Except.bind] at unlinked
      split at unlinked
      next => cases unlinked
      next => cases unlinked
      next =>
        cases unlinked
        exact ⟨remove_extends, rfl⟩

theorem rmdir_extends {disk after : Disk} {path : DiskPath} (removed : disk.rmdir path = .ok after) :
    SubTree after.find disk.find ∧ after.cwd = disk.cwd := by
  unfold Disk.rmdir at removed
  cases located : disk.locate [] path with
  | error failure =>
    rw [located] at removed
    cases removed
  | ok found =>
    rw [located] at removed
    cases found with
    | none => cases removed
    | some place =>
      dsimp only [bind, Except.bind] at removed
      split at removed
      next => cases removed
      next =>
        split at removed
        next =>
          cases removed
          exact ⟨remove_extends, rfl⟩
        next => cases removed
      next => cases removed

theorem replaceWith_inside (within : Within root d a) (real : Real root d) (stays : StaysIn root d names)
    (linked : LinkedIn root d e) {removed : Except Errno Disk}
    (smaller : ∀ disk, removed = .ok disk → SubTree disk.find a.disk.find ∧ disk.cwd = a.disk.cwd) :
    ∀ event ∈ (a.replaceWith e (root.map .name ++ names) removed).2.made, root <+: event.place := by
  unfold WriteDisk.replaceWith
  split
  next => exact within.inside
  next disk =>
    obtain ⟨extends_, cwd⟩ := smaller disk rfl
    have within := within.smaller extends_ cwd
    split
    next made => exact createObject_inside within real stays linked made
    next made => exact createObject_inside within real stays linked made

theorem createParentDir_growing (growing : OnlyGrown root d a) (real : Real root d) (stays : StaysIn root d names) :
    OnlyGrown root d (a.createParentDir (root.map .name ++ names)) := by
  unfold WriteDisk.createParentDir
  rw [List.tail_reverse]
  rcases List.eq_nil_or_concat' names with rfl | ⟨front, part, rfl⟩
  · rw [List.append_nil, ← List.map_dropLast, createDir_real real growing (List.dropLast_prefix root)]
    exact growing
  · rw [← List.append_assoc, List.dropLast_concat]
    refine createDir_growing real (fun other inside => ?_) growing
    exact stays other (by rwa [List.dropLast_concat])

theorem createWithParent_inside (growing : OnlyGrown root d a) (start : a.disk = d) (real : Real root d)
    (stays : StaysIn root d names) (linked : LinkedIn root d e) {en : Option Errno} {after : WriteDisk}
    (run : a.createWithParent e (root.map .name ++ names) = (en, after)) :
    (∀ event ∈ after.made, root <+: event.place) ∧ (en ≠ none → Within root d after) := by
  unfold WriteDisk.createWithParent at run
  rcases first : a.createFilesystemObject e (root.map .name ++ names) with ⟨firstEn, middle⟩
  rw [first] at run
  dsimp only at run
  split at run
  next again =>
    -- only a first try that has kept the disk as it was is followed by another one
    obtain ⟨failure, failed⟩ : ∃ failure, firstEn = some failure := by
      rcases again with same | same <;> exact ⟨_, same⟩
    subst failed
    have same : middle = a := by
      rcases createObject_failed first with same | ⟨linkname, disk, hardlink, checked, same⟩
      · exact same
      · rw [start] at checked
        rw [same, linked.kept linkname disk hardlink checked, ← start]
    subst same
    have growing := createParentDir_growing growing real stays
    refine ⟨createObject_inside growing.within real stays linked run, fun failed => ?_⟩
    obtain ⟨failure, rfl⟩ := Option.ne_none_iff_exists'.mp failed
    exact growing.within.failed run
  next =>
    cases run
    refine ⟨createObject_inside growing.within real stays linked first, fun failed => ?_⟩
    obtain ⟨failure, rfl⟩ := Option.ne_none_iff_exists'.mp failed
    exact growing.within.failed first

theorem restoreEntry_inside (start : a.disk = d) (sound : ∀ event ∈ a.made, root <+: event.place)
    (real : Real root d) (stays : StaysIn root d names) (linked : LinkedIn root d e) :
    ∀ event ∈ (a.restoreEntry e (root.map .name ++ names)).2.made, root <+: event.place := by
  have growing : OnlyGrown root d a := ⟨start ▸ .refl _, by rw [start], sound⟩
  unfold WriteDisk.restoreEntry
  split
  next after run => exact (createWithParent_inside growing start real stays linked run).1
  next after run =>
    have within := (createWithParent_inside growing start real stays linked run).2 (by simp)
    exact replaceWith_inside within real stays linked fun _ => rmdir_extends
  next after run =>
    have within := (createWithParent_inside growing start real stays linked run).2 (by simp)
    split
    next => exact within.inside
    next =>
      split
      next => exact within.inside
      next => exact replaceWith_inside within real stays linked fun _ => rmdir_extends
    next => exact replaceWith_inside within real stays linked fun _ => unlink_extends
  next after _ _ run => exact (createWithParent_inside growing start real stays linked run).1

theorem cleanupPathname_root (path : DiskPath) :
    cleanupPathname (root.map .name ++ path) = root.map .name ++ cleanupPathname path := by
  unfold cleanupPathname
  rw [List.filter_append]
  congr 1
  apply List.filter_eq_self.mpr
  intro part member
  obtain ⟨name, _, rfl⟩ := List.mem_map.mp member
  rfl

theorem writeHeader_inside {path : DiskPath} (sound : ∀ event ∈ a.made, root <+: event.place)
    (real : Real root a.disk) (stays : StaysIn root a.disk (cleanupPathname path)) (linked : LinkedIn root a.disk e) :
    ∀ event ∈ (a.writeHeader e (root.map .name ++ path)).made, root <+: event.place := by
  unfold WriteDisk.writeHeader
  split
  next => exact sound
  next =>
    rw [cleanupPathname_root]
    have restored := @restoreEntry_inside root a.disk { a with fd := none, offset := 0, filesize := e.size } e _ rfl
      sound real stays linked
    dsimp only
    split
    next =>
      split
      next => exact restored
      next => exact restored
    next =>
      split
      next => exact restored
      next => exact restored

theorem writeDataBlock_made (buff : Bytes) : (a.writeDataBlock buff).2.made = a.made := by
  unfold WriteDisk.writeDataBlock
  split
  next => rfl
  next => split <;> rfl

theorem writeBlocks_made (blocks : List Bytes) : (a.writeBlocks blocks).made = a.made := by
  induction blocks generalizing a with
  | nil => rfl
  | cons buff rest ih =>
    rw [WriteDisk.writeBlocks]
    dsimp only
    split
    next => exact writeDataBlock_made buff
    next => exact ih.trans (writeDataBlock_made buff)

theorem finishEntry_made : a.finishEntry.made = a.made := by
  unfold WriteDisk.finishEntry
  split <;> rfl

end Entries
section Runs
variable {root : DiskPlace}

/-- An entry that stays inside, as the disk is when it comes: its directories are in the root or are
made there, and so is the file that a hard link of it writes to. -/
structure Clear (root : DiskPlace) (d : Disk) (e : ReadEntry) : Prop where
  real : Real root d
  stays : ∀ pathname, e.pathname = some pathname → StaysIn root d (cleanupPathname (partsOf pathname))
  linked : LinkedIn root d e

/-- One entry: what it creates and overwrites is in the root. -/
theorem readEntry_inside {a after : WriteDisk} {e : ReadEntry} {r : Int} (clear : Clear root a.disk e)
    (sound : ∀ event ∈ a.made, root <+: event.place) (run : bxxtCpioArchiveReadEntry root a e = .ok (r, after)) :
    ∀ event ∈ after.made, root <+: event.place := by
  unfold bxxtCpioArchiveReadEntry at run
  cases named : e.pathname with
  | none =>
    rw [named] at run
    cases run
    exact sound
  | some pathname =>
    rw [named] at run
    dsimp only at run
    split at run
    next => cases run
    next =>
      cases run
      rw [finishEntry_made, writeBlocks_made]
      exact writeHeader_inside sound clear.real (clear.stays pathname named) clear.linked

/-- All entries, by induction on the headers. -/
theorem readEntries_inside (headers : List CpioHeader) (links : List LinksEntry) (a : WriteDisk)
    (clear : ∀ step ∈ readSteps root links a headers, Clear root step.1 step.2)
    (sound : ∀ event ∈ a.made, root <+: event.place) :
    ∀ event ∈ (readEntries root links a headers).1.made, root <+: event.place := by
  induction headers generalizing links a with
  | nil => exact sound
  | cons h rest ih =>
    unfold readSteps at clear
    unfold readEntries
    cases recorded : recordHardlink links h with
    | error fault => exact sound
    | ok record =>
      rw [recorded] at clear
      dsimp only at clear ⊢
      have own := clear _ List.mem_cons_self
      cases read : bxxtCpioArchiveReadEntry root a (h.entry record.1) with
      | error fault => exact sound
      | ok result =>
        rw [read] at clear
        dsimp only at clear ⊢
        have made := readEntry_inside own sound read
        split
        next => exact made
        next good =>
          rw [if_neg good] at clear
          exact ih _ _ (fun step member => clear step (List.mem_cons_of_mem _ member)) made

end Runs

/-- A run whose entries all stay inside creates and overwrites nothing that is not in the directory. -/
theorem extracted_inside_when_clear (disk : Disk) (path : Bytes) (headers : List CpioHeader) (root : DiskPlace)
    (resolved : disk.realpath path = some root)
    (clear : ∀ step ∈ readSteps root [] (newWriteDisk disk) headers, Clear root step.1 step.2) :
    ∀ event ∈ (bxxtCpioArchiveIn disk path headers).1.made, root <+: event.place := by
  unfold bxxtCpioArchiveIn
  rw [resolved]
  refine readEntries_inside headers [] (newWriteDisk disk) clear ?_
  rintro event ⟨⟩

def workDisk : Disk := ⟨[([ascii "out"], .dir)], fun _ => [], 0, []⟩

def plainHeader (name : String) : CpioHeader := ⟨some (ascii name), .regular, [], 0, 1, 1, 0, []⟩

/-- An entry without a hard link whose directories are all in the root is clear. -/
def insideEntry (root : DiskPlace) (d : Disk) (e : ReadEntry) : Bool :=
  (root.inits.all fun front => d.find front = some .dir) && e.hardlink.isNone &&
    (e.pathname.all fun pathname => (cleanupPathname (partsOf pathname)).dropLast.inits.all fun front =>
      (way d.find Disk.maxLinks root front).any root.isPrefixOf)

theorem clear_of_inside {root : DiskPlace} {d : Disk} {e : ReadEntry} (inside : insideEntry root d e = true) :
    Clear root d e := by
  simp only [insideEntry, Bool.and_eq_true, List.all_eq_true, List.mem_inits, decide_eq_true_eq,
    Option.isNone_iff_eq_none, Option.all_eq_true, Option.any_eq_true, List.isPrefixOf_iff_prefix] at inside
  obtain ⟨⟨real, single⟩, stays⟩ := inside
  refine ⟨real, fun pathname named front within => ?_, ⟨?_, ?_⟩⟩
  · obtain ⟨place, leads, below⟩ := stays pathname named front within
    exact ⟨place, leads, below⟩
  · intro linkname hardlink
    cases single.symm.trans hardlink
  · intro linkname after hardlink
    cases single.symm.trans hardlink

/-- A directory, a file in it, a link to the directory, and a file through the link. -/
def linkedHeaders : List CpioHeader :=
  [⟨some (ascii "bin"), .directory, [], 0, 1, 2, 0, []⟩,
    ⟨some (ascii "bin/init"), .regular, [], 0, 2, 1, 2, [[35, 33]]⟩,
    ⟨some (ascii "sbin"), .symlink, ascii "bin", 0, 3, 1, 0, []⟩, plainHeader "sbin/sh"]

theorem linked_inside :
    (bxxtCpioArchiveIn workDisk (ascii "out") linkedHeaders).1.made =
      [.created [ascii "out", ascii "bin"], .created [ascii "out", ascii "bin", ascii "init"],
        .created [ascii "out", ascii "sbin"], .created [ascii "out", ascii "bin", ascii "sh"]] ∧
    ∀ event ∈ (bxxtCpioArchiveIn workDisk (ascii "out") linkedHeaders).1.made, [ascii "out"] <+: event.place := by
  refine ⟨by decide +kernel, extracted_inside_when_clear workDisk (ascii "out") linkedHeaders
    [ascii "out"] (by decide) ?_⟩
  intro step member
  refine clear_of_inside ?_
  revert step member
  decide +kernel

/-- A name with a step up leads out of the directory. -/
theorem step_up_outside : workDisk.realpath (ascii "out") = some [ascii "out"] ∧
    .created [ascii "init"] ∈ (bxxtCpioArchiveIn workDisk (ascii "out") [plainHeader "../init"]).1.made ∧
    ¬ [ascii "out"] <+: (DiskEvent.created [ascii "init"]).place := by
  decide

end Bxxt.Proofs
