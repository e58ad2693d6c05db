import Bxxt.Proofs.ExtractedInside

/-! What one entry of a ramdisk becomes in a directory whose other objects are not in its way. The
directories of its path are made where they are missing, and then the object itself. -/

namespace Bxxt.Proofs
open Bxxt ByteLayout DirTree

abbrev namesPath (place : DiskPlace) : DiskPath := place.map PathPart.name

section Calls
variable {d : Disk} {there missing parent place : DiskPlace} {name : Bytes}

theorem namesPath_concat (parent : DiskPlace) (name : Bytes) :
    namesPath (parent ++ [name]) = namesPath parent ++ [.name name] :=
  List.map_append

theorem stat_names (dirs : ∀ front, front <+: place → d.find front = some .dir) :
    d.stat (namesPath place) = .ok .dir := by
  have walked : d.resolve [] (namesPath place) = .ok place := resolve_iff.mpr (walk_names dirs)
  rw [Disk.stat, walked]
  change d.object place = _
  rw [Disk.object, dirs place (List.prefix_refl _)]

theorem resolve_missing (reaches : Descends d.find there missing) (some : missing ≠ []) :
    d.resolve [] (namesPath (there ++ missing)) = .error .enoent := by
  rw [Disk.resolve, reaches.walk_missing some]
  rfl

theorem stat_missing (reaches : Descends d.find there missing) (some : missing ≠ []) :
    d.stat (namesPath (there ++ missing)) = .error .enoent := by
  rw [Disk.stat, resolve_missing reaches some]
  rfl

theorem locate_names (dirs : ∀ front, front <+: parent → d.find front = some .dir) :
    d.locate [] (namesPath (parent ++ [name])) = .ok (some (parent ++ [name])) := by
  have walked : d.resolve [] (namesPath parent) = .ok parent := resolve_iff.mpr (walk_names dirs)
  rw [Disk.locate, namesPath_concat, List.getLast?_concat]
  dsimp only
  rw [List.dropLast_concat, walked]
  change (if isDir d.find parent = true then _ else _) = _
  rw [if_pos (isDir_iff.mpr (dirs parent (List.prefix_refl _)))]

theorem locate_missing (reaches : Descends d.find there missing) (some : missing ≠ []) :
    d.locate [] (namesPath (there ++ missing ++ [name])) = .error .enoent := by
  rw [Disk.locate, namesPath_concat, List.getLast?_concat]
  dsimp only
  rw [List.dropLast_concat, resolve_missing reaches some]
  rfl

theorem create_names {object : DiskObject} (dirs : ∀ front, front <+: parent → d.find front = some .dir) :
    d.create (namesPath (parent ++ [name])) object =
      if (d.find (parent ++ [name])).isSome then .error .eexist
        else .ok (parent ++ [name], d.put (parent ++ [name]) object) := by
  rw [Disk.create, locate_names dirs]
  rfl

theorem create_missing {object : DiskObject} (reaches : Descends d.find there missing) (some : missing ≠ []) :
    d.create (namesPath (there ++ missing ++ [name])) object = .error .enoent := by
  rw [Disk.create, locate_missing reaches some]
  rfl

theorem create_there {object : DiskObject} (dirs : ∀ front, front <+: place → d.find front = some .dir) :
    d.create (namesPath place) object = .error .eexist := by
  rcases List.eq_nil_or_concat' place with rfl | ⟨parent, name, rfl⟩
  · rfl
  · rw [create_names fun front inside => dirs front (inside.trans (List.prefix_append parent [name])),
      dirs _ (List.prefix_refl _)]
    rfl

end Calls

section Directories
variable {a : WriteDisk} {there missing : DiskPlace}

def withObjects (a : WriteDisk) (objects : List (DiskPlace × DiskObject)) (made : List DiskEvent) : WriteDisk :=
  { a with disk := { a.disk with objects }, made }

theorem createDir_names (reaches : Descends a.disk.find there missing) : ∃ objects made,
    a.createDir (namesPath (there ++ missing)).reverse = (archiveOk, withObjects a objects made) ∧
      (withObjects a objects made).disk.find = withDirs a.disk.find (there ++ missing) := by
  induction missing using List.reverseRecOn with
  | nil =>
    rw [List.append_nil, withDirs_there reaches.dirs]
    refine ⟨a.disk.objects, a.made, ?_, rfl⟩
    rcases List.eq_nil_or_concat' there with rfl | ⟨parent, name, rfl⟩
    · rfl
    · have shape : (namesPath (parent ++ [name])).reverse = .name name :: (namesPath parent).reverse := by
        rw [namesPath_concat, List.reverse_append]
        rfl
      rw [shape, createDir_there]
      · rfl
      · rw [← shape, List.reverse_reverse]
        exact stat_names reaches.dirs
  | append_singleton missing name ih =>
    have before : Descends a.disk.find there missing :=
      ⟨reaches.dirs, fun front inside => reaches.nothing front (inside.trans (List.prefix_append missing [name]))⟩
    obtain ⟨objects, made, run, found⟩ := ih before
    have shape : (namesPath (there ++ (missing ++ [name]))).reverse =
        .name name :: (namesPath (there ++ missing)).reverse := by
      rw [← List.append_assoc, namesPath_concat, List.reverse_append]
      rfl
    have absent : a.disk.stat (.name name :: (namesPath (there ++ missing)).reverse).reverse = .error .enoent := by
      rw [← shape, List.reverse_reverse]
      exact stat_missing reaches (by simp)
    have fresh : (withObjects a objects made).disk.find (there ++ missing ++ [name]) = none := by
      rw [found, withDirs_beyond, List.append_assoc]
      · exact reaches.nothing (missing ++ [name]) (List.prefix_refl _) (by simp)
      · intro inside
        have := inside.length_le
        simp at this
    have creates := @create_names _ _ name .dir fun front inside => by
      rw [found]
      exact (withDirs_reaches.dirs front inside : withDirs a.disk.find (there ++ missing) front = _)
    rw [fresh] at creates
    rw [shape, WriteDisk.createDir]
    dsimp only
    rw [absent]
    dsimp only
    rw [run]
    dsimp only
    rw [if_neg (by simp), ← shape, List.reverse_reverse, WriteDisk.makeDir, ← List.append_assoc, creates]
    refine ⟨_, _, rfl, ?_⟩
    funext other
    change Disk.find (Disk.put (withObjects a objects made).disk (there ++ missing ++ [name]) .dir) other = _
    rw [find_put, found, withDirs_append]
    split
    next top =>
      subst top
      rw [if_neg (by simp), withDirs, if_pos List.nil_prefix]
    next => rfl

end Directories

section Objects
variable {a : WriteDisk} {e : ReadEntry} {there missing parent place : DiskPlace} {name : Bytes}

/-- What an entry becomes that is no hard link. -/
def entryObject (e : ReadEntry) (ino : Nat) : DiskObject :=
  match e.filetype with
  | .regular => .leaf (.regular ino)
  | .directory => .dir
  | .symlink => .link (isAbsolute e.symlink) (partsOf e.symlink)
  | .special => .leaf .special

/-- The writer with the object of an entry at a place, and with the file open if it is one. -/
def placed (a : WriteDisk) (e : ReadEntry) (place : DiskPlace) : WriteDisk :=
  let disk := a.disk.put place (entryObject e a.disk.inodes)
  if e.filetype = .regular then
    { a.creates (place, { disk with
        content := Function.update a.disk.content a.disk.inodes []
        inodes := a.disk.inodes + 1 }) with fd := some a.disk.inodes }
  else { a.creates (place, disk) with fd := none }

theorem placed_disk (a : WriteDisk) (e : ReadEntry) (place : DiskPlace) :
    (placed a e place).disk.find = (a.disk.put place (entryObject e a.disk.inodes)).find ∧
      (placed a e place).disk.cwd = a.disk.cwd := by
  unfold placed
  dsimp only
  split <;> exact ⟨rfl, rfl⟩

theorem placed_writer (a : WriteDisk) (e : ReadEntry) (place : DiskPlace) :
    (placed a e place).offset = a.offset ∧ (placed a e place).filesize = a.filesize := by
  unfold placed
  dsimp only
  split <;> exact ⟨rfl, rfl⟩

theorem placed_file (a : WriteDisk) (place : DiskPlace) (regular : e.filetype = .regular) :
    (placed a e place).fd = some a.disk.inodes ∧ (placed a e place).disk.inodes = a.disk.inodes + 1 ∧
      (placed a e place).disk.content = Function.update a.disk.content a.disk.inodes [] := by
  unfold placed
  rw [if_pos regular]
  exact ⟨rfl, rfl, rfl⟩

theorem placed_other (a : WriteDisk) (place : DiskPlace) (other : e.filetype ≠ .regular) :
    (placed a e place).fd = none ∧ (placed a e place).disk.inodes = a.disk.inodes ∧
      (placed a e place).disk.content = a.disk.content := by
  unfold placed
  rw [if_neg other]
  exact ⟨rfl, rfl, rfl⟩

/-- An entry that is no hard link, and whose target is not empty if it is a symbolic one. -/
structure PlainEntry (e : ReadEntry) : Prop where
  single : e.hardlink = none
  target : e.filetype = .symlink → e.symlink ≠ []

theorem createObject_fails (plain : PlainEntry e) {path : DiskPath} {en : Errno}
    (fails : ∀ object, a.disk.create path object = .error en) : a.createFilesystemObject e path = (some en, a) := by
  rw [WriteDisk.createFilesystemObject, plain.single]
  cases type : e.filetype with
  | regular => simp only [Disk.openExcl, fails]; rfl
  | directory => simp only [fails]
  | symlink => simp only [Disk.symlink, if_neg (plain.target type), fails]
  | special => simp only [fails]

theorem createObject_names (plain : PlainEntry e) (dirs : ∀ front, front <+: parent → a.disk.find front = some .dir)
    (absent : a.disk.find (parent ++ [name]) = none) :
    a.createFilesystemObject e (namesPath (parent ++ [name])) = (none, placed a e (parent ++ [name])) := by
  have creates (object : DiskObject) : a.disk.create (namesPath (parent ++ [name])) object =
      .ok (parent ++ [name], a.disk.put (parent ++ [name]) object) := by
    rw [create_names dirs, absent]
    rfl
  rw [WriteDisk.createFilesystemObject, plain.single, placed, entryObject]
  cases type : e.filetype with
  | regular => simp only [Disk.openExcl, creates]; rfl
  | directory => simp only [creates]; rfl
  | symlink => simp only [Disk.symlink, if_neg (plain.target type), creates]; rfl
  | special => simp only [creates]; rfl

/-- An object that cannot be made before its directories are, with those that were missing. -/
theorem restoreEntry_made {path : DiskPath} (result : WriteDisk → WriteDisk)
    (shape : path = namesPath (there ++ missing ++ [name])) (reaches : Descends a.disk.find there missing)
    (fails : missing ≠ [] → a.createFilesystemObject e path = (some .enoent, a))
    (creates : ∀ objects made, (withObjects a objects made).disk.find = withDirs a.disk.find (there ++ missing) →
      (withObjects a objects made).createFilesystemObject e path = (none, result (withObjects a objects made))) :
    ∃ objects made, a.restoreEntry e path = (archiveOk, result (withObjects a objects made)) ∧
      (withObjects a objects made).disk.find = withDirs a.disk.find (there ++ missing) := by
  by_cases complete : missing = []
  · subst complete
    have same : (withObjects a a.disk.objects a.made).disk.find = withDirs a.disk.find (there ++ []) := by
      rw [List.append_nil]
      exact (withDirs_there reaches.dirs).symm
    refine ⟨a.disk.objects, a.made, ?_, same⟩
    have once : a.createFilesystemObject e path = (none, result a) := creates a.disk.objects a.made same
    rw [WriteDisk.restoreEntry, WriteDisk.createWithParent, once]
    rfl
  · obtain ⟨objects, made, run, found⟩ := createDir_names reaches
    refine ⟨objects, made, ?_, found⟩
    have parents : a.createParentDir path = withObjects a objects made := by
      rw [WriteDisk.createParentDir, shape, namesPath_concat, List.reverse_append, List.reverse_singleton,
        List.singleton_append, List.tail_cons, run]
    rw [WriteDisk.restoreEntry, WriteDisk.createWithParent, fails complete]
    simp only [or_true, if_true, parents]
    rw [creates objects made found]

theorem withDirs_below (absent : a.disk.find (parent ++ [name]) = none) :
    withDirs a.disk.find parent (parent ++ [name]) = none := by
  rw [withDirs_beyond, absent]
  intro inside
  have := inside.length_le
  simp at this

theorem restoreEntry_new (plain : PlainEntry e) (reaches : Descends a.disk.find there missing)
    (absent : a.disk.find (there ++ missing ++ [name]) = none) : ∃ objects made,
    a.restoreEntry e (namesPath (there ++ missing ++ [name])) =
      (archiveOk, placed (withObjects a objects made) e (there ++ missing ++ [name])) ∧
      (withObjects a objects made).disk.find = withDirs a.disk.find (there ++ missing) := by
  apply restoreEntry_made (fun b => placed b e (there ++ missing ++ [name])) rfl reaches
  · intro incomplete
    exact createObject_fails plain fun object => create_missing reaches incomplete
  · intro objects made found
    refine createObject_names plain (fun front inside => ?_) ?_
    · rw [found]
      exact withDirs_reaches.dirs front inside
    · rw [found]
      exact withDirs_below absent

theorem restoreEntry_there (plain : PlainEntry e) (isDirectory : e.filetype = .directory)
    (dirs : ∀ front, front <+: place → a.disk.find front = some .dir) : a.restoreEntry e (namesPath place) =
    (archiveOk, a) := by
  have exists_ : a.createWithParent e (namesPath place) = (some .eexist, a) := by
    rw [WriteDisk.createWithParent, createObject_fails plain (fun object => create_there dirs)]
    exact if_neg (by simp)
  have way : a.inTheWay e (namesPath place) = .ok .dir := by
    rw [WriteDisk.inTheWay, if_pos isDirectory, stat_names dirs]
  rw [WriteDisk.restoreEntry, exists_]
  dsimp only
  rw [way]
  exact if_pos isDirectory

end Objects

section Links
variable {d : Disk} {a : WriteDisk} {e : ReadEntry} {there missing parent source : DiskPlace}
  {name linkname : Bytes} {ino size : Nat}

/-- The name of a hard link leads to a regular file from where the writer looks for it, which is the
working directory. -/
structure LinkLeads (d : Disk) (linkname : Bytes) (source : DiskPlace) (ino : Nat) : Prop where
  named : linkname ≠ []
  located : d.locate (linkBase d linkname) (partsOf linkname) = .ok (some source)
  file : d.find source = some (.leaf (.regular ino))

theorem locate_iff {base : DiskPlace} {path : DiskPath} : d.locate base path = .ok (some source) ↔
    ∃ front name next, path = front ++ [.name name] ∧ walk d.find Disk.maxLinks base front = .ok next ∧
      d.find next = some .dir ∧ source = next ++ [name] := by
  constructor
  · intro located
    obtain ⟨front, name, next, rfl, walked, rfl⟩ := locate_some located
    refine ⟨front, name, next, rfl, walked, ?_, rfl⟩
    rw [Disk.locate, List.getLast?_concat] at located
    dsimp only at located
    rw [List.dropLast_concat, resolve_iff.mpr walked] at located
    change (if isDir d.find next = true then _ else _) = _ at located
    split at located
    next leads => exact isDir_iff.mp leads
    next => cases located
  · rintro ⟨front, name, next, rfl, walked, leads, rfl⟩
    rw [Disk.locate, List.getLast?_concat]
    dsimp only
    rw [List.dropLast_concat, resolve_iff.mpr walked]
    change (if isDir d.find next = true then _ else _) = _
    rw [if_pos (isDir_iff.mpr leads)]

theorem LinkLeads.mono (leads : LinkLeads d linkname source ino) {grown : Disk} (keeps : SubTree d.find grown.find)
    (cwd : grown.cwd = d.cwd) : LinkLeads grown linkname source ino := by
  obtain ⟨front, name, next, shape, walked, ends, same⟩ := locate_iff.mp leads.located
  refine ⟨leads.named, ?_, keeps _ _ leads.file⟩
  rw [linkBase, cwd]
  exact locate_iff.mpr ⟨front, name, next, shape, walk_mono keeps (Nat.le_refl _) walked, keeps _ _ ends, same⟩

theorem cleanup_cons_name (name : Bytes) (rest : DiskPath) :
    cleanupPathname (.name name :: rest) = .name name :: cleanupPathname rest :=
  List.filter_cons_of_pos (by simp)

/-- The way to a file has no link that would be removed. -/
theorem checkSymlinks_through {front : DiskPath} {base next : DiskPlace} {leaf : DiskLeaf}
    (walked : walk d.find Disk.maxLinks base front = .ok next) (ends : d.find next = some .dir)
    (file : d.find (next ++ [name]) = some (.leaf leaf)) :
    WriteDisk.checkSymlinks d base (cleanupPathname (front ++ [.name name])) = .ok d := by
  induction front generalizing base with
  | nil =>
    obtain rfl := walk_nil walked
    change WriteDisk.checkSymlinks d next [.name name] = _
    rw [WriteDisk.checkSymlinks, file]
    exact if_pos rfl
  | cons part front ih =>
    obtain ⟨middle, first, later⟩ := walk_append (show walk d.find Disk.maxLinks base ([part] ++ front) =
      .ok next from walked)
    cases part with
    | here =>
      obtain rfl := walk_here first
      exact ih later
    | up =>
      obtain rfl := walk_up first
      exact ih later
    | name step =>
      have start := walk_start later ends
      obtain ⟨_, object, there, leads⟩ := walk_name first
      have more : cleanupPathname (front ++ [.name name]) ≠ [] := by
        apply List.ne_nil_of_mem (List.mem_filter.mpr
          ⟨List.mem_append_right front (List.mem_singleton_self (.name name)), ?_⟩)
        simp
      rw [List.cons_append, cleanup_cons_name, WriteDisk.checkSymlinks, there]
      cases object with
      | dir =>
        rcases leads with ⟨_, _, other⟩ | rfl
        · cases other
        · exact ih later
      | leaf content =>
        rcases leads with ⟨_, _, other⟩ | rfl
        · cases other
        · rw [there] at start
          cases start
      | link absolute target =>
        dsimp only
        rw [if_neg more, resolve_iff.mpr first]
        dsimp only
        rw [if_pos (isDir_iff.mpr start)]
        exact ih later

theorem LinkLeads.checked (leads : LinkLeads d linkname source ino) :
    WriteDisk.checkSymlinks d (linkBase d linkname) (cleanupPathname (partsOf linkname)) = .ok d := by
  obtain ⟨front, name, next, shape, walked, ends, same⟩ := locate_iff.mp leads.located
  rw [shape]
  exact checkSymlinks_through walked ends (same ▸ leads.file)

/-- The writer with one more name of a file, which is opened anew for an entry with data. -/
def joined (a : WriteDisk) (source place : DiskPlace) (ino size : Nat) : WriteDisk :=
  let a := a.creates (place, a.disk.put place (.leaf (.regular ino)))
  if size = 0 then a
  else
    { a with
      disk := { a.disk with content := Function.update a.disk.content ino [] }
      made := a.made ++ [.overwrote source]
      fd := some ino }

theorem joined_disk (a : WriteDisk) (source place : DiskPlace) (ino size : Nat) :
    (joined a source place ino size).disk.find = (a.disk.put place (.leaf (.regular ino))).find ∧
      (joined a source place ino size).disk.cwd = a.disk.cwd ∧ (joined a source place ino size).disk.inodes =
        a.disk.inodes := by
  unfold joined
  dsimp only
  split <;> exact ⟨rfl, rfl, rfl⟩

theorem joined_writer (a : WriteDisk) (source place : DiskPlace) (ino size : Nat) :
    (joined a source place ino size).offset = a.offset ∧ (joined a source place ino size).filesize = a.filesize := by
  unfold joined
  dsimp only
  split <;> exact ⟨rfl, rfl⟩

theorem joined_data (a : WriteDisk) (source place : DiskPlace) (ino : Nat) (some : size ≠ 0) :
    (joined a source place ino size).fd = ino ∧
      (joined a source place ino size).disk.content = Function.update a.disk.content ino [] := by
  unfold joined
  dsimp only
  rw [if_neg some]
  exact ⟨rfl, rfl⟩

theorem createHardlink_names (leads : LinkLeads a.disk linkname source ino)
    (dirs : ∀ front, front <+: parent → a.disk.find front = some .dir)
    (absent : a.disk.find (parent ++ [name]) = none) :
    a.createHardlink linkname size (namesPath (parent ++ [name])) =
      (none, joined a source (parent ++ [name]) ino size) := by
  have creates : a.disk.create (namesPath (parent ++ [name])) (.leaf (.regular ino)) =
      .ok (parent ++ [name], a.disk.put (parent ++ [name]) (.leaf (.regular ino))) := by
    rw [create_names dirs, absent]
    rfl
  have links : a.disk.link linkname (namesPath (parent ++ [name])) =
      .ok (source, parent ++ [name], a.disk.put (parent ++ [name]) (.leaf (.regular ino))) := by
    have located := leads.located
    rw [linkBase] at located
    rw [Disk.link, located]
    dsimp only [bind, Except.bind]
    rw [Disk.object, leads.file]
    dsimp only
    rw [creates]
    rfl
  have there : (a.disk.put (parent ++ [name]) (.leaf (.regular ino))).find (parent ++ [name]) =
      some (.leaf (.regular ino)) := by
    rw [find_put, if_neg (by simp), if_pos rfl]
  have checked := leads.checked
  rw [linkBase] at checked
  rw [WriteDisk.createHardlink, if_neg leads.named, checked]
  dsimp only
  rw [links]
  dsimp only
  rw [there]
  dsimp only
  rw [joined]
  split
  next => rfl
  next => rfl

theorem createHardlink_missing (leads : LinkLeads a.disk linkname source ino)
    (reaches : Descends a.disk.find there missing) (some : missing ≠ []) :
    a.createHardlink linkname size (namesPath (there ++ missing ++ [name])) = (Option.some .enoent, a) := by
  have links : a.disk.link linkname (namesPath (there ++ missing ++ [name])) = .error .enoent := by
    have located := leads.located
    rw [linkBase] at located
    rw [Disk.link, located]
    dsimp only [bind, Except.bind]
    rw [Disk.object, leads.file]
    dsimp only
    rw [create_missing reaches some]
  have checked := leads.checked
  rw [linkBase] at checked
  rw [WriteDisk.createHardlink, if_neg leads.named, checked]
  dsimp only
  rw [links]

theorem restoreEntry_linked (hardlink : e.hardlink = some linkname) (leads : LinkLeads a.disk linkname source ino)
    (reaches : Descends a.disk.find there missing) (absent : a.disk.find (there ++ missing ++ [name]) = none) :
    ∃ objects made, a.restoreEntry e (namesPath (there ++ missing ++ [name])) =
      (archiveOk, joined (withObjects a objects made) source (there ++ missing ++ [name]) ino e.size) ∧
      (withObjects a objects made).disk.find = withDirs a.disk.find (there ++ missing) := by
  apply restoreEntry_made (fun b => joined b source (there ++ missing ++ [name]) ino e.size) rfl reaches
  · intro incomplete
    rw [WriteDisk.createFilesystemObject, hardlink]
    exact createHardlink_missing leads reaches incomplete
  · intro objects made found
    rw [WriteDisk.createFilesystemObject, hardlink]
    refine createHardlink_names (leads.mono ?_ rfl) (fun front inside => ?_) ?_
    · rw [found]
      exact reaches.subTree
    · rw [found]
      exact withDirs_reaches.dirs front inside
    · rw [found]
      exact withDirs_below absent

end Links
section Removed
variable {d : Disk} {a : WriteDisk} {e : ReadEntry} {there missing base : DiskPlace} {path : DiskPath}
  {name linkname : Bytes} {size : Nat}

/-- Nothing is at the place of a directory or below it, although somebody still works in it: the
directory was removed. -/
def RemovedAt (d : Disk) (base : DiskPlace) : Prop := ∀ names, d.find (base ++ names) = none

theorem RemovedAt.none (removed : RemovedAt d base) : d.find base = none := by
  have here := removed []
  rwa [List.append_nil] at here

theorem locate_removed (removed : RemovedAt d base) (some : path ≠ []) :
    ∃ en, (en = .enotdir ∨ en = .enoent) ∧ d.locate base path = .error en := by
  obtain ⟨front, part, rfl⟩ := (List.eq_nil_or_concat' path).resolve_left some
  rw [Disk.locate, List.getLast?_concat]
  dsimp only
  rw [List.dropLast_concat]
  cases front with
  | nil =>
    refine ⟨.enotdir, Or.inl rfl, ?_⟩
    have stays : d.resolve base [] = .ok base := resolve_iff.mpr rfl
    rw [stays]
    dsimp only [bind, Except.bind]
    rw [if_neg]
    rw [isDir_iff, removed.none]
    simp
  | cons first front =>
    refine ⟨.enoent, Or.inr rfl, ?_⟩
    have nowhere : d.resolve base (first :: front) = .error .enoent := by
      unfold Disk.resolve Disk.maxLinks walk walkWith
      rw [removed.none]
      rfl
    rw [nowhere]
    rfl

theorem checkSymlinks_removed (removed : RemovedAt d base) (level : .up ∉ path) :
    WriteDisk.checkSymlinks d base (cleanupPathname path) = .ok d := by
  cases clean : cleanupPathname path with
  | nil => rfl
  | cons part rest =>
    obtain ⟨member, kept⟩ := List.mem_filter.mp (clean ▸ List.mem_cons_self : part ∈ cleanupPathname path)
    cases part with
    | here => simp at kept
    | up => exact absurd member level
    | name name =>
      rw [WriteDisk.checkSymlinks, removed [name]]

variable (size) in
theorem createHardlink_removed (removed : RemovedAt a.disk (linkBase a.disk linkname)) (named : linkname ≠ [])
    (level : .up ∉ partsOf linkname) : ∃ en, (en = .enotdir ∨ en = .enoent) ∧
      ∀ path, a.createHardlink linkname size path = (some en, a) := by
  have checked := checkSymlinks_removed removed level
  have filled : partsOf linkname ≠ [] := by
    rw [partsOf, ne_eq, List.map_eq_nil_iff]
    exact List.splitOn_ne_nil 47 linkname
  obtain ⟨en, missing, located⟩ := locate_removed removed filled
  rw [linkBase] at checked located
  refine ⟨en, missing, fun path => ?_⟩
  rw [WriteDisk.createHardlink, if_neg named, checked]
  dsimp only
  rw [Disk.link, located]
  rfl

variable (name) in
/-- A hard link whose name leads nowhere is not made. The directories of its path are. -/
theorem restoreEntry_removed (hardlink : e.hardlink = some linkname) (named : linkname ≠ [])
    (level : .up ∉ partsOf linkname) (removed : RemovedAt a.disk (linkBase a.disk linkname))
    (apart : ¬ linkBase a.disk linkname <+: there ++ missing)
    (reaches : Descends a.disk.find there missing) : ∃ objects made,
    a.restoreEntry e (namesPath (there ++ missing ++ [name])) = (archiveFailed, withObjects a objects made) ∧
      (withObjects a objects made).disk.find = withDirs a.disk.find (there ++ missing) := by
  obtain ⟨objects, made, run, found⟩ := createDir_names reaches
  have removedStill : RemovedAt (withObjects a objects made).disk
      (linkBase (withObjects a objects made).disk linkname) := by
    intro names
    rw [found, withDirs_beyond]
    · exact removed names
    · intro inside
      exact apart ((List.prefix_append _ names).trans inside)
  obtain ⟨en, retried, fails⟩ := createHardlink_removed e.size removed named level
  obtain ⟨last, stops, failsStill⟩ := createHardlink_removed e.size removedStill named level
  refine ⟨objects, made, ?_, found⟩
  have parents : a.createParentDir (namesPath (there ++ missing ++ [name])) = withObjects a objects made := by
    rw [WriteDisk.createParentDir, namesPath_concat, List.reverse_append, List.reverse_singleton,
      List.singleton_append, List.tail_cons, run]
  have whole : a.createWithParent e (namesPath (there ++ missing ++ [name])) =
      (some last, withObjects a objects made) := by
    rw [WriteDisk.createWithParent, WriteDisk.createFilesystemObject, hardlink]
    dsimp only
    rw [fails]
    dsimp only
    rw [if_pos, parents, WriteDisk.createFilesystemObject, hardlink]
    · exact failsStill _
    · simpa using retried
  rw [WriteDisk.restoreEntry, whole]
  rcases stops with rfl | rfl
  · rfl
  · rfl

end Removed
end Bxxt.Proofs
