import Bxxt.Proofs.ArchiveOrder
import Bxxt.Proofs.LinkedFiles
import Bxxt.Proofs.WrittenHeaders

/-! A directory that is packed as a ramdisk and unpacked again, into a directory that is empty. -/

namespace Bxxt.Proofs
open Bxxt ByteLayout DirTree NameForest

section Names

def ObjectParts (name : Bytes) : Prop := ∀ part ∈ name.splitOn 47, ObjectName part

theorem partOf_name {part : Bytes} (named : ObjectName part) : partOf part = .name part := by
  rw [partOf, if_neg (not_or.mpr ⟨named.nonempty, named.notHere⟩), if_neg named.notUp]

theorem partsOf_name {name : Bytes} (parts : ObjectParts name) : partsOf name = namesPath (name.splitOn 47) :=
  List.map_congr_left fun part inside => partOf_name (parts part inside)

theorem pathNames_name {name : Bytes} (parts : ObjectParts name) : pathNames name = name.splitOn 47 := by
  rw [pathNames, partsOf_name parts, namesPath, List.filterMap_map]
  exact List.filterMap_some

theorem notUp_name {name : Bytes} (parts : ObjectParts name) : .up ∉ partsOf name := by
  rw [partsOf_name parts]
  intro up
  obtain ⟨part, -, same⟩ := List.mem_map.mp up
  cases same

/-- A place in front of another is that of the same object or of one that it is below. -/
theorem names_prefix {first second : Bytes} (one : ObjectParts first) (two : ObjectParts second)
    (front : pathNames first <+: pathNames second) : first = second ∨ ∃ below, second = objectPath first below := by
  rw [pathNames_name one, pathNames_name two] at front
  exact Forest.below_of_parts front

end Names
section Headers
variable {fs : FileSystem} {root : Bytes} {names : List Bytes} {inode : UInt32}

/-- The names that come before the one of the trailer. -/
def namesBefore (names : List Bytes) : List Bytes := names.takeWhile (· ≠ trailerEntry.pathname)

theorem namesBefore_cons (name : Bytes) (names : List Bytes) :
    namesBefore (name :: names) = if name = trailerEntry.pathname then [] else name :: namesBefore names := by
  by_cases ends : name = trailerEntry.pathname
  · rw [if_pos ends]
    exact List.takeWhile_cons_of_neg (by simp [ends])
  · rw [if_neg ends]
    exact List.takeWhile_cons_of_pos (decide_eq_true ends)

theorem archiveName_object (root name : Bytes) : archiveName root (objectPath root name) = name :=
  objectPath_name root name

theorem treeHeaders_mem {h : CpioHeader} (inside : h ∈ treeHeaders fs root inode (names.map (objectPath root)))
    (stats : ∀ name ∈ names, ∃ st, fs.lstat (objectPath root name) = some st) :
    ∃ name ∈ namesBefore names, ∃ st ino, fs.lstat (objectPath root name) = some st ∧
      h = objectHeader name st ino := by
  induction names generalizing inode with
  | nil => cases inside
  | cons name names ih =>
    obtain ⟨st, stat⟩ := stats name List.mem_cons_self
    rw [List.map_cons, treeHeaders, stat] at inside
    dsimp only at inside
    rw [archiveName_object] at inside
    by_cases ends : name = trailerEntry.pathname
    · rw [if_pos ends] at inside
      cases inside
    · rw [if_neg ends] at inside
      rw [namesBefore_cons, if_neg ends]
      rcases List.mem_cons.mp inside with rfl | later
      · exact ⟨name, List.mem_cons_self, st, inode, stat, rfl⟩
      · obtain ⟨other, member, found⟩ := ih later fun name inside => stats name (List.mem_cons_of_mem _ inside)
        exact ⟨other, List.mem_cons_of_mem _ member, found⟩

theorem mem_treeHeaders {name : Bytes} {st : Stat} (inside : name ∈ namesBefore names)
    (stat : fs.lstat (objectPath root name) = some st)
    (stats : ∀ name ∈ names, ∃ st, fs.lstat (objectPath root name) = some st) :
    ∃ ino, objectHeader name st ino ∈ treeHeaders fs root inode (names.map (objectPath root)) := by
  induction names generalizing inode with
  | nil => cases inside
  | cons other names ih =>
    obtain ⟨otherStat, found⟩ := stats other List.mem_cons_self
    rw [namesBefore_cons] at inside
    by_cases ends : other = trailerEntry.pathname
    · rw [if_pos ends] at inside
      cases inside
    · rw [if_neg ends] at inside
      rw [List.map_cons, treeHeaders, found]
      dsimp only
      rw [archiveName_object, if_neg ends]
      rcases List.mem_cons.mp inside with rfl | later
      · cases stat.symm.trans found
        exact ⟨inode, List.mem_cons_self⟩
      · obtain ⟨ino, member⟩ := @ih (inode + 1) later fun name inside => stats name (List.mem_cons_of_mem _ inside)
        exact ⟨ino, List.mem_cons_of_mem _ member⟩

theorem treeHeaders_pairwise {relation : CpioHeader → CpioHeader → Prop} (distinct : names.Nodup)
    (stats : ∀ name ∈ names, ∃ st, fs.lstat (objectPath root name) = some st)
    (apart : ∀ first ∈ names, ∀ second ∈ names, first ≠ second →
      ∀ st other i j, fs.lstat (objectPath root first) = some st →
      fs.lstat (objectPath root second) = some other →
        relation (objectHeader first st i) (objectHeader second other j)) :
    (treeHeaders fs root inode (names.map (objectPath root))).Pairwise relation := by
  induction names generalizing inode with
  | nil => exact List.Pairwise.nil
  | cons name names ih =>
    obtain ⟨fresh, distinct⟩ := List.nodup_cons.mp distinct
    obtain ⟨st, stat⟩ := stats name List.mem_cons_self
    have others : ∀ name ∈ names, ∃ st, fs.lstat (objectPath root name) = some st := fun name inside =>
      stats name (List.mem_cons_of_mem _ inside)
    rw [List.map_cons, treeHeaders, stat]
    dsimp only
    split
    next => exact List.Pairwise.nil
    next =>
      refine List.pairwise_cons.mpr ⟨fun h inside => ?_, ih distinct others fun first one second two => ?_⟩
      · obtain ⟨second, before, other, ino, found, rfl⟩ := treeHeaders_mem inside others
        have member : second ∈ names := (List.takeWhile_prefix _).subset before
        rw [archiveName_object]
        exact apart name List.mem_cons_self second (List.mem_cons_of_mem _ member)
          (fun same => fresh (same ▸ member)) _ _ _ _ stat found
      · exact apart first (List.mem_cons_of_mem _ one) second (List.mem_cons_of_mem _ two)

theorem namesBefore_less (sorted : names.Pairwise (· < ·)) (ends : trailerEntry.pathname ∈ names) {name : Bytes}
    (inside : name ∈ namesBefore names) : name < trailerEntry.pathname := by
  induction names with
  | nil => cases inside
  | cons first names ih =>
    obtain ⟨less, sorted⟩ := List.pairwise_cons.mp sorted
    rw [namesBefore_cons] at inside
    by_cases here : first = trailerEntry.pathname
    · rw [if_pos here] at inside
      cases inside
    · rw [if_neg here] at inside
      have later := List.mem_of_ne_of_mem (Ne.symm here) ends
      rcases List.mem_cons.mp inside with rfl | inside
      · exact less _ later
      · exact ih sorted later inside

end Headers
section Trees
variable {fs : FileSystem} {root : Bytes} {dest : DiskPlace} {tree : Forest UInt8} {names : List Bytes} {inode : UInt32}

/-- The packed objects have what the format can express: names without a NUL, permissions of twelve
bits, link targets that are not empty, and only directories with other objects below them. -/
structure TreeObjects (fs : FileSystem) (root : Bytes) (tree : Forest UInt8) : Prop where
  noNul : ∀ name ∈ tree.paths 47, 0 ∉ name
  perm : ∀ name ∈ tree.paths 47, ∀ st, fs.lstat (objectPath root name) = some st → st.perm < 2 ^ 12
  targets : ∀ name ∈ tree.paths 47, ∀ target perm, fs.lstat (objectPath root name) =
    some ⟨.symlink target, perm⟩ → target.bytes ≠ []
  dirs : ∀ dir below, objectPath dir below ∈ tree.paths 47 → ∀ st, fs.lstat (objectPath root dir) = some st →
    ∃ size, st.inode = .directory size

theorem IsTree.parts (is : IsTree fs root tree) {name : Bytes} (inside : name ∈ tree.paths 47) : ObjectParts name :=
  Forest.parts_allowed (fun _ named => named.plain) is.named inside

theorem IsTree.readsBack (is : IsTree fs root tree) (objects : TreeObjects fs root tree) {name : Bytes}
    (inside : name ∈ tree.paths 47) {st : Stat} (stat : fs.lstat (objectPath root name) = some st)
    (storable : StorableInode st.inode) : ReadsBack name st where
  storable := storable
  named := fun empty => Forest.paths_ne_nil 47 (is.named.mono fun _ name => name.nonempty) (empty ▸ inside)
  noNul := objects.noNul name inside
  short := by
    have short := is.short name inside
    rw [objectPath, List.length_append, List.length_cons] at short
    omega
  perm := objects.perm name inside st stat

theorem entryNames_object (is : IsTree fs root tree) {name : Bytes} (inside : name ∈ tree.paths 47) (st : Stat)
    (inode : UInt32) :
    entryNames (objectHeader name st inode) = name.splitOn 47 :=
  pathNames_name (is.parts inside)

theorem objectHeader_directory {name : Bytes} {st : Stat} (isDirectory : ∃ size, st.inode = .directory size)
    (inode : UInt32) :
    (objectHeader name st inode).filetype = .directory := by
  obtain ⟨size, kind⟩ := isDirectory
  rw [objectHeader, kind]

/-- The headers of a tree are an archive of it that has each file once. -/
theorem treeHeaders_tree (is : IsTree fs root tree) (objects : TreeObjects fs root tree) (distinct : names.Nodup)
    (inside : ∀ name ∈ names, name ∈ tree.paths 47)
    (fits : ∀ name ∈ tree.paths 47, pathLength dest + 1 + name.length < pathMax) :
    ArchiveTree dest (treeHeaders fs root inode (names.map (objectPath root))) := by
  have stats : ∀ name ∈ names, ∃ st, fs.lstat (objectPath root name) = some st := fun name member =>
    is.stat name (inside name member)
  have each {h : CpioHeader} (member : h ∈ treeHeaders fs root inode (names.map (objectPath root))) :
      ∃ name ∈ tree.paths 47, ∃ st ino, fs.lstat (objectPath root name) = some st ∧
        h = objectHeader name st ino := by
    obtain ⟨name, before, found⟩ := treeHeaders_mem member stats
    exact ⟨name, inside name ((List.takeWhile_prefix _).subset before), found⟩
  have single {h : CpioHeader} (member : h ∈ treeHeaders fs root inode (names.map (objectPath root))) :
      h.nlink = 1 := by
    obtain ⟨name, -, st, ino, -, rfl⟩ := each member
    rfl
  constructor
  · intro h member
    obtain ⟨name, within, st, ino, stat, rfl⟩ := each member
    exact ⟨name, rfl, notUp_name (is.parts within), fits name within⟩
  · intro h member top
    obtain ⟨name, within, st, ino, stat, rfl⟩ := each member
    rw [entryNames_object is within] at top
    exact absurd top (List.splitOn_ne_nil 47 name)
  · intro h member link
    obtain ⟨name, within, ⟨node, perm⟩, ino, stat, rfl⟩ := each member
    cases node with
    | symlink target => exact objects.targets name within target perm stat
    | regular | directory | other => cases link
  · intro h member file
    obtain ⟨name, -, ⟨node, perm⟩, ino, stat, rfl⟩ := each member
    cases node with
    | regular content readable =>
      change (if content = [] then [] else [content]).flatten.length = content.length
      split
      next empty => rw [empty]; rfl
      next => rw [List.flatten_singleton]
    | symlink | directory | other => cases file
  · refine treeHeaders_pairwise distinct stats fun first one second two apart st other i j stat found => ?_
    have above {first second : Bytes} {st other : Stat} {i j : UInt32} (one : first ∈ tree.paths 47)
      (two : second ∈ tree.paths 47)
        (apart : first ≠ second) (stat : fs.lstat (objectPath root first) = some st)
        (front : entryNames (objectHeader first st i) <+: entryNames (objectHeader second other j)) :
        (objectHeader first st i).filetype = .directory := by
      rcases names_prefix (is.parts one) (is.parts two) front with same | ⟨below, rfl⟩
      · exact absurd same apart
      · exact objectHeader_directory (objects.dirs first below two st stat) i
    exact ⟨above (inside first one) (inside second two) apart stat, above (inside second two) (inside first one)
      (Ne.symm apart) found⟩
  · refine List.Pairwise.imp_of_mem (fun one _ _ linked => ?_)
      (List.pairwise_of_forall (R := fun _ _ => True) fun _ _ => trivial)
    have several := linked.1
    rw [single one] at several
    exact absurd several (Nat.lt_irrefl 1)
  · intro h member several
    rw [single member] at several
    exact absurd several (Nat.lt_irrefl 1)

end Trees
section Runs
variable {dest : DiskPlace} {done rest : List CpioHeader} {links : List LinksEntry} {a : WriteDisk}
  {h : CpioHeader} {name : Bytes} {inode : FileKey → Nat}

/-- The inodes that are in use stay, each with its content. -/
structure KeepsFiles (before after : Disk) : Prop where
  inodes : before.inodes ≤ after.inodes
  content : ∀ ino, ino < before.inodes → after.content ino = before.content ino

theorem KeepsFiles.refl (d : Disk) : KeepsFiles d d := ⟨Nat.le_refl _, fun _ _ => rfl⟩

theorem KeepsFiles.trans {first second third : Disk} (one : KeepsFiles first second) (two : KeepsFiles second third) :
    KeepsFiles first third where
  inodes := one.inodes.trans two.inodes
  content ino used := (two.content ino (Nat.lt_of_lt_of_le used one.inodes)).trans (one.content ino used)

/-- An entry that is no hard link takes nothing away, and changes nothing that is not on its path. -/
theorem entry_frame (tree : ArchiveTree dest (done ++ h :: rest)) (state : a.state = .header)
    (vacant : Vacant a.disk.find (dest ++ entryNames h) (h.filetype = .directory)) (named : h.pathname = some name)
    (level : .up ∉ partsOf name) :
    SubTree a.disk.find (written dest a (h.entry none) name).disk.find ∧
      KeepsFiles a.disk (written dest a (h.entry none) name).disk ∧
      ∀ place, ¬ place <+: dest ++ entryNames h →
        (written dest a (h.entry none) name).disk.find place = a.disk.find place := by
  have member : h ∈ done ++ h :: rest := List.mem_append_right _ List.mem_cons_self
  have going : a.state ≠ .fatal := by simp [state]
  have names := entryNames_eq named
  rcases vacant.steps _ (List.prefix_refl _) with isDir | absent
  · have dirs (front : DiskPlace) (inside : front <+: dest ++ pathNames name) : a.disk.find front = some .dir := by
      rw [← names] at inside
      exact vacant.closed front _ inside (List.prefix_refl _) isDir
    rw [(entry_there tree.plain (vacant.fits isDir) going level dirs).1]
    exact ⟨SubTree.refl _, KeepsFiles.refl _, fun _ _ => rfl⟩
  · rw [names] at vacant absent ⊢
    obtain ⟨lands, file, other⟩ := entry_new dest tree.plain going level (tree.data h member) vacant absent
    refine ⟨vacant.subTree lands.laid, ?_, fun place apart => lands.laid.beyond apart⟩
    by_cases regular : h.filetype = .regular
    · -- the file has an inode of its own
      obtain ⟨inodes, content⟩ := file regular
      refine ⟨by omega, fun ino used => ?_⟩
      rw [content, Function.update_of_ne (Nat.ne_of_lt used)]
    · obtain ⟨inodes, content⟩ := other regular
      exact ⟨Nat.le_of_eq inodes.symm, fun ino _ => by rw [content]⟩

/-- An archive without hard links, by induction on the entries that are left: each has its object, nothing
is new but on their paths, and no file that was there is written. -/
theorem readEntries_single (rest : List CpioHeader) {done : List CpioHeader} {links : List LinksEntry} {a : WriteDisk}
    {inode : FileKey → Nat} (tree : ArchiveTree dest (done ++ rest)) (single : ∀ h ∈ done ++ rest, h.nlink ≤ 1)
    (extracting : Extracting dest done inode a) (awaits : Awaits dest rest a.disk) :
    ∃ out last, readEntries dest links a rest = (out, .ok ()) ∧ Extracting dest (done ++ rest) last out ∧
      SubTree a.disk.find out.disk.find ∧ KeepsFiles a.disk out.disk ∧
      ∀ place, (∀ h ∈ rest, ¬ place <+: dest ++ entryNames h) → out.disk.find place = a.disk.find place := by
  induction rest generalizing done links a inode with
  | nil =>
    rw [List.append_nil]
    exact ⟨a, inode, rfl, extracting, SubTree.refl _, KeepsFiles.refl _, fun _ _ => rfl⟩
  | cons h rest ih =>
    have member : h ∈ done ++ h :: rest := List.mem_append_right _ List.mem_cons_self
    obtain ⟨name, named, level, fits⟩ := tree.named h member
    have alone : recordHardlink links h = .ok (none, links) := if_pos (single h member)
    have unlinked : ∀ g ∈ done, ¬ Linked g h := fun _ _ linked => absurd (single h member)
      (Nat.not_le.mpr linked.2.1)
    obtain ⟨next, extracted, awaiting⟩ := extracting.step tree awaits named level (.inl ⟨rfl, unlinked⟩) nofun
    obtain ⟨keeps, files, frame⟩ := entry_frame tree extracting.state (awaits h List.mem_cons_self) named level
    rw [(readEntries_cons dest rest alone named fits).1]
    rw [List.append_cons] at tree single ⊢
    obtain ⟨out, last, run, all, kept, later, others⟩ := @ih _ links _ next tree single extracted awaiting
    refine ⟨out, last, run, all, fun place object found => kept place object (keeps place object found),
      files.trans later,
      fun place apart => ?_⟩
    rw [others place fun g inside => apart g (List.mem_cons_of_mem _ inside), frame place (apart h List.mem_cons_self)]

theorem fileContent_single {headers : List CpioHeader} (apart : headers.Pairwise fun h g => fileKey h ≠ fileKey g)
    (inside : h ∈ headers) : fileContent headers (fileKey h) = entryData h := by
  have only : headers.filter (fun g => fileKey g = fileKey h) = [h] := by
    induction headers with
    | nil => cases inside
    | cons g headers ih =>
      obtain ⟨others, apart⟩ := List.pairwise_cons.mp apart
      rcases List.mem_cons.mp inside with rfl | later
      · rw [List.filter_cons_of_pos (by simp), List.filter_eq_nil_iff.mpr]
        exact fun other member => by simpa using Ne.symm (others other member)
      · rw [List.filter_cons_of_neg (by simpa using others h later)]
        exact ih apart later
  rw [fileContent, only]
  by_cases empty : entryData h = [] <;> simp [empty]

end Runs
section Packing
variable {σ : Type} {gzip : GzipFilter σ} {fs : FileSystem} {frames : Nat} {path root : Bytes} {tree : Forest UInt8}
  {out : ArchiveOut}

theorem resized_zeros {written : Bytes} {size : Nat} (room : written.length ≤ size) :
    ∃ zeros, bxxtBufferResize (written ++ List.replicate (size - written.length) 0) (asInt (written.length - size)) =
      some (written ++ List.replicate zeros 0) := by
  obtain ⟨bb, resized, back, shape⟩ := resized_prefix room
  have zeros : ∀ byte ∈ back, byte = 0 := by
    have last : back = bb.drop written.length := by rw [← shape, List.drop_left]
    unfold bxxtBufferResize at resized
    split at resized
    next => cases resized
    next =>
      split at resized
      next =>
        cases resized
        rw [last, List.append_assoc, List.drop_left]
        intro byte inside
        rcases List.mem_append.mp inside with zero | zero
        · exact List.eq_of_mem_replicate zero
        · exact List.eq_of_mem_replicate zero
      next =>
        cases resized
        rw [last, List.drop_take, List.drop_left]
        exact fun byte inside => List.eq_of_mem_replicate (List.mem_of_mem_take inside)
  refine ⟨back.length, ?_⟩
  rw [← List.eq_replicate_length.mpr zeros, shape]
  exact resized

/-- What is in the buffer where no result is an error: the objects in the order of their names, and zeros. -/
theorem packed_stream (real : fs.realpath path = some root) (is : IsTree fs root tree) (room : tree.depth < frames)
    (packed : bxxtCpioArchiveOut gzip fs frames path = .ok out) (quiet : ∀ code ∈ out.ignored, 0 ≤ code) :
    ∃ (visited names : List Bytes) (zeros : Nat), bxxtTreeWalk fs frames root = .ok visited ∧
      visited.mergeSort comparePaths = names.map (objectPath root) ∧
      names.Perm (tree.paths 47) ∧ names.Pairwise (· < ·) ∧
        (∀ name ∈ names, ∃ st, Storable fs root (objectPath root name) st) ∧
      out.bb = some (wholeArchive gzip fs root visited ++ List.replicate zeros 0) := by
  obtain ⟨visited, walked, perm⟩ := walk_paths is room
  obtain ⟨names, same, objects, ordered⟩ := sorted_names perm
  have distinct : names.Nodup := objects.nodup_iff.mpr (Forest.paths_nodup (is.named.mono fun _ name => name.plain))
  have increasing : names.Pairwise (· < ·) := (ordered.and distinct).imp fun both => Std.lt_of_le_of_ne both.1 both.2
  simp only [bxxtCpioArchiveOut, real, walked, Exec.ok_bind] at packed
  obtain ⟨⟨codes, last⟩, added, ran⟩ := Exec.bind_eq_ok.mp packed
  cases ran
  obtain ⟨storable, fits⟩ := (packed_iff added).1.mp quiet
  have stream := (packed_iff added).2 quiet
  obtain ⟨zeros, resized⟩ := resized_zeros fits
  rw [← stream] at resized
  refine ⟨visited, names, zeros, walked, same, objects, increasing, fun name inside => ?_, stream ▸ resized⟩
  apply storable
  rw [← @List.mem_mergeSort _ comparePaths, same]
  exact List.mem_map_of_mem inside

end Packing
section RoundTrip
variable {fs : FileSystem} {root : Bytes} {dest : DiskPlace} {tree : Forest UInt8}

def RestoredObject (d : Disk) (place : DiskPlace) : Inode → Prop
  | .regular content _ => ∃ ino, d.find place = some (.leaf (.regular ino)) ∧ d.content ino = content
  | .directory _ => d.find place = some .dir
  | .symlink target => d.find place = some (.link (isAbsolute target.bytes) (partsOf target.bytes))
  | .other => False

theorem RestoredObject.found {d : Disk} {place : DiskPlace} {inode : Inode} (restored : RestoredObject d place inode) :
    ∃ object, d.find place = some object := by
  cases inode with
  | regular content readable => exact ⟨_, restored.choose_spec.1⟩
  | directory size => exact ⟨_, restored⟩
  | symlink target => exact ⟨_, restored⟩
  | other => exact restored.elim

/-- The purpose of the round trip: every object of the tree is in the directory, and nothing else
came to the disk. The other objects are the same, and so is what is in the files that were there. -/
structure CameBack (fs : FileSystem) (root : Bytes) (tree : Forest UInt8) (dest : DiskPlace)
    (before after : Disk) : Prop where
  objects : ∀ name ∈ tree.paths 47, ∀ st, fs.lstat (objectPath root name) = some st →
    RestoredObject after (dest ++ pathNames name) st.inode
  others : ∀ place, (∀ name ∈ tree.paths 47, place ≠ dest ++ pathNames name) →
    after.find place = before.find place
  files : KeepsFiles before after

/-- The filters of the reader undo those of the writer for the archive of a directory, whatever zeros are behind it. -/
def Undoes {σ : Type} (gzip : GzipFilter σ) (decode : Bytes → Option Bytes) (fs : FileSystem) (frames : Nat)
    (root : Bytes) : Prop :=
  ∀ visited zeros, bxxtTreeWalk fs frames root = .ok visited →
    decode (wholeArchive gzip fs root visited ++ List.replicate zeros 0) =
      some (treePieces fs root 300000 (visited.mergeSort comparePaths)).flatten

theorem IsTree.prefix_object (is : IsTree fs root tree) {name : Bytes} (inside : name ∈ tree.paths 47)
    {front : DiskPlace} (before : front <+: pathNames name) (some : front ≠ []) : ∃ dir ∈ tree.paths 47,
    front = pathNames dir := by
  have parts := is.parts inside
  have plain := is.named.mono fun _ name => name.plain
  rw [pathNames_name parts] at before
  have split : ([47].intercalate front).splitOn 47 = front :=
    List.splitOn_intercalate 47 (fun part member => (parts part (before.subset member)).plain) some
  have above : [47].intercalate front ∈ tree.paths 47 := by
    rcases Forest.below_of_parts (split.symm ▸ before : ([47].intercalate front).splitOn 47 <+: name.splitOn 47)
      with same | ⟨below, rfl⟩
    · exact same ▸ inside
    · exact Forest.parent_mem 47 plain inside
  exact ⟨_, above, by rw [pathNames_name (is.parts above), split]⟩

/-- The objects before the name of the trailer come to the directory, and nothing else. -/
theorem unpacked_before {names : List Bytes} {inode : UInt32} {disk : Disk} {destPath : Bytes}
    (is : IsTree fs root tree) (objects : TreeObjects fs root tree) (perm : names.Perm (tree.paths 47))
    (distinct : names.Nodup) (storable : ∀ name ∈ names, ∃ st, Storable fs root (objectPath root name) st)
    (fits : ∀ name ∈ tree.paths 47, pathLength dest + 1 + name.length < pathMax)
    (resolved : disk.realpath destPath = some dest) (real : Real dest disk)
    (empty : ∀ place, place ≠ [] → disk.find (dest ++ place) = none) :
    ∃ out, bxxtCpioArchiveIn disk destPath (treeHeaders fs root inode (names.map (objectPath root))) =
      (out, .ok archiveOk) ∧
      (∀ name ∈ namesBefore names, ∀ st, fs.lstat (objectPath root name) = some st →
        RestoredObject out.disk (dest ++ pathNames name) st.inode) ∧
      SubTree disk.find out.disk.find ∧ KeepsFiles disk out.disk ∧
      ∀ place, (∀ name ∈ namesBefore names, ¬ place <+: dest ++ pathNames name) →
        out.disk.find place = disk.find place := by
  have inside : ∀ name ∈ names, name ∈ tree.paths 47 := fun name member => perm.mem_iff.mp member
  have stats : ∀ name ∈ names, ∃ st, fs.lstat (objectPath root name) = some st := fun name member =>
    is.stat name (inside name member)
  have archive := @treeHeaders_tree fs root dest tree names inode is objects distinct inside fits
  have single : ∀ h ∈ treeHeaders fs root inode (names.map (objectPath root)), h.nlink ≤ 1 := by
    intro h member
    obtain ⟨name, -, st, ino, -, rfl⟩ := treeHeaders_mem member stats
    exact Nat.le_refl 1
  have unoccupied : Unoccupied dest (treeHeaders fs root inode (names.map (objectPath root))) disk :=
    fun _ _ front _ some => empty front some
  obtain ⟨out, last, run, extracting, keeps, files, frame⟩ :=
    readEntries_single (treeHeaders fs root inode (names.map (objectPath root)))
    archive single (extracting_none disk fun _ => 0) (archive.awaits real unoccupied)
  have apart : (treeHeaders fs root inode (names.map (objectPath root))).Pairwise fun h g =>
      fileKey h ≠ fileKey g := by
    refine treeHeaders_pairwise distinct stats fun first one second two different st other i j _ _ same => different ?_
    have places : (first.splitOn 47) = second.splitOn 47 := by
      rw [← entryNames_object is (inside first one) st i, ← entryNames_object is (inside second two) other j]
      exact FileKey.single.inj same
    rw [← @List.intercalate_splitOn _ first _ _ 47, places, List.intercalate_splitOn]
  refine ⟨out, ?_, fun name before st stat => ?_, keeps, files, fun place away => frame place fun h member => ?_⟩
  · rw [bxxtCpioArchiveIn, resolved]
    dsimp only
    rw [run]
    rfl
  · obtain ⟨ino, member⟩ := @mem_treeHeaders fs root names inode name st before stat stats
    have found := extracting.objects _ member
    have content := extracting.files _ member
    rw [List.nil_append, fileContent_single apart member] at content
    obtain ⟨node, perm⟩ := st
    cases node with
    | regular data readable =>
      refine ⟨_, found, (content rfl).2.trans ?_⟩
      change (if data = [] then [] else [data]).flatten = data
      split
      next empty => rw [empty]; rfl
      next => rw [List.flatten_singleton]
    | directory | symlink => exact found
    | other =>
      obtain ⟨st, stored⟩ := storable name ((List.takeWhile_prefix _).subset before)
      cases stat.symm.trans stored.stat
      exact stored.inode.elim
  · obtain ⟨name, before, st, ino, -, rfl⟩ := treeHeaders_mem member stats
    exact away name before

/-- A directory that is packed without an error and unpacked into an empty one is there again,
object for object, exactly if none of its own objects has the name that ends an archive. -/
theorem ramdisk_round_trip_iff {σ : Type} (gzip : GzipFilter σ) (decode : Bytes → Option Bytes)
    (ahead : Bytes → Nat) (fs : FileSystem) (frames : Nat) (path root : Bytes) (tree : Forest UInt8)
    (out : ArchiveOut) (disk : Disk) (destPath : Bytes) (dest : DiskPlace) (real : fs.realpath path = some root)
    (is : IsTree fs root tree) (objects : TreeObjects fs root tree)
    (room : tree.depth < frames) (packed : bxxtCpioArchiveOut gzip fs frames path = .ok out)
    (quiet : ∀ code ∈ out.ignored, 0 ≤ code) (undoes : Undoes gzip decode fs frames root)
    (resolved : disk.realpath destPath = some dest) (there : Real dest disk)
    (empty : ∀ place, place ≠ [] → disk.find (dest ++ place) = none)
    (fits : ∀ name ∈ tree.paths 47, pathLength dest + 1 + name.length < pathMax) :
    ∃ bb, out.bb = some bb ∧
      ((∃ fuel count after, bxxtCpioArchiveInBytes decode ahead fuel disk destPath bb =
        some (count, after, .ok archiveOk) ∧
          CameBack fs root tree dest disk after.disk) ↔
        ascii "TRAILER!!!" ∉ tree.paths 47) := by
  obtain ⟨visited, names, zeros, walked, same, perm, increasing, storable, buffer⟩ :=
    packed_stream real is room packed quiet
  have distinct : names.Nodup := increasing.imp fun less => Std.ne_of_lt less
  have inside : ∀ name ∈ names, name ∈ tree.paths 47 := fun name member => perm.mem_iff.mp member
  have stored : ∀ path ∈ names.map (objectPath root), ∃ st, fs.lstat path = some st ∧
      ReadsBack (archiveName root path) st := by
    intro path member
    obtain ⟨name, within, rfl⟩ := List.mem_map.mp member
    obtain ⟨st, stores⟩ := storable name within
    rw [archiveName_object]
    exact ⟨st, stores.stat, is.readsBack objects (inside name within) stores.stat stores.inode⟩
  have decoded : decodedHeaders ahead (decode (wholeArchive gzip fs root visited ++ List.replicate zeros 0)) =
      (treeHeaders fs root 300000 (names.map (objectPath root)), .trailer) := by
    rw [undoes visited zeros walked, same]
    exact decodedHeaders_tree stored
  obtain ⟨fuel, count, run, -⟩ := extraction_refines decode ahead disk destPath
    (wholeArchive gzip fs root visited ++ List.replicate zeros 0) (by simp [decoded])
  obtain ⟨after, unpacked, restored, keeps, files, frame⟩ :=
    @unpacked_before fs root dest tree names 300000 disk destPath is objects perm
    distinct storable fits resolved there empty
  rw [decoded, unpacked] at run
  refine ⟨_, buffer, ?_, fun absent => ?_⟩
  · rintro ⟨otherFuel, otherCount, other, ran, back⟩ trailer
    cases extraction_unique ran run
    have member := perm.mem_iff.mpr trailer
    obtain ⟨st, stores⟩ := storable _ member
    -- no entry that was read is the object or below it
    have missing := frame (dest ++ pathNames trailerEntry.pathname) fun name before front => by
      have less := namesBefore_less increasing member before
      have within := inside name ((List.takeWhile_prefix _).subset before)
      rcases names_prefix (is.parts trailer) (is.parts within) ((List.prefix_append_right_inj dest).mp front)
        with same | ⟨below, rfl⟩
      · exact absurd (same ▸ less) (Std.lt_irrefl)
      · have behind : trailerEntry.pathname ++ [] < objectPath trailerEntry.pathname below :=
          List.append_left_lt (List.nil_lt_cons 47 below)
        rw [List.append_nil] at behind
        exact absurd (Std.lt_trans less behind) Std.lt_irrefl
    rw [empty _ (by decide)] at missing
    obtain ⟨object, found⟩ := (back.objects _ trailer st stores.stat).found
    cases missing.symm.trans found
  · have all : namesBefore names = names := by
      apply List.takeWhile_eq_self_iff.mpr
      intro name member
      have within := inside name member
      exact decide_eq_true fun same => absent (same ▸ within : trailerEntry.pathname ∈ tree.paths 47)
    rw [all] at restored frame
    refine ⟨fuel, count, after, run, fun name member st stat => restored name (perm.mem_iff.mpr member) st stat,
      fun place away => ?_, files⟩
    by_cases front : place <+: dest
    · rw [there place front, keeps place _ (there place front)]
    · apply frame place
      intro name member before
      rcases List.prefix_or_prefix_of_prefix before (List.prefix_append dest _) with above | ⟨below, rfl⟩
      · exact front above
      · have some : below ≠ [] := fun none => front (by rw [none, List.append_nil])
        obtain ⟨dir, within, rfl⟩ := is.prefix_object (inside name member)
          ((List.prefix_append_right_inj dest).mp before) some
        exact away dir within rfl

end RoundTrip
section Shell

def shTree : Forest UInt8 := .file (ascii "init") (.file (ascii "sh") .done)

def shFiles : FileSystem where
  realpath := some
  opendir := fun path => if path = ascii "/r" then some [⟨ascii "init", false⟩, ⟨ascii "sh", false⟩] else none
  lstat := fun path =>
    if path = ascii "/r/init" then some ⟨.symlink ⟨ascii "sh", by decide, by decide⟩, 0o777⟩
    else some ⟨.regular (ascii "#!") true, 0o755⟩
  follow := fun _ => none

/-- The filter on the archive of that directory, whose stream is given, and the way back. -/
def shStream : Bytes :=
  [31, 139, 8, 0, 0, 0, 0, 0, 0, 3, 51, 48, 55, 48, 55, 48, 52, 48, 48, 48, 177, 52, 78, 53, 0, 129, 68, 195,
    180, 52, 3, 236, 192,
    16, 141, 111, 132, 67, 29, 58, 48, 133, 49, 50, 243, 50, 75, 24, 24, 138, 51, 24, 24, 12, 144, 237, 5, 155,
      107, 97, 152, 154,
    66, 101, 123, 141, 97, 12, 144, 141, 12, 12, 202, 138, 72, 246, 18, 3, 136, 85, 135, 14, 146, 96, 140, 144,
      32, 71, 79, 31, 215,
    32, 69, 69, 69, 144, 253, 0, 101, 72, 123, 108, 108, 1, 0, 0]

def shGzip : GzipFilter Unit where
  opened := ()
  write := fun state _ => (state, [])
  close := fun _ => [shStream]

def shDecode (bytes : Bytes) : Option Bytes :=
  if shStream <+: bytes then some (treePieces shFiles (ascii "/r") 300000 [ascii "/r/init", ascii "/r/sh"]).flatten
    else none

theorem shTree_is : IsTree shFiles (ascii "/r") shTree where
  top := ⟨_, rfl, by decide, List.Perm.refl _⟩
  inner := trivial
  named := ⟨⟨by decide, by decide, by decide, by decide⟩, by decide,
    ⟨by decide, by decide, by decide, by decide⟩, by decide, trivial⟩
  short := by decide
  stat := by
    intro name inside
    rcases List.mem_pair.mp inside with rfl | rfl
    · exact ⟨_, rfl⟩
    · exact ⟨_, rfl⟩

theorem shTree_objects : TreeObjects shFiles (ascii "/r") shTree where
  noNul := by decide
  perm := by
    intro name inside st stat
    rcases List.mem_pair.mp inside with rfl | rfl
    · cases stat
      decide
    · cases stat
      decide
  targets := by
    intro name inside target perm stat
    rcases List.mem_pair.mp inside with rfl | rfl
    · cases stat
      decide
    · cases stat
  dirs := by
    intro dir below inside
    have slash : (47 : UInt8) ∈ objectPath dir below := List.mem_append_right _ List.mem_cons_self
    rcases List.mem_pair.mp inside with same | same
    · rw [same] at slash
      exact absurd slash (by decide)
    · rw [same] at slash
      exact absurd slash (by decide)

theorem sh_round_trip : ∃ out bb fuel count after, bxxtCpioArchiveOut shGzip shFiles 1 (ascii "/r") = .ok out ∧
    out.bb = some bb ∧
    bxxtCpioArchiveInBytes shDecode List.length fuel workDisk (ascii "/out") bb = some (count, after, .ok archiveOk) ∧
      CameBack shFiles (ascii "/r") shTree [ascii "out"] workDisk after.disk := by
  have walked : bxxtTreeWalk shFiles 1 (ascii "/r") = .ok [ascii "/r/init", ascii "/r/sh"] := rfl
  have sorted : [ascii "/r/init", ascii "/r/sh"].mergeSort comparePaths = [ascii "/r/init", ascii "/r/sh"] :=
    List.mergeSort_of_pairwise (by decide)
  have packed := @archiveOut_ok _ shGzip shFiles 1 (ascii "/r") _ _ _ _ rfl walked (by rw [sorted]; rfl)
  have undoes : Undoes shGzip shDecode shFiles 1 (ascii "/r") := by
    intro visited zeros again
    cases walked.symm.trans again
    have stream : wholeArchive shGzip shFiles (ascii "/r") [ascii "/r/init", ascii "/r/sh"] = shStream := by
      rw [wholeArchive, sorted]
      rfl
    rw [stream, sorted]
    exact if_pos (List.prefix_append _ _)
  have empty : ∀ place, place ≠ [] → workDisk.find ([ascii "out"] ++ place) = none := by
    intro place some
    cases place with
    | nil => exact absurd rfl some
    | cons name place => rfl
  obtain ⟨bb, buffer, trip⟩ := ramdisk_round_trip_iff shGzip shDecode List.length shFiles 1 (ascii "/r")
    (ascii "/r") shTree _ workDisk
    (ascii "/out") [ascii "out"] rfl shTree_is shTree_objects (by decide) packed (by decide) undoes rfl
      workDisk_real empty (by decide)
  obtain ⟨fuel, count, after, run, back⟩ := trip.mpr (by decide)
  exact ⟨_, bb, fuel, count, after, packed, buffer, run, back⟩

end Shell
end Bxxt.Proofs
