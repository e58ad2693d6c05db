import Bxxt.Proofs.ArchiveComplete
import Bxxt.Lib.NameForest

/-! The names in a packed ramdisk: their order, and that each object below the root has one. -/

namespace Bxxt.Proofs
open ByteLayout NameForest

def objectPath (front name : Bytes) : Bytes := front ++ 47 :: name

def isDot (de : Dirent) : Bool := de.dName = ascii "." ∨ de.dName = ascii ".."

/-- What a directory is when it is read: in any order each of its names once with its type, and itself and
the one above. -/
def ReadsDir (fs : FileSystem) (name : Bytes) (forest : Forest UInt8) : Prop :=
  ∃ entries, fs.opendir name = some entries ∧ (∀ de ∈ entries, isDot de → de.isDir) ∧
    ((entries.filter (!isDot ·)).map fun de => (de.dName, de.isDir)).Perm forest.entries

def ReadsInner (fs : FileSystem) : Bytes → Forest UInt8 → Prop
  | _, .done => True
  | front, .file _ rest => ReadsInner fs front rest
  | front, .dir name inner rest =>
    ReadsDir fs (objectPath front name) inner ∧ ReadsInner fs (objectPath front name) inner ∧
      ReadsInner fs front rest

structure ObjectName (name : Bytes) : Prop where
  nonempty : name ≠ []
  plain : 47 ∉ name
  notHere : name ≠ ascii "."
  notUp : name ≠ ascii ".."

structure IsTree (fs : FileSystem) (root : Bytes) (tree : Forest UInt8) : Prop where
  top : ReadsDir fs root tree
  inner : ReadsInner fs root tree
  named : tree.Named ObjectName
  short : ∀ name ∈ tree.paths 47, (objectPath root name).length < pathMax
  stat : ∀ name ∈ tree.paths 47, ∃ st, fs.lstat (objectPath root name) = some st

section Walk
variable {fs : FileSystem}

/-- What `bxxt_tree_walk` does with an entry. -/
def visitEntry (fs : FileSystem) (frames : Nat) (name : Bytes) (de : Dirent) : Exec (List Bytes) :=
  let path := joinPath name de.dName
  if de.isDir then
    if de.dName ≠ ascii "." ∧ de.dName ≠ ascii ".." then do return (← bxxtTreeWalk fs frames path) ++ [path]
    else return []
  else return [path]

theorem bxxtTreeWalk_eq {frames : Nat} {name : Bytes} {entries : List Dirent}
    (opened : fs.opendir name = some entries) :
    bxxtTreeWalk fs (frames + 1) name = do return (← entries.mapM (visitEntry fs frames name)).flatten := by
  rw [bxxtTreeWalk, opened]
  rfl

theorem joinPath_short {front name : Bytes} (short : (objectPath front name).length < pathMax) :
    joinPath front name = objectPath front name := by
  have same : front ++ ascii "/" ++ name = objectPath front name := by
    rw [List.append_assoc]
    rfl
  rw [joinPath, same]
  exact List.take_of_length_le (by omega)

def visited (fs : FileSystem) (frames : Nat) (front : Bytes) (de : Dirent) : List Bytes :=
  match visitEntry fs frames front de with
  | .ok paths => paths
  | .error _ => []

theorem mapM_visited {frames : Nat} {front : Bytes} {entries : List Dirent}
    (fine : ∀ de ∈ entries, ∃ paths, visitEntry fs frames front de = .ok paths) :
    entries.mapM (visitEntry fs frames front) = .ok (entries.map (visited fs frames front)) := by
  induction entries with
  | nil => rfl
  | cons de rest ih =>
    obtain ⟨paths, done⟩ := fine de List.mem_cons_self
    rw [List.mapM_cons, ih fun de inside => fine de (List.mem_cons_of_mem _ inside)]
    simp only [done, Exec.ok_bind, List.map_cons, visited]
    rfl

theorem visitEntry_dot {frames : Nat} {front : Bytes} {de : Dirent} (dot : isDot de) (isDir : de.isDir) :
    visitEntry fs frames front de = .ok [] := by
  have notOther : ¬ (de.dName ≠ ascii "." ∧ de.dName ≠ ascii "..") := by
    simp only [isDot, decide_eq_true_eq] at dot
    tauto
  simp only [visitEntry, isDir, if_true, if_neg notOther]
  rfl

theorem visited_filter {frames : Nat} {front : Bytes} {entries : List Dirent}
    (dots : ∀ de ∈ entries, isDot de → de.isDir) :
    (entries.map (visited fs frames front)).flatten =
      ((entries.filter (!isDot ·)).map (visited fs frames front)).flatten := by
  induction entries with
  | nil => rfl
  | cons de rest ih =>
    have others := ih fun de inside => dots de (List.mem_cons_of_mem _ inside)
    by_cases dot : isDot de
    · have nothing : visited fs frames front de = [] := by
        rw [visited, visitEntry_dot dot (dots de List.mem_cons_self dot)]
      rw [List.filter_cons_of_neg (by simp [dot]), List.map_cons, List.flatten_cons, nothing, List.nil_append, others]
    · rw [List.filter_cons_of_pos (by simp [dot]), List.map_cons, List.flatten_cons, others]
      rfl

/-- The entries of a directory that has been read, once all of them go well. -/
theorem walk_read {frames : Nat} {front : Bytes} {forest : Forest UInt8} {paths : List Bytes}
    (reads : ReadsDir fs front forest)
    (fine : ∀ entry ∈ forest.entries, ∃ paths, visitEntry fs frames front ⟨entry.1, entry.2⟩ = .ok paths)
    (all : (forest.entries.map fun entry => visited fs frames front ⟨entry.1, entry.2⟩).flatten.Perm paths) :
    ∃ found, bxxtTreeWalk fs (frames + 1) front = .ok found ∧ found.Perm paths := by
  obtain ⟨entries, opened, dots, listed⟩ := reads
  have each : ∀ de ∈ entries, ∃ paths, visitEntry fs frames front de = .ok paths := by
    intro de inside
    by_cases dot : isDot de
    · exact ⟨[], visitEntry_dot dot (dots de inside dot)⟩
    · exact fine (de.dName, de.isDir)
        (listed.mem_iff.mp (List.mem_map.mpr ⟨de, List.mem_filter.mpr ⟨inside, by simp [dot]⟩, rfl⟩))
  refine ⟨(entries.map (visited fs frames front)).flatten, ?_, ?_⟩
  · rw [bxxtTreeWalk_eq opened, mapM_visited each]
    rfl
  · rw [visited_filter dots]
    have same := (listed.map fun entry => visited fs frames front ⟨entry.1, entry.2⟩).flatten
    rw [List.map_map] at same
    exact same.trans all

/-- By induction on the tree, entry after entry: those of a directory give its paths. -/
theorem entries_paths (forest : Forest UInt8) {frames : Nat} {front : Bytes} (inner : ReadsInner fs front forest)
    (named : forest.Named ObjectName) (short : ∀ name ∈ forest.paths 47, (objectPath front name).length < pathMax)
    (room : forest.depth ≤ frames) :
    (∀ entry ∈ forest.entries, ∃ paths, visitEntry fs frames front ⟨entry.1, entry.2⟩ = .ok paths) ∧
      (forest.entries.map fun entry => visited fs frames front ⟨entry.1, entry.2⟩).flatten.Perm
        ((forest.paths 47).map (objectPath front)) := by
  induction forest generalizing frames front with
  | done => exact ⟨by simp [Forest.entries], List.Perm.refl _⟩
  | file name rest ih =>
    obtain ⟨fine, all⟩ := ih inner named.2.2 (fun name inside => short name (List.mem_cons_of_mem _ inside)) room
    have here : visitEntry fs frames front ⟨name, false⟩ = .ok [objectPath front name] := by
      simp only [visitEntry, joinPath_short (short name List.mem_cons_self)]
      rfl
    refine ⟨?_, ?_⟩
    · rintro entry (_ | ⟨_, inside⟩)
      · exact ⟨_, here⟩
      · exact fine entry inside
    · simp only [Forest.entries, Forest.paths, List.map_cons, List.flatten_cons, visited, here]
      exact List.Perm.cons _ all
  | dir name below rest ihBelow ih =>
    obtain ⟨reads, innerBelow, innerRest⟩ := inner
    obtain ⟨good, _, namedBelow, namedRest⟩ := named
    simp only [Forest.paths, List.mem_append, List.mem_map, List.mem_singleton] at short
    have deep : ∀ path ∈ below.paths 47, (objectPath (objectPath front name) path).length < pathMax := by
      intro path inside
      have whole := short _ (.inl (.inl ⟨path, inside, rfl⟩))
      simpa [objectPath] using whole
    simp only [Forest.depth] at room
    obtain ⟨frames, rfl⟩ : ∃ less, frames = less + 1 := ⟨frames - 1, by omega⟩
    have inside : below.depth ≤ frames := by omega
    have beside : rest.depth ≤ frames + 1 := by omega
    obtain ⟨fineBelow, allBelow⟩ := ihBelow innerBelow namedBelow deep inside
    obtain ⟨found, walked, perm⟩ := walk_read reads fineBelow allBelow
    obtain ⟨fine, all⟩ := ih innerRest namedRest (fun name inside => short name (.inr inside)) beside
    have here : visitEntry fs (frames + 1) front ⟨name, true⟩ = .ok (found ++ [objectPath front name]) := by
      simp only [visitEntry, joinPath_short (short name (.inl (.inr rfl))), if_true,
        if_pos (And.intro good.notHere good.notUp), walked, Exec.ok_bind]
      rfl
    refine ⟨?_, ?_⟩
    · rintro entry (_ | ⟨_, inside⟩)
      · exact ⟨_, here⟩
      · exact fine entry inside
    · simp only [Forest.entries, Forest.paths, List.map_cons, List.flatten_cons, visited, here,
        List.map_append, List.map_map]
      refine List.Perm.append (List.Perm.append_right _ (perm.trans (List.Perm.of_eq ?_))) all
      apply List.map_congr_left
      intro path _
      simp [objectPath]

theorem walk_paths {root : Bytes} {tree : Forest UInt8} (is : IsTree fs root tree) {frames : Nat}
    (room : tree.depth < frames) :
    ∃ found, bxxtTreeWalk fs frames root = .ok found ∧ found.Perm ((tree.paths 47).map (objectPath root)) := by
  obtain ⟨frames, rfl⟩ : ∃ less, frames = less + 1 := ⟨frames - 1, by omega⟩
  have inside : tree.depth ≤ frames := by omega
  obtain ⟨fine, all⟩ := entries_paths tree is.inner is.named is.short inside
  exact walk_read is.top fine all

end Walk

section Entries
variable {σ : Type} (gzip : GzipFilter σ) (fs : FileSystem)

/-- The entries that the loop over the sorted paths hands to the archive. -/
def addedEntries : Nat → BxxtCpio σ → List Bytes → List ArchiveEntry
  | _, _, [] => []
  | i, cp, path :: paths =>
    match bxxtCpioArchiveAddFile gzip fs cp path with
    | .error _ => []
    | .ok (_, next) =>
      let entries := match fs.lstat path with
        | none => []
        | some st => [archiveEntry (path.drop (cp.path.length + 1)) st cp.inode]
      entries ++ if i = intMax then [] else addedEntries (i + 1) next paths

/-- The entries that `bxxt_cpio_archive_out` hands to the archive, in their order. -/
def archivedEntries (frames : Nat) (path : Bytes) : List ArchiveEntry :=
  match fs.realpath path with
  | none => []
  | some rpath =>
    match bxxtTreeWalk fs frames rpath with
    | .error _ => []
    | .ok visited =>
      addedEntries gzip fs 0 ⟨rpath, archiveWriteOpenMemory gzip (archiveSizeGussed fs visited).toNat, 300000⟩
        (visited.mergeSort comparePaths)

def archivedNames (frames : Nat) (path : Bytes) : List Bytes :=
  (archivedEntries gzip fs frames path).map ArchiveEntry.pathname

variable {gzip fs}

theorem objectPath_name (root name : Bytes) : (objectPath root name).drop (root.length + 1) = name := by
  simp [objectPath]

variable (gzip) in
/-- What is added is named as the objects are, with the inodes that follow. -/
theorem addedEntries_named {i : Nat} (cp : BxxtCpio σ) {names : List Bytes}
    (stat : ∀ name ∈ names, ∃ st, fs.lstat (objectPath cp.path name) = some st)
    (few : i + names.length ≤ intMax) :
    (addedEntries gzip fs i cp (names.map (objectPath cp.path))).map ArchiveEntry.pathname = names ∧
      (addedEntries gzip fs i cp (names.map (objectPath cp.path))).map ArchiveEntry.ino =
        (List.range names.length).map fun k => (cp.inode + UInt32.ofNat k).toNat := by
  induction names generalizing i cp with
  | nil => exact ⟨rfl, rfl⟩
  | cons name names ih =>
    obtain ⟨st, found⟩ := stat name List.mem_cons_self
    have longer : ¬ (objectPath cp.path name).length ≤ cp.path.length := by
      simp only [objectPath, List.length_append, List.length_cons]
      omega
    obtain ⟨rs, w, next⟩ : ∃ rs w, bxxtCpioArchiveWrite gzip fs cp (objectPath cp.path name) name =
        (rs, { cp with w, inode := cp.inode + 1 }) := by
      rw [bxxtCpioArchiveWrite, found]
      exact ⟨_, _, rfl⟩
    have added : bxxtCpioArchiveAddFile gzip fs cp (objectPath cp.path name) =
        .ok (rs, { cp with w, inode := cp.inode + 1 }) := by
      rw [bxxtCpioArchiveAddFile, if_neg longer, objectPath_name, next]
    rw [List.length_cons] at few
    obtain ⟨named, numbered⟩ := ih (i := i + 1) { cp with w, inode := cp.inode + 1 }
      (fun name inside => stat name (List.mem_cons_of_mem _ inside)) (by omega)
    simp only [List.map_cons, addedEntries, added, found, objectPath_name,
      if_neg (show i ≠ intMax by omega), List.map_append, List.map_nil, named, numbered]
    refine ⟨rfl, ?_⟩
    rw [List.length_cons, List.range_succ_eq_map, List.map_cons, List.map_map]
    have here : (archiveEntry name st cp.inode).ino = (cp.inode + UInt32.ofNat 0).toNat := by
      simp [archiveEntry]
    rw [here]
    refine congrArg (_ :: ·) (List.map_congr_left fun k _ => ?_)
    simp only [Function.comp, UInt32.ofNat_add, Nat.succ_eq_add_one]
    congr 1
    rw [UInt32.add_assoc, UInt32.add_comm 1]
    rfl

def storedPieces (entry : ArchiveEntry) (content : Bytes) : List Bytes :=
  entryPieces entry ++ (piecesOf 4096 content.length content ++ nullPieces (pad4 content.length))

variable (fs) in
def contentAt (path : Bytes) : Bytes := (fs.lstat path).elim [] fun st => contentOf st.inode

/-- The pieces that go to the stream are those of the entries that are handed over. -/
theorem treePieces_added {i : Nat} {cp last : BxxtCpio σ} {codes : List Int} {paths : List Bytes}
    (ran : addFiles gzip fs i cp paths = .ok (codes, last))
    (stat : ∀ path ∈ paths, ∃ st, fs.lstat path = some st) :
    treePieces fs cp.path cp.inode paths =
      (List.zipWith storedPieces (addedEntries gzip fs i cp paths) (paths.map (contentAt fs))).flatten ++
        entryPieces trailerEntry := by
  induction paths generalizing i cp last codes with
  | nil => rfl
  | cons path paths ih =>
    obtain ⟨st, found⟩ := stat path List.mem_cons_self
    rw [addFiles] at ran
    obtain ⟨⟨here, next⟩, added, ran⟩ := Exec.bind_eq_ok.mp ran
    dsimp only at ran
    split at ran
    next => cases ran
    next few =>
      obtain ⟨⟨more, final⟩, others, _⟩ := Exec.bind_eq_ok.mp ran
      have later := ih others fun other member => stat other (List.mem_cons_of_mem _ member)
      obtain ⟨w, rfl⟩ : ∃ w, next = { cp with w, inode := cp.inode + 1 } := by
        unfold bxxtCpioArchiveAddFile at added
        split at added
        next => cases added
        next =>
          rw [bxxtCpioArchiveWrite, found] at added
          exact ⟨_, (congrArg Prod.snd (Except.ok.inj added)).symm⟩
      dsimp only at later
      simp only [treePieces, addedEntries, added, found, later, if_neg few, filePieces, archiveName, List.cons_append,
        List.nil_append, List.map_cons, List.zipWith_cons_cons, List.flatten_cons, storedPieces, contentAt,
        Option.elim_some, List.append_assoc]

/-- The archive of a walk is the stream of the entries that `bxxt_cpio_archive_out` hands over. -/
theorem wholeArchive_entries {frames : Nat} {path root : Bytes} {visited : List Bytes} {out : ArchiveOut}
    (real : fs.realpath path = some root) (walked : bxxtTreeWalk fs frames root = .ok visited)
    (stat : ∀ visit ∈ visited, ∃ st, fs.lstat visit = some st)
    (ran : bxxtCpioArchiveOut gzip fs frames path = .ok out) :
    wholeArchive gzip fs root visited = archiveStream gzip
      ((List.zipWith storedPieces (archivedEntries gzip fs frames path)
        ((visited.mergeSort comparePaths).map (contentAt fs))).flatten ++ entryPieces trailerEntry) := by
  simp only [bxxtCpioArchiveOut, real, walked, Exec.ok_bind] at ran
  obtain ⟨⟨codes, last⟩, added, _⟩ := Exec.bind_eq_ok.mp ran
  simp only [wholeArchive, archivedEntries, real, walked]
  rw [← treePieces_added added fun visit member => stat visit (List.mem_mergeSort.mp member)]

theorem inodes_nodup {count : Nat} (few : count ≤ intMax) :
    ((List.range count).map fun k => ((300000 : UInt32) + UInt32.ofNat k).toNat).Nodup := by
  have number {k : Nat} (inside : k ∈ List.range count) :
      ((300000 : UInt32) + UInt32.ofNat k).toNat = 300000 + k := by
    have small := List.mem_range.mp inside
    have bound : intMax = 2147483647 := rfl
    rw [UInt32.toNat_add, UInt32.toNat_ofNat']
    have first : (300000 : UInt32).toNat = 300000 := rfl
    omega
  rw [List.map_congr_left fun k inside => number inside]
  exact List.nodup_range.map fun first second same => by omega

theorem sorted_paths (paths : List Bytes) : (paths.mergeSort comparePaths).Pairwise (· ≤ ·) := by
  have sorted := @List.pairwise_mergeSort _ comparePaths
    (fun first second third before after => decide_eq_true
      (List.le_trans (of_decide_eq_true before) (of_decide_eq_true after)))
    (fun first second => by simpa [comparePaths] using List.le_total first second) paths
  exact sorted.imp fun before => of_decide_eq_true before

theorem sorted_names {root : Bytes} {paths names : List Bytes} (perm : paths.Perm (names.map (objectPath root))) :
    ∃ sorted : List Bytes, paths.mergeSort comparePaths = sorted.map (objectPath root) ∧ sorted.Perm names ∧
      sorted.Pairwise (· ≤ ·) := by
  have all := (List.mergeSort_perm paths comparePaths).trans perm
  have back := all.map (List.drop (root.length + 1))
  have plain : (names.map (objectPath root)).map (List.drop (root.length + 1)) = names := by
    rw [List.map_map]
    exact (List.map_congr_left fun name _ => objectPath_name root name).trans (List.map_id _)
  have forth : ((paths.mergeSort comparePaths).map (List.drop (root.length + 1))).map (objectPath root) =
      paths.mergeSort comparePaths := by
    rw [List.map_map]
    refine (List.map_congr_left fun path inside => ?_).trans (List.map_id _)
    obtain ⟨name, _, rfl⟩ := List.mem_map.mp (all.mem_iff.mp inside)
    simp only [Function.comp, objectPath_name, id]
  refine ⟨_, forth.symm, plain ▸ back, ?_⟩
  have sorted := sorted_paths paths
  rw [← forth, List.pairwise_map] at sorted
  refine sorted.imp fun {first second} before after => before ?_
  exact List.append_left_lt (List.cons_lt_cons_self.mpr after)

theorem sorted_before {names : List Bytes} (sorted : names.Pairwise (· < ·)) {first second : Bytes}
    (one : first ∈ names) (two : second ∈ names) (less : first < second) :
    names.idxOf first < names.idxOf second := by
  have inside := List.idxOf_lt_length_iff.mpr one
  have within := List.idxOf_lt_length_iff.mpr two
  rcases Nat.lt_trichotomy (names.idxOf first) (names.idxOf second) with before | same | after
  · exact before
  · have equal : first = second := by
      rw [← List.getElem_idxOf inside, ← List.getElem_idxOf within]; simp only [same]
    exact absurd (equal ▸ less) (List.lt_irrefl _)
  · have greater := List.pairwise_iff_getElem.mp sorted _ _ within inside after
    rw [List.getElem_idxOf, List.getElem_idxOf] at greater
    exact absurd (List.lt_trans less greater) (List.lt_irrefl _)

structure NamesInOrder (gzip : GzipFilter σ) (fs : FileSystem) (frames : Nat) (path root : Bytes)
    (tree : Forest UInt8) : Prop where
  ends : ∃ out, bxxtCpioArchiveOut gzip fs frames path = .ok out
  increasing : (archivedNames gzip fs frames path).Pairwise (· < ·)
  once : (archivedNames gzip fs frames path).Perm (tree.paths 47)
  noRoot : [] ∉ archivedNames gzip fs frames path
  parents : ∀ dir below, objectPath dir below ∈ archivedNames gzip fs frames path →
    dir ∈ archivedNames gzip fs frames path ∧
      (archivedNames gzip fs frames path).idxOf dir < (archivedNames gzip fs frames path).idxOf (objectPath dir below)
  anyOrder : ∀ other otherFrames, other.realpath path = some root → IsTree other root tree →
    tree.depth < otherFrames →
    archivedNames gzip other otherFrames path = archivedNames gzip fs frames path
  inodes : ((archivedEntries gzip fs frames path).map ArchiveEntry.ino).Nodup

variable (gzip) in
theorem archivedEntries_tree {frames : Nat} {path root : Bytes} {tree : Forest UInt8}
    (real : fs.realpath path = some root) (is : IsTree fs root tree) (room : tree.depth < frames)
    (few : (tree.paths 47).length ≤ intMax) :
    (archivedNames gzip fs frames path).Perm (tree.paths 47) ∧
      (archivedNames gzip fs frames path).Pairwise (· ≤ ·) ∧
      ((archivedEntries gzip fs frames path).map ArchiveEntry.ino).Nodup := by
  obtain ⟨found, walked, perm⟩ := walk_paths is room
  obtain ⟨sorted, same, objects, ordered⟩ := sorted_names perm
  have stat : ∀ name ∈ sorted, ∃ st, fs.lstat (objectPath root name) = some st := fun name inside =>
    is.stat name (objects.mem_iff.mp inside)
  have count : sorted.length ≤ intMax := objects.length_eq ▸ few
  obtain ⟨named, numbered⟩ := addedEntries_named gzip (i := 0)
    ⟨root, archiveWriteOpenMemory gzip (archiveSizeGussed fs found).toNat, 300000⟩ stat (by omega)
  have names : archivedNames gzip fs frames path = sorted := by
    simp only [archivedNames, archivedEntries, real, walked, same]
    exact named
  have inodes : (archivedEntries gzip fs frames path).map ArchiveEntry.ino =
      (List.range sorted.length).map fun k => ((300000 : UInt32) + UInt32.ofNat k).toNat := by
    simp only [archivedEntries, real, walked, same]
    exact numbered
  rw [names, inodes]
  exact ⟨objects, ordered, inodes_nodup count⟩

theorem archiveOut_tree {frames : Nat} {path root : Bytes} {tree : Forest UInt8} (real : fs.realpath path = some root)
    (is : IsTree fs root tree) (room : tree.depth < frames) :
    (∃ out, bxxtCpioArchiveOut gzip fs frames path = .ok out) ↔ (tree.paths 47).length ≤ intMax := by
  obtain ⟨found, walked, perm⟩ := walk_paths is room
  have size : (found.mergeSort comparePaths).length = (tree.paths 47).length := by
    rw [List.length_mergeSort, perm.length_eq, List.length_map]
  have long : ∀ visit ∈ found.mergeSort comparePaths, root.length < visit.length := by
    intro visit inside
    obtain ⟨name, _, rfl⟩ := List.mem_map.mp (perm.mem_iff.mp (List.mem_mergeSort.mp inside))
    simp only [objectPath, List.length_append, List.length_cons]
    omega
  have runs := @addFiles_ok_iff _ gzip fs _ (Nat.zero_le _)
    ⟨root, archiveWriteOpenMemory gzip (archiveSizeGussed fs found).toNat, 300000⟩ (found.mergeSort comparePaths)
  rw [size, Nat.zero_add] at runs
  refine Iff.trans ?_ (runs.trans (and_iff_right long))
  simp only [bxxtCpioArchiveOut, real, walked, Exec.ok_bind]
  constructor
  · rintro ⟨out, ran⟩
    obtain ⟨result, added, _⟩ := Exec.bind_eq_ok.mp ran
    exact ⟨result, added⟩
  · rintro ⟨result, added⟩
    exact ⟨_, Exec.bind_eq_ok.mpr ⟨result, added, rfl⟩⟩

end Entries

/-- The names that are archived for a tree are its objects in order exactly if there are fewer than 2 ^ 31 of them. -/
theorem names_in_order_iff {σ : Type} (gzip : GzipFilter σ) (fs : FileSystem) (frames : Nat) (path root : Bytes)
    (tree : Forest UInt8) (real : fs.realpath path = some root) (is : IsTree fs root tree)
    (room : tree.depth < frames) :
    NamesInOrder gzip fs frames path root tree ↔ (tree.paths 47).length < 2 ^ 31 := by
  have bound : (tree.paths 47).length < 2 ^ 31 ↔ (tree.paths 47).length ≤ intMax := Nat.lt_succ_iff (n := intMax)
  rw [bound]
  refine ⟨fun order => (archiveOut_tree real is room).mp order.ends, fun few => ?_⟩
  obtain ⟨perm, ordered, inodes⟩ := archivedEntries_tree gzip real is room few
  have plain := is.named.mono fun _ name => name.plain
  have distinct : (archivedNames gzip fs frames path).Nodup := perm.nodup_iff.mpr (Forest.paths_nodup plain)
  have increasing : (archivedNames gzip fs frames path).Pairwise (· < ·) :=
    (ordered.and distinct).imp fun both => Std.lt_of_le_of_ne both.1 both.2
  refine ⟨(archiveOut_tree real is room).mpr few, increasing, perm, ?_, ?_, ?_, inodes⟩
  · rw [perm.mem_iff]
    exact Forest.paths_ne_nil 47 (is.named.mono fun _ name => name.nonempty)
  · intro dir below inside
    have parent := perm.mem_iff.mpr (Forest.parent_mem 47 plain (perm.mem_iff.mp inside))
    refine ⟨parent, sorted_before increasing parent inside ?_⟩
    have before : dir ++ [] < dir ++ 47 :: below := List.append_left_lt (List.nil_lt_cons 47 below)
    rwa [List.append_nil] at before
  · intro other otherFrames same again enough
    obtain ⟨otherPerm, otherOrdered, _⟩ := archivedEntries_tree gzip same again enough few
    exact (otherPerm.trans perm.symm).eq_of_pairwise (fun _ _ _ _ before after => List.le_antisymm before after)
      otherOrdered ordered

/-- A directory with a file, and a file with a longer name that sorts in between. -/
def binTree : Forest UInt8 := .file (ascii "bin.d") (.dir (ascii "bin") (.file (ascii "sh") .done) .done)

def binFiles : FileSystem where
  realpath := some
  opendir := fun path =>
    if path = ascii "/r" then some [⟨ascii "bin", true⟩, ⟨ascii ".", true⟩, ⟨ascii "bin.d", false⟩,
      ⟨ascii "..", true⟩]
    else if path = ascii "/r/bin" then some [⟨ascii "sh", false⟩]
    else none
  lstat := fun _ => some ⟨.directory 4096, 0o755⟩
  follow := fun _ => none

theorem binTree_is : IsTree binFiles (ascii "/r") binTree where
  top := by
    refine ⟨_, rfl, by decide, ?_⟩
    exact List.Perm.swap (ascii "bin.d", false) (ascii "bin", true) []
  inner := ⟨⟨_, rfl, by decide, List.Perm.refl _⟩, trivial, trivial⟩
  named := by
    refine ⟨⟨by decide, by decide, by decide, by decide⟩, by decide,
      ⟨by decide, by decide, by decide, by decide⟩, by decide, ?_, trivial⟩
    exact ⟨⟨by decide, by decide, by decide, by decide⟩, by decide, trivial⟩
  short := by decide
  stat := fun _ _ => ⟨_, rfl⟩

theorem bin_in_order : NamesInOrder trailerGzip binFiles 2 (ascii "/r") (ascii "/r") binTree :=
  (names_in_order_iff trailerGzip binFiles 2 (ascii "/r") (ascii "/r") binTree rfl binTree_is (by decide)).mpr
    (by decide)

section Full

def fullTree : Nat → Forest UInt8
  | 0 => .done
  | depth + 1 => .dir (ascii "a") (fullTree depth) (.dir (ascii "b") (fullTree depth) .done)

def fullFiles (depth : Nat) : FileSystem where
  realpath := some
  opendir := fun path => some (if path.length < 2 + 2 * depth then [⟨ascii "a", true⟩, ⟨ascii "b", true⟩]
    else [])
  lstat := fun _ => some ⟨.directory 4096, 0o755⟩
  follow := fun _ => none

theorem fullTree_count (depth : Nat) : ((fullTree depth).paths 47).length + 2 = 2 ^ (depth + 1) := by
  induction depth with
  | zero => rfl
  | succ depth ih =>
    simp only [fullTree, Forest.paths, List.length_append, List.length_map, List.length_singleton, List.length_nil]
    rw [Nat.pow_succ, ← ih]
    omega

theorem fullTree_depth (depth : Nat) : (fullTree depth).depth = depth := by
  induction depth with
  | zero => rfl
  | succ depth ih => simp [fullTree, Forest.depth, ih]

theorem fullTree_named (depth : Nat) : (fullTree depth).Named ObjectName := by
  have letters : ObjectName (ascii "a") ∧ ObjectName (ascii "b") :=
    ⟨⟨by decide, by decide, by decide, by decide⟩, ⟨by decide, by decide, by decide, by decide⟩⟩
  induction depth with
  | zero => trivial
  | succ depth ih =>
    refine ⟨letters.1, ?_, ih, letters.2, by simp [Forest.entries], ih, trivial⟩
    intro isDir inside
    exact absurd (congrArg Prod.fst (List.mem_singleton.mp inside)) (show ascii "a" ≠ ascii "b" by decide)

theorem fullTree_short {depth : Nat} {name : Bytes} (inside : name ∈ (fullTree depth).paths 47) :
    name.length < 2 * depth := by
  induction depth generalizing name with
  | zero => cases inside
  | succ depth ih =>
    have letter (letter : Bytes) (one : letter.length = 1)
        (inside : name ∈ ((fullTree depth).paths 47).map (letter ++ 47 :: ·) ++ [letter]) :
        name.length < 2 * (depth + 1) := by
      rcases List.mem_append.mp inside with below | here
      · obtain ⟨path, deeper, rfl⟩ := List.mem_map.mp below
        have shorter := ih deeper
        simp only [List.length_append, List.length_cons, one]
        omega
      · rw [List.mem_singleton.mp here, one]
        omega
    rcases List.mem_append.mp inside with first | second
    · exact letter _ rfl first
    · rw [Forest.paths, Forest.paths, List.append_nil] at second
      exact letter _ rfl second

theorem fullTree_reads {whole : Nat} (depth : Nat) {front : Bytes} (level : front.length + 2 * depth = 2 + 2 * whole) :
    ReadsDir (fullFiles whole) front (fullTree depth) ∧ ReadsInner (fullFiles whole) front (fullTree depth) := by
  induction depth generalizing front with
  | zero =>
    refine ⟨⟨[], ?_, by simp, List.Perm.refl _⟩, trivial⟩
    exact congrArg some (if_neg (by omega))
  | succ depth ih =>
    have deeper (letter : Bytes) (one : letter.length = 1) : (objectPath front letter).length + 2 * depth =
        2 + 2 * whole := by
      simp only [objectPath, List.length_append, List.length_cons, one]
      omega
    refine ⟨⟨[⟨ascii "a", true⟩, ⟨ascii "b", true⟩], ?_, by decide, ?_⟩, ?_⟩
    · exact congrArg some (if_pos (by omega))
    · exact List.Perm.refl [(ascii "a", true), (ascii "b", true)]
    · obtain ⟨readsA, innerA⟩ := ih (deeper (ascii "a") rfl)
      obtain ⟨readsB, innerB⟩ := ih (deeper (ascii "b") rfl)
      exact ⟨readsA, innerA, readsB, innerB, trivial⟩

theorem fullTree_is {depth : Nat} (shallow : depth ≤ 1000) :
    IsTree (fullFiles depth) (ascii "/r") (fullTree depth) where
  top := (fullTree_reads depth rfl).1
  inner := (fullTree_reads depth rfl).2
  named := fullTree_named depth
  short := fun name inside => by
    have shorter := fullTree_short inside
    have root : (ascii "/r").length = 2 := rfl
    simp only [objectPath, List.length_append, List.length_cons, root, pathMax]
    omega
  stat := fun _ _ => ⟨_, rfl⟩

/-- In a directory with 2 ^ 32 - 2 objects, the index of the loop comes to its end. -/
theorem full_tree_overflows : (fullFiles 31).realpath (ascii "/r") = some (ascii "/r") ∧
    IsTree (fullFiles 31) (ascii "/r") (fullTree 31) ∧ (fullTree 31).depth < 32 ∧
    ¬ NamesInOrder trailerGzip (fullFiles 31) 32 (ascii "/r") (ascii "/r") (fullTree 31) := by
  have room : (fullTree 31).depth < 32 := by
    rw [fullTree_depth]
    omega
  have is : IsTree (fullFiles 31) (ascii "/r") (fullTree 31) := fullTree_is (by omega)
  refine ⟨rfl, is, room, fun ordered => ?_⟩
  have few := (archiveOut_tree rfl is room).mp ordered.ends
  have many := fullTree_count 31
  have bound : intMax = 2147483647 := rfl
  omega

end Full

end Bxxt.Proofs
