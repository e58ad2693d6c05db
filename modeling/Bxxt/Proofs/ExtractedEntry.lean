import Bxxt.Proofs.ExtractedTree
import Bxxt.Proofs.ExtractionEnds

/-! What the disk is after one entry of a ramdisk: the entry has its object and its data, or its
hard link has no file. -/

namespace Bxxt.Proofs
open Bxxt ByteLayout DirTree

section Names

def partName : PathPart Bytes → Option Bytes
  | .name name => some name
  | .here | .up => none

def pathNames (path : Bytes) : DiskPlace := (partsOf path).filterMap partName

theorem cleanup_level {path : DiskPath} (level : .up ∉ path) :
    cleanupPathname path = namesPath (path.filterMap partName) := by
  induction path with
  | nil => rfl
  | cons part path ih =>
    have rest := List.not_mem_of_not_mem_cons level
    cases part with
    | here => exact ih rest
    | up => exact absurd List.mem_cons_self level
    | name name =>
      rw [cleanup_cons_name, ih rest]
      rfl

theorem cleanup_path {root : DiskPlace} {path : Bytes} (level : .up ∉ partsOf path) :
    cleanupPathname (root.map .name ++ partsOf path) = namesPath (root ++ pathNames path) := by
  rw [cleanupPathname_root, cleanup_level level]
  exact List.map_append.symm

end Names
section Data
variable {a : WriteDisk} {ino : Nat} {buff : Bytes} {blocks : List Bytes}

def filled (a : WriteDisk) (ino : Nat) (data : Bytes) : WriteDisk :=
  { a with
    disk := { a.disk with content := Function.update a.disk.content ino (a.disk.content ino ++ data) }
    offset := a.offset + data.length }

theorem filled_nil (a : WriteDisk) (ino : Nat) : filled a ino [] = a := by
  unfold filled
  rw [List.append_nil, Function.update_eq_self]
  rfl

theorem filled_filled (a : WriteDisk) (ino : Nat) (data more : Bytes) :
    filled (filled a ino data) ino more = filled a ino (data ++ more) := by
  unfold filled
  simp only [Function.update_self, Function.update_idem, List.append_assoc, List.length_append, Nat.add_assoc]

theorem writeDataBlock_open (state : a.state = .data) (fd : a.fd = some ino)
    (fits : a.offset + buff.length ≤ a.filesize) :
    a.writeDataBlock buff = (archiveOk, filled a ino buff) := by
  have whole : buff.take (a.filesize - a.offset) = buff := List.take_of_length_le (by omega)
  rw [WriteDisk.writeDataBlock, if_neg (not_not_intro state), fd]
  dsimp only
  rw [whole, if_neg (Nat.lt_irrefl _), filled, fd]

theorem writeBlocks_open (state : a.state = .data) (fd : a.fd = some ino)
    (fits : a.offset + blocks.flatten.length ≤ a.filesize) :
    a.writeBlocks blocks = filled a ino blocks.flatten := by
  induction blocks generalizing a with
  | nil => exact (filled_nil a ino).symm
  | cons buff blocks ih =>
    rw [List.flatten_cons, List.length_append] at fits
    rw [WriteDisk.writeBlocks, writeDataBlock_open state fd (by omega)]
    dsimp only
    have later : (filled a ino buff).offset + blocks.flatten.length ≤ (filled a ino buff).filesize := by
      change a.offset + buff.length + _ ≤ a.filesize
      omega
    have run : (filled a ino buff).writeBlocks blocks = _ := ih state fd later
    rw [if_neg (Int.lt_irrefl _), run, filled_filled, List.flatten_cons]

theorem writeBlocks_closed (state : a.state = .data) (fd : a.fd = none) : a.writeBlocks blocks = a := by
  induction blocks with
  | nil => rfl
  | cons buff blocks ih =>
    rw [WriteDisk.writeBlocks, WriteDisk.writeDataBlock, if_neg (not_not_intro state), fd]
    dsimp only
    by_cases empty : buff = []
    · rw [if_pos empty, if_neg (Int.lt_irrefl _)]
      exact ih
    · rw [if_neg empty, if_pos (by decide)]

variable (blocks) in
/-- Blocks that come when no entry is open change no file. -/
theorem writeBlocks_refused (state : a.state ≠ .data) :
    (a.writeBlocks blocks).disk = a.disk ∧ (a.writeBlocks blocks).state ≠ .data := by
  cases blocks with
  | nil => exact ⟨rfl, state⟩
  | cons buff blocks =>
    rw [WriteDisk.writeBlocks, WriteDisk.writeDataBlock, if_pos state]
    dsimp only
    rw [if_pos (by decide)]
    exact ⟨rfl, by simp⟩

theorem finishEntry_refused (state : a.state ≠ .data) : a.finishEntry = a := by
  unfold WriteDisk.finishEntry
  split
  next data _ => exact absurd data state
  next data _ => exact absurd data state
  next => rfl
  next => rfl

theorem finishEntry_full (state : a.state = .data) (full : a.fd = none ∨ a.offset = a.filesize) :
    a.finishEntry.disk = a.disk ∧ a.finishEntry.state = .header := by
  unfold WriteDisk.finishEntry
  split
  next ino _ fd =>
    have same : a.offset = a.filesize := full.resolve_left (by simp [fd])
    rw [same, Nat.sub_self, List.replicate_zero, List.append_nil, Function.update_eq_self]
    exact ⟨rfl, rfl⟩
  next => exact ⟨rfl, rfl⟩
  next header => cases header.symm.trans state
  next fatal => cases fatal.symm.trans state

end Data
section Writing
variable {root : DiskPlace} {a b : WriteDisk} {e : ReadEntry} {name : Bytes} {ino : Nat}

def opening (a : WriteDisk) (e : ReadEntry) : WriteDisk := { a with fd := none, offset := 0, filesize := e.size }

theorem writeHeader_restored (state : a.state ≠ .fatal) (level : .up ∉ partsOf name) {r : Int}
    (restored : (opening a e).restoreEntry e (namesPath (root ++ pathNames name)) = (r, b)) :
    a.writeHeader e (root.map .name ++ partsOf name) =
      let b := if r = archiveOk then { b with state := .data } else b
      if b.fd = none then { b with filesize := 0 } else b := by
  rw [WriteDisk.writeHeader, if_neg state, cleanup_path level]
  rw [opening] at restored
  rw [restored]

/-- An entry with a file has its data in it. -/
theorem written_open (state : a.state ≠ .fatal) (level : .up ∉ partsOf name)
    (data : e.blocks.flatten.length = e.size)
    (restored : (opening a e).restoreEntry e (namesPath (root ++ pathNames name)) = (archiveOk, b))
    (fd : b.fd = some ino) (offset : b.offset = 0) (size : b.filesize = e.size) :
    (written root a e name).disk = (filled b ino e.blocks.flatten).disk ∧
      (written root a e name).state = .header := by
  have opened : ({ b with state := .data } : WriteDisk).fd = some ino := fd
  rw [written, writeHeader_restored state level restored]
  dsimp only
  rw [if_pos rfl, if_neg (by simp [fd]), writeBlocks_open rfl opened]
  · refine finishEntry_full rfl (Or.inr ?_)
    change b.offset + _ = b.filesize
    rw [offset, size, data, Nat.zero_add]
  · change b.offset + _ ≤ b.filesize
    rw [offset, size, data, Nat.zero_add]

theorem written_closed (state : a.state ≠ .fatal) (level : .up ∉ partsOf name)
    (restored : (opening a e).restoreEntry e (namesPath (root ++ pathNames name)) = (archiveOk, b)) (fd : b.fd = none) :
    (written root a e name).disk = b.disk ∧ (written root a e name).state = .header := by
  rw [written, writeHeader_restored state level restored]
  dsimp only
  rw [if_pos rfl, if_pos fd]
  have run : ({ b with state := .data, filesize := 0 } : WriteDisk).writeBlocks e.blocks = _ :=
    writeBlocks_closed rfl fd
  dsimp only
  rw [run]
  exact finishEntry_full rfl (Or.inl fd)

/-- An entry that is not made, in a writer that takes the data of no entry. -/
theorem written_failed (state : a.state = .header) (level : .up ∉ partsOf name)
    (restored : (opening a e).restoreEntry e (namesPath (root ++ pathNames name)) = (archiveFailed, b))
    (fd : b.fd = none) (still : b.state = .header) :
    (written root a e name).disk = b.disk ∧ (written root a e name).state ≠ .data := by
  have refused : ({ b with filesize := 0 } : WriteDisk).state ≠ .data := by
    rw [show ({ b with filesize := 0 } : WriteDisk).state = .header from still]
    simp
  have notOk : archiveFailed ≠ archiveOk := by decide
  rw [written, writeHeader_restored (by simp [state]) level restored]
  dsimp only
  rw [if_neg notOk, if_pos fd]
  obtain ⟨disk, stays⟩ := writeBlocks_refused e.blocks refused
  rw [finishEntry_refused stays]
  exact ⟨disk, stays⟩

variable (root e name) in
theorem written_fatal (state : a.state = .fatal) :
    (written root a e name).disk = a.disk ∧ (written root a e name).state ≠ .data := by
  rw [written, WriteDisk.writeHeader, if_pos state]
  obtain ⟨disk, stays⟩ := writeBlocks_refused (a := a) e.blocks (by simp [state])
  rw [finishEntry_refused stays]
  exact ⟨disk, stays⟩

end Writing
section Entries
variable {root parent : DiskPlace} {d disk : Disk} {a b : WriteDisk} {e : ReadEntry} {name last linkname : Bytes}
  {object : DiskObject} {source : DiskPlace} {ino : Nat}

theorem laid_put {dir : Prop} (found : disk.find = withDirs d.find parent) (belongs : dir → object = .dir) :
    Laid d.find (disk.put (parent ++ [last]) object).find (parent ++ [last]) dir := by
  by_cases isDir : dir
  · refine ⟨parent ++ [last], List.prefix_refl _, fun _ => isDir, fun other _ => ?_⟩
    rw [find_put, found, withDirs_append, belongs isDir]
    split
    next top =>
      rw [top, if_neg (by simp), withDirs, if_pos List.nil_prefix]
    next => rfl
  · refine ⟨parent, List.prefix_append parent [last], fun same => absurd same (by simp), fun other apart => ?_⟩
    rw [find_put, if_neg fun same => isDir (apart same), found]
    split
    next top =>
      rw [top, withDirs, if_pos List.nil_prefix]
    next => rfl

/-- An entry is on the disk, with nothing else there but directories of its path, and the writer
waits for the next header. -/
structure Lands (place : DiskPlace) (e : ReadEntry) (ino : Nat) (a b : WriteDisk) : Prop where
  state : b.state = .header
  cwd : b.disk.cwd = a.disk.cwd
  laid : Laid a.disk.find b.disk.find place (e.filetype = .directory)
  object : b.disk.find place = some (entryObject e ino)

/-- A place that is not there yet, as its directories and its name. -/
theorem vacant_absent {place : DiskPlace} {dir : Prop} (vacant : Vacant d.find place dir)
    (absent : d.find place = none) :
    ∃ there missing last, place = there ++ missing ++ [last] ∧ Descends d.find there missing := by
  rcases List.eq_nil_or_concat' place with rfl | ⟨parent, last, rfl⟩
  · cases absent.symm.trans (find_top d)
  · obtain ⟨there, missing, rfl, reaches⟩ := (vacant.front (List.prefix_append parent [last])).split (find_top d)
    exact ⟨there, missing, last, rfl, reaches⟩

/-- A directory that is there, or whose place other entries have made. -/
theorem entry_there (plain : PlainEntry e) (isDirectory : e.filetype = .directory) (state : a.state ≠ .fatal)
    (level : .up ∉ partsOf name)
    (dirs : ∀ front, front <+: root ++ pathNames name → a.disk.find front = some .dir) :
    (written root a e name).disk = a.disk ∧ (written root a e name).state = .header := by
  have restored : (opening a e).restoreEntry e (namesPath (root ++ pathNames name)) = (archiveOk, opening a e) :=
    restoreEntry_there (a := opening a e) plain isDirectory dirs
  exact written_closed (b := opening a e) state level restored rfl

theorem lands_put {place there missing : DiskPlace} (shape : place = there ++ missing ++ [last])
    (header : b.state = .header) (cwd : b.disk.cwd = a.disk.cwd)
    (found : disk.find = withDirs a.disk.find (there ++ missing))
    (same : b.disk.find = (disk.put place (entryObject e ino)).find) : Lands place e ino a b := by
  subst shape
  refine ⟨header, cwd, ?_, ?_⟩
  · rw [same]
    apply laid_put found
    intro isDirectory
    rw [entryObject, isDirectory]
  · rw [same, find_put, if_neg (by simp), if_pos rfl]

variable (root) in
theorem entry_new (plain : PlainEntry e) (state : a.state ≠ .fatal) (level : .up ∉ partsOf name)
    (data : e.filetype = .regular → e.blocks.flatten.length = e.size)
    (vacant : Vacant a.disk.find (root ++ pathNames name) (e.filetype = .directory))
    (absent : a.disk.find (root ++ pathNames name) = none) :
    Lands (root ++ pathNames name) e a.disk.inodes a (written root a e name) ∧
      (e.filetype = .regular → (written root a e name).disk.inodes = a.disk.inodes + 1 ∧
        (written root a e name).disk.content = Function.update a.disk.content a.disk.inodes e.blocks.flatten) ∧
      (e.filetype ≠ .regular → (written root a e name).disk.inodes = a.disk.inodes ∧
        (written root a e name).disk.content = a.disk.content) := by
  obtain ⟨there, missing, last, shape, reaches⟩ := vacant_absent vacant absent
  rw [shape] at absent
  obtain ⟨objects, made, restored, found⟩ := restoreEntry_new (a := opening a e) plain reaches absent
  rw [← shape] at restored
  obtain ⟨find, cwd⟩ := placed_disk (withObjects (opening a e) objects made) e (root ++ pathNames name)
  obtain ⟨offset, size⟩ := placed_writer (withObjects (opening a e) objects made) e (root ++ pathNames name)
  by_cases regular : e.filetype = .regular
  · obtain ⟨fd, inodes, content⟩ := placed_file (withObjects (opening a e) objects made)
      (root ++ pathNames name) regular
    obtain ⟨disk, header⟩ := written_open state level (data regular) restored fd offset size
    refine ⟨?_, fun _ => ?_, fun other => absurd regular other⟩
    · refine lands_put shape header ?_ found ?_
      · rw [disk]
        exact cwd
      · rw [disk]
        exact find
    · rw [disk]
      refine ⟨inodes, ?_⟩
      dsimp only [filled]
      rw [content, Function.update_self, List.nil_append]
      exact Function.update_idem _ _ _
  · obtain ⟨fd, inodes, content⟩ := placed_other (withObjects (opening a e) objects made)
      (root ++ pathNames name) regular
    obtain ⟨disk, header⟩ := written_closed state level restored fd
    refine ⟨?_, fun other => absurd other regular, fun _ => ?_⟩
    · refine lands_put shape header ?_ found ?_
      · rw [disk]
        exact cwd
      · rw [disk]
        exact find
    · rw [disk]
      exact ⟨inodes, content⟩

variable (root) in
/-- One more name of a file, whose data is that of the entry if it has any. -/
theorem entry_linked (regular : e.filetype = .regular) (hardlink : e.hardlink = some linkname)
    (leads : LinkLeads a.disk linkname source ino) (state : a.state ≠ .fatal) (level : .up ∉ partsOf name)
    (data : e.blocks.flatten.length = e.size)
    (vacant : Vacant a.disk.find (root ++ pathNames name) (e.filetype = .directory))
    (absent : a.disk.find (root ++ pathNames name) = none) :
    Lands (root ++ pathNames name) e ino a (written root a e name) ∧
      (written root a e name).disk.inodes = a.disk.inodes ∧
      (written root a e name).disk.content =
        if e.blocks.flatten = [] then a.disk.content else Function.update a.disk.content ino e.blocks.flatten := by
  obtain ⟨there, missing, last, shape, reaches⟩ := vacant_absent vacant absent
  rw [shape] at absent
  obtain ⟨objects, made, restored, found⟩ := restoreEntry_linked (a := opening a e) hardlink leads reaches absent
  rw [← shape] at restored
  obtain ⟨find, cwd, inodes⟩ := joined_disk (withObjects (opening a e) objects made) source
    (root ++ pathNames name) ino e.size
  obtain ⟨offset, size⟩ := joined_writer (withObjects (opening a e) objects made) source
    (root ++ pathNames name) ino e.size
  have object : entryObject e ino = .leaf (.regular ino) := by rw [entryObject, regular]
  rw [← object] at find
  by_cases empty : e.size = 0
  · rw [empty] at data
    have nothing := List.length_eq_zero_iff.mp data
    have fd : (joined (withObjects (opening a e) objects made) source (root ++ pathNames name) ino e.size).fd =
        none := by
      rw [empty]
      rfl
    obtain ⟨disk, header⟩ := written_closed state level restored fd
    rw [if_pos nothing]
    refine ⟨?_, ?_, ?_⟩
    · refine lands_put shape header ?_ found ?_
      · rw [disk]
        exact cwd
      · rw [disk]
        exact find
    · rw [disk]
      exact inodes
    · rw [disk, empty]
      rfl
  · obtain ⟨fd, content⟩ := joined_data (withObjects (opening a e) objects made) source
      (root ++ pathNames name) ino empty
    obtain ⟨disk, header⟩ := written_open state level data restored fd offset size
    have some : e.blocks.flatten ≠ [] := by
      intro nothing
      rw [nothing] at data
      exact empty data.symm
    rw [if_neg some]
    refine ⟨?_, ?_, ?_⟩
    · refine lands_put shape header ?_ found ?_
      · rw [disk]
        exact cwd
      · rw [disk]
        exact find
    · rw [disk]
      exact inodes
    · rw [disk]
      dsimp only [filled]
      rw [content, Function.update_self, List.nil_append]
      exact Function.update_idem _ _ _

variable (root) in
/-- A hard link that finds no file: only directories are new. -/
theorem entry_removed (hardlink : e.hardlink = some linkname) (named : linkname ≠ [])
    (linkLevel : .up ∉ partsOf linkname) (removed : RemovedAt a.disk (linkBase a.disk linkname))
    (apart : ¬ linkBase a.disk linkname <+: root ++ pathNames name)
    (state : a.state ≠ .data) (level : .up ∉ partsOf name)
    (vacant : Vacant a.disk.find (root ++ pathNames name) (e.filetype = .directory))
    (absent : a.disk.find (root ++ pathNames name) = none) :
    (written root a e name).state ≠ .data ∧ (written root a e name).disk.cwd = a.disk.cwd ∧
      Laid a.disk.find (written root a e name).disk.find (root ++ pathNames name) (e.filetype = .directory) ∧
      (written root a e name).disk.find (root ++ pathNames name) = none := by
  by_cases fatal : a.state = .fatal
  · obtain ⟨disk, stays⟩ := written_fatal root e name fatal
    rw [disk]
    refine ⟨stays, rfl, Laid.refl (find_top _) fun top => ?_, absent⟩
    rw [top] at absent
    cases absent.symm.trans (find_top _)
  · have header : a.state = .header := by
      cases now : a.state with
      | header => rfl
      | data => exact absurd now state
      | fatal => exact absurd now fatal
    obtain ⟨there, missing, last, shape, reaches⟩ := vacant_absent vacant absent
    rw [shape] at absent apart
    obtain ⟨objects, made, restored, found⟩ :=
      restoreEntry_removed (a := opening a e) last hardlink named linkLevel removed
      (fun inside => apart (inside.trans (List.prefix_append _ _))) reaches
    rw [← shape] at restored
    obtain ⟨disk, stays⟩ := written_failed header level restored rfl header
    have same : (written root a e name).disk.find = withDirs a.disk.find (there ++ missing) := by
      rw [disk]
      exact found
    refine ⟨stays, ?_, ?_, ?_⟩
    · rw [disk]
      rfl
    · rw [shape]
      refine ⟨there ++ missing, List.prefix_append _ _, fun all => absurd all (by simp), fun other _ => ?_⟩
      rw [same]
    · rw [same, shape]
      exact withDirs_below absent

end Entries
end Bxxt.Proofs
