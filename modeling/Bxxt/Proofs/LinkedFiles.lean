import Bxxt.Proofs.ExtractedEntry
import Mathlib.Data.Fintype.EquivFin

/-! Ramdisks with files that have several names. The reader makes each later entry of such a file a
hard link to the first one, by the name that this has in the archive. That name is looked up from
where the process works, and not in the directory that is unpacked to. -/

namespace Bxxt.Proofs
open Bxxt ByteLayout DirTree

section Archives

/-- Two names of one file, as the reader sees it. -/
def Linked (h g : CpioHeader) : Prop := 1 < h.nlink ∧ 1 < g.nlink ∧ h.dev = g.dev ∧ h.ino = g.ino

instance (h g : CpioHeader) : Decidable (Linked h g) := inferInstanceAs (Decidable (_ ∧ _))

def entryNames (h : CpioHeader) : DiskPlace := pathNames (h.pathname.getD [])
def entryData (h : CpioHeader) : Bytes := h.blocks.flatten

/-- What tells the files of an archive apart: device and inode where a file has several names, and
else its path. -/
inductive FileKey where
  | linked (dev ino : Nat)
  | single (names : DiskPlace)
  deriving DecidableEq

def fileKey (h : CpioHeader) : FileKey := if 1 < h.nlink then .linked h.dev h.ino else .single (entryNames h)

/-- The content that an archive gives a file. Any of its names may have the data. -/
def fileContent (headers : List CpioHeader) (key : FileKey) : Bytes :=
  (((headers.filter fun h => fileKey h = key).map entryData).filter (· ≠ [])).getLast?.getD []

/-- The headers of an archive that was made from a tree. Only directories have other entries in them
or come twice, only files have several names, and no name has a step up in it. -/
structure ArchiveTree (root : DiskPlace) (headers : List CpioHeader) : Prop where
  named : ∀ h ∈ headers, ∃ name, h.pathname = some name ∧ .up ∉ partsOf name ∧ PathFits root h
  top : ∀ h ∈ headers, entryNames h = [] → h.filetype = .directory
  targets : ∀ h ∈ headers, h.filetype = .symlink → h.symlink ≠ []
  data : ∀ h ∈ headers, h.filetype = .regular → (entryData h).length = h.size
  apart : headers.Pairwise fun h g => (entryNames h <+: entryNames g → h.filetype = .directory) ∧
    (entryNames g <+: entryNames h → g.filetype = .directory)
  files : headers.Pairwise fun h g => Linked h g → h.filetype = .regular ∧ g.filetype = .regular
  counts : ∀ h ∈ headers, 1 < h.nlink → headers.countP (fun g => Linked h g) ≤ h.nlink

structure Extracted (root : DiskPlace) (headers : List CpioHeader) (out : WriteDisk × Exec Int) : Prop where
  ends : out.2 = .ok archiveOk
  objects : ∀ h ∈ headers, ∃ ino, out.1.disk.find (root ++ entryNames h) =
    some (entryObject (h.entry none) ino) ∧
    (h.filetype = .regular → out.1.disk.content ino = fileContent headers (fileKey h))

theorem Linked.key {h g : CpioHeader} (linked : Linked h g) : fileKey h = fileKey g := by
  obtain ⟨first, second, dev, ino⟩ := linked
  rw [fileKey, fileKey, if_pos first, if_pos second, dev, ino]

theorem linked_of_key {h g : CpioHeader} (same : fileKey h = fileKey g) (names : entryNames h ≠ entryNames g) :
    Linked h g := by
  rw [fileKey, fileKey] at same
  split at same
  next first =>
    split at same
    next second =>
      obtain ⟨dev, ino⟩ := FileKey.linked.inj same
      exact ⟨first, second, dev, ino⟩
    next => cases same
  next =>
    split at same
    next => cases same
    next => exact absurd (FileKey.single.inj same) names

theorem fileContent_concat (done : List CpioHeader) (h : CpioHeader) (key : FileKey) : fileContent (done ++ [h]) key =
    if fileKey h = key ∧ entryData h ≠ [] then entryData h else fileContent done key := by
  unfold fileContent
  rw [List.filter_append, List.map_append, List.filter_append]
  by_cases here : fileKey h = key
  · by_cases empty : entryData h = []
    · simp [here, empty]
    · simp [here, empty]
  · simp [here]

theorem fileContent_other {done : List CpioHeader} {key : FileKey} (others : ∀ h ∈ done, fileKey h ≠ key) :
    fileContent done key = [] := by
  have empty : done.filter (fun h => fileKey h = key) = [] := List.filter_eq_nil_iff.mpr (by simpa using others)
  rw [fileContent, empty]
  rfl

end Archives
section Links
variable {root : DiskPlace} {done rest : List CpioHeader} {links : List LinksEntry} {h : CpioHeader}

/-- What the reader's list of links knows of the files whose names are not all read: each record is
of an entry that was read, and each such entry has a record or no names to come. -/
structure Recorded (done : List CpioHeader) (links : List LinksEntry) : Prop where
  sound : ∀ le ∈ links, ∃ f ∈ done, 1 < f.nlink ∧ f.dev = le.dev ∧ f.ino = le.ino ∧
    f.pathname = some le.name ∧
    f.nlink ≤ le.links + done.countP (fun g => Linked f g)
  complete : ∀ g ∈ done, 1 < g.nlink → (∃ le ∈ links, le.dev = g.dev ∧ le.ino = g.ino) ∨
    ∃ f ∈ done, Linked f g ∧ f.nlink ≤ done.countP (fun g => Linked f g)

variable (done h) in
theorem countP_concat (f : CpioHeader) : (done ++ [h]).countP (fun g => Linked f g) =
    done.countP (fun g => Linked f g) + if Linked f h then 1 else 0 := by
  rw [List.countP_append, List.countP_singleton]
  simp

theorem Recorded.keeps (recorded : Recorded done links) {le : LinksEntry} (member : le ∈ links) :
    ∃ f ∈ done ++ [h], 1 < f.nlink ∧ f.dev = le.dev ∧ f.ino = le.ino ∧ f.pathname = some le.name ∧
      f.nlink ≤ le.links + (done ++ [h]).countP (fun g => Linked f g) := by
  obtain ⟨f, inside, many, dev, ino, name, left⟩ := recorded.sound le member
  refine ⟨f, List.mem_append_left _ inside, many, dev, ino, name, ?_⟩
  rw [countP_concat]
  omega

theorem Recorded.all_read {g : CpioHeader}
    (read : ∃ f ∈ done, Linked f g ∧ f.nlink ≤ done.countP (fun g => Linked f g)) :
    ∃ f ∈ done ++ [h], Linked f g ∧ f.nlink ≤ (done ++ [h]).countP (fun g => Linked f g) := by
  obtain ⟨f, inside, linked, all⟩ := read
  refine ⟨f, List.mem_append_left _ inside, linked, ?_⟩
  rw [countP_concat]
  omega

/-- A later name of a file is a hard link to the first one, and any other entry is none. -/
theorem recordHardlink_spec (tree : ArchiveTree root (done ++ h :: rest)) (recorded : Recorded done links) :
    ∃ hardlink kept, recordHardlink links h = .ok (hardlink, kept) ∧ Recorded (done ++ [h]) kept ∧
      ((hardlink = none ∧ ∀ g ∈ done, ¬ Linked g h) ∨ ∃ f ∈ done, Linked f h ∧
        hardlink = f.pathname) := by
  obtain ⟨name, named, _, _⟩ := tree.named h (List.mem_append_right _ List.mem_cons_self)
  rw [recordHardlink]
  split
  next single =>
    refine ⟨_, _, rfl, ⟨fun le member => recorded.keeps member, ?_⟩, Or.inl ⟨rfl, fun g _ linked => ?_⟩⟩
    · intro g member many
      rcases List.mem_append.mp member with before | new
      · exact (recorded.complete g before many).imp_right Recorded.all_read
      · rw [List.mem_singleton.mp new] at many
        omega
    · have := linked.2.1
      omega
  next several =>
    have many : 1 < h.nlink := by omega
    split
    next i found =>
      obtain ⟨inside, matched, _⟩ := List.findIdx?_eq_some_iff_getElem.mp found
      obtain ⟨sameDev, sameIno⟩ := of_decide_eq_true matched
      rw [List.getElem?_eq_getElem inside]
      obtain ⟨f, first, fMany, fDev, fIno, fName, left⟩ := recorded.sound _ (List.getElem_mem inside)
      have linked : Linked f h := ⟨fMany, many, fDev.trans sameDev, fIno.trans sameIno⟩
      refine ⟨_, _, rfl, ?_, Or.inr ⟨f, first, linked, fName.symm⟩⟩
      have count := countP_concat done h f
      rw [if_pos linked] at count
      -- entries of other files stay, and this one stays until its last name
      split
      next last =>
        constructor
        · intro le member
          exact recorded.keeps (List.mem_of_mem_eraseIdx member)
        · intro g member gMany
          by_cases other : g.dev = h.dev ∧ g.ino = h.ino
          · refine Or.inr ⟨f, List.mem_append_left _ first, ⟨fMany, gMany, ?_, ?_⟩, by omega⟩
            · exact linked.2.2.1.trans other.1.symm
            · exact linked.2.2.2.trans other.2.symm
          · have before : g ∈ done := by
              rcases List.mem_append.mp member with before | new
              · exact before
              · rw [List.mem_singleton.mp new] at other
                exact absurd ⟨rfl, rfl⟩ other
            rcases recorded.complete g before gMany with ⟨le, inLinks, dev, ino⟩ | read
            · refine Or.inl ⟨le, ?_, dev, ino⟩
              obtain ⟨j, jInside, rfl⟩ := List.mem_iff_getElem.mp inLinks
              refine List.mem_eraseIdx_iff_getElem.mpr ⟨j, jInside, fun same => ?_, rfl⟩
              subst same
              exact other ⟨dev.symm.trans sameDev, ino.symm.trans sameIno⟩
            · exact Or.inr (Recorded.all_read read)
      next more =>
        constructor
        · intro le member
          rcases List.mem_or_eq_of_mem_set member with before | rfl
          · exact recorded.keeps before
          · refine ⟨f, List.mem_append_left _ first, fMany, fDev, fIno, fName, ?_⟩
            dsimp only
            omega
        · intro g member gMany
          by_cases other : g.dev = h.dev ∧ g.ino = h.ino
          · refine Or.inl ⟨_, List.mem_set inside _, ?_, ?_⟩
            · exact sameDev.trans other.1.symm
            · exact sameIno.trans other.2.symm
          · have before : g ∈ done := by
              rcases List.mem_append.mp member with before | new
              · exact before
              · rw [List.mem_singleton.mp new] at other
                exact absurd ⟨rfl, rfl⟩ other
            rcases recorded.complete g before gMany with ⟨le, inLinks, dev, ino⟩ | read
            · refine Or.inl ⟨le, ?_, dev, ino⟩
              obtain ⟨j, jInside, rfl⟩ := List.mem_iff_getElem.mp inLinks
              refine List.mem_iff_getElem.mpr ⟨j, by rwa [List.length_set], ?_⟩
              apply List.getElem_set_ne
              rintro rfl
              exact other ⟨dev.symm.trans sameDev, ino.symm.trans sameIno⟩
            · exact Or.inr (Recorded.all_read read)
    next absent =>
      rw [named]
      have self : Linked h h := ⟨many, many, rfl, rfl⟩
      have count := countP_concat done h h
      rw [if_pos self] at count
      refine ⟨_, _, rfl, ⟨?_, ?_⟩, Or.inl ⟨rfl, ?_⟩⟩
      · intro le member
        rcases List.mem_cons.mp member with rfl | before
        · refine ⟨h, by simp, many, rfl, rfl, named, ?_⟩
          dsimp only
          omega
        · exact recorded.keeps before
      · intro g member gMany
        rcases List.mem_append.mp member with before | new
        · rcases recorded.complete g before gMany with ⟨le, inLinks, same⟩ | read
          · exact Or.inl ⟨le, List.mem_cons_of_mem _ inLinks, same⟩
          · exact Or.inr (Recorded.all_read read)
        · rw [List.mem_singleton.mp new]
          exact Or.inl ⟨_, List.mem_cons_self, rfl, rfl⟩
      · intro g before linked
        obtain ⟨gMany, _, dev, ino⟩ := linked
        rcases recorded.complete g before gMany with ⟨le, inLinks, sameDev, sameIno⟩ |
          ⟨f, first, ⟨fMany, _, fDev, fIno⟩, all⟩
        · have missed := List.findIdx?_eq_none_iff.mp absent le inLinks
          simp [sameDev, sameIno, dev, ino] at missed
        · -- one name more than the file has
          have most := tree.counts f (List.mem_append_left _ first) fMany
          have next : Linked f h := ⟨fMany, many, fDev.trans dev, fIno.trans ino⟩
          rw [List.countP_append, List.countP_cons_of_pos (by simpa using next)] at most
          omega

end Links
section Steps
variable {root : DiskPlace} {done rest : List CpioHeader} {a : WriteDisk} {h : CpioHeader}
  {hardlink : Option Bytes} {name : Bytes} {inode : FileKey → Nat}

/-- The invariant of an extraction: the entries that were read are on the disk, and every file has
one inode with the content that its names have given so far. -/
structure Extracting (root : DiskPlace) (done : List CpioHeader) (inode : FileKey → Nat) (a : WriteDisk) : Prop where
  state : a.state = .header
  objects : ∀ h ∈ done, a.disk.find (root ++ entryNames h) = some (entryObject (h.entry none) (inode (fileKey h)))
  files : ∀ h ∈ done, h.filetype = .regular → inode (fileKey h) < a.disk.inodes ∧
    a.disk.content (inode (fileKey h)) = fileContent done (fileKey h)
  apart : ∀ h ∈ done, ∀ g ∈ done, h.filetype = .regular → g.filetype = .regular →
    inode (fileKey h) = inode (fileKey g) →
    fileKey h = fileKey g

def Awaits (root : DiskPlace) (rest : List CpioHeader) (d : Disk) : Prop :=
  ∀ g ∈ rest, Vacant d.find (root ++ entryNames g) (g.filetype = .directory)

theorem ArchiveTree.before (tree : ArchiveTree root (done ++ h :: rest)) {g : CpioHeader} (inside : g ∈ done) :
    ((entryNames g <+: entryNames h → g.filetype = .directory) ∧
      (entryNames h <+: entryNames g → h.filetype = .directory)) ∧
      (Linked g h → g.filetype = .regular ∧ h.filetype = .regular) :=
  ⟨(List.pairwise_append.mp tree.apart).2.2 g inside h List.mem_cons_self,
    (List.pairwise_append.mp tree.files).2.2 g inside h List.mem_cons_self⟩

/-- An entry does not share its file by accident. -/
theorem ArchiveTree.key_apart (tree : ArchiveTree root (done ++ h :: rest)) {g : CpioHeader} (inside : g ∈ done)
    (file : g.filetype = .regular ∨ h.filetype = .regular) (same : fileKey g = fileKey h) : Linked g h := by
  obtain ⟨⟨down, up⟩, _⟩ := tree.before inside
  apply linked_of_key same
  intro names
  rcases file with regular | regular
  · cases regular.symm.trans (down (names ▸ List.prefix_refl _))
  · cases regular.symm.trans (up (names ▸ List.prefix_refl _))

theorem Awaits.step (awaits : Awaits root (h :: rest) a.disk) (tree : ArchiveTree root (done ++ h :: rest)) {d : Disk}
    (laid : Laid a.disk.find d.find (root ++ entryNames h) (h.filetype = .directory)) : Awaits root rest d := by
  intro g inside
  obtain ⟨down, up⟩ := (List.pairwise_cons.mp (List.pairwise_append.mp tree.apart).2.1).1 g inside
  apply (awaits g (List.mem_cons_of_mem _ inside)).laid laid
  · exact fun above => down ((List.prefix_append_right_inj root).mp above)
  · exact fun below => up ((List.prefix_append_right_inj root).mp below)

theorem entryObject_other {e : ReadEntry} (other : e.filetype ≠ .regular) (ino second : Nat) :
    entryObject e ino = entryObject e second := by
  unfold entryObject
  split
  next regular => exact absurd regular other
  all_goals rfl

theorem ArchiveTree.plain (tree : ArchiveTree root (done ++ h :: rest)) : PlainEntry (h.entry none) :=
  ⟨rfl, tree.targets h (List.mem_append_right _ List.mem_cons_self)⟩

/-- A directory that comes once more changes nothing. -/
theorem Extracting.there (extracting : Extracting root done inode a) (tree : ArchiveTree root (done ++ h :: rest))
    (isDirectory : h.filetype = .directory) (found : a.disk.find (root ++ entryNames h) = some .dir) {b : WriteDisk}
    (disk : b.disk = a.disk) (header : b.state = .header) : Extracting root (done ++ [h]) inode b := by
  have others (g : CpioHeader) (inside : g ∈ done) (regular : g.filetype = .regular) :
      fileContent (done ++ [h]) (fileKey g) = fileContent done (fileKey g) := by
    rw [fileContent_concat, if_neg]
    rintro ⟨same, _⟩
    have linked := tree.key_apart inside (Or.inl regular) same.symm
    cases isDirectory.symm.trans ((tree.before inside).2 linked).2
  have old {g : CpioHeader} (inside : g ∈ done ++ [h]) (regular : g.filetype = .regular) : g ∈ done := by
    rcases List.mem_append.mp inside with before | new
    · exact before
    · rw [List.mem_singleton.mp new] at regular
      cases isDirectory.symm.trans regular
  refine ⟨header, ?_, ?_, ?_⟩
  · intro g inside
    rw [disk]
    rcases List.mem_append.mp inside with before | new
    · exact extracting.objects g before
    · rw [List.mem_singleton.mp new, found, entryObject]
      rw [show (h.entry none).filetype = .directory from isDirectory]
  · intro g inside regular
    have before := old inside regular
    rw [disk, others g before regular]
    exact extracting.files g before regular
  · intro g inside other otherInside regular otherRegular
    exact extracting.apart g (old inside regular) other (old otherInside otherRegular) regular otherRegular

theorem Extracting.new (extracting : Extracting root done inode a) (tree : ArchiveTree root (done ++ h :: rest))
    (alone : ∀ g ∈ done, ¬ Linked g h) {b : WriteDisk} (keeps : SubTree a.disk.find b.disk.find)
    (lands : Lands (root ++ entryNames h) (h.entry none) a.disk.inodes a b)
    (file : h.filetype = .regular → b.disk.inodes = a.disk.inodes + 1 ∧
      b.disk.content = Function.update a.disk.content a.disk.inodes (entryData h))
    (other : h.filetype ≠ .regular → b.disk.inodes = a.disk.inodes ∧ b.disk.content = a.disk.content) :
    Extracting root (done ++ [h]) (Function.update inode (fileKey h) a.disk.inodes) b := by
  have differs {g : CpioHeader} (inside : g ∈ done) (regular : g.filetype = .regular ∨ h.filetype = .regular) :
      fileKey g ≠ fileKey h := fun same => alone g inside (tree.key_apart inside regular same)
  have more : a.disk.inodes ≤ b.disk.inodes := by
    by_cases regular : h.filetype = .regular
    · rw [(file regular).1]
      exact Nat.le_succ _
    · rw [(other regular).1]
  have kept (ino : Nat) (used : ino < a.disk.inodes) : b.disk.content ino = a.disk.content ino := by
    by_cases regular : h.filetype = .regular
    · rw [(file regular).2, Function.update_of_ne (Nat.ne_of_lt used)]
    · rw [(other regular).2]
  refine ⟨lands.state, ?_, ?_, ?_⟩
  · intro g inside
    rcases List.mem_append.mp inside with before | new
    · rw [keeps _ _ (extracting.objects g before)]
      by_cases regular : g.filetype = .regular
      · rw [Function.update_of_ne (differs before (Or.inl regular))]
      · rw [entryObject_other regular]
    · rw [List.mem_singleton.mp new, Function.update_self]
      exact lands.object
  · intro g inside regular
    rcases List.mem_append.mp inside with before | new
    · have apart := differs before (Or.inl regular)
      obtain ⟨used, content⟩ := extracting.files g before regular
      rw [Function.update_of_ne apart, kept _ used, content, fileContent_concat, if_neg fun same => apart same.1.symm]
      exact ⟨Nat.lt_of_lt_of_le used more, rfl⟩
    · rw [List.mem_singleton.mp new] at regular ⊢
      obtain ⟨inodes, content⟩ := file regular
      rw [Function.update_self, content, Function.update_self, inodes, fileContent_concat,
        fileContent_other fun g before => differs before (Or.inr regular)]
      refine ⟨Nat.lt_succ_self _, ?_⟩
      by_cases empty : entryData h = []
      · rw [if_neg fun both => both.2 empty, empty]
      · rw [if_pos ⟨rfl, empty⟩]
  · intro g inside f otherInside regular otherRegular same
    rcases List.mem_append.mp inside with before | new
    · rw [Function.update_of_ne (differs before (Or.inl regular))] at same
      rcases List.mem_append.mp otherInside with earlier | new
      · rw [Function.update_of_ne (differs earlier (Or.inl otherRegular))] at same
        exact extracting.apart g before f earlier regular otherRegular same
      · rw [List.mem_singleton.mp new, Function.update_self] at same
        exact absurd same (Nat.ne_of_lt (extracting.files g before regular).1)
    · rw [List.mem_singleton.mp new, Function.update_self] at same
      rcases List.mem_append.mp otherInside with earlier | newer
      · rw [Function.update_of_ne (differs earlier (Or.inl otherRegular))] at same
        exact absurd same.symm (Nat.ne_of_lt (extracting.files f earlier otherRegular).1)
      · rw [List.mem_singleton.mp new, List.mem_singleton.mp newer]

theorem Extracting.linked (extracting : Extracting root done inode a) {f : CpioHeader} (first : f ∈ done)
    (linked : Linked f h) (file : f.filetype = .regular) {b : WriteDisk} (keeps : SubTree a.disk.find b.disk.find)
    (lands : Lands (root ++ entryNames h) (h.entry hardlink) (inode (fileKey f)) a b)
    (inodes : b.disk.inodes = a.disk.inodes) (content : b.disk.content =
      if entryData h = [] then a.disk.content else Function.update a.disk.content (inode (fileKey f)) (entryData h)) :
    Extracting root (done ++ [h]) inode b := by
  have same : fileKey h = fileKey f := linked.key.symm
  -- an entry with data gives it to all the names that are there
  have holds (g : CpioHeader) (before : g ∈ done) (regular : g.filetype = .regular) :
      inode (fileKey g) < b.disk.inodes ∧ b.disk.content (inode (fileKey g)) = fileContent (done ++ [h])
        (fileKey g) := by
    obtain ⟨used, old⟩ := extracting.files g before regular
    rw [inodes, content, fileContent_concat, same]
    refine ⟨used, ?_⟩
    by_cases empty : entryData h = []
    · rw [if_pos empty, if_neg fun both => both.2 empty, old]
    · rw [if_neg empty]
      by_cases own : fileKey f = fileKey g
      · rw [if_pos ⟨own, empty⟩, own, Function.update_self]
      · rw [if_neg fun both => own both.1, Function.update_of_ne, old]
        exact fun equal => own (extracting.apart g before f first regular file equal).symm
  have standsFor {g : CpioHeader} (inside : g ∈ done ++ [h]) (regular : g.filetype = .regular) :
      ∃ member ∈ done, member.filetype = .regular ∧ fileKey member = fileKey g := by
    rcases List.mem_append.mp inside with before | new
    · exact ⟨g, before, regular, rfl⟩
    · refine ⟨f, first, file, ?_⟩
      rw [List.mem_singleton.mp new, same]
  refine ⟨lands.state, ?_, ?_, ?_⟩
  · intro g inside
    rcases List.mem_append.mp inside with before | new
    · exact keeps _ _ (extracting.objects g before)
    · rw [List.mem_singleton.mp new, same]
      exact lands.object
  · intro g inside regular
    obtain ⟨member, before, memberRegular, key⟩ := standsFor inside regular
    rw [← key]
    exact holds member before memberRegular
  · intro g inside other otherInside regular otherRegular equal
    obtain ⟨member, before, memberRegular, key⟩ := standsFor inside regular
    obtain ⟨second, earlier, secondRegular, secondKey⟩ := standsFor otherInside otherRegular
    rw [← key, ← secondKey] at equal ⊢
    exact extracting.apart member before second earlier memberRegular secondRegular equal

/-- The name of a hard link leads, from where the writer looks for it, to the place that its first
name was extracted to. -/
def LinkFound (root : DiskPlace) (step : Disk × ReadEntry) : Prop :=
  ∀ linkname, step.2.hardlink = some linkname →
    step.1.locate (linkBase step.1 linkname) (partsOf linkname) = .ok (some (root ++ pathNames linkname))

theorem entryNames_eq (named : h.pathname = some name) : entryNames h = pathNames name := by
  rw [entryNames, named]
  rfl

theorem LinkFound.leads {f : CpioHeader} {linkname : Bytes} (found : LinkFound root (a.disk, h.entry (some linkname)))
    (named : f.pathname = some linkname) {ino : Nat}
    (file : a.disk.find (root ++ entryNames f) = some (.leaf (.regular ino))) :
    LinkLeads a.disk linkname (root ++ entryNames f) ino := by
  have located := found linkname rfl
  rw [← entryNames_eq named] at located
  refine ⟨?_, located, file⟩
  rintro rfl
  obtain ⟨front, last, next, shape, _⟩ := locate_some located
  have single : partsOf [] = [.here] := rfl
  rw [single] at shape
  obtain ⟨_, same⟩ := List.append_inj' (show [] ++ [PathPart.here] = front ++ [.name last] from shape) rfl
  cases same

theorem Extracting.step (extracting : Extracting root done inode a) (tree : ArchiveTree root (done ++ h :: rest))
    (awaits : Awaits root (h :: rest) a.disk) (named : h.pathname = some name) (level : .up ∉ partsOf name)
    (spec : (hardlink = none ∧ ∀ g ∈ done, ¬ Linked g h) ∨ ∃ f ∈ done, Linked f h ∧
      hardlink = f.pathname)
    (found : LinkFound root (a.disk, h.entry hardlink)) :
    ∃ next, Extracting root (done ++ [h]) next (written root a (h.entry hardlink) name) ∧
      Awaits root rest (written root a (h.entry hardlink) name).disk := by
  have member : h ∈ done ++ h :: rest := List.mem_append_right _ List.mem_cons_self
  have vacant := awaits h List.mem_cons_self
  have going : a.state ≠ .fatal := by simp [extracting.state]
  have names := entryNames_eq named
  rcases vacant.steps _ (List.prefix_refl _) with isDir | absent
  · -- the directory is there
    have isDirectory := vacant.fits isDir
    have single : hardlink = none := by
      rcases spec with ⟨single, _⟩ | ⟨f, first, linked, _⟩
      · exact single
      · cases isDirectory.symm.trans ((tree.before first).2 linked).2
    subst single
    have dirs (front : DiskPlace) (inside : front <+: root ++ pathNames name) : a.disk.find front = some .dir := by
      rw [← names] at inside
      exact vacant.closed front _ inside (List.prefix_refl _) isDir
    obtain ⟨disk, header⟩ := entry_there tree.plain isDirectory going level dirs
    refine ⟨inode, extracting.there tree isDirectory isDir disk header, ?_⟩
    rw [disk]
    exact fun g inside => awaits g (List.mem_cons_of_mem _ inside)
  · rw [names] at vacant absent
    rcases spec with ⟨rfl, alone⟩ | ⟨f, first, linked, same⟩
    · obtain ⟨lands, file, other⟩ := entry_new (a := a) root tree.plain going level
        (tree.data h member) vacant absent
      rw [← names] at vacant lands
      exact ⟨_, extracting.new tree alone (vacant.subTree lands.laid) lands file other, awaits.step tree lands.laid⟩
    · obtain ⟨fRegular, regular⟩ := (tree.before first).2 linked
      obtain ⟨linkname, fNamed, _⟩ := tree.named f (List.mem_append_left _ first)
      rw [fNamed] at same
      subst same
      have file : a.disk.find (root ++ entryNames f) = some (.leaf (.regular (inode (fileKey f)))) := by
        rw [extracting.objects f first, entryObject]
        rw [show (f.entry none).filetype = .regular from fRegular]
      obtain ⟨lands, inodes, content⟩ := entry_linked (a := a) root (e := h.entry (some linkname)) regular rfl
        (found.leads fNamed file) going level (tree.data h member regular) vacant absent
      rw [← names] at vacant lands
      exact ⟨_, extracting.linked first linked fRegular (vacant.subTree lands.laid) lands inodes content,
        awaits.step tree lands.laid⟩

end Steps
section Runs
variable {root : DiskPlace}

variable (root) in
theorem readEntries_cons {links kept : List LinksEntry} {a : WriteDisk} {h : CpioHeader}
    {hardlink : Option Bytes} {name : Bytes} (rest : List CpioHeader)
    (recorded : recordHardlink links h = .ok (hardlink, kept)) (named : h.pathname = some name)
    (fits : PathFits root h) :
    readEntries root links a (h :: rest) = readEntries root kept (written root a (h.entry hardlink) name) rest ∧
      readSteps root links a (h :: rest) =
        (a.disk, h.entry hardlink) :: readSteps root kept (written root a (h.entry hardlink) name) rest := by
  have entry : bxxtCpioArchiveReadEntry root a (h.entry hardlink) =
      .ok (archiveOk, written root a (h.entry hardlink) name) := by
    rw [PathFits, named, Option.getD_some] at fits
    rw [readEntry_named root (e := h.entry hardlink) named, if_neg (by omega)]
  rw [readEntries, readSteps, recorded]
  dsimp only
  rw [entry]
  exact ⟨if_neg (not_not_intro rfl), congrArg _ (if_neg (not_not_intro rfl))⟩

/-- The whole archive, by induction on the entries that are left. -/
theorem readEntries_extracts (rest : List CpioHeader) {done : List CpioHeader} {links : List LinksEntry} {a : WriteDisk}
    {inode : FileKey → Nat} (tree : ArchiveTree root (done ++ rest)) (recorded : Recorded done links)
    (extracting : Extracting root done inode a) (awaits : Awaits root rest a.disk)
    (found : ∀ step ∈ readSteps root links a rest, LinkFound root step) :
    (readEntries root links a rest).2 = .ok () ∧
      ∃ last, Extracting root (done ++ rest) last (readEntries root links a rest).1 := by
  induction rest generalizing done links a inode with
  | nil =>
    rw [List.append_nil]
    exact ⟨rfl, inode, extracting⟩
  | cons h rest ih =>
    obtain ⟨name, named, level, fits⟩ := tree.named h (List.mem_append_right _ List.mem_cons_self)
    obtain ⟨hardlink, kept, record, next, spec⟩ := recordHardlink_spec tree recorded
    obtain ⟨run, steps⟩ := readEntries_cons root (a := a) rest record named fits
    rw [steps] at found
    obtain ⟨own, others⟩ := List.forall_mem_cons.mp found
    obtain ⟨later, extracted, awaiting⟩ := extracting.step tree awaits named level spec own
    rw [run]
    rw [List.append_cons] at tree ⊢
    exact ih tree next extracted awaiting others

end Runs
section Removal
variable {root place : DiskPlace} {done rest : List CpioHeader} {a : WriteDisk} {h : CpioHeader}
  {hardlink : Option Bytes} {name : Bytes}

/-- A writer that works in a directory which is gone, and which is not on the way to any entry: a
name that is looked up from there is never found. -/
structure WorksNowhere (root : DiskPlace) (headers : List CpioHeader) (a : WriteDisk) : Prop where
  idle : a.state ≠ .data
  removed : RemovedAt a.disk a.disk.cwd
  apart : ∀ h ∈ headers, ¬ a.disk.cwd <+: root ++ entryNames h

/-- One entry there. It has an object only if it is no hard link. -/
theorem WorksNowhere.step (nowhere : WorksNowhere root (h :: rest) a) (tree : ArchiveTree root (done ++ h :: rest))
    (relative : ∀ f ∈ done, ∀ linkname, f.pathname = some linkname → isAbsolute linkname = false)
    (awaits : Awaits root (h :: rest) a.disk) (named : h.pathname = some name) (level : .up ∉ partsOf name)
    (spec : (hardlink = none ∧ ∀ g ∈ done, ¬ Linked g h) ∨ ∃ f ∈ done, Linked f h ∧
      hardlink = f.pathname) :
    WorksNowhere root rest (written root a (h.entry hardlink) name) ∧
      Laid a.disk.find (written root a (h.entry hardlink) name).disk.find (root ++ entryNames h)
        (h.filetype = .directory) ∧
      ((∃ f ∈ done, Linked f h) → a.disk.find (root ++ entryNames h) = none →
        (written root a (h.entry hardlink) name).disk.find (root ++ entryNames h) = none) := by
  have names := entryNames_eq named
  have vacant := awaits h List.mem_cons_self
  suffices step : (written root a (h.entry hardlink) name).state ≠ .data ∧
      (written root a (h.entry hardlink) name).disk.cwd = a.disk.cwd ∧
      Laid a.disk.find (written root a (h.entry hardlink) name).disk.find (root ++ entryNames h)
        (h.filetype = .directory) ∧
      ((∃ f ∈ done, Linked f h) → a.disk.find (root ++ entryNames h) = none →
        (written root a (h.entry hardlink) name).disk.find (root ++ entryNames h) = none) by
    obtain ⟨idle, cwd, laid, missing⟩ := step
    refine ⟨⟨idle, ?_, ?_⟩, laid, missing⟩
    · intro names
      rw [cwd, laid.beyond]
      · exact nowhere.removed names
      · exact fun inside => nowhere.apart h List.mem_cons_self ((List.prefix_append _ names).trans inside)
    · intro g inside
      rw [cwd]
      exact nowhere.apart g (List.mem_cons_of_mem _ inside)
  have unchanged : Laid a.disk.find a.disk.find (root ++ entryNames h) (h.filetype = .directory) := by
    refine Laid.refl (find_top _) fun top => vacant.fits ?_
    rw [top]
    exact find_top _
  by_cases fatal : a.state = .fatal
  · obtain ⟨disk, idle⟩ := written_fatal root (h.entry hardlink) name fatal
    rw [disk]
    exact ⟨idle, rfl, unchanged, fun _ absent => absent⟩
  rcases vacant.steps _ (List.prefix_refl _) with isDir | absent
  · have isDirectory := vacant.fits isDir
    have single : hardlink = none := by
      rcases spec with ⟨single, _⟩ | ⟨f, first, linked, _⟩
      · exact single
      · cases isDirectory.symm.trans ((tree.before first).2 linked).2
    subst single
    have dirs (front : DiskPlace) (inside : front <+: root ++ pathNames name) : a.disk.find front = some .dir := by
      rw [← names] at inside
      exact vacant.closed front _ inside (List.prefix_refl _) isDir
    obtain ⟨disk, header⟩ := entry_there tree.plain isDirectory fatal level dirs
    rw [disk]
    exact ⟨by simp [header], rfl, unchanged, fun _ absent => absent⟩
  · rw [names] at vacant absent ⊢
    rcases spec with ⟨rfl, alone⟩ | ⟨f, first, linked, same⟩
    · obtain ⟨lands, _⟩ := entry_new (a := a) root tree.plain fatal level
        (tree.data h (List.mem_append_right _ List.mem_cons_self)) vacant absent
      refine ⟨by simp [lands.state], lands.cwd, lands.laid, ?_⟩
      rintro ⟨f, first, linked⟩
      exact absurd linked (alone f first)
    · obtain ⟨linkname, fNamed, linkLevel, _⟩ := tree.named f (List.mem_append_left _ first)
      rw [fNamed] at same
      subst same
      have base : linkBase a.disk linkname = a.disk.cwd := by
        rw [linkBase, relative f first linkname fNamed]
        rfl
      have some : linkname ≠ [] := by
        rintro rfl
        have top := tree.top f (List.mem_append_left _ first) (entryNames_eq fNamed)
        cases top.symm.trans ((tree.before first).2 linked).1
      have apart := nowhere.apart h List.mem_cons_self
      have removed := nowhere.removed
      rw [names] at apart
      rw [← base] at apart removed
      obtain ⟨idle, cwd, laid, missing⟩ :=
        entry_removed (a := a) root (e := h.entry (Option.some linkname)) rfl some
        linkLevel removed apart nowhere.idle level vacant absent
      exact ⟨idle, cwd, laid, fun _ _ => missing⟩

/-- There, the place of a later name stays empty to the end. -/
theorem readEntries_misses (done rest : List CpioHeader) {links : List LinksEntry} {a : WriteDisk}
    (tree : ArchiveTree root (done ++ rest)) (recorded : Recorded done links) (nowhere : WorksNowhere root rest a)
    (relative : ∀ f ∈ done ++ rest, ∀ linkname, f.pathname = some linkname → isAbsolute linkname = false)
    (awaits : Awaits root rest a.disk) (absent : a.disk.find place = none)
    (only : ∀ front h back, rest = front ++ h :: back → place <+: root ++ entryNames h →
      place = root ++ entryNames h ∧ ∃ f ∈ done ++ front, Linked f h) :
    (readEntries root links a rest).1.disk.find place = none := by
  induction rest generalizing done links a with
  | nil => exact absent
  | cons h rest ih =>
    obtain ⟨name, named, level, fits⟩ := tree.named h (List.mem_append_right _ List.mem_cons_self)
    obtain ⟨hardlink, kept, record, next, spec⟩ := recordHardlink_spec tree recorded
    obtain ⟨run, _⟩ := readEntries_cons root (a := a) rest record named fits
    obtain ⟨later, laid, missing⟩ := nowhere.step tree
      (fun f first => relative f (List.mem_append_left _ first)) awaits
      named level spec
    have still : (written root a (h.entry hardlink) name).disk.find place = none := by
      by_cases inside : place <+: root ++ entryNames h
      · obtain ⟨same, first⟩ := only [] h rest rfl inside
        rw [List.append_nil] at first
        rw [same] at absent ⊢
        exact missing first absent
      · rw [laid.beyond inside]
        exact absent
    have awaiting := awaits.step tree laid
    rw [run]
    rw [List.append_cons] at tree relative
    refine ih _ tree next later relative awaiting still ?_
    intro front g back shape inside
    rw [List.append_assoc]
    exact only (h :: front) g back (congrArg _ shape) inside

end Removal
section Archive
variable {root : DiskPlace} {headers : List CpioHeader} {disk : Disk} {path : Bytes}

def Unoccupied (root : DiskPlace) (headers : List CpioHeader) (d : Disk) : Prop :=
  ∀ h ∈ headers, ∀ front, front <+: entryNames h → front ≠ [] → d.find (root ++ front) = none

theorem ArchiveTree.awaits (tree : ArchiveTree root headers) (real : Real root disk)
    (unoccupied : Unoccupied root headers disk) :
    Awaits root headers disk := by
  intro h member
  have known {front : DiskPlace} (inside : front <+: root ++ entryNames h) :
      (front <+: root ∧ disk.find front = some .dir) ∨ disk.find front = none := by
    rcases List.prefix_or_prefix_of_prefix inside (List.prefix_append root _) with above | ⟨below, rfl⟩
    · exact Or.inl ⟨above, real front above⟩
    · by_cases here : below = []
      · subst here
        rw [List.append_nil]
        exact Or.inl ⟨List.prefix_refl _, real root (List.prefix_refl _)⟩
      · exact Or.inr (unoccupied h member below ((List.prefix_append_right_inj root).mp inside) here)
  constructor
  · intro front inside
    exact (known inside).imp_left And.right
  · intro front back before inside found
    rcases known inside with ⟨above, _⟩ | absent
    · exact real front (before.trans above)
    · cases absent.symm.trans found
  · intro found
    rcases known (List.prefix_refl _) with ⟨above, _⟩ | absent
    · apply tree.top h member
      have short := above.length_le
      rw [List.length_append] at short
      exact List.length_eq_zero_iff.mp (by omega)
    · cases absent.symm.trans found

theorem recorded_none : Recorded [] [] :=
  ⟨fun _ inside => absurd inside List.not_mem_nil, fun _ inside => absurd inside List.not_mem_nil⟩

theorem extracting_none (disk : Disk) (inode : FileKey → Nat) : Extracting root [] inode (newWriteDisk disk) :=
  ⟨rfl, fun _ inside => absurd inside List.not_mem_nil, fun _ inside => absurd inside List.not_mem_nil,
    fun _ inside => absurd inside List.not_mem_nil⟩

/-- The headers of an archive are unpacked if the names of its hard links lead into the directory. -/
theorem archiveIn_extracts (tree : ArchiveTree root headers) (resolved : disk.realpath path = some root)
    (real : Real root disk) (unoccupied : Unoccupied root headers disk)
    (found : ∀ step ∈ readSteps root [] (newWriteDisk disk) headers, LinkFound root step) :
    Extracted root headers (bxxtCpioArchiveIn disk path headers) := by
  obtain ⟨ends, inode, extracting⟩ := readEntries_extracts headers tree recorded_none
    (extracting_none disk fun _ => 0)
    (tree.awaits real unoccupied) found
  rw [bxxtCpioArchiveIn, resolved]
  dsimp only
  rw [ends]
  refine ⟨rfl, fun h member => ⟨inode (fileKey h), extracting.objects h member, fun regular => ?_⟩⟩
  exact (extracting.files h member regular).2

/-- Without a later name of a file there are no hard links. -/
theorem readSteps_single (done rest : List CpioHeader) {links : List LinksEntry} {a : WriteDisk}
    (tree : ArchiveTree root (done ++ rest)) (recorded : Recorded done links)
    (single : (done ++ rest).Pairwise fun f h => ¬ Linked f h) :
    ∀ step ∈ readSteps root links a rest, step.2.hardlink = none := by
  induction rest generalizing done links a with
  | nil => exact fun _ inside => absurd inside List.not_mem_nil
  | cons h rest ih =>
    obtain ⟨name, named, level, fits⟩ := tree.named h (List.mem_append_right _ List.mem_cons_self)
    obtain ⟨hardlink, kept, record, next, spec⟩ := recordHardlink_spec tree recorded
    obtain ⟨_, steps⟩ := readEntries_cons root (a := a) rest record named fits
    have none : hardlink = none := by
      rcases spec with ⟨none, _⟩ | ⟨f, first, linked, _⟩
      · exact none
      · exact absurd linked ((List.pairwise_append.mp single).2.2 f first h List.mem_cons_self)
    rw [steps]
    rw [List.append_cons] at tree single
    exact List.forall_mem_cons.mpr ⟨none, ih _ tree next single⟩

theorem exists_fresh (disk : Disk) (root : DiskPlace) (headers : List CpioHeader) : ∃ fresh : Bytes,
    RemovedAt disk [fresh] ∧ ∀ h ∈ headers, ¬ [fresh] <+: root ++ entryNames h := by
  obtain ⟨fresh, apart⟩ := Infinite.exists_notMem_finset
    (disk.objects.flatMap Prod.fst ++ (root ++ headers.flatMap entryNames)).toFinset
  rw [List.mem_toFinset, List.mem_append, List.mem_append, not_or, not_or] at apart
  obtain ⟨onDisk, inRoot, inNames⟩ := apart
  refine ⟨fresh, fun names => ?_, fun h member inside => ?_⟩
  · have missing : disk.objects.find? (fun item => item.1 = [fresh] ++ names) = none := by
      rw [List.find?_eq_none]
      intro item member
      rw [decide_eq_true_eq]
      intro same
      exact onDisk (List.mem_flatMap.mpr ⟨item, member, by simp [same]⟩)
    rw [Disk.find, if_neg (by simp), missing]
    rfl
  · rcases List.mem_append.mp (inside.subset (List.mem_singleton_self fresh)) with before | behind
    · exact inRoot before
    · exact inNames (List.mem_flatMap.mpr ⟨h, member, behind⟩)

/-- From a directory that is gone, the second name of a file is not extracted. -/
theorem archiveIn_misses (tree : ArchiveTree root headers) (resolved : disk.realpath path = some root)
    (real : Real root disk) (unoccupied : Unoccupied root headers disk) (absolute : isAbsolute path = true)
    (relative : ∀ f ∈ headers, ∀ linkname, f.pathname = some linkname → isAbsolute linkname = false)
    (several : ¬ headers.Pairwise fun f h => ¬ Linked f h) :
    ∃ cwd, ¬ Extracted root headers (bxxtCpioArchiveIn { disk with cwd } path headers) := by
  obtain ⟨fresh, removed, apart⟩ := exists_fresh disk root headers
  refine ⟨[fresh], fun extracted => ?_⟩
  rw [List.pairwise_iff_getElem] at several
  push Not at several
  obtain ⟨i, j, iInside, jInside, before, linked⟩ := several
  obtain ⟨fRegular, regular⟩ := List.pairwise_iff_getElem.mp tree.files i j iInside jInside before linked
  -- of all entries only this one is at its place
  have alone (k : Nat) (kInside : k < headers.length) (inside : entryNames headers[j] <+: entryNames headers[k]) :
      k = j := by
    by_contra other
    have isDirectory : headers[j].filetype = .directory := by
      rcases Nat.lt_or_gt_of_ne other with earlier | later
      · exact (List.pairwise_iff_getElem.mp tree.apart k j kInside jInside earlier).2 inside
      · exact (List.pairwise_iff_getElem.mp tree.apart j k jInside kInside later).1 inside
    cases regular.symm.trans isDirectory
  have opens : Disk.realpath { disk with cwd := [fresh] } path = some root := by
    rw [Disk.realpath, if_pos absolute] at resolved ⊢
    exact resolved
  have absent : disk.find (root ++ entryNames headers[j]) = none := by
    apply unoccupied _ (List.getElem_mem jInside) _ (List.prefix_refl _)
    intro top
    cases regular.symm.trans (tree.top _ (List.getElem_mem jInside) top)
  have missing : (readEntries root [] (newWriteDisk { disk with cwd := [fresh] }) headers).1.disk.find
      (root ++ entryNames headers[j]) = none := by
    refine readEntries_misses [] headers tree recorded_none ⟨by simp [newWriteDisk], removed, apart⟩ relative
      (tree.awaits real unoccupied) absent ?_
    intro front h back shape inside
    have kInside : front.length < headers.length := by
      rw [shape, List.length_append, List.length_cons]
      omega
    have own : headers[front.length] = h := by
      simp [shape]
    have place := (List.prefix_append_right_inj root).mp inside
    rw [← own] at place
    have same := alone _ kInside place
    subst same
    refine ⟨by rw [own], headers[i], ?_, own ▸ linked⟩
    have early : headers[i] = front[i] := by
      simp [shape, List.getElem_append_left before]
    rw [List.nil_append, early]
    exact List.getElem_mem before
  obtain ⟨ino, found, _⟩ := extracted.objects _ (List.getElem_mem jInside)
  rw [bxxtCpioArchiveIn, opens] at found
  cases missing.symm.trans found

def Unpacks (decode : Bytes → Option Bytes) (ahead : Bytes → Nat) (disk : Disk) (path bb : Bytes) (root : DiskPlace)
    (headers : List CpioHeader) : Prop :=
  ∃ fuel count out, bxxtCpioArchiveInBytes decode ahead fuel disk path bb = some (count, out) ∧
    Extracted root headers out

theorem unpacks_iff {decode : Bytes → Option Bytes} {ahead : Bytes → Nat} {bb : Bytes}
    (decoded : decodedHeaders ahead (decode bb) = (headers, .trailer)) :
    Unpacks decode ahead disk path bb root headers ↔
      Extracted root headers (bxxtCpioArchiveIn disk path headers) := by
  obtain ⟨fuel, count, run, _⟩ := extraction_refines decode ahead disk path bb (by simp [decoded])
  rw [decoded] at run
  constructor
  · rintro ⟨other, steps, out, ran, extracted⟩
    cases extraction_unique ran run
    exact extracted
  · intro extracted
    exact ⟨fuel, count, _, run, extracted⟩

end Archive

/-- An archive is unpacked whole if each hard link in it has a name that leads to the first name of its file in the
directory. Whatever the current directory is, this is so if and only if no file has a second name. -/
theorem unpacks_everywhere_iff (decode : Bytes → Option Bytes) (ahead : Bytes → Nat) (disk : Disk) (path bb : Bytes)
    (root : DiskPlace) (headers : List CpioHeader) (decoded : decodedHeaders ahead (decode bb) = (headers, .trailer))
    (tree : ArchiveTree root headers) (resolved : disk.realpath path = some root) (real : Real root disk)
    (unoccupied : Unoccupied root headers disk) :
    ((∀ step ∈ readSteps root [] (newWriteDisk disk) headers, LinkFound root step) →
        Unpacks decode ahead disk path bb root headers) ∧
      (isAbsolute path = true → (∀ h ∈ headers, ∀ name, h.pathname = some name → isAbsolute name = false) →
        ((∀ cwd, Unpacks decode ahead { disk with cwd } path bb root headers) ↔ headers.Pairwise fun f h =>
          ¬ Linked f h)) := by
  constructor
  · intro found
    exact (unpacks_iff decoded).mpr (archiveIn_extracts tree resolved real unoccupied found)
  · intro absolute relative
    constructor
    · intro everywhere
      by_contra several
      obtain ⟨cwd, misses⟩ := archiveIn_misses tree resolved real unoccupied absolute relative several
      exact misses ((unpacks_iff decoded).mp (everywhere cwd))
    · intro single cwd
      have opens : Disk.realpath { disk with cwd } path = some root := by
        rw [Disk.realpath, if_pos absolute] at resolved ⊢
        exact resolved
      refine (unpacks_iff decoded).mpr (archiveIn_extracts tree opens real unoccupied fun step inside
        linkname hardlink => ?_)
      cases hardlink.symm.trans (readSteps_single [] headers tree recorded_none single step inside)

/-- A file with two names, of which the second has the data, as in the archive and as the reader sees it. -/
def twoNames : Bytes :=
  (headerPieces ⟨ascii "sh", 0, some .regular, 0o755, [], 2, 7⟩).flatten ++
    ((headerPieces ⟨ascii "ls", 1, some .regular, 0o755, [], 2, 7⟩).flatten ++ [120, 0, 0, 0] ++
      (headerPieces trailerEntry).flatten)

def shHeader : CpioHeader := ⟨some (ascii "sh"), .regular, [], 0, 7, 2, 0, []⟩
def lsHeader : CpioHeader := ⟨some (ascii "ls"), .regular, [], 0, 7, 2, 1, [[120]]⟩

deriving instance DecidableEq for CpioHeader

theorem twoNames_decoded : decodedHeaders List.length (some twoNames) = ([shHeader, lsHeader], .trailer) := by
  decide +kernel

theorem twoNames_tree : ArchiveTree [ascii "out"] [shHeader, lsHeader] where
  named := by
    have fits : PathFits [ascii "out"] shHeader ∧ PathFits [ascii "out"] lsHeader := by
      unfold PathFits
      decide
    intro h member
    rcases List.mem_pair.mp member with rfl | rfl
    · exact ⟨ascii "sh", rfl, by decide, fits.1⟩
    · exact ⟨ascii "ls", rfl, by decide, fits.2⟩
  top := by decide
  targets := by decide
  data := by decide
  apart := by decide
  files := by decide
  counts := by decide

theorem workDisk_real : Real [ascii "out"] workDisk := by
  intro front inside
  rcases List.prefix_cons_iff.mp inside with rfl | ⟨front, rfl, below⟩
  · exact find_top workDisk
  · rw [List.prefix_nil.mp below]
    rfl

theorem workDisk_unoccupied : Unoccupied [ascii "out"] [shHeader, lsHeader] workDisk := by
  intro h member front inside some
  have single : ∃ name, entryNames h = [name] ∧ workDisk.find [ascii "out", name] = none := by
    rcases List.mem_pair.mp member with rfl | rfl
    · exact ⟨ascii "sh", by decide⟩
    · exact ⟨ascii "ls", by decide⟩
  obtain ⟨name, names, absent⟩ := single
  rw [names] at inside
  rcases List.prefix_cons_iff.mp inside with rfl | ⟨front, rfl, below⟩
  · exact absurd rfl some
  · rw [List.prefix_nil.mp below]
    exact absent

theorem two_names_unpacked : Unpacks some List.length { workDisk with cwd := [ascii "out"] }
    (ascii "/out") twoNames [ascii "out"]
    [shHeader, lsHeader] := by
  refine (unpacks_everywhere_iff some List.length { workDisk with cwd := [ascii "out"] }
    (ascii "/out") twoNames [ascii "out"]
    [shHeader, lsHeader] twoNames_decoded twoNames_tree (by decide) workDisk_real workDisk_unoccupied).1 ?_
  intro step inside linkname hardlink
  rcases List.mem_pair.mp (show step ∈ [_, _] from inside) with rfl | rfl
  · cases hardlink
  · cases hardlink
    decide

theorem second_name_missing : decodedHeaders List.length (some twoNames) = ([shHeader, lsHeader], .trailer) ∧
    ArchiveTree [ascii "out"] [shHeader, lsHeader] ∧ workDisk.realpath (ascii "/out") = some [ascii "out"] ∧
    Real [ascii "out"] workDisk ∧ Unoccupied [ascii "out"] [shHeader, lsHeader] workDisk ∧
    ¬ Unpacks some List.length workDisk (ascii "/out") twoNames [ascii "out"] [shHeader, lsHeader] := by
  refine ⟨twoNames_decoded, twoNames_tree, by decide, workDisk_real, workDisk_unoccupied, fun unpacked => ?_⟩
  obtain ⟨ino, found, _⟩ := ((unpacks_iff twoNames_decoded).mp unpacked).objects lsHeader (by simp)
  have missing : (bxxtCpioArchiveIn workDisk (ascii "/out") [shHeader, lsHeader]).1.disk.find
    ([ascii "out"] ++ entryNames lsHeader) =
      none := by decide
  cases missing.symm.trans found

end Bxxt.Proofs
