import Bxxt.Proofs.NewcStream

/-! What a ramdisk archive that is reported as built holds. Its buffer is as large as the files of
the tree and a path for each of them, in 32 bits, and no result of the library is looked at. -/

namespace Bxxt.Proofs
open ByteLayout

/-- What the format and the reading of the file ask of what a path names. -/
def StorableInode : Inode → Prop
  | .regular content readable => content.length ≤ 0xffffffff ∧ (content = [] ∨ readable)
  | .directory _ => True
  | .symlink _ => True
  | .other => False

def contentOf : Inode → Bytes
  | .regular content _ => content
  | _ => []

def archiveName (root path : Bytes) : Bytes := path.drop (root.length + 1)

structure Storable (fs : FileSystem) (root path : Bytes) (st : Stat) : Prop where
  stat : fs.lstat path = some st
  inode : StorableInode st.inode
  named : archiveName root path ≠ []

theorem piecesOf_flatten {count : Nat} (positive : 0 < count) (fuel : Nat) (bytes : Bytes)
    (enough : bytes.length ≤ fuel) : (piecesOf count fuel bytes).flatten = bytes := by
  induction fuel generalizing bytes with
  | zero =>
    obtain rfl : bytes = [] := List.length_eq_zero_iff.mp (Nat.le_zero.mp enough)
    rfl
  | succ fuel ih =>
    cases bytes with
    | nil => rfl
    | cons byte bytes =>
      have fewer : ((byte :: bytes).drop count).length ≤ fuel := by
        rw [List.length_cons] at enough
        rw [List.length_drop, List.length_cons]
        omega
      rw [piecesOf, List.flatten_cons, ih _ fewer, List.take_append_drop]

section Files
variable {σ : Type} {gzip : GzipFilter σ} {fs : FileSystem} {cp : BxxtCpio σ} {pieces : List Bytes}
  {path aName : Bytes} {st : Stat}

def filePieces (aName : Bytes) (st : Stat) (inode : UInt32) : List Bytes :=
  entryPieces (archiveEntry aName st inode) ++
    piecesOf 4096 (contentOf st.inode).length (contentOf st.inode)

theorem storedSize_eq (aName : Bytes) (st : Stat) (inode : UInt32) :
    (archiveEntry aName st inode).storedSize = (contentOf st.inode).length := by
  unfold archiveEntry ArchiveEntry.storedSize
  cases st.inode <;> rfl

theorem formats_of_storable (storable : StorableInode st.inode) (named : aName ≠ []) (inode : UInt32) :
    Formats (archiveEntry aName st inode) := by
  refine ⟨?_, named, ?_⟩
  · unfold archiveEntry
    cases kind : st.inode with
    | other =>
      rw [kind] at storable
      exact storable.elim
    | _ => simp
  · unfold archiveEntry ArchiveEntry.filesize ArchiveEntry.storedSize
    cases kind : st.inode with
    | regular content readable =>
      rw [kind] at storable
      exact storable.1
    | directory size => exact Nat.zero_le _
    | symlink target =>
      have short := target.short
      simp only [pathMax] at short
      dsimp only
      split
      · omega
      · exact Nat.zero_le _
    | other => exact Nat.zero_le _

theorem storable_of_formats {inode : UInt32} (formats : Formats (archiveEntry aName st inode))
    (opened : ∀ content readable, st.inode = .regular content readable → content = [] ∨ readable = true) :
    StorableInode st.inode := by
  cases kind : st.inode with
  | regular content readable =>
    have small := formats.small
    unfold archiveEntry ArchiveEntry.filesize ArchiveEntry.storedSize at small
    rw [kind] at small
    exact ⟨small, opened content readable kind⟩
  | directory size => trivial
  | symlink target => trivial
  | other =>
    have typed := formats.filetype
    unfold archiveEntry at typed
    rw [kind] at typed
    exact typed rfl

theorem read_content (stat : fs.lstat path = some st) (storable : StorableInode st.inode)
    (nonempty : 0 < (contentOf st.inode).length) : fs.read path = some (contentOf st.inode) := by
  cases kind : st.inode with
  | regular content readable =>
    rw [kind] at storable nonempty
    have readable : readable = true := storable.2.resolve_left (List.ne_nil_of_length_pos nonempty)
    obtain ⟨_, perm⟩ := st
    subst kind
    rw [FileSystem.read, stat]
    exact if_pos readable
  | _ =>
    rw [kind] at nonempty
    cases nonempty

/-- A file that can be stored is stored where its entry still has room. -/
theorem write_fits (ready : Ready gzip cp.w pieces) (stat : fs.lstat path = some st)
    (storable : StorableInode st.inode) (named : aName ≠ [])
    (fits : (fed gzip (pieces ++ pending cp.w ++ filePieces aName st cp.inode)).length ≤ cp.w.size) :
    (∀ code ∈ (bxxtCpioArchiveWrite gzip fs cp path aName).1, 0 ≤ code) ∧
      ∃ w, (bxxtCpioArchiveWrite gzip fs cp path aName).2 = { cp with w, inode := cp.inode + 1 } ∧
        Ready gzip w (pieces ++ pending cp.w ++ filePieces aName st cp.inode) ∧
        pending w = nullPieces (pad4 (contentOf st.inode).length) ∧ w.size = cp.w.size := by
  have shape : pieces ++ pending cp.w ++ filePieces aName st cp.inode =
      pieces ++ pending cp.w ++ entryPieces (archiveEntry aName st cp.inode) ++
        piecesOf 4096 (contentOf st.inode).length (contentOf st.inode) := by
    rw [filePieces, ← List.append_assoc]
  rw [shape] at fits ⊢
  have first :=
    Nat.le_trans (fed_length_le gzip (pieces ++ pending cp.w ++ entryPieces (archiveEntry aName st cp.inode)) _) fits
  have header := header_fits ready (formats_of_storable storable named cp.inode) first
  rw [bxxtCpioArchiveWrite, stat]
  dsimp only
  rw [header]
  dsimp only
  rw [storedSize_eq]
  have okNonnegative : (0 : Int) ≤ archiveOk := Int.le_refl 0
  have notFatal : ArchiveState.data ≠ .fatal := nofun
  by_cases any : (contentOf st.inode).length > 0
  · have left := congrArg List.length (@piecesOf_flatten 4096 (by decide) _ (contentOf st.inode) (Nat.le_refl _))
    obtain ⟨codes, last⟩ := datas_fits (a := { behind gzip cp.w (pieces ++ pending cp.w ++
      entryPieces (archiveEntry aName st cp.inode)) with
        state := .data
        entryBytesRemaining := (contentOf st.inode).length
        padding := pad4 (contentOf st.inode).length })
      ⟨rfl, rfl, first⟩ _ rfl left.symm fits
    rw [if_pos any, read_content stat storable any]
    dsimp only
    rw [last]
    refine ⟨?_, _, rfl, ⟨⟨rfl, rfl, fits⟩, notFatal, rfl⟩, rfl, rfl⟩
    intro code member
    simp only [List.cons_append, List.mem_cons, List.mem_append, List.not_mem_nil, or_false] at member
    obtain rfl | inside | rfl := member
    · exact okNonnegative
    · exact codes code inside
    · exact okNonnegative
  · have none : contentOf st.inode = [] := List.length_eq_zero_iff.mp (by omega)
    rw [if_neg any]
    rw [none] at fits ⊢
    simp only [List.length_nil, piecesOf, List.append_nil] at fits ⊢
    refine ⟨?_, _, rfl, ⟨⟨rfl, rfl, fits⟩, notFatal, rfl⟩, rfl, rfl⟩
    intro code member
    simp only [List.cons_append, List.nil_append, List.mem_cons, List.not_mem_nil, or_false] at member
    obtain rfl | rfl := member
    · exact okNonnegative
    · exact okNonnegative

theorem write_refused (ready : Ready gzip cp.w pieces)
    (refuses : ∀ st, fs.lstat path = some st → StorableInode st.inode → aName ≠ [] →
      cp.w.size < (fed gzip (pieces ++ pending cp.w ++ filePieces aName st cp.inode)).length) :
    ∃ code ∈ (bxxtCpioArchiveWrite gzip fs cp path aName).1, code < 0 := by
  cases stat : fs.lstat path with
  | none =>
    rw [bxxtCpioArchiveWrite, stat]
    exact ⟨archiveFailed, List.mem_cons_self, by decide⟩
  | some st =>
    rw [bxxtCpioArchiveWrite, stat]
    dsimp only
    by_cases headed : Formats (archiveEntry aName st cp.inode) → cp.w.size < (fed gzip (pieces ++ pending cp.w ++
        entryPieces (archiveEntry aName st cp.inode))).length
    · exact ⟨_, List.mem_append_left _ List.mem_cons_self, header_refused ready headed⟩
    · obtain ⟨formats, first⟩ := not_forall.mp headed
      have first := Nat.not_lt.mp first
      rw [header_fits ready formats first]
      dsimp only
      rw [storedSize_eq]
      by_cases storable : StorableInode st.inode
      · have beyond := refuses st stat storable formats.pathname
        rw [filePieces, ← List.append_assoc] at beyond
        have any : (contentOf st.inode).length > 0 := by
          by_contra none
          rw [List.length_eq_zero_iff.mp (show (contentOf st.inode).length = 0 by omega), List.length_nil, piecesOf,
            List.append_nil] at beyond
          omega
        have left := congrArg List.length (@piecesOf_flatten 4096 (by decide) _ (contentOf st.inode) (Nat.le_refl _))
        obtain ⟨code, member, negative⟩ := datas_refused (a := { behind gzip cp.w (pieces ++ pending cp.w ++
          entryPieces (archiveEntry aName st cp.inode)) with
            state := .data
            entryBytesRemaining := (contentOf st.inode).length
            padding := pad4 (contentOf st.inode).length })
          ⟨rfl, rfl, first⟩ _ rfl left.symm beyond
        rw [if_pos any, read_content stat storable any]
        exact ⟨code, List.mem_append_left _ (List.mem_cons_of_mem _ member), negative⟩
      · obtain ⟨content, kind, nonempty⟩ : ∃ content, st.inode = .regular content false ∧ content ≠ [] := by
          by_contra absent
          refine storable (storable_of_formats formats fun content readable kind => ?_)
          by_contra closed
          obtain ⟨nonempty, unreadable⟩ := not_or.mp closed
          exact absent ⟨content, by rw [kind, Bool.not_eq_true _ |>.mp unreadable], nonempty⟩
        have closed : fs.read path = none := by
          obtain ⟨_, perm⟩ := st
          subst kind
          rw [FileSystem.read, stat]
          rfl
        have any : (contentOf st.inode).length > 0 := by
          rw [kind]
          exact List.length_pos_of_ne_nil nonempty
        rw [if_pos any, closed]
        exact ⟨-1, List.mem_append_left _ (List.mem_cons_of_mem _ List.mem_cons_self), by decide⟩

variable (fs) in
/-- The pieces of the entries of these files, and of the trailer. -/
def treePieces (root : Bytes) : UInt32 → List Bytes → List Bytes
  | _, [] => entryPieces trailerEntry
  | inode, path :: paths =>
    match fs.lstat path with
    | none => treePieces root inode paths
    | some st =>
      filePieces (archiveName root path) st inode ++
        (nullPieces (pad4 (contentOf st.inode).length) ++ treePieces root (inode + 1) paths)

theorem archiveStream_length_le (pieces more : List Bytes) :
    (fed gzip pieces).length ≤ (archiveStream gzip (pieces ++ more)).length := by
  rw [archiveStream_eq, List.length_append]
  exact Nat.le_trans (fed_length_le gzip pieces more) (Nat.le_add_right _ _)

/-- Nothing that is ignored is an error exactly where every file can be stored and the stream has room. -/
theorem addFiles_iff {i : Nat} {paths : List Bytes} {codes : List Int} {last : BxxtCpio σ}
    (ready : Ready gzip cp.w pieces) (ran : addFiles gzip fs i cp paths = .ok (codes, last)) :
    ((∀ code ∈ codes, 0 ≤ code) ∧ 0 ≤ (archiveWriteClose gzip last.w).1 ↔
      (∀ path ∈ paths, ∃ st, Storable fs cp.path path st) ∧
        (archiveStream gzip (pieces ++ pending cp.w ++ treePieces fs cp.path cp.inode paths)).length ≤ cp.w.size) ∧
      ((∀ code ∈ codes, 0 ≤ code) ∧ 0 ≤ (archiveWriteClose gzip last.w).1 →
        (archiveWriteClose gzip last.w).2.written =
          archiveStream gzip (pieces ++ pending cp.w ++ treePieces fs cp.path cp.inode paths)) := by
  induction paths generalizing i cp pieces codes with
  | nil =>
    obtain ⟨rfl, rfl⟩ := Prod.mk.inj (Except.ok.inj ran)
    rw [treePieces]
    by_cases fits : (archiveStream gzip (pieces ++ pending cp.w ++ entryPieces trailerEntry)).length ≤ cp.w.size
    · have closed := close_fits ready fits
      rw [closed]
      exact ⟨⟨fun _ => ⟨by simp, fits⟩, fun _ => ⟨by simp, Int.le_refl 0⟩⟩, fun _ => rfl⟩
    · have refused := close_refused ready (by omega)
      exact ⟨⟨fun ok => absurd ok.2 (by omega), fun ok => absurd ok.2 fits⟩, fun ok => absurd ok.2 (by omega)⟩
  | cons path paths ih =>
    rw [addFiles] at ran
    obtain ⟨⟨here, next⟩, added, ran⟩ := Exec.bind_eq_ok.mp ran
    dsimp only at ran
    split at ran
    · cases ran
    obtain ⟨⟨rest, final⟩, others, ran⟩ := Exec.bind_eq_ok.mp ran
    cases ran
    unfold bxxtCpioArchiveAddFile at added
    split at added
    next => cases added
    next =>
      have written := Except.ok.inj added
      by_cases good : ∃ st, Storable fs cp.path path st ∧
          (fed gzip (pieces ++ pending cp.w ++ filePieces (archiveName cp.path path) st cp.inode)).length ≤ cp.w.size
      · obtain ⟨st, storable, fits⟩ := good
        obtain ⟨quiet, w, same, readyNext, padded, size⟩ :=
          write_fits ready storable.stat storable.inode storable.named fits
        rw [archiveName, written] at quiet same
        obtain rfl : next = { cp with w, inode := cp.inode + 1 } := same
        have shape : pieces ++ pending cp.w ++ filePieces (archiveName cp.path path) st cp.inode ++ pending w ++
            treePieces fs cp.path (cp.inode + 1) paths =
              pieces ++ pending cp.w ++ treePieces fs cp.path cp.inode (path :: paths) := by
          rw [treePieces, storable.stat, padded]
          simp only [List.append_assoc]
        obtain ⟨iff, streamed⟩ := ih readyNext others
        dsimp only at iff streamed
        rw [shape] at iff streamed
        rw [size] at iff
        have split : (∀ code ∈ here ++ rest, 0 ≤ code) ↔ ∀ code ∈ rest, 0 ≤ code := by
          rw [List.forall_mem_append]
          exact ⟨And.right, And.intro quiet⟩
        have every : (∀ visit ∈ path :: paths, ∃ st, Storable fs cp.path visit st) ↔
            ∀ visit ∈ paths, ∃ st, Storable fs cp.path visit st := by
          refine ⟨fun all other member => all other (List.mem_cons_of_mem _ member), fun all other member => ?_⟩
          obtain same | later := List.mem_cons.mp member
          · exact same ▸ ⟨st, storable⟩
          · exact all other later
        rw [split, every]
        exact ⟨iff, streamed⟩
      · have refused : ∃ code ∈ here, code < 0 := by
          have full (st : Stat) (stat : fs.lstat path = some st) (inode : StorableInode st.inode)
              (named : archiveName cp.path path ≠ []) :
              cp.w.size <
                (fed gzip (pieces ++ pending cp.w ++ filePieces (archiveName cp.path path) st cp.inode)).length := by
            by_contra room
            exact good ⟨st, ⟨stat, inode, named⟩, by omega⟩
          have refused := write_refused ready full
          rwa [archiveName, written] at refused
        obtain ⟨code, member, negative⟩ := refused
        have noisy : ¬ ∀ code ∈ here ++ rest, 0 ≤ code := by
          intro quiet
          have positive := quiet code (List.mem_append_left _ member)
          omega
        refine ⟨⟨fun ok => absurd ok.1 noisy, ?_⟩, fun ok => absurd ok.1 noisy⟩
        rintro ⟨storable, fits⟩
        obtain ⟨st, storable⟩ := storable path List.mem_cons_self
        rw [treePieces, storable.stat] at fits
        dsimp only at fits
        rw [← List.append_assoc] at fits
        exact absurd ⟨st, storable, Nat.le_trans (archiveStream_length_le _ _) fits⟩ good

end Files

section Out
variable {σ : Type} (gzip : GzipFilter σ) (fs : FileSystem)

def wholeArchive (root : Bytes) (visited : List Bytes) : Bytes :=
  archiveStream gzip (treePieces fs root 300000 (visited.mergeSort comparePaths))

/-- The archive holds everything: no result that was ignored is an error, and the buffer that is
returned begins with the whole stream. -/
structure Complete (frames : Nat) (path : Bytes) (out : ArchiveOut) : Prop where
  quiet : ∀ code ∈ out.ignored, 0 ≤ code
  whole : ∃ root visited bb, fs.realpath path = some root ∧ bxxtTreeWalk fs frames root = .ok visited ∧
    out.bb = some bb ∧ wholeArchive gzip fs root visited <+: bb

def ReportedComplete (frames : Nat) (path : Bytes) : Prop :=
  ∀ out, bxxtCpioArchiveOut gzip fs frames path = .ok out → out.r = archiveOk → Complete gzip fs frames path out

/-- All files of the tree can be stored, and the compressed archive is no larger than the guess: the
files and a path for each of them together, modulo 2 ^ 32. -/
structure Guessed (root : Bytes) (visited : List Bytes) : Prop where
  storable : ∀ path ∈ visited, ∃ st, Storable fs root path st
  room : (wholeArchive gzip fs root visited).length ≤ (archiveSizeGussed fs visited).toNat

variable {gzip fs} {frames : Nat} {path : Bytes}

/-- Resized to what is used or above, the buffer still begins with it. -/
theorem resized_prefix {written : Bytes} {size : Nat} (room : written.length ≤ size) :
    ∃ bb, bxxtBufferResize (written ++ List.replicate (size - written.length) 0)
      (asInt (written.length - size)) = some bb ∧ written <+: bb := by
  obtain ⟨lost, value, low⟩ := asInt_spec ((written.length : Int) - size)
  have whole : (written ++ List.replicate (size - written.length) 0).length = size := by
    rw [List.length_append, List.length_replicate]
    omega
  have kept : (written.length : Int) ≤ size + asInt (written.length - size) := by omega
  have front : written <+: written ++ List.replicate (size - written.length) 0 := List.prefix_append _ _
  unfold bxxtBufferResize
  rw [if_neg (by rw [whole]; omega), whole]
  split
  · exact ⟨_, rfl, front.trans (List.prefix_append _ _)⟩
  · refine ⟨_, rfl, ?_⟩
    exact List.prefix_of_prefix_length_le front (List.take_prefix _ _) (by rw [List.length_take, whole]; omega)

/-- The loop gets through where every path is longer than the root's, and their number is an `int`. -/
theorem addFiles_ok_iff {i : Nat} (small : i ≤ intMax) (cp : BxxtCpio σ) (paths : List Bytes) :
    (∃ result, addFiles gzip fs i cp paths = .ok result) ↔
      (∀ visit ∈ paths, cp.path.length < visit.length) ∧ i + paths.length ≤ intMax := by
  induction paths generalizing i cp with
  | nil => simpa [addFiles] using small
  | cons visit paths ih =>
    have same (aName : Bytes) : (bxxtCpioArchiveWrite gzip fs cp visit aName).2.path = cp.path := by
      unfold bxxtCpioArchiveWrite
      cases fs.lstat visit <;> rfl
    rw [List.forall_mem_cons, addFiles, bxxtCpioArchiveAddFile, List.length_cons]
    by_cases short : visit.length ≤ cp.path.length
    · rw [if_pos short]
      apply iff_of_false
      · rintro ⟨_, ran⟩
        cases ran
      · rintro ⟨⟨long, _⟩, _⟩
        omega
    · rw [if_neg short, Exec.ok_bind]
      by_cases last : i = intMax
      · simp only [if_pos last]
        apply iff_of_false
        · rintro ⟨_, ran⟩
          cases ran
        · rintro ⟨_, fits⟩
          omega
      · have rest := ih (i := i + 1) (by omega)
          (bxxtCpioArchiveWrite gzip fs cp visit (visit.drop (cp.path.length + 1))).2
        rw [same] at rest
        simp only [if_neg last]
        constructor
        · intro ⟨result, ran⟩
          obtain ⟨later, others, _⟩ := Exec.bind_eq_ok.mp ran
          obtain ⟨long, fits⟩ := rest.mp ⟨later, others⟩
          exact ⟨⟨by omega, long⟩, by omega⟩
        · intro ⟨⟨_, long⟩, fits⟩
          obtain ⟨later, others⟩ := rest.mpr ⟨long, by omega⟩
          exact ⟨_, Exec.bind_eq_ok.mpr ⟨later, others, rfl⟩⟩

theorem storable_sorted {root : Bytes} {visited : List Bytes} :
    (∀ visit ∈ visited.mergeSort comparePaths, ∃ st, Storable fs root visit st) ↔
      ∀ visit ∈ visited, ∃ st, Storable fs root visit st := by
  simp only [List.mem_mergeSort]

theorem packed_iff {root : Bytes} {visited : List Bytes} {size : Nat} {codes : List Int} {last : BxxtCpio σ}
    (ran : addFiles gzip fs 0 ⟨root, archiveWriteOpenMemory gzip size, 300000⟩ (visited.mergeSort comparePaths) =
      .ok (codes, last)) :
    ((∀ code ∈ codes ++ [(archiveWriteClose gzip last.w).1], 0 ≤ code) ↔
      (∀ visit ∈ visited, ∃ st, Storable fs root visit st) ∧
        (wholeArchive gzip fs root visited).length ≤ size) ∧
      ((∀ code ∈ codes ++ [(archiveWriteClose gzip last.w).1], 0 ≤ code) →
        (archiveWriteClose gzip last.w).2.written = wholeArchive gzip fs root visited) := by
  have ready : Ready gzip (archiveWriteOpenMemory gzip size) [] := ⟨⟨rfl, rfl, Nat.zero_le size⟩, nofun, rfl⟩
  rw [List.forall_mem_append, List.forall_mem_singleton, ← storable_sorted]
  exact addFiles_iff ready ran

theorem archiveOut_ok {root : Bytes} {visited : List Bytes} {codes : List Int} {last : BxxtCpio σ}
    (real : fs.realpath path = some root) (walked : bxxtTreeWalk fs frames root = .ok visited)
    (ran : addFiles gzip fs 0 ⟨root, archiveWriteOpenMemory gzip (archiveSizeGussed fs visited).toNat, 300000⟩
      (visited.mergeSort comparePaths) = .ok (codes, last)) :
    bxxtCpioArchiveOut gzip fs frames path = .ok ⟨archiveOk,
      bxxtBufferResize ((archiveWriteClose gzip last.w).2.written ++
          List.replicate ((archiveSizeGussed fs visited).toNat - (archiveWriteClose gzip last.w).2.written.length) 0)
        (asInt ((archiveWriteClose gzip last.w).2.written.length - (archiveSizeGussed fs visited).toNat)),
      codes ++ [(archiveWriteClose gzip last.w).1]⟩ := by
  rw [bxxtCpioArchiveOut, real]
  simp only [walked, Exec.ok_bind, ran]
  rfl

/-- What is reported as built is complete exactly where every file can be stored and the guess was enough. -/
theorem reported_complete_iff : ReportedComplete gzip fs frames path ↔
    ∀ root visited, fs.realpath path = some root → bxxtTreeWalk fs frames root = .ok visited →
      (∀ visit ∈ visited, root.length < visit.length) → visited.length ≤ intMax →
        Guessed gzip fs root visited := by
  constructor
  · intro reported root visited real walked long few
    obtain ⟨⟨codes, last⟩, ran⟩ := (@addFiles_ok_iff _ gzip fs _ (Nat.zero_le _)
      ⟨root, archiveWriteOpenMemory gzip (archiveSizeGussed fs visited).toNat, 300000⟩
        (visited.mergeSort comparePaths)).mpr
        ⟨fun visit member => long visit (List.mem_mergeSort.mp member),
          by rwa [List.length_mergeSort, Nat.zero_add]⟩
    have complete := reported _ (archiveOut_ok real walked ran) rfl
    obtain ⟨storable, room⟩ := (packed_iff ran).1.mp complete.quiet
    exact ⟨storable, room⟩
  · intro guessed out ran built
    rw [bxxtCpioArchiveOut] at ran
    cases real : fs.realpath path with
    | none =>
      rw [real] at ran
      cases ran
      cases built
    | some root =>
      rw [real] at ran
      obtain ⟨visited, walked, ran⟩ := Exec.bind_eq_ok.mp ran
      obtain ⟨⟨codes, last⟩, added, ran⟩ := Exec.bind_eq_ok.mp ran
      cases ran
      obtain ⟨long, few⟩ := (addFiles_ok_iff (Nat.zero_le _) _ _).mp ⟨_, added⟩
      rw [List.length_mergeSort, Nat.zero_add] at few
      obtain ⟨storable, room⟩ := guessed root visited real walked
        (fun visit member => long visit (List.mem_mergeSort.mpr member)) few
      have quiet := (packed_iff added).1.mpr ⟨storable, room⟩
      have same := (packed_iff added).2 quiet
      obtain ⟨bb, resized, front⟩ := resized_prefix room
      rw [← same] at resized
      exact ⟨quiet, root, visited, bb, real, walked, resized, front⟩

def emptyTree : FileSystem where
  realpath := some
  opendir := fun path => if path = ascii "/ramdisk" then some [⟨ascii ".", true⟩, ⟨ascii "..", true⟩] else none
  lstat := fun path => if path = ascii "/ramdisk" then some ⟨.directory 4096, 0o755⟩ else none
  follow := fun _ => none

/-- The filter on an archive of a trailer alone, whose stream is given. -/
def trailerGzip : GzipFilter Bytes where
  opened := []
  write := fun state piece => (state ++ piece, [])
  close := fun _ =>
    [[31, 139, 8, 0, 0, 0, 0, 0, 0, 3, 51, 48, 55, 48, 55, 48, 52, 32, 14, 16, 171, 14, 29, 36, 193, 24, 33,
      65, 142, 158, 62, 174, 65, 138, 138, 138, 12, 64, 0, 0, 214, 233, 236, 53, 124, 0, 0, 0]]

/-- No buffer is guessed for the trailer, which is then refused. -/
theorem empty_tree_reported : ¬ ReportedComplete trailerGzip emptyTree 1 (ascii "/ramdisk") := by
  intro reported
  have unsorted : ([] : List Bytes).mergeSort comparePaths = [] := List.mergeSort_nil
  have walked : bxxtTreeWalk emptyTree 1 (ascii "/ramdisk") = .ok [] := rfl
  have packed := @archiveOut_ok _ trailerGzip _ _ (ascii "/ramdisk") _ _ _ _ rfl walked (by rw [unsorted]; rfl)
  obtain ⟨root, visited, bb, real, again, returned, whole⟩ := (reported _ packed rfl).whole
  cases real
  cases walked.symm.trans again
  rw [wholeArchive, unsorted] at whole
  have unchanged : bxxtBufferResize [] (asInt ((0 : Nat) : Int)) = some bb := returned
  rw [asInt_of_small (by decide)] at unchanged
  cases unchanged
  exact absurd whole.length_le (by decide)

end Out

end Bxxt.Proofs
