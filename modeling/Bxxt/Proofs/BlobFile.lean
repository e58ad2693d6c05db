import Bxxt.Proofs.BlobRoundTrip

/-! The reader of blobs in memory against the reader of blob files that it was made from. The one in memory does not
look whether the parts lie inside the blob. -/

namespace Bxxt.Proofs
open Bxxt ByteLayout BlobBytes SiblingTree

section Headers
variable {content : Bytes}

def fieldOf (content : Bytes) (index : Nat) : Nat := beValue ((content.drop (4 * index)).take 4)

theorem fdtField_inside {index : Nat} (inside : 4 * index + 4 ≤ content.length) :
    fdtField (Region.ofBuffer content) index = .ok (fieldOf content index) := by
  have mapped := mapped_ofBuffer content
  rw [fdtField, Region.slice, if_neg (by decide), mapped, if_pos inside]
  rfl

theorem fdtField_outside {index : Nat} (outside : ¬ 4 * index + 4 ≤ content.length) :
    fdtField (Region.ofBuffer content) index = .error .outOfBounds := by
  have mapped := mapped_ofBuffer content
  rw [fdtField, Region.slice, if_neg (by decide), mapped, if_neg outside]
  rfl

theorem fieldOf_lt (content : Bytes) (index : Nat) : fieldOf content index < 2 ^ 32 := by
  have small := leValue_lt ((content.drop (4 * index)).take 4).reverse
  have length : ((content.drop (4 * index)).take 4).reverse.length ≤ 4 := by
    rw [List.length_reverse, List.length_take]
    exact Nat.min_le_left ..
  have limit : (256 : Nat) ^ 4 = 2 ^ 32 := by norm_num
  exact Nat.lt_of_lt_of_eq (Nat.lt_of_lt_of_le small (Nat.pow_le_pow_right (by decide) length)) limit

def tableLimit (content : Bytes) : Nat :=
  if 3 ≤ fieldOf content 5 then fieldOf content 3 + fieldOf content 8 else content.length

/-- The parts of a blob that has its own length. -/
def blobParts (content : Bytes) : Exec DtInfo :=
  readParts (Region.ofBuffer content) content.length (fieldOf content 2) (fieldOf content 3) (fieldOf content 4)
    (fieldOf content 5)
    (fieldOf content 7) (tableLimit content)

structure HeaderThere (content : Bytes) : Prop where
  fields : 32 ≤ content.length
  sizes : 3 ≤ fieldOf content 5 → 36 ≤ content.length

structure HeaderInside (content : Bytes) : Prop where
  reserves : fieldOf content 4 < content.length
  struct : fieldOf content 2 < content.length
  strings : fieldOf content 3 ≤ content.length
  table : 3 ≤ fieldOf content 5 → fieldOf content 3 + fieldOf content 8 ≤ content.length
  block : 17 ≤ fieldOf content 5 → 40 ≤ content.length ∧
    fieldOf content 2 + fieldOf content 9 ≤ content.length

/-- What stops the reader of files before it looks at any part. -/
def headerFault (content : Bytes) : Option Fault :=
  if content.length < fdtV1Size then some .exited
  else if content.length < 32 then some .outOfBounds
  else if content.length ≤ fieldOf content 4 ∨ content.length ≤ fieldOf content 2 ∨
    content.length < fieldOf content 3 then some .exited
  else if 3 ≤ fieldOf content 5 ∧ content.length < 36 then some .outOfBounds
  else if 3 ≤ fieldOf content 5 ∧ content.length < fieldOf content 3 + fieldOf content 8 then some .exited
  else if 17 ≤ fieldOf content 5 ∧ content.length < 40 then some .outOfBounds
  else if 17 ≤ fieldOf content 5 ∧ content.length < fieldOf content 2 + fieldOf content 9 then some .exited
  else none

theorem headerFault_eq_none : headerFault content = none ↔ HeaderThere content ∧ HeaderInside content := by
  rw [headerFault]
  constructor
  · intro passed
    repeat' split at passed
    all_goals try cases passed
    next long fields starts sizes table sized block =>
      rw [fdtV1Size] at long
      refine ⟨⟨by omega, fun _ => by omega⟩,
        ⟨by omega, by omega, by omega, fun _ => by omega, fun _ => by omega⟩⟩
  · rintro ⟨there, inside⟩
    obtain ⟨fields, sizes⟩ := there
    obtain ⟨reserves, struct, strings, table, block⟩ := inside
    rw [if_neg (by rw [fdtV1Size]; omega), if_neg (by omega), if_neg (by omega), if_neg (by omega), if_neg (by omega),
      if_neg (by omega),
      if_neg (by omega)]

/-- A field that is not there stops the reader, wherever it is. -/
theorem fdtField_stops {index : Nat} {next : Nat → Exec DtInfo}
    (rest : 4 * index + 4 ≤ content.length → next (fieldOf content index) = .error .outOfBounds) :
    (fdtField (Region.ofBuffer content) index >>= next) = .error .outOfBounds := by
  by_cases inside : 4 * index + 4 ≤ content.length
  · rw [fdtField_inside inside, Exec.ok_bind]
    exact rest inside
  · rw [fdtField_outside inside]
    rfl

theorem dtFromMem_eq (mem : Region) : dtFromMem mem = (do
    let totalsize ← fdtField mem 1
    let offDt ← fdtField mem 2
    let offStr ← fdtField mem 3
    let offMemRsvmap ← fdtField mem 4
    let bootCpuidPhys ← fdtField mem 7
    let version ← fdtField mem 5
    if 3 ≤ version then do
      let sizeStr ← fdtField mem 8
      readParts mem totalsize offDt offStr offMemRsvmap version bootCpuidPhys (offStr + sizeStr)
    else readParts mem totalsize offDt offStr offMemRsvmap version bootCpuidPhys totalsize) := rfl

theorem dtFromMem_there (total : fieldOf content 1 = content.length) (there : HeaderThere content) :
    dtFromMem (Region.ofBuffer content) = blobParts content := by
  have fields := there.fields
  rw [dtFromMem_eq, fdtField_inside (show 4 * 1 + 4 ≤ content.length by omega), Exec.ok_bind,
    fdtField_inside (show 4 * 2 + 4 ≤ content.length by omega), Exec.ok_bind,
      fdtField_inside (show 4 * 3 + 4 ≤ content.length by omega),
    Exec.ok_bind, fdtField_inside (show 4 * 4 + 4 ≤ content.length by omega), Exec.ok_bind,
    fdtField_inside (show 4 * 7 + 4 ≤ content.length by omega), Exec.ok_bind,
      fdtField_inside (show 4 * 5 + 4 ≤ content.length by omega),
    Exec.ok_bind, total, blobParts, tableLimit]
  by_cases sized : 3 ≤ fieldOf content 5
  · have sizes := there.sizes sized
    rw [if_pos sized, if_pos sized, fdtField_inside (show 4 * 8 + 4 ≤ content.length by omega), Exec.ok_bind]
  · rw [if_neg sized, if_neg sized]

theorem dtFromMem_missing (missing : ¬ HeaderThere content) :
    dtFromMem (Region.ofBuffer content) = .error .outOfBounds := by
  rw [dtFromMem_eq]
  apply fdtField_stops
  intro _
  apply fdtField_stops
  intro _
  apply fdtField_stops
  intro _
  apply fdtField_stops
  intro _
  apply fdtField_stops
  intro fields
  apply fdtField_stops
  intro _
  by_cases sized : 3 ≤ fieldOf content 5
  · rw [if_pos sized]
    apply fdtField_stops
    intro sizes
    exact absurd ⟨by omega, fun _ => by omega⟩ missing
  · exact absurd ⟨by omega, fun version => absurd version sized⟩ missing

def blockChecked (content : Bytes) (offDt offStr offMemRsvmap version bootCpuidPhys limit : Nat) : Exec DtInfo :=
  if 17 ≤ version then do
    let sizeDt ← fdtField (Region.ofBuffer content) 9
    if pastTotalSize content.length offDt sizeDt then .error .exited
    else readParts (Region.ofBuffer content) content.length offDt offStr offMemRsvmap version bootCpuidPhys limit
  else readParts (Region.ofBuffer content) content.length offDt offStr offMemRsvmap version bootCpuidPhys limit

/-- What the reader of files does with the fields of a blob that it has in memory. -/
theorem dtFromBlob_read (magic : fieldOf content 0 = fdtMagicWord) (total : fieldOf content 1 = content.length)
    (long : fdtV1Size ≤ content.length) : dtFromBlob content = (do
    let offDt ← fdtField (Region.ofBuffer content) 2
    let offStr ← fdtField (Region.ofBuffer content) 3
    let offMemRsvmap ← fdtField (Region.ofBuffer content) 4
    let version ← fdtField (Region.ofBuffer content) 5
    let bootCpuidPhys ← fdtField (Region.ofBuffer content) 7
    if content.length ≤ offMemRsvmap then .error .exited
    else if content.length ≤ offDt then .error .exited
    else if content.length < offStr then .error .exited
    else if 3 ≤ version then do
      let sizeStr ← fdtField (Region.ofBuffer content) 8
      if pastTotalSize content.length offStr sizeStr then .error .exited
      else blockChecked content offDt offStr offMemRsvmap version bootCpuidPhys (offStr + sizeStr)
    else blockChecked content offDt offStr offMemRsvmap version bootCpuidPhys content.length) := by
  have first : beValue (content.take 4) = fdtMagicWord := magic
  have second : beValue ((content.drop 4).take 4) = content.length := total
  rw [fdtV1Size] at long
  rw [dtFromBlob, if_neg (by omega), first, if_neg (by simp), if_neg (by omega), second,
    if_neg (by rw [fdtV1Size]; omega), if_neg (by omega),
    List.take_length]
  rfl

/-- Sums of two fields that go round are behind the blob as well. -/
theorem pastTotalSize_iff {total off size : Nat} (total_lt : total < 2 ^ 32) (off_lt : off < 2 ^ 32)
    (size_lt : size < 2 ^ 32) :
    pastTotalSize total off size ↔ total < off + size := by
  rw [pastTotalSize]
  omega

theorem blockChecked_eq (total : fieldOf content 1 = content.length) (limit : Nat) :
    blockChecked content (fieldOf content 2) (fieldOf content 3) (fieldOf content 4) (fieldOf content 5)
      (fieldOf content 7) limit =
      if 17 ≤ fieldOf content 5 ∧ content.length < 40 then .error .outOfBounds
      else if 17 ≤ fieldOf content 5 ∧ content.length < fieldOf content 2 + fieldOf content 9 then .error .exited
      else readParts (Region.ofBuffer content) content.length (fieldOf content 2) (fieldOf content 3)
        (fieldOf content 4) (fieldOf content 5)
        (fieldOf content 7) limit := by
  have past := pastTotalSize_iff (total ▸ fieldOf_lt content 1) (fieldOf_lt content 2) (fieldOf_lt content 9)
  rw [blockChecked]
  by_cases blocks : 17 ≤ fieldOf content 5
  · rw [if_pos blocks]
    by_cases room : content.length < 40
    · rw [if_pos ⟨blocks, room⟩, fdtField_outside (show ¬ 4 * 9 + 4 ≤ content.length by omega)]
      rfl
    rw [if_neg (fun both => room both.2), fdtField_inside (show 4 * 9 + 4 ≤ content.length by omega), Exec.ok_bind]
    by_cases ends : content.length < fieldOf content 2 + fieldOf content 9
    · rw [if_pos (past.mpr ends), if_pos ⟨blocks, ends⟩]
    · rw [if_neg (fun reaches => ends (past.mp reaches)), if_neg (fun both => ends both.2)]
  · rw [if_neg blocks, if_neg (fun both => blocks both.1), if_neg (fun both => blocks both.1)]

theorem dtFromBlob_short (magic : fieldOf content 0 = fdtMagicWord) (total : fieldOf content 1 = content.length)
    (short : content.length < fdtV1Size) : dtFromBlob content = .error .exited := by
  have first : beValue (content.take 4) = fdtMagicWord := magic
  have second : beValue ((content.drop 4).take 4) = content.length := total
  rw [dtFromBlob]
  by_cases four : content.length < 4
  · rw [if_pos four]
    rfl
  rw [if_neg four, first, if_neg (by simp)]
  by_cases eight : content.length < 8
  · rw [if_pos eight]
    rfl
  · rw [if_neg eight, second, if_pos short]
    rfl

/-- The reader of files reads the parts once its checks have passed. -/
theorem dtFromBlob_eq (magic : fieldOf content 0 = fdtMagicWord) (total : fieldOf content 1 = content.length) :
    dtFromBlob content = match headerFault content with
      | some fault => .error fault
      | none => blobParts content := by
  have table := pastTotalSize_iff (total ▸ fieldOf_lt content 1) (fieldOf_lt content 3) (fieldOf_lt content 8)
  rw [headerFault]
  by_cases short : content.length < fdtV1Size
  · rw [if_pos short]
    exact dtFromBlob_short magic total short
  rw [dtFromBlob_read magic total (Nat.le_of_not_lt short), if_neg short]
  rw [fdtV1Size] at short
  rw [fdtField_inside (show 4 * 2 + 4 ≤ content.length by omega), Exec.ok_bind,
    fdtField_inside (show 4 * 3 + 4 ≤ content.length by omega), Exec.ok_bind,
    fdtField_inside (show 4 * 4 + 4 ≤ content.length by omega), Exec.ok_bind,
    fdtField_inside (show 4 * 5 + 4 ≤ content.length by omega), Exec.ok_bind]
  by_cases fields : content.length < 32
  · rw [if_pos fields, fdtField_outside (show ¬ 4 * 7 + 4 ≤ content.length by omega)]
    rfl
  rw [if_neg fields, fdtField_inside (show 4 * 7 + 4 ≤ content.length by omega), Exec.ok_bind]
  by_cases reserves : content.length ≤ fieldOf content 4
  · rw [if_pos reserves, if_pos (.inl reserves)]
  by_cases struct : content.length ≤ fieldOf content 2
  · rw [if_neg reserves, if_pos struct, if_pos (.inr (.inl struct))]
  by_cases strings : content.length < fieldOf content 3
  · rw [if_neg reserves, if_neg struct, if_pos strings, if_pos (.inr (.inr strings))]
  have starts : ¬ (content.length ≤ fieldOf content 4 ∨ content.length ≤ fieldOf content 2 ∨
      content.length < fieldOf content 3) := by
    omega
  rw [if_neg reserves, if_neg struct, if_neg strings, if_neg starts, blobParts, tableLimit]
  by_cases sized : 3 ≤ fieldOf content 5
  · rw [if_pos sized, if_pos sized]
    by_cases sizes : content.length < 36
    · rw [if_pos ⟨sized, sizes⟩, fdtField_outside (show ¬ 4 * 8 + 4 ≤ content.length by omega)]
      rfl
    rw [if_neg (fun both => sizes both.2), fdtField_inside (show 4 * 8 + 4 ≤ content.length by omega), Exec.ok_bind]
    by_cases past : content.length < fieldOf content 3 + fieldOf content 8
    · rw [if_pos (table.mpr past), if_pos ⟨sized, past⟩]
    rw [if_neg (fun reaches => past (table.mp reaches)), if_neg (fun both => past both.2), blockChecked_eq total]
    split
    · rfl
    · split <;> rfl
  · rw [if_neg sized, if_neg sized, if_neg (fun both => sized both.1), if_neg (fun both => sized both.1),
      blockChecked_eq total]
    split
    · rfl
    · split <;> rfl

end Headers
section Parts
variable {content : Bytes}

theorem flatReadChunk_past {mem : Region} {inb : Inbuf} {len : Nat} (past : inb.limit < inb.ptr + len) :
    flatReadChunk mem inb len = .error .exited := if_pos past

theorem flatReadChunk_exits {mem : Region} {inb : Inbuf} (len : Nat) (inside : inb.limit ≤ mem.mapped.length) :
    (∃ result, flatReadChunk mem inb len = .ok result) ∨ flatReadChunk mem inb len = .error .exited := by
  rw [flatReadChunk]
  by_cases past : inb.limit < inb.ptr + len
  · exact .inr (if_pos past)
  · rw [if_neg past, Region.slice]
    refine .inl ?_
    by_cases none : len = 0
    · exact ⟨_, by rw [if_pos none]; rfl⟩
    · exact ⟨_, by rw [if_neg none, if_pos (by omega)]; rfl⟩

/-- The reserve map is read inside the blob or not at all. -/
theorem flatReadMemReserve_exits {mem : Region} {inb : Inbuf} (fuel : Nat) (inside : inb.limit ≤ mem.mapped.length) :
    (∃ result, flatReadMemReserve mem fuel inb = .ok result) ∨ flatReadMemReserve mem fuel inb =
      .error .exited := by
  induction fuel generalizing inb with
  | zero => exact .inr rfl
  | succ fuel ih =>
    rw [flatReadMemReserve]
    rcases flatReadChunk_exits 16 inside with ⟨⟨re, next⟩, read⟩ | stopped
    · have limit : next.limit = inb.limit := by
        rw [flatReadChunk] at read
        split at read
        · cases read
        · obtain ⟨_, _, rest⟩ := Exec.bind_eq_ok.mp read
          cases rest
          rfl
      rw [read, Exec.ok_bind]
      dsimp only
      split
      · exact .inl ⟨_, rfl⟩
      · rcases ih (limit ▸ inside) with ⟨result, more⟩ | stopped
        · exact .inl ⟨_, by rw [more]; rfl⟩
        · exact .inr (by rw [stopped]; rfl)
    · exact .inr (by rw [stopped]; rfl)

theorem blobParts_outside (outside : content.length ≤ fieldOf content 4 ∨ content.length ≤ fieldOf content 2) :
    blobParts content = .error .exited := by
  have mapped := mapped_ofBuffer content
  rw [blobParts, readParts]
  by_cases reserves : content.length ≤ fieldOf content 4
  · have stopped : flatReadMemReserve (Region.ofBuffer content) (content.length + 1)
      (inbufInit (fieldOf content 4) content.length) =
        .error .exited := by
      have past : content.length < fieldOf content 4 + 16 := by omega
      rw [flatReadMemReserve, flatReadChunk_past past]
      rfl
    rw [stopped]
    rfl
  · have struct := outside.resolve_left reserves
    let inb := inbufInit (fieldOf content 2) content.length
    have stopped : flatReadWord (Region.ofBuffer content) inb = .error .exited := by
      have past : content.length < fieldOf content 2 + 4 := by omega
      have aligned : ¬ (inb.ptr - inb.base) % 4 ≠ 0 := by simp [inb, inbufInit]
      rw [flatReadWord, if_neg aligned, flatReadChunk_past past]
      rfl
    have limit : content.length ≤ (Region.ofBuffer content).mapped.length :=
      Nat.le_of_eq (congrArg List.length mapped).symm
    rcases @flatReadMemReserve_exits _ (inbufInit (fieldOf content 4) content.length) (content.length + 1) limit with
      ⟨result, read⟩ | exited
    · rw [read, Exec.ok_bind, stopped]
      rfl
    · rw [exited]
      rfl

end Parts
section Agreement
variable {content : Bytes}

structure ReadersAgree (content : Bytes) : Prop where
  alike : dtFromMem (Region.ofBuffer content) = dtFromBlob content
  inside : ∀ d, dtFromMem (Region.ofBuffer content) = .ok d → HeaderInside content

/-- Of a header that is there the offsets of both blocks are outside, or no part is. Of a header that is cut off
the reader of files gets to a field that is not there. -/
structure HarmlessHeader (content : Bytes) : Prop where
  there : HeaderThere content →
    content.length ≤ fieldOf content 4 ∨ content.length ≤ fieldOf content 2 ∨ HeaderInside content
  missing : ¬ HeaderThere content → headerFault content = some .outOfBounds

/-- A check of the header stops the one reader, and the parser stops the other one in the same way. -/
def StopsAlike (content : Bytes) : Prop := ∃ fault, headerFault content = some fault ∧
    blobParts content = .error fault

theorem stopsAlike_of_outside (there : HeaderThere content)
    (outside : content.length ≤ fieldOf content 4 ∨ content.length ≤ fieldOf content 2) : StopsAlike content := by
  have fields := there.fields
  refine ⟨.exited, ?_, blobParts_outside outside⟩
  rw [headerFault, if_neg (by rw [fdtV1Size]; omega), if_neg (by omega), if_pos (by omega)]

theorem agree_of_stopsAlike (magic : fieldOf content 0 = fdtMagicWord) (total : fieldOf content 1 = content.length)
    (there : HeaderThere content) (alike : StopsAlike content) : ReadersAgree content := by
  obtain ⟨fault, checks, stops⟩ := alike
  have mem := (dtFromMem_there total there).trans stops
  have blob := dtFromBlob_eq magic total
  rw [checks] at blob
  refine ⟨mem.trans blob.symm, fun d read => ?_⟩
  rw [mem] at read
  cases read

theorem agree_of_harmless (magic : fieldOf content 0 = fdtMagicWord) (total : fieldOf content 1 = content.length)
    (harmless : HarmlessHeader content) : ReadersAgree content := by
  by_cases there : HeaderThere content
  · rcases harmless.there there with reserves | struct | inside
    · exact agree_of_stopsAlike magic total there (stopsAlike_of_outside there (.inl reserves))
    · exact agree_of_stopsAlike magic total there (stopsAlike_of_outside there (.inr struct))
    · have blob := dtFromBlob_eq magic total
      rw [headerFault_eq_none.mpr ⟨there, inside⟩] at blob
      exact ⟨(dtFromMem_there total there).trans blob.symm, fun _ _ => inside⟩
  · have mem := dtFromMem_missing there
    have blob := dtFromBlob_eq magic total
    rw [harmless.missing there] at blob
    refine ⟨mem.trans blob.symm, fun d read => ?_⟩
    rw [mem] at read
    cases read

/-- With another header the readers agree only where the parser stops by itself. -/
theorem agree_iff_of_harmful (magic : fieldOf content 0 = fdtMagicWord) (total : fieldOf content 1 = content.length)
    (harmful : ¬ HarmlessHeader content) : ReadersAgree content ↔ HeaderThere content ∧ StopsAlike content := by
  refine ⟨fun agree => ?_, fun alike => agree_of_stopsAlike magic total alike.1 alike.2⟩
  have blob := dtFromBlob_eq magic total
  cases checks : headerFault content with
  | none =>
    have harmless := headerFault_eq_none.mp checks
    exact absurd ⟨fun _ => .inr (.inr harmless.2), fun missing => absurd harmless.1 missing⟩ harmful
  | some fault =>
    rw [checks] at blob
    by_cases there : HeaderThere content
    · exact ⟨there, fault, checks, (dtFromMem_there total there).symm.trans (agree.alike.trans blob)⟩
    · cases (dtFromMem_missing there).symm.trans (agree.alike.trans blob)
      exact absurd ⟨fun found => absurd found there, fun _ => checks⟩ harmful

theorem readers_agree_iff (magic : fieldOf content 0 = fdtMagicWord) (total : fieldOf content 1 = content.length) :
    ReadersAgree content ↔ HarmlessHeader content ∨ HeaderThere content ∧ StopsAlike content := by
  by_cases harmless : HarmlessHeader content
  · exact iff_of_true (agree_of_harmless magic total harmless) (.inl harmless)
  · rw [agree_iff_of_harmful magic total harmless, or_iff_right harmless]

/-- A blob of one nameless node without properties, with the size of its structure block as the header has it. -/
def bareBlob (sizeDt : Nat) : Bytes :=
  [fdtMagicWord, 72, 56, 72, 40, 17, 16, 0, 0, sizeDt, 0, 0, 0, 0, 1, 0, 2, 9].flatMap (beBytes 4)

theorem bare_blob_agreed : ReadersAgree (bareBlob 16) := by
  have inside : HeaderThere (bareBlob 16) ∧ HeaderInside (bareBlob 16) := headerFault_eq_none.mp (by decide +kernel)
  exact (readers_agree_iff (by decide +kernel) (by decide +kernel)).mpr
    (.inl ⟨fun _ => .inr (.inr inside.2), fun missing => absurd inside.1 missing⟩)

/-- A structure block that ends behind the blob is taken from memory and refused in a file. -/
theorem overlong_block_differs : fieldOf (bareBlob 17) 0 = fdtMagicWord ∧
    fieldOf (bareBlob 17) 1 = (bareBlob 17).length ∧
    ¬ ReadersAgree (bareBlob 17) := by
  refine ⟨by decide +kernel, by decide +kernel, fun agree => ?_⟩
  have taken : (dtFromMem (Region.ofBuffer (bareBlob 17))).toOption.isSome = true := by decide +kernel
  have refused : (dtFromBlob (bareBlob 17)).toOption.isSome = false := by decide +kernel
  rw [agree.alike, refused] at taken
  cases taken

end Agreement
end Bxxt.Proofs
