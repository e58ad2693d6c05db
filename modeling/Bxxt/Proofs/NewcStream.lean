import Bxxt.Cpio

/-! What the writer of the newc format has passed on to its filter. Where the sink has room for all
of it, every result is good; where it has not, one of them is an error. -/

namespace Bxxt.Proofs
open ByteLayout

section Stream
variable {σ : Type} (gzip : GzipFilter σ)

/-- What the filter gives for one piece. Nothing is written for an empty one. -/
def feed (state : σ) (piece : Bytes) : σ × List Bytes := if piece = [] then (state, []) else gzip.write state piece

def feedAll : σ → List Bytes → σ × List Bytes
  | state, [] => (state, [])
  | state, piece :: pieces =>
    let (state, blocks) := feed gzip state piece
    let (state, more) := feedAll state pieces
    (state, blocks ++ more)

def archiveStream (pieces : List Bytes) : Bytes :=
  let (state, blocks) := feedAll gzip gzip.opened pieces
  (blocks ++ gzip.close state).flatten

theorem feedAll_append (state : σ) (pieces more : List Bytes) :
    feedAll gzip state (pieces ++ more) =
      ((feedAll gzip (feedAll gzip state pieces).1 more).1,
        (feedAll gzip state pieces).2 ++ (feedAll gzip (feedAll gzip state pieces).1 more).2) := by
  induction pieces generalizing state with
  | nil => rfl
  | cons piece pieces ih => simp only [List.cons_append, feedAll, ih, List.append_assoc]

/-- What has gone to the sink for these pieces, where it has room for it. -/
def fed (pieces : List Bytes) : Bytes := (feedAll gzip gzip.opened pieces).2.flatten

theorem fed_append (pieces more : List Bytes) : fed gzip (pieces ++ more) =
    fed gzip pieces ++ (feedAll gzip (feedAll gzip gzip.opened pieces).1 more).2.flatten := by
  rw [fed, feedAll_append, List.flatten_append, fed]

theorem fed_length_le (pieces more : List Bytes) : (fed gzip pieces).length ≤ (fed gzip (pieces ++ more)).length := by
  rw [fed_append, List.length_append]
  exact Nat.le_add_right _ _

theorem archiveStream_eq (pieces : List Bytes) :
    archiveStream gzip pieces = fed gzip pieces ++ (gzip.close (feedAll gzip gzip.opened pieces).1).flatten := by
  change ((feedAll gzip gzip.opened pieces).2 ++ gzip.close (feedAll gzip gzip.opened pieces).1).flatten = _
  rw [List.flatten_append, fed]

/-- The writer has passed exactly these pieces on: the filter is in the state behind them, and all
that it gave had room in the sink. -/
structure Passed (a : ArchiveWrite σ) (pieces : List Bytes) : Prop where
  filter : a.filter = some (feedAll gzip gzip.opened pieces).1
  written : a.written = fed gzip pieces
  room : (fed gzip pieces).length ≤ a.size

def behind (a : ArchiveWrite σ) (pieces : List Bytes) : ArchiveWrite σ :=
  { a with filter := some (feedAll gzip gzip.opened pieces).1, written := fed gzip pieces }

theorem memoryWrites_fits {size : Nat} {written : Bytes} {blocks : List Bytes}
    (fits : written.length + blocks.flatten.length ≤ size) :
    memoryWrites size written blocks = (written ++ blocks.flatten, true) := by
  induction blocks generalizing written with
  | nil => simp [memoryWrites]
  | cons block blocks ih =>
    rw [List.flatten_cons, List.length_append] at fits
    have accepted : memoryWrite size written block = some (written ++ block) := by
      rw [memoryWrite, if_neg (by omega)]
    rw [memoryWrites, accepted]
    dsimp only
    rw [ih (by rw [List.length_append]; omega), List.flatten_cons, List.append_assoc]

theorem memoryWrites_refused {size : Nat} {written : Bytes} {blocks : List Bytes} (room : written.length ≤ size)
    (beyond : size < written.length + blocks.flatten.length) : (memoryWrites size written blocks).2 = false := by
  induction blocks generalizing written with
  | nil =>
    rw [List.flatten_nil, List.length_nil] at beyond
    omega
  | cons block blocks ih =>
    rw [List.flatten_cons, List.length_append] at beyond
    rw [memoryWrites]
    by_cases full : size < written.length + block.length
    · rw [memoryWrite, if_pos full]
    · rw [memoryWrite, if_neg full]
      exact ih (by rw [List.length_append]; omega) (by rw [List.length_append]; omega)

theorem memoryWrites_inside {size : Nat} {written : Bytes} (blocks : List Bytes) (room : written.length ≤ size) :
    (memoryWrites size written blocks).1.length ≤ size := by
  induction blocks generalizing written with
  | nil => exact room
  | cons block blocks ih =>
    rw [memoryWrites, memoryWrite]
    by_cases full : size < written.length + block.length
    · rw [if_pos full]
      exact room
    · rw [if_neg full]
      refine ih ?_
      rw [List.length_append]
      omega

theorem memoryWrites_prefix (size : Nat) (written : Bytes) (blocks : List Bytes) :
    (memoryWrites size written blocks).1 <+: written ++ blocks.flatten := by
  induction blocks generalizing written with
  | nil => exact List.prefix_append written []
  | cons block blocks ih =>
    rw [memoryWrites, memoryWrite]
    by_cases full : size < written.length + block.length
    · rw [if_pos full]
      exact List.prefix_append written _
    · rw [if_neg full, List.flatten_cons, ← List.append_assoc]
      exact ih (written ++ block)

section Output
variable {gzip} {a : ArchiveWrite σ} {pieces : List Bytes}

theorem passed_behind {a : ArchiveWrite σ} {pieces : List Bytes} (room : (fed gzip pieces).length ≤ a.size) :
    Passed gzip (behind gzip a pieces) pieces := ⟨rfl, rfl, room⟩

theorem behind_self (passed : Passed gzip a pieces) : behind gzip a pieces = a := by
  cases a
  cases passed with | mk filter written room => simp_all [behind]

theorem fed_snoc (pieces : List Bytes) (piece : Bytes) : fed gzip (pieces ++ [piece]) =
    fed gzip pieces ++ (feed gzip (feedAll gzip gzip.opened pieces).1 piece).2.flatten := by
  rw [fed_append]
  simp only [feedAll, List.append_nil]

theorem output_fits (passed : Passed gzip a pieces) (piece : Bytes)
    (fits : (fed gzip (pieces ++ [piece])).length ≤ a.size) :
    archiveWriteOutput gzip a piece = (archiveOk, behind gzip a (pieces ++ [piece])) := by
  rw [fed_snoc, List.length_append] at fits
  unfold archiveWriteOutput
  rw [behind, fed_snoc, feedAll_append]
  simp only [feedAll]
  by_cases empty : piece = []
  · simp only [feed, if_pos empty, List.flatten_nil, List.append_nil]
    exact congrArg _ (behind_self passed).symm
  · rw [feed, if_neg empty] at fits
    simp only [feed, if_neg empty, passed.filter]
    rw [memoryWrites_fits (by rw [passed.written]; exact fits), passed.written]

/-- A block was refused, and the filters are left with it. -/
def BlockRefused (result : Int × ArchiveWrite σ) : Prop := result.1 = archiveFatal ∧ result.2.filter = none

theorem output_refused (passed : Passed gzip a pieces) (piece : Bytes)
    (beyond : a.size < (fed gzip (pieces ++ [piece])).length) : BlockRefused (archiveWriteOutput gzip a piece) := by
  rw [fed_snoc, List.length_append] at beyond
  have room := passed.room
  unfold archiveWriteOutput
  by_cases empty : piece = []
  · rw [feed, if_pos empty, List.flatten_nil, List.length_nil] at beyond
    omega
  · rw [feed, if_neg empty, ← passed.written] at beyond
    rw [← passed.written] at room
    simp only [if_neg empty, passed.filter]
    have refused := memoryWrites_refused room beyond
    split
    next accepted =>
      rw [accepted] at refused
      cases refused
    next => exact ⟨rfl, rfl⟩

theorem outputs_fits (passed : Passed gzip a pieces) (more : List Bytes)
    (fits : (fed gzip (pieces ++ more)).length ≤ a.size) :
    archiveWriteOutputs gzip a more = (archiveOk, behind gzip a (pieces ++ more)) := by
  induction more generalizing a pieces with
  | nil =>
    rw [archiveWriteOutputs, List.append_nil, behind_self passed]
  | cons piece more ih =>
    have whole : pieces ++ piece :: more = pieces ++ [piece] ++ more := by simp
    rw [whole] at fits ⊢
    have first := Nat.le_trans (fed_length_le gzip (pieces ++ [piece]) more) fits
    rw [archiveWriteOutputs, output_fits passed piece first]
    exact ih (passed_behind first) fits

theorem outputs_refused (passed : Passed gzip a pieces) (more : List Bytes)
    (beyond : a.size < (fed gzip (pieces ++ more)).length) : BlockRefused (archiveWriteOutputs gzip a more) := by
  induction more generalizing a pieces with
  | nil =>
    have room := passed.room
    rw [List.append_nil] at beyond
    omega
  | cons piece more ih =>
    have whole : pieces ++ piece :: more = pieces ++ [piece] ++ more := by simp
    rw [whole] at beyond
    rw [archiveWriteOutputs]
    by_cases first : (fed gzip (pieces ++ [piece])).length ≤ a.size
    · rw [output_fits passed piece first]
      exact ih (passed_behind first) beyond
    · have refused := output_refused passed piece (by omega)
      dsimp only
      rw [if_pos (by rw [refused.1]; decide)]
      exact refused

/-- The writer between two entries: the last one has its data, and its padding is still to come. -/
structure Ready (gzip : GzipFilter σ) (a : ArchiveWrite σ) (pieces : List Bytes) :
    Prop extends Passed gzip a pieces where
  state : a.state ≠ .fatal
  complete : a.entryBytesRemaining = 0

/-- The padding that the next header or the trailer comes behind. -/
def pending (a : ArchiveWrite σ) : List Bytes := if a.state = .data then nullPieces a.padding else []

def entryPieces (e : ArchiveEntry) : List Bytes := headerPieces e ++ linkPieces e

theorem writeHeader_fits (passed : Passed gzip a pieces) {e : ArchiveEntry} (small : e.filesize ≤ 0xffffffff)
    (fits : (fed gzip (pieces ++ entryPieces e)).length ≤ a.size) :
    writeHeader gzip a e = (archiveOk, { behind gzip a (pieces ++ entryPieces e) with
      entryBytesRemaining := e.storedSize, padding := pad4 e.storedSize }) := by
  rw [entryPieces, ← List.append_assoc] at fits ⊢
  have first := Nat.le_trans (fed_length_le gzip (pieces ++ headerPieces e) (linkPieces e)) fits
  have accepted : ¬ archiveOk < archiveOk := by decide
  have second : Passed gzip { behind gzip a (pieces ++ headerPieces e) with
      entryBytesRemaining := e.storedSize, padding := pad4 e.storedSize } (pieces ++ headerPieces e) :=
        ⟨rfl, rfl, first⟩
  rw [writeHeader, if_neg (by omega), outputs_fits passed _ first]
  dsimp only
  rw [if_neg accepted, outputs_fits second _ fits]
  rfl

theorem writeHeader_refused (passed : Passed gzip a pieces) {e : ArchiveEntry} (small : e.filesize ≤ 0xffffffff)
    (beyond : a.size < (fed gzip (pieces ++ entryPieces e)).length) : BlockRefused (writeHeader gzip a e) := by
  rw [entryPieces, ← List.append_assoc] at beyond
  have failed : archiveFatal < archiveOk := by decide
  have accepted : ¬ archiveOk < archiveOk := by decide
  rw [writeHeader, if_neg (by omega)]
  by_cases first : (fed gzip (pieces ++ headerPieces e)).length ≤ a.size
  · have second : Passed gzip { behind gzip a (pieces ++ headerPieces e) with
        entryBytesRemaining := e.storedSize, padding := pad4 e.storedSize } (pieces ++ headerPieces e) :=
        ⟨rfl, rfl, first⟩
    rw [outputs_fits passed _ first]
    dsimp only
    rw [if_neg accepted]
    exact outputs_refused second _ beyond
  · have refused := outputs_refused passed (headerPieces e) (by omega)
    dsimp only
    rw [if_pos (by rwa [refused.1])]
    exact ⟨rfl, refused.2⟩

theorem finish_fits (ready : Ready gzip a pieces) (fits : (fed gzip (pieces ++ pending a)).length ≤ a.size) :
    (if a.state = .data then archiveWriteNewcFinishEntry gzip a else (archiveOk, a)) =
      (archiveOk, behind gzip a (pieces ++ pending a)) := by
  unfold pending at fits ⊢
  split
  next entry =>
    rw [if_pos entry] at fits
    rw [archiveWriteNewcFinishEntry, ready.complete, Nat.zero_add]
    exact outputs_fits ready.toPassed _ fits
  next => rw [List.append_nil, behind_self ready.toPassed]

theorem finish_refused (ready : Ready gzip a pieces) (beyond : a.size < (fed gzip (pieces ++ pending a)).length) :
    BlockRefused (if a.state = .data then archiveWriteNewcFinishEntry gzip a else (archiveOk, a)) := by
  have room := ready.room
  unfold pending at beyond
  split at beyond
  next entry =>
    rw [if_pos entry, archiveWriteNewcFinishEntry, ready.complete, Nat.zero_add]
    exact outputs_refused ready.toPassed _ beyond
  next =>
    rw [List.append_nil] at beyond
    omega

structure Formats (e : ArchiveEntry) : Prop where
  filetype : e.filetype ≠ none
  pathname : e.pathname ≠ []
  small : e.filesize ≤ 0xffffffff

theorem header_fits (ready : Ready gzip a pieces) {e : ArchiveEntry} (formats : Formats e)
    (fits : (fed gzip (pieces ++ pending a ++ entryPieces e)).length ≤ a.size) :
    archiveWriteHeader gzip a e = ((archiveOk,
      { behind gzip a (pieces ++ pending a ++ entryPieces e) with
        state := .data, entryBytesRemaining := e.storedSize, padding := pad4 e.storedSize }), e.storedSize) := by
  have accepted : ¬ archiveOk < archiveOk := by decide
  have first := Nat.le_trans (fed_length_le gzip (pieces ++ pending a) (entryPieces e)) fits
  have passed : Passed gzip { behind gzip a (pieces ++ pending a) with state := .header } (pieces ++ pending a) :=
    ⟨rfl, rfl, first⟩
  rw [archiveWriteHeader, if_neg ready.state, finish_fits ready first]
  dsimp only
  rw [if_neg accepted, archiveWriteNewcHeader, if_neg formats.filetype, if_neg formats.pathname,
    writeHeader_fits passed formats.small fits]
  rfl

theorem newcHeader_refused (passed : Passed gzip a pieces) {e : ArchiveEntry}
    (refuses : Formats e → a.size < (fed gzip (pieces ++ entryPieces e)).length) :
    (archiveWriteNewcHeader gzip a e).1.1 = archiveFailed ∨ (archiveWriteNewcHeader gzip a e).1.1 = archiveFatal := by
  unfold archiveWriteNewcHeader
  split
  next => exact Or.inl rfl
  next filetype =>
    split
    next => exact Or.inl rfl
    next pathname =>
      by_cases small : e.filesize ≤ 0xffffffff
      · exact Or.inr (writeHeader_refused passed small (refuses ⟨filetype, pathname, small⟩)).1
      · refine Or.inl ?_
        rw [writeHeader, if_pos (by omega)]

theorem header_refused (ready : Ready gzip a pieces) {e : ArchiveEntry}
    (refuses : Formats e → a.size < (fed gzip (pieces ++ pending a ++ entryPieces e)).length) :
    (archiveWriteHeader gzip a e).1.1 < 0 := by
  have failedNegative : archiveFailed < 0 := by decide
  have fatalNegative : archiveFatal < 0 := by decide
  rw [archiveWriteHeader, if_neg ready.state]
  by_cases first : (fed gzip (pieces ++ pending a)).length ≤ a.size
  · have passed : Passed gzip { behind gzip a (pieces ++ pending a) with state := .header } (pieces ++ pending a) :=
      ⟨rfl, rfl, first⟩
    have refused := newcHeader_refused passed refuses
    rw [finish_fits ready first]
    dsimp only
    rw [if_neg (by decide)]
    obtain failed | fatal := refused
    · rw [if_pos failed]
      exact failedNegative
    · rw [fatal, if_neg (by decide), if_pos (by decide)]
      exact fatalNegative
  · have refused := finish_refused ready (by omega)
    dsimp only
    rw [if_pos (by rw [refused.1]; decide)]
    exact fatalNegative

theorem data_fits (passed : Passed gzip a pieces) {piece : Bytes} (entry : a.state = .data)
    (inside : piece.length ≤ a.entryBytesRemaining) (fits : (fed gzip (pieces ++ [piece])).length ≤ a.size) :
    archiveWriteData gzip a piece = ((piece.length : Int), { behind gzip a (pieces ++ [piece]) with
      entryBytesRemaining := a.entryBytesRemaining - piece.length }) := by
  rw [archiveWriteData, if_neg (not_not.mpr entry), List.take_of_length_le inside]
  dsimp only
  rw [output_fits passed piece fits]
  rfl

theorem data_refused (passed : Passed gzip a pieces) {piece : Bytes} (entry : a.state = .data)
    (inside : piece.length ≤ a.entryBytesRemaining) (beyond : a.size < (fed gzip (pieces ++ [piece])).length) :
    (archiveWriteData gzip a piece).1 = archiveFatal := by
  have refused := (output_refused passed piece beyond).1
  rw [archiveWriteData, if_neg (not_not.mpr entry), List.take_of_length_le inside]
  dsimp only
  rw [if_neg (by rw [refused]; decide), refused]

theorem datas_fits (passed : Passed gzip a pieces) (more : List Bytes) (entry : a.state = .data)
    (left : a.entryBytesRemaining = more.flatten.length) (fits : (fed gzip (pieces ++ more)).length ≤ a.size) :
    (∀ code ∈ (archiveWriteDatas gzip a more).1, 0 ≤ code) ∧
      (archiveWriteDatas gzip a more).2 = { behind gzip a (pieces ++ more) with entryBytesRemaining := 0 } := by
  induction more generalizing a pieces with
  | nil =>
    rw [List.append_nil, behind_self passed]
    refine ⟨fun code member => absurd member List.not_mem_nil, ?_⟩
    cases a
    simp_all [archiveWriteDatas]
  | cons piece more ih =>
    rw [List.flatten_cons, List.length_append] at left
    have whole : pieces ++ piece :: more = pieces ++ [piece] ++ more := by simp
    rw [whole] at fits ⊢
    have first := Nat.le_trans (fed_length_le gzip (pieces ++ [piece]) more) fits
    have step := data_fits passed entry (by omega) first
    have next : Passed gzip { behind gzip a (pieces ++ [piece]) with
        entryBytesRemaining := a.entryBytesRemaining - piece.length } (pieces ++ [piece]) := ⟨rfl, rfl, first⟩
    obtain ⟨codes, last⟩ := ih next entry (by dsimp only; omega) fits
    rw [archiveWriteDatas, step]
    refine ⟨?_, last⟩
    intro code member
    obtain rfl | later := List.mem_cons.mp member
    · exact Int.natCast_nonneg _
    · exact codes code later

theorem datas_refused (passed : Passed gzip a pieces) (more : List Bytes) (entry : a.state = .data)
    (left : a.entryBytesRemaining = more.flatten.length) (beyond : a.size < (fed gzip (pieces ++ more)).length) :
    ∃ code ∈ (archiveWriteDatas gzip a more).1, code < 0 := by
  induction more generalizing a pieces with
  | nil =>
    have room := passed.room
    rw [List.append_nil] at beyond
    omega
  | cons piece more ih =>
    rw [List.flatten_cons, List.length_append] at left
    have whole : pieces ++ piece :: more = pieces ++ [piece] ++ more := by simp
    rw [whole] at beyond
    rw [archiveWriteDatas]
    by_cases first : (fed gzip (pieces ++ [piece])).length ≤ a.size
    · have step := data_fits passed entry (by omega) first
      have next : Passed gzip { behind gzip a (pieces ++ [piece]) with
          entryBytesRemaining := a.entryBytesRemaining - piece.length } (pieces ++ [piece]) := ⟨rfl, rfl, first⟩
      obtain ⟨code, member, negative⟩ := ih next entry (by dsimp only; omega) beyond
      rw [step]
      exact ⟨code, List.mem_cons_of_mem _ member, negative⟩
    · have refused := data_refused (a := a) passed entry (by omega) (Nat.not_le.mp first)
      refine ⟨_, List.mem_cons_self, ?_⟩
      rw [refused]
      decide

theorem close_fits (ready : Ready gzip a pieces)
    (fits : (archiveStream gzip (pieces ++ pending a ++ entryPieces trailerEntry)).length ≤ a.size) :
    archiveWriteClose gzip a = (archiveOk,
      { behind gzip a (pieces ++ pending a ++ entryPieces trailerEntry) with
        filter := none
        written := archiveStream gzip (pieces ++ pending a ++ entryPieces trailerEntry)
        entryBytesRemaining := 0
        padding := 0 }) := by
  rw [archiveStream_eq, List.length_append] at fits
  have second : (fed gzip (pieces ++ pending a ++ entryPieces trailerEntry)).length ≤ a.size := by omega
  have first := Nat.le_trans (fed_length_le gzip (pieces ++ pending a) _) second
  have passed : Passed gzip (behind gzip a (pieces ++ pending a)) (pieces ++ pending a) := passed_behind first
  rw [archiveWriteClose, finish_fits ready first]
  dsimp only
  rw [writeHeader_fits passed (by decide) second]
  dsimp only [behind]
  rw [memoryWrites_fits (by omega), archiveStream_eq]
  rfl

theorem outputs_stuck (stuck : a.filter = none) (more : List Bytes) : (archiveWriteOutputs gzip a more).2 = a := by
  induction more with
  | nil => rfl
  | cons piece more ih =>
    rw [archiveWriteOutputs, archiveWriteOutput, stuck]
    by_cases empty : piece = []
    · rw [if_pos empty]
      exact ih
    · rw [if_neg empty]
      rfl

theorem writeHeader_stuck (stuck : a.filter = none) (e : ArchiveEntry) : (writeHeader gzip a e).2.filter = none := by
  have headed : (archiveWriteOutputs gzip a (headerPieces e)).2 = a := outputs_stuck stuck _
  unfold writeHeader
  split
  · exact stuck
  · dsimp only
    split
    · rw [headed]
      exact stuck
    · rw [headed,
        outputs_stuck (a := { a with entryBytesRemaining := e.storedSize, padding := pad4 e.storedSize }) stuck]
      exact stuck

theorem close_refused (ready : Ready gzip a pieces)
    (beyond : a.size < (archiveStream gzip (pieces ++ pending a ++ entryPieces trailerEntry)).length) :
    (archiveWriteClose gzip a).1 < 0 := by
  have fatalNegative : archiveFatal < 0 := by decide
  rw [archiveStream_eq, List.length_append] at beyond
  rw [archiveWriteClose]
  by_cases first : (fed gzip (pieces ++ pending a)).length ≤ a.size
  · have passed : Passed gzip (behind gzip a (pieces ++ pending a)) (pieces ++ pending a) := passed_behind first
    rw [finish_fits ready first]
    dsimp only
    by_cases second : (fed gzip (pieces ++ pending a ++ entryPieces trailerEntry)).length ≤ a.size
    · have refused := memoryWrites_refused second beyond
      rw [writeHeader_fits passed (by decide) second]
      dsimp only [behind]
      split
      next accepted =>
        rw [accepted] at refused
        cases refused
      next => exact fatalNegative
    · have refused := writeHeader_refused (e := trailerEntry) passed (by decide) (by change a.size < _; omega)
      rw [refused.2]
      exact fatalNegative
  · have refused := finish_refused ready (by omega)
    dsimp only
    rw [writeHeader_stuck refused.2]
    exact fatalNegative

end Output
end Stream

end Bxxt.Proofs
