import Bxxt.CpioReader

/-! When unpacking a ramdisk ends, for every sequence of bytes. -/

namespace Bxxt.Proofs
open ByteLayout DirTree

/-- How the reader comes to an end. It is `named` if the entry that it lost has a name. -/
inductive ReadEnd where
  | trailer
  | nameless
  | named
  deriving DecidableEq

def ReadEnd.ofName : Option Bytes → ReadEnd
  | none => nameless
  | some _ => named

/-- The headers that the reader can decode one after the other, each behind what it skips of the last one. -/
def readHeaders (ahead : Bytes → Nat) (readHeader : CpioReadHeader) : Nat → Bytes → Int →
    List CpioHeader × ReadEnd
  | 0, _, _ => ([], .nameless)
  | fuel + 1, rest, toSkip =>
    let (skipped, rest) := archiveReadConsume rest toSkip
    if skipped ≠ toSkip then ([], .nameless)
    else
      match archiveReadFormatCpioReadHeader ahead readHeader rest with
      | .trailer => ([], .trailer)
      | .lost pathname _ => ([], ReadEnd.ofName pathname)
      | .found h rest toSkip =>
        let (headers, ending) := readHeaders ahead readHeader fuel rest toSkip
        (h :: headers, ending)

/-- A header takes a byte at least, so that there are no more headers than bytes. -/
def decodedHeaders (ahead : Bytes → Nat) (decoded : Option Bytes) : List CpioHeader × ReadEnd :=
  match decoded with
  | none => ([], .nameless)
  | some rest =>
    match archiveReadFormatCpioBid rest with
    | none => ([], .nameless)
    | some readHeader => readHeaders ahead readHeader (rest.length + 1) rest 0

/-- The loop comes to its end without a fault, after one iteration more than there are headers at most. -/
def EndsInTime (decode : Bytes → Option Bytes) (ahead : Bytes → Nat) (disk : Disk) (path bb : Bytes) : Prop :=
  ∃ fuel count a r, bxxtCpioArchiveInBytes decode ahead fuel disk path bb = some (count, a, .ok r) ∧
    count ≤ (decodedHeaders ahead (decode bb)).1.length + 1

def PathFits (root : DiskPlace) (h : CpioHeader) : Prop := pathLength root + 1 + (h.pathname.getD []).length < pathMax

section Headers
variable {ahead : Bytes → Nat}

theorem findNewcHeader_spec {fuel : Nat} {p h : Bytes} (found : findNewcHeader fuel p = some h) :
    110 ≤ h.length ∧ h.length ≤ p.length := by
  induction fuel generalizing p with
  | zero => simp [findNewcHeader] at found
  | succ fuel ih =>
    rw [findNewcHeader] at found
    split at found
    · cases found
    · rename_i enough
      split at found
      · cases found
        omega
      · have next := ih found
        simp only [List.length_drop] at next
        omega

theorem findOdcHeader_shorter {fuel len : Nat} {p h : Bytes} {large : Bool}
    (found : findOdcHeader ahead fuel p len = some (h, large)) : h.length ≤ p.length := by
  induction fuel generalizing p len with
  | zero => simp [findOdcHeader] at found
  | succ fuel ih =>
    rw [findOdcHeader] at found
    split at found
    · split at found
      · cases found
      · exact ih found
    · split at found
      · cases found
        exact Nat.le_refl _
      · split at found
        · cases found
          exact Nat.le_refl _
        · have next := ih found
          simp only [List.length_drop] at next
          omega

theorem read_shorter {readHeader : CpioReadHeader} {p rest : Bytes} {f : CpioFields}
    (read : readHeader.read ahead p = some (f, rest)) : rest.length < p.length := by
  cases readHeader with
  | odc =>
    simp only [CpioReadHeader.read] at read
    cases found : findOdcHeader ahead (2 * p.length + 2) p 0 with
    | none => simp [found] at read
    | some out =>
      obtain ⟨h, large⟩ := out
      have shorter := findOdcHeader_shorter found
      cases large <;> simp only [found] at read <;> split at read <;> cases read <;>
        simp only [List.length_drop] <;> omega
  | newc =>
    simp only [CpioReadHeader.read] at read
    cases found : findNewcHeader p.length p with
    | none => simp [found] at read
    | some h =>
      have shorter := findNewcHeader_spec found
      simp only [found] at read
      cases read
      simp only [List.length_drop]
      omega
  | binLe | binBe =>
    simp only [CpioReadHeader.read] at read
    split at read
    · cases read
    · cases read
      simp only [List.length_drop]
      omega

theorem readHeader_found {readHeader : CpioReadHeader} {before rest : Bytes} {h : CpioHeader} {toSkip : Int}
    (found : archiveReadFormatCpioReadHeader ahead readHeader before = .found h rest toSkip) :
    (∃ name, h.pathname = some name) ∧ rest.length < before.length := by
  rw [archiveReadFormatCpioReadHeader] at found
  split at found
  · cases found
  · rename_i f behind read
    have shorter := read_shorter read
    simp only at found
    split at found
    · cases found
    · split at found
      · split at found
        · cases found
        · split at found
          · cases found
          · cases found
            refine ⟨⟨_, rfl⟩, ?_⟩
            simp only [List.length_drop]
            omega
      · split at found
        · cases found
        · cases found
          refine ⟨⟨_, rfl⟩, ?_⟩
          simp only [List.length_drop]
          omega

theorem consume_shorter (rest : Bytes) (request : Int) :
    (archiveReadConsume rest request).2.length ≤ rest.length := by
  rw [archiveReadConsume]
  split
  · exact Nat.le_refl _
  · split
    · exact Nat.zero_le _
    · simp

theorem recordHardlink_named (links : List LinksEntry) {h : CpioHeader} {name : Bytes}
    (named : h.pathname = some name) :
    ∃ hardlink kept, recordHardlink links h = .ok (hardlink, kept) := by
  rw [recordHardlink]
  split
  · exact ⟨_, _, rfl⟩
  · split
    · rename_i i found
      have inside := (List.findIdx?_eq_some_iff_getElem.mp found).1
      rw [List.getElem?_eq_getElem inside]
      exact ⟨_, _, rfl⟩
    · rw [named]
      exact ⟨_, _, rfl⟩

structure ReaderAt (r : ArchiveRead) (readHeader : CpioReadHeader) (rest : Bytes) (toSkip : Int)
    (links : List LinksEntry) :
    Prop where
  format : r.readHeader = readHeader
  bytes : r.rest = rest
  names : r.links = links
  place : r.state = .data ∧ r.toSkip = toSkip ∨ r.state = .header ∧ toSkip = 0

variable (ahead) in
/-- What the next header can be, as the reader and the sequence of headers have it. -/
theorem nextHeader_cases {r : ArchiveRead} {readHeader : CpioReadHeader} {rest : Bytes} {toSkip : Int}
    {links : List LinksEntry} (stands : ReaderAt r readHeader rest toSkip links) (fuel : Nat) :
    (∃ after, archiveReadNextHeader ahead r = .ok (archiveEof, after) ∧
      readHeaders ahead readHeader (fuel + 1) rest toSkip = ([], .trailer)) ∨
    (∃ after, archiveReadNextHeader ahead r = .ok (archiveFatal, after) ∧ after.state = .fatal ∧
      readHeaders ahead readHeader (fuel + 1) rest toSkip = ([], ReadEnd.ofName after.entry.pathname)) ∨
    ∃ after h hardlink behind left kept, archiveReadNextHeader ahead r = .ok (archiveOk, after) ∧
      recordHardlink links h = .ok (hardlink, kept) ∧ after.entry = h.entry hardlink ∧
        (∃ name, h.pathname = some name) ∧
      ReaderAt after readHeader behind left kept ∧ behind.length < rest.length ∧
      readHeaders ahead readHeader (fuel + 1) rest toSkip =
        (h :: (readHeaders ahead readHeader fuel behind left).1,
          (readHeaders ahead readHeader fuel behind left).2) := by
  obtain ⟨rfl, rfl, rfl, place⟩ := stands
  have going : ¬ (r.state = .eof ∨ r.state = .fatal) := by
    rcases place with ⟨state, _⟩ | ⟨state, _⟩ <;> simp [state]
  -- A reader at a header has nothing to skip, as if it had to skip no bytes.
  have skips : (if r.state = .data then archiveReadConsume r.rest r.toSkip else (r.toSkip, r.rest)) =
      ((archiveReadConsume r.rest toSkip).1 + (r.toSkip - toSkip), (archiveReadConsume r.rest toSkip).2) := by
    rcases place with ⟨state, rfl⟩ | ⟨state, rfl⟩
    · simp [state]
    · simp [state, archiveReadConsume]
  have shorter := consume_shorter r.rest toSkip
  rw [archiveReadNextHeader, if_neg going, readHeaders]
  simp only [skips]
  generalize archiveReadConsume r.rest toSkip = consumed at shorter ⊢
  obtain ⟨skipped, behind⟩ := consumed
  simp only at shorter ⊢
  by_cases same : skipped = toSkip
  · have still : ¬ (skipped + (r.toSkip - toSkip) ≠ r.toSkip) := by omega
    rw [if_neg still, if_neg (not_not_intro same)]
    cases read : archiveReadFormatCpioReadHeader ahead r.readHeader behind with
    | trailer => exact .inl ⟨_, rfl, rfl⟩
    | lost pathname size => exact .inr (.inl ⟨_, rfl, rfl, rfl⟩)
    | found h left toSkip =>
      obtain ⟨⟨name, named⟩, less⟩ := readHeader_found read
      obtain ⟨hardlink, kept, recorded⟩ := recordHardlink_named r.links named
      refine .inr (.inr ⟨{ r with state := .data, rest := left, toSkip, links := kept, entry := h.entry hardlink },
        h, hardlink, left, toSkip, kept, ?_, recorded, rfl, ⟨name, named⟩,
          ⟨rfl, rfl, rfl, .inl ⟨rfl, rfl⟩⟩, by omega, rfl⟩)
      simp only [recorded, Exec.ok_bind]
  · have moved : skipped + (r.toSkip - toSkip) ≠ r.toSkip := by omega
    rw [if_pos moved, if_pos same]
    exact .inr (.inl ⟨_, rfl, rfl, rfl⟩)

end Headers

section Loop
variable {ahead : Bytes → Nat} {root : DiskPlace}

theorem archiveEof_ne : archiveFatal ≠ archiveEof ∧ archiveOk ≠ archiveEof := by decide

theorem readLoop_nameless {r after : ArchiveRead} (next : archiveReadNextHeader ahead r = .ok (archiveFatal, after))
    (nameless : after.entry.pathname = none) (a : WriteDisk) : readLoop ahead root 1 r a = some (1, a, .ok ()) := by
  rw [readLoop, next]
  simp only [if_neg archiveEof_ne.1, bxxtCpioArchiveReadEntry, nameless]
  rfl

def written (root : DiskPlace) (a : WriteDisk) (e : ReadEntry) (name : Bytes) : WriteDisk :=
  ((a.writeHeader e (root.map .name ++ partsOf name)).writeBlocks e.blocks).finishEntry

variable (root) in
theorem readEntry_named {e : ReadEntry} {name : Bytes} (named : e.pathname = some name) (a : WriteDisk) :
    bxxtCpioArchiveReadEntry root a e =
      if pathMax ≤ pathLength root + 1 + name.length then .error .stackOverflow
      else .ok (archiveOk, written root a e name) := by
  rw [bxxtCpioArchiveReadEntry, named]
  rfl

theorem readLoop_goes {fuel count : Nat} {r after : ArchiveRead} {a out : WriteDisk} {ret : Int} {name : Bytes}
    (next : archiveReadNextHeader ahead r = .ok (ret, after)) (going : ret ≠ archiveEof)
    (named : after.entry.pathname = some name)
    (ended : readLoop ahead root (fuel + 1) r a = some (count, out, .ok ())) :
    pathLength root + 1 + name.length < pathMax ∧
      ∃ later, readLoop ahead root fuel (after.withPath root) (written root a after.entry name) =
        some (later, out, .ok ()) := by
  rw [readLoop, next] at ended
  simp only [if_neg going, readEntry_named root named] at ended
  by_cases long : pathMax ≤ pathLength root + 1 + name.length
  · rw [if_pos long] at ended
    cases ended
  · rw [if_neg long] at ended
    simp only [ne_eq, not_true_eq_false, if_false] at ended
    obtain ⟨⟨later, rest⟩, again, same⟩ := Option.map_eq_some_iff.mp ended
    cases same
    exact ⟨by omega, later, again⟩

/-- The reader stays fatal, and its entry keeps its name: the loop never ends by itself. -/
theorem readLoop_stuck {fuel count : Nat} {r : ArchiveRead} {a out : WriteDisk} {name : Bytes}
    (state : r.state = .fatal) (named : r.entry.pathname = some name) :
    readLoop ahead root fuel r a ≠ some (count, out, .ok ()) := by
  induction fuel generalizing r a name count with
  | zero => simp [readLoop]
  | succ fuel ih =>
    intro ended
    have next : archiveReadNextHeader ahead r = .ok (archiveFatal, { r with state := .fatal }) :=
      if_pos (.inr state)
    obtain ⟨_, later, again⟩ := readLoop_goes next archiveEof_ne.1 named ended
    have renamed : ((ArchiveRead.withPath { r with state := .fatal } root).entry).pathname =
        some (placePath root ++ [47] ++ name) := by
      simp [ArchiveRead.withPath, named]
    exact ih rfl renamed again

theorem readLoop_more {fuel : Nat} {r : ArchiveRead} {a : WriteDisk} {out : Nat × WriteDisk × Exec Unit}
    (ended : readLoop ahead root fuel r a = some out) : readLoop ahead root (fuel + 1) r a = some out := by
  induction fuel generalizing r a out with
  | zero => simp [readLoop] at ended
  | succ fuel ih =>
    rw [readLoop] at ended ⊢
    cases next : archiveReadNextHeader ahead r with
    | error fault => simpa only [next] using ended
    | ok read =>
      obtain ⟨ret, after⟩ := read
      simp only [next] at ended ⊢
      by_cases atEnd : ret = archiveEof
      · rwa [if_pos atEnd] at ended ⊢
      · rw [if_neg atEnd] at ended ⊢
        cases written : bxxtCpioArchiveReadEntry root a after.entry with
        | error fault => simpa only [written] using ended
        | ok result =>
          obtain ⟨ret, a⟩ := result
          simp only [written] at ended ⊢
          by_cases stops : ret ≠ archiveOk
          · rwa [if_pos stops] at ended ⊢
          · rw [if_neg stops] at ended ⊢
            obtain ⟨later, again, rfl⟩ := Option.map_eq_some_iff.mp ended
            rw [ih again]
            rfl

variable (root) in
theorem ReaderAt.withPath {r : ArchiveRead} {readHeader : CpioReadHeader} {rest : Bytes} {toSkip : Int}
    {links : List LinksEntry} (stands : ReaderAt r readHeader rest toSkip links) :
    ReaderAt (r.withPath root) readHeader rest toSkip links :=
  ⟨stands.format, stands.bytes, stands.names, stands.place⟩

/-- Up to an end without a name, the loop over the bytes does what the loop over the headers does. -/
theorem readLoop_headers {readHeader : CpioReadHeader} (fuel : Nat) {r : ArchiveRead} {rest : Bytes} {toSkip : Int}
    {links : List LinksEntry} (a : WriteDisk) (stands : ReaderAt r readHeader rest toSkip links)
    (enough : rest.length < fuel) (clear : (readHeaders ahead readHeader fuel rest toSkip).2 ≠ .named) :
    ∃ steps count, readLoop ahead root steps r a =
        some (count, readEntries root links a (readHeaders ahead readHeader fuel rest toSkip).1) ∧
      count ≤ (readHeaders ahead readHeader fuel rest toSkip).1.length + 1 := by
  induction fuel generalizing r rest toSkip links a with
  | zero => omega
  | succ fuel ih =>
    rcases nextHeader_cases ahead stands fuel with ⟨after, next, headers⟩ | ⟨after, next, _, headers⟩ |
      ⟨after, h, hardlink, behind, left, kept, next, recorded, entry, ⟨name, named⟩, stands, shorter, headers⟩
    · rw [headers]
      exact ⟨1, 0, by simp only [readLoop, next, if_true, readEntries], by simp⟩
    · rw [headers] at clear ⊢
      cases name : after.entry.pathname with
      | some name => simp [name, ReadEnd.ofName] at clear
      | none => exact ⟨1, 1, readLoop_nameless next name a, by simp⟩
    · rw [headers] at clear ⊢
      have body := readEntry_named root (e := h.entry hardlink) named a
      by_cases long : pathMax ≤ pathLength root + 1 + name.length
      · rw [if_pos long] at body
        refine ⟨1, 1, ?_, by simp⟩
        simp only [readLoop, next, if_neg archiveEof_ne.2, entry, body, readEntries, recorded]
      · rw [if_neg long] at body
        obtain ⟨steps, count, again, bound⟩ := ih (written root a (h.entry hardlink) name)
          (stands.withPath root) (by omega) clear
        refine ⟨steps + 1, count + 1, ?_, by simp only [List.length_cons]; omega⟩
        simp only [readLoop, next, if_neg archiveEof_ne.2, entry, body, readEntries, recorded, ne_eq, not_true_eq_false,
          if_false, again, Option.map_some]

theorem readLoop_named {readHeader : CpioReadHeader} (fuel : Nat) {r : ArchiveRead} {rest : Bytes} {toSkip : Int}
    {links : List LinksEntry} {a out : WriteDisk} {steps count : Nat} (stands : ReaderAt r readHeader rest toSkip links)
    (enough : rest.length < fuel) (lost : (readHeaders ahead readHeader fuel rest toSkip).2 = .named) :
    readLoop ahead root steps r a ≠ some (count, out, .ok ()) := by
  induction fuel generalizing r rest toSkip links a steps count with
  | zero => omega
  | succ fuel ih =>
    intro ended
    cases steps with
    | zero => simp [readLoop] at ended
    | succ steps =>
      rcases nextHeader_cases ahead stands fuel with ⟨after, next, headers⟩ | ⟨after, next, state, headers⟩ |
        ⟨after, h, hardlink, behind, left, kept, next, recorded, entry, ⟨name, named⟩, stands, shorter, headers⟩
      · simp [headers] at lost
      · rw [headers] at lost
        cases named : after.entry.pathname with
        | none => simp [named, ReadEnd.ofName] at lost
        | some name =>
          obtain ⟨_, later, again⟩ := readLoop_goes next archiveEof_ne.1 named ended
          exact readLoop_stuck (r := after.withPath root) state
            (by simp only [ArchiveRead.withPath, named, Option.map_some]; rfl) again
      · rw [headers] at lost
        obtain ⟨_, later, again⟩ := readLoop_goes next archiveEof_ne.2 (by rw [entry]; exact named) ended
        exact ih (stands.withPath root) (by omega) lost again

end Loop

section Entries
variable {ahead : Bytes → Nat} {root : DiskPlace}

variable (root) in
theorem readEntries_ok {headers : List CpioHeader} (named : ∀ h ∈ headers, ∃ name, h.pathname = some name)
    (links : List LinksEntry) (a : WriteDisk) :
    (readEntries root links a headers).2 = .ok () ↔ ∀ h ∈ headers, PathFits root h := by
  induction headers generalizing links a with
  | nil => simp [readEntries]
  | cons h rest ih =>
    obtain ⟨name, isNamed⟩ := named h List.mem_cons_self
    obtain ⟨hardlink, kept, recorded⟩ := recordHardlink_named links isNamed
    have body := readEntry_named root (e := h.entry hardlink) isNamed a
    have fits : PathFits root h ↔ ¬ pathMax ≤ pathLength root + 1 + name.length := by
      simp only [PathFits, isNamed, Option.getD_some]
      omega
    rw [readEntries, List.forall_mem_cons, fits]
    by_cases long : pathMax ≤ pathLength root + 1 + name.length
    · simp [recorded, body, long]
    · have others := ih (fun h inside => named h (List.mem_cons_of_mem _ inside)) kept
        (written root a (h.entry hardlink) name)
      simp only [recorded, body, if_neg long, ne_eq, not_true_eq_false, if_false]
      exact others.trans (and_iff_right long).symm

theorem readHeaders_named {readHeader : CpioReadHeader} {fuel : Nat} {rest : Bytes} {toSkip : Int} :
    ∀ h ∈ (readHeaders ahead readHeader fuel rest toSkip).1, ∃ name, h.pathname = some name := by
  induction fuel generalizing rest toSkip with
  | zero => simp [readHeaders]
  | succ fuel ih =>
    rw [readHeaders]
    simp only
    split
    · simp
    · split
      · simp
      · simp
      · rename_i found
        intro h inside
        rcases List.mem_cons.mp inside with rfl | inside
        · exact (readHeader_found found).1
        · exact ih h inside

/-- Where an archive is opened, the reader is at its first header or has no entry to read. -/
theorem opened_cases (ahead : Bytes → Nat) (decoded : Option Bytes) :
    ((archiveReadOpenMemory decoded).state = .fatal ∧ (archiveReadOpenMemory decoded).entry = clearEntry ∧
      decodedHeaders ahead decoded = ([], .nameless)) ∨
    ∃ readHeader rest, ReaderAt (archiveReadOpenMemory decoded) readHeader rest 0 [] ∧
      decodedHeaders ahead decoded = readHeaders ahead readHeader (rest.length + 1) rest 0 := by
  cases decoded with
  | none => exact .inl ⟨rfl, rfl, rfl⟩
  | some rest =>
    cases bid : archiveReadFormatCpioBid rest with
    | none => left; simp [archiveReadOpenMemory, decodedHeaders, bid]
    | some readHeader =>
      refine .inr ⟨readHeader, rest, ?_, by simp [decodedHeaders, bid]⟩
      simp only [archiveReadOpenMemory, bid]
      exact ⟨rfl, rfl, rfl, .inr ⟨rfl, rfl⟩⟩

variable (ahead) in
theorem decodedHeaders_named (decoded : Option Bytes) :
    ∀ h ∈ (decodedHeaders ahead decoded).1, ∃ name, h.pathname = some name := by
  rcases opened_cases ahead decoded with ⟨_, _, headers⟩ | ⟨readHeader, rest, _, headers⟩
  · simp [headers]
  · rw [headers]
    exact readHeaders_named

/-- The bytes of a ramdisk are unpacked as its headers are, unless the entry that the reader loses has a name. -/
theorem extraction_refines (decode : Bytes → Option Bytes) (ahead : Bytes → Nat) (disk : Disk) (path bb : Bytes)
    (clear : (decodedHeaders ahead (decode bb)).2 ≠ .named) :
    ∃ fuel count, bxxtCpioArchiveInBytes decode ahead fuel disk path bb =
        some (count, bxxtCpioArchiveIn disk path (decodedHeaders ahead (decode bb)).1) ∧
      count ≤ (decodedHeaders ahead (decode bb)).1.length + 1 := by
  simp only [bxxtCpioArchiveInBytes, bxxtCpioArchiveIn]
  cases disk.realpath path with
  | none => exact ⟨0, 0, rfl, Nat.zero_le _⟩
  | some root =>
    have runs : ∃ fuel count, readLoop ahead root fuel (archiveReadOpenMemory (decode bb)) (newWriteDisk disk) =
        some (count, readEntries root [] (newWriteDisk disk) (decodedHeaders ahead (decode bb)).1) ∧
        count ≤ (decodedHeaders ahead (decode bb)).1.length + 1 := by
      rcases opened_cases ahead (decode bb) with ⟨state, entry, headers⟩ | ⟨readHeader, rest, stands, headers⟩
      · rw [headers]
        exact ⟨1, 1, readLoop_nameless (if_pos (.inr state)) (by simp [entry, clearEntry]) _, by simp⟩
      · rw [headers] at clear ⊢
        exact readLoop_headers _ _ stands (Nat.lt_succ_self _) clear
    obtain ⟨fuel, count, run, bound⟩ := runs
    exact ⟨fuel, count, by simp only [run, Option.map_some], bound⟩

theorem extraction_stuck (decode : Bytes → Option Bytes) (ahead : Bytes → Nat) {disk : Disk}
    {path : Bytes} (bb : Bytes) {root : DiskPlace} (opens : disk.realpath path = some root)
    (lost : (decodedHeaders ahead (decode bb)).2 = .named) :
    ¬ EndsInTime decode ahead disk path bb := by
  rintro ⟨fuel, count, a, r, run, _⟩
  simp only [bxxtCpioArchiveInBytes, opens] at run
  obtain ⟨⟨steps, out, result⟩, ended, same⟩ := Option.map_eq_some_iff.mp run
  cases result with
  | error fault => cases same
  | ok done =>
    rcases opened_cases ahead (decode bb) with ⟨_, _, headers⟩ | ⟨readHeader, rest, stands, headers⟩
    · simp [headers] at lost
    · rw [headers] at lost
      exact readLoop_named _ stands (Nat.lt_succ_self _) lost ended

theorem readLoop_steps {fuel : Nat} (more : Nat) {r : ArchiveRead} {a : WriteDisk} {out : Nat × WriteDisk × Exec Unit}
    (ended : readLoop ahead root fuel r a = some out) : readLoop ahead root (fuel + more) r a = some out := by
  induction more with
  | zero => exact ended
  | succ more ih => exact readLoop_more ih

/-- Two runs that end are the same run. -/
theorem readLoop_unique {first second : Nat} {r : ArchiveRead} {a : WriteDisk}
    {out other : Nat × WriteDisk × Exec Unit} (one : readLoop ahead root first r a = some out)
    (two : readLoop ahead root second r a = some other) : out = other := by
  have longer := readLoop_steps second one
  have shorter := readLoop_steps first two
  rw [Nat.add_comm] at shorter
  exact Option.some_inj.mp (longer.symm.trans shorter)

theorem extraction_unique {decode : Bytes → Option Bytes} {disk : Disk} {path bb : Bytes} {first second : Nat}
    {out other : Nat × WriteDisk × Exec Int} (one : bxxtCpioArchiveInBytes decode ahead first disk path bb = some out)
    (two : bxxtCpioArchiveInBytes decode ahead second disk path bb = some other) : out = other := by
  rw [bxxtCpioArchiveInBytes] at one two
  cases opens : disk.realpath path with
  | none =>
    rw [opens] at one two
    exact Option.some_inj.mp (one.symm.trans two)
  | some root =>
    rw [opens] at one two
    obtain ⟨left, ended, rfl⟩ := Option.map_eq_some_iff.mp one
    obtain ⟨right, again, rfl⟩ := Option.map_eq_some_iff.mp two
    rw [readLoop_unique ended again]

end Entries

/-- Unpacking ends if the directory is not there, or if all paths have room in their buffer and the reader loses no
entry that has a name: a symbolic link that is cut off or too long. -/
theorem extraction_ends_iff (decode : Bytes → Option Bytes) (ahead : Bytes → Nat) (disk : Disk) (path bb : Bytes) :
    EndsInTime decode ahead disk path bb ↔
      ∀ root, disk.realpath path = some root →
        (decodedHeaders ahead (decode bb)).2 ≠ .named ∧ ∀ h ∈ (decodedHeaders ahead (decode bb)).1,
        PathFits root h := by
  cases opens : disk.realpath path with
  | none =>
    constructor
    · intro _ root absent
      cases absent
    · intro _
      exact ⟨0, 0, newWriteDisk disk, archiveFailed, by simp only [bxxtCpioArchiveInBytes, opens], Nat.zero_le _⟩
  | some root =>
    have named := decodedHeaders_named ahead (decode bb)
    have fine := readEntries_ok root named [] (newWriteDisk disk)
    by_cases lost : (decodedHeaders ahead (decode bb)).2 = .named
    · refine ⟨fun ends => absurd ends (extraction_stuck decode ahead bb opens lost), ?_⟩
      intro when
      exact absurd lost (when root rfl).1
    · obtain ⟨fuel, count, run, bound⟩ := extraction_refines decode ahead disk path bb lost
      have outcome : (bxxtCpioArchiveIn disk path (decodedHeaders ahead (decode bb)).1).2 =
          (readEntries root [] (newWriteDisk disk) (decodedHeaders ahead (decode bb)).1).2.map fun _ => archiveOk := by
        simp only [bxxtCpioArchiveIn, opens]
      constructor
      · rintro ⟨steps, other, a, r, ended, _⟩ found same
        cases same
        refine ⟨lost, fine.mp ?_⟩
        have results := congrArg (fun out => out.2.2) (extraction_unique ended run)
        simp only [outcome] at results
        cases result : (readEntries root [] (newWriteDisk disk) (decodedHeaders ahead (decode bb)).1).2 with
        | error fault => rw [result] at results; cases results
        | ok done => rfl
      · intro when
        rw [fine.mpr (when root rfl).2] at outcome
        have whole : bxxtCpioArchiveIn disk path (decodedHeaders ahead (decode bb)).1 =
            ((bxxtCpioArchiveIn disk path (decodedHeaders ahead (decode bb)).1).1, .ok archiveOk) :=
          Prod.ext rfl outcome
        exact ⟨fuel, count, _, archiveOk, by rw [run, ← whole], bound⟩

def cutLink : Bytes := (headerPieces ⟨ascii "init", 0, some .symlink, 0o777, ascii "/sbin/init", 1, 300000⟩).flatten

/-- Without a filter, onto an empty disk. -/
theorem cut_link_never_ends : ¬ EndsInTime some List.length ⟨[], fun _ => [], 0, []⟩ (ascii "/") cutLink := by
  have lost : (decodedHeaders List.length (some cutLink)).2 = .named := by decide +kernel
  have opens : Disk.realpath ⟨[], fun _ => [], 0, []⟩ (ascii "/") = some [] := rfl
  exact extraction_stuck some List.length cutLink opens lost

end Bxxt.Proofs
