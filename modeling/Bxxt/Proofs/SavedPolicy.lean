import Bxxt.SepolMain

/-! What the saves of policies leave in a file. It is opened without `O_TRUNC`, so that the end of
a longer file stays behind the image of a shorter policy. -/

namespace Bxxt.Proofs
open Bxxt ByteLayout EventLog

structure Save (ρ : Type) where
  machine : Machine ρ
  db : Database ρ

variable {ρ : Type} {file : CString}

def Save.run (s : Save ρ) (file : CString) : SepolRun Int := bxxtSepolSavePolicyFile s.machine s.db file

def Save.image (s : Save ρ) : Except Fault (Option Bytes) := (policydbToImage s.machine s.db).result

def Save.apply (file : CString) (content : Option Bytes) (s : Save ρ) : Option Bytes :=
  (s.run file).log.foldl (s.machine.onFile file) content

def afterSaves (file : CString) (old : Option Bytes) (saves : List (Save ρ)) : Option Bytes :=
  saves.foldl (Save.apply file) old

/-- The image that a save writes, and what `write` returns for it. -/
def Save.puts (file : CString) (s : Save ρ) : Option (Bytes × Int) :=
  match s.image with
  | .ok (some image) => if s.machine.writable file then some (image, s.machine.written file image) else none
  | _ => none

def putEnd (put : Bytes × Int) : Nat := min put.2.toNat put.1.length

/-- Behind the end of each write, the file already has what is left of the image. As saving does not
truncate the file, this is what has to hold for it to end as the image does. -/
def Fits : Bytes → List (Bytes × Int) → Prop
  | _, [] => True
  | content, put :: rest =>
    (asInt put.1.length ≠ bxxtFailed → content.drop (putEnd put) = put.1.drop (putEnd put)) ∧
      Fits (overwrite content put.1 put.2) rest

section Write
variable {content data : Bytes} {written : Int}

theorem overwrite_eq_iff : overwrite content data written = data ↔ content.drop (putEnd (data, written)) =
    data.drop (putEnd (data, written)) := by
  constructor
  · intro same
    have tail := congrArg (List.drop (putEnd (data, written))) same
    rw [overwrite, List.drop_append] at tail
    simpa [putEnd] using tail
  · intro same
    change data.take (putEnd (data, written)) ++ content.drop (putEnd (data, written)) = data
    rw [same, List.take_append_drop]

/-- A write that takes everything leaves the end of a longer file. -/
theorem overwrite_all_iff : overwrite content data data.length = data ↔ content.length ≤ data.length := by
  rw [overwrite_eq_iff, putEnd, Int.toNat_natCast, Nat.min_self, List.drop_length, List.drop_eq_nil_iff]

end Write

section Step
variable {s : Save ρ} {content : Option Bytes}

theorem image_log (m : Machine ρ) (db : Database ρ) (content : Option Bytes) :
    (policydbToImage m db).log.foldl (m.onFile file) content = content := by
  cases db with
  | live pdb rest =>
    rw [policydbToImage]
    cases made : m.toImage pdb rest with
    | error fault => rfl
    | ok image => cases image <;> rfl
  | destroyed versioned => cases versioned <;> rfl

/-- A save that writes nothing reports no success, and leaves the file. -/
theorem save_nothing (none : s.puts file = none) :
    (∀ r, (s.run file).result = .ok r → r = bxxtFailed) ∧ s.apply file content = content := by
  have unread := @image_log ρ file s.machine s.db content
  rw [Save.puts, Save.image] at none
  rw [Save.apply, Save.run, bxxtSepolSavePolicyFile, bind_eq]
  cases made : (policydbToImage s.machine s.db).result with
  | error fault =>
    refine ⟨?_, unread⟩
    intro r returned
    cases returned
  | ok image =>
    cases image with
    | none =>
      refine ⟨fun r returned => (Except.ok.inj returned).symm, ?_⟩
      exact (congrArg _ (List.append_nil _)).trans unread
    | some image =>
      have closed : ¬ s.machine.writable file = true := by
        intro opens
        rw [made] at none
        simp [opens] at none
      simp only [if_neg closed]
      refine ⟨fun r returned => (Except.ok.inj returned).symm, ?_⟩
      exact (congrArg _ (List.append_nil _)).trans unread

theorem save_puts {image : Bytes} {written : Int} (puts : s.puts file = some (image, written)) :
    s.image = .ok (some image) ∧ (s.run file).result = .ok (asInt image.length) ∧
      s.apply file content = some (overwrite (content.getD []) image written) := by
  have unread := @image_log ρ file s.machine s.db content
  rw [Save.puts] at puts
  split at puts
  next image' made =>
    split at puts
    next opens =>
      cases puts
      have made' : (policydbToImage s.machine s.db).result = .ok (some image) := made
      refine ⟨made, ?_, ?_⟩
      · rw [Save.run, bxxtSepolSavePolicyFile, bind_eq, made']
        simp only [if_pos opens]
        rfl
      · rw [Save.apply, Save.run, bxxtSepolSavePolicyFile, bind_eq, made']
        simp only [if_pos opens]
        change List.foldl _ content ((policydbToImage s.machine s.db).log ++ [.wrote file image]) = _
        rw [List.foldl_append, unread]
        change (if file = file then _ else _) = _
        rw [if_pos rfl]
        cases content <;> rfl
    next => cases puts
  next => cases puts

end Step

section Run

/-- What is true of each step of a sequence, by its first step and the others. -/
theorem forall_steps_cons {α : Type} {first : α} {rest : List α} {good : List α → α → Prop} :
    (∀ before step after, first :: rest = before ++ step :: after → good before step) ↔
      good [] first ∧ ∀ before step after, rest = before ++ step :: after → good (first :: before) step := by
  constructor
  · intro all
    exact ⟨all [] first rest rfl, fun before step after shape =>
      all (first :: before) step after (by rw [shape]; rfl)⟩
  · rintro ⟨now, later⟩ before step after shape
    cases before with
    | nil =>
      cases shape
      exact now
    | cons head before =>
      cases shape
      exact later before step after rfl

/-- If a save behind others reports success, the file is the image that it made. -/
def Exact (file : CString) (old : Option Bytes) (before : List (Save ρ)) (s : Save ρ) : Prop :=
  ∀ r, (s.run file).result = .ok r → r ≠ bxxtFailed →
    ∃ image, s.image = .ok (some image) ∧ afterSaves file old (before ++ [s]) = some image

theorem exact_first {old : Option Bytes} {s : Save ρ} {put : Bytes × Int} (puts : s.puts file = some put) :
    Exact file old [] s ↔
      (asInt put.1.length ≠ bxxtFailed → (old.getD []).drop (putEnd put) = put.1.drop (putEnd put)) := by
  obtain ⟨image, written⟩ := put
  obtain ⟨made, returns, after⟩ := @save_puts _ _ s old _ _ puts
  rw [← overwrite_eq_iff]
  constructor
  · intro exactly reported
    obtain ⟨image', made', content⟩ := exactly _ returns reported
    rw [made] at made'
    cases made'
    exact Option.some.inj (after.symm.trans content)
  · intro same r returned reported
    rw [returns] at returned
    cases returned
    exact ⟨image, made, after.trans (congrArg some (same reported))⟩

theorem steps_exact_iff (old : Option Bytes) (saves : List (Save ρ)) :
    (∀ before s after, saves = before ++ s :: after → Exact file old before s) ↔
      Fits (old.getD []) (saves.filterMap (Save.puts file)) := by
  induction saves generalizing old with
  | nil => simp [Fits]
  | cons s rest ih =>
    have shift (before : List (Save ρ)) (step : Save ρ) :
        Exact file old (s :: before) step ↔ Exact file (s.apply file old) before step := Iff.rfl
    simp only [forall_steps_cons, shift]
    rw [ih]
    cases puts : s.puts file with
    | none =>
      obtain ⟨fails, kept⟩ := @save_nothing _ _ s old puts
      rw [List.filterMap_cons_none puts, kept]
      exact and_iff_right fun r returned reported => absurd (fails r returned) reported
    | some put =>
      obtain ⟨image, written⟩ := put
      obtain ⟨_, _, after⟩ := @save_puts _ _ s old _ _ puts
      rw [List.filterMap_cons_some puts, Fits, exact_first puts, after]
      rfl

/-- Complete writes of images that have an `int` for their length fit if none is shorter than
what was there. -/
theorem fits_iff_chain {puts : List (Bytes × Int)}
    (whole : ∀ put ∈ puts, put.2 = put.1.length ∧ put.1.length < 2 ^ 31)
    (content : Bytes) : Fits content puts ↔
    (content.length :: puts.map fun put => put.1.length).IsChain (· ≤ ·) := by
  induction puts generalizing content with
  | nil => simp [Fits]
  | cons put rest ih =>
    obtain ⟨⟨complete, small⟩, later⟩ := List.forall_mem_cons.mp whole
    obtain ⟨image, written⟩ := put
    dsimp only at complete small
    subst complete
    have reported : asInt image.length ≠ bxxtFailed := by
      rw [asInt_of_small small, bxxtFailed]
      omega
    rw [Fits, List.map_cons, List.isChain_cons_cons, forall_prop_of_true reported, ← overwrite_eq_iff,
      overwrite_all_iff]
    constructor
    · rintro ⟨longer, fits⟩
      rw [overwrite_all_iff.mpr longer] at fits
      exact ⟨longer, (ih later image).mp fits⟩
    · rintro ⟨longer, chain⟩
      refine ⟨longer, ?_⟩
      rw [overwrite_all_iff.mpr longer]
      exact (ih later image).mpr chain

/-- Every save that reports success leaves the image alone, if and only if behind the end of each
write the file had what is left of the image: for complete writes, if no image is shorter than
the file was. -/
theorem saves_exact_iff (file : CString) (old : Option Bytes) (saves : List (Save ρ)) :
    ((∀ before s after, saves = before ++ s :: after → Exact file old before s) ↔
      Fits (old.getD []) (saves.filterMap (Save.puts file))) ∧
    ((∀ put ∈ saves.filterMap (Save.puts file), put.2 = put.1.length ∧ put.1.length < 2 ^ 31) →
      ((∀ before s after, saves = before ++ s :: after → Exact file old before s) ↔
        ((old.getD []).length :: (saves.filterMap (Save.puts file)).map fun put => put.1.length).IsChain
          (· ≤ ·))) := by
  have exact_iff := @steps_exact_iff _ file old saves
  exact ⟨exact_iff, fun whole => exact_iff.trans (fits_iff_chain whole _)⟩

section Files

/-- A machine whose files all open, whose writes are complete, and on which every policy has this image. -/
def plainMachine (image : Bytes) : Machine Unit where
  content _ := none
  writable _ := true
  written _ data := data.length
  policydbRead _ := .ok (.refused false)
  toImage _ _ := .ok (some image)
  init := ()
  hyphen := true
  malloc := ⟨0, none⟩

def saveOf (image : Bytes) : Save Unit := ⟨plainMachine image, .live policydbInit ()⟩

theorem growing_saves_exact :
    afterSaves (ascii "sepolicy") none [saveOf [140, 255], saveOf [140, 255, 124]] = some [140, 255, 124] := by
  have puts : [saveOf [140, 255], saveOf [140, 255, 124]].filterMap (Save.puts (ascii "sepolicy")) =
      [([140, 255], 2), ([140, 255, 124], 3)] := rfl
  have all := (saves_exact_iff (ascii "sepolicy") none [saveOf [140, 255], saveOf [140, 255, 124]]).2
  rw [puts] at all
  have exactly := (all (by decide)).mpr (by simp) [saveOf [140, 255]] (saveOf [140, 255, 124])
    [] rfl (asInt (3 : Nat)) rfl
    (by rw [asInt_of_small (by decide)]; decide)
  obtain ⟨image, made, after⟩ := exactly
  cases made
  exact after

/-- The last byte of the old file stays. -/
theorem shorter_image_keeps_end :
    afterSaves (ascii "sepolicy") (some [140, 255, 124]) [saveOf [140, 255]] = some [140, 255, 124] ∧
      ¬ Exact (ascii "sepolicy") (some [140, 255, 124]) [] (saveOf [140, 255]) := by
  have kept : afterSaves (ascii "sepolicy") (some [140, 255, 124]) [saveOf [140, 255]] = some [140, 255, 124] := rfl
  refine ⟨kept, ?_⟩
  intro exactly
  obtain ⟨image, made, after⟩ := exactly (asInt (2 : Nat)) rfl (by rw [asInt_of_small (by decide)]; decide)
  cases made
  cases kept.symm.trans after

end Files
end Run
end Bxxt.Proofs
