import Theo.Lib.Only
import Theo.Model.Cache

set_option autoImplicit false

/-! # What the body and the directory of a cell never do

On whatever memory, sane or not, and whether it returns or not: putting a chunk into the body issues
no barrier, leaves the integrity code alone and notes no call (`Quiet`); a look-up does nothing to the
memory at all. -/

namespace Theo

open ByteMachine

/-- An event of the body or the directory. -/
def Quiet : Event Site → Prop
  | .store .integrity _ _ => False
  | .store _ _ _ => True
  | .barrier => False
  | .mark (.freeSpace ..) => True
  | .mark (.visit _) => True
  | .mark _ => False

/-- The event notes no call of a streamer. -/
def NoCall : Event Site → Prop
  | .mark (.chunk ..) => False
  | .mark (.hasChunk _) => False
  | .mark (.addChunk ..) => False
  | _ => True

theorem Quiet.noCall {e : Event Site} (h : Quiet e) : NoCall e := by
  cases e with
  | store => trivial
  | barrier => trivial
  | mark note =>
      cases note with
      | chunk => exact h
      | hasChunk => exact h
      | addChunk => exact h
      | _ => trivial

section

variable {α : Type} {Q : Event Site → Prop}

/-! ## Look-ups -/

theorem cellDirBlockFind_reads (block : Nat) (c : Checksum) : Reads (cellDirBlockFind block c) := by
  have hloop : ∀ entry n, Reads (cellDirBlockFindLoop c entry n) := by
    intro entry n
    induction n generalizing entry with
    | zero => exact .pure none
    | succ n ih =>
        rw [cellDirBlockFindLoop]
        exact (Reads.load _).bind fun _ => .ite (ih _) (.ite (.pure _) (ih _))
  rw [cellDirBlockFind]
  exact (Reads.load _).bind fun _ => .ite (.pure none) (hloop _ _)

theorem cellDirGetChunk_reads (cellDir bufferTop : Nat) (c : Checksum) :
    Reads (cellDirGetChunk cellDir bufferTop c) := by
  have hloop : ∀ ptr n, Reads (cellDirOverflowGetLoop c ptr n) := by
    intro ptr n
    induction n generalizing ptr with
    | zero => exact .pure none
    | succ n ih =>
        rw [cellDirOverflowGetLoop]
        exact (Reads.load _).bind fun _ => .ite (.pure _) (ih _)
  have hblock : Reads (cellDirBlockGetChunk (blockPtr cellDir c.blockNo) c) := by
    rw [cellDirBlockGetChunk]
    refine (cellDirBlockFind_reads _ c).bind fun found => ?_
    cases found with
    | none => exact .pure none
    | some entry => exact (Reads.load _).bind fun _ => .pure _
  rw [cellDirGetChunk]
  refine hblock.bind fun found => ?_
  cases found with
  | some entry => exact .pure _
  | none =>
      refine (Reads.load _).bind fun _ => .ite ?_ (.pure none)
      rw [cellDirOverflowGetChunk]
      exact (Reads.load _).bind fun _ => .ite (.pure none) (hloop _ _)

theorem cacheGetCellIndex_reads (cache : Cache) (c : Checksum) :
    Reads (cacheGetCellIndex cache c) := by
  rw [cacheGetCellIndex]
  refine (Reads.load _).bind fun n => ?_
  cases cache.cells[c.part % n]? with
  | none => exact .throw _
  | some cell => exact .pure cell

theorem cacheHasChunk_reads (cache : Cache) (c : Checksum) : Reads (cacheHasChunk cache c) :=
  (cacheGetCellIndex_reads cache c).bind fun _ =>
    (cellDirGetChunk_reads _ _ c).bind fun _ => .pure _

/-- A call that adds finds the chunk missing exactly if a look-up just before does. -/
theorem cacheAddChunk_has {cache : Cache} {c : Checksum} {buffer : List UInt8} {added : Bool}
    {s s' : Store} (h : cacheAddChunk cache c buffer s = .ok added s') :
    cacheHasChunk cache c s = .ok (!added) s := by
  obtain ⟨cell, s₁, hcell, hrest⟩ := of_bind_ok h
  obtain ⟨rfl, -⟩ := (cacheGetCellIndex_reads cache c).same hcell rfl
  obtain ⟨found, s₂, hfound, hadd⟩ := of_bind_ok hrest
  obtain ⟨rfl, -⟩ := (cellDirGetChunk_reads _ _ c).same hfound rfl
  rw [cacheHasChunk, bind_ok hcell, cellHasChunk, bind_ok hfound, pure_run]
  cases found with
  | some entry =>
      have hfalse : EStateM.Result.ok false s₂ = .ok added s' := hadd
      obtain ⟨rfl, -⟩ := EStateM.Result.ok.inj hfalse
      rfl
  | none =>
      obtain ⟨_, s₃, -, hbody⟩ := of_bind_ok hadd
      obtain ⟨_, s₄, -, hexit⟩ := of_bind_ok hbody
      obtain ⟨_, s₅, -, hpure⟩ := of_bind_ok hexit
      obtain ⟨rfl, -⟩ := EStateM.Result.ok.inj hpure
      rfl

/-! ## Updates of the directory -/

theorem cellDirAdd_only (cellDir bufferTop : Nat) (e : CellDirEntry) :
    Only Quiet (cellDirAdd cellDir bufferTop e) := by
  have hloop : ∀ block entry n, Only Quiet (cellDirBlockAddLoop block e entry n) := by
    intro block entry n
    induction n generalizing entry with
    | zero => exact .pure false
    | succ n ih =>
        rw [cellDirBlockAddLoop]
        exact (Only.load _).bind fun _ => .ite ((Only.storeBytes (fun _ _ => trivial) _ _).bind
          fun _ => (Only.load _).bind fun _ => (Only.storeBits (fun _ => trivial) _ _ _).bind
            fun _ => .pure _) (ih _)
  rw [cellDirAdd]
  refine (hloop _ _ _).bind fun _ => .ite (.pure ()) ?_
  have hover : Only Quiet (cellDirOverflowAdd (overflowPtr cellDir) bufferTop e) :=
    (Only.load _).bind fun _ => (Only.storeBits (fun _ => trivial) _ _ _).bind fun _ =>
      (Only.load _).bind fun _ => (Only.storeBytes (fun _ _ => trivial) _ _).bind fun _ => .pure _
  have hincrement : Only Quiet
      (cellDirBlockIncrementOverflow (blockPtr cellDir e.checksum.blockNo)) :=
    (Only.load _).bind fun _ => (Only.storeBits (fun _ => trivial) _ _ _).bind fun _ => .load _
  exact hover.bind fun _ => hincrement.bind fun _ => .pure ()

theorem cellDirBlockRemove_only (block : Nat) (c : Checksum) :
    Only Quiet (cellDirBlockRemove block c) := by
  rw [cellDirBlockRemove]
  refine (cellDirBlockFind_reads _ c).only.bind fun found => ?_
  cases found with
  | none => exact .pure false
  | some entry =>
      have hclear : Only Quiet (cellDirEntryInit .dir entry) :=
        (Only.memset (fun _ _ => trivial) _ _).bind fun _ => .memset (fun _ _ => trivial) _ _
      exact hclear.bind fun _ => (Only.load _).bind fun _ =>
        (Only.storeBits (fun _ => trivial) _ _ _).bind fun _ => .pure true

theorem cellDirOverflowRemove_only (oflow bufferTop : Nat) (c : Checksum) :
    Only Quiet (cellDirOverflowRemove oflow bufferTop c) := by
  have hloop : ∀ cde ptr n, Only Quiet (cellDirOverflowRemoveLoop oflow cde c ptr n) := by
    intro cde ptr n
    induction n generalizing ptr with
    | zero => exact .pure false
    | succ n ih =>
        rw [cellDirOverflowRemoveLoop]
        exact (Only.load _).bind fun _ => .ite ((Only.load _).bind fun _ =>
          (Only.storeBytes (fun _ _ => trivial) _ _).bind fun _ =>
            (Only.memset (fun _ _ => trivial) _ _).bind fun _ => (Only.load _).bind fun _ =>
              (Only.storeBits (fun _ => trivial) _ _ _).bind fun _ => .pure true) (ih _)
  rw [cellDirOverflowRemove]
  exact (Only.load _).bind fun _ => .ite ((Only.load _).bind fun _ => .ite
    ((Only.memset (fun _ _ => trivial) _ _).bind fun _ =>
      (Only.storeBits (fun _ => trivial) _ _ _).bind fun _ => .pure true) (.pure false)) (hloop _ _ _)

theorem cellDirRemove_only (cellDir bufferTop : Nat) (c : Checksum) :
    Only Quiet (cellDirRemove cellDir bufferTop c) := by
  have hdecrement : Only Quiet (cellDirBlockDecrementOverflow (blockPtr cellDir c.blockNo)) :=
    (Only.load _).bind fun _ => (Only.check _ _).bind fun _ =>
      (Only.storeBits (fun _ => trivial) _ _ _).bind fun _ => .load _
  rw [cellDirRemove]
  exact (cellDirBlockRemove_only _ c).bind fun _ => .ite (.pure true) ((Only.load _).bind fun _ =>
    .ite ((cellDirOverflowRemove_only _ _ c).bind fun _ =>
      .ite (hdecrement.bind fun _ => .pure true) (.pure false)) (.pure false))

/-! ## The header and the body -/

theorem cellHeaderAdd_only (cellHeader : Nat) (e : CellDirEntry) (size : Nat) :
    Only Quiet (cellHeaderAdd cellHeader e size) :=
  (cellDirAdd_only _ _ e).bind fun _ => (Only.load _).bind fun _ =>
    (Only.store32 (fun _ => trivial) _).bind fun _ => (Only.load _).bind fun _ =>
      .store32 (fun _ => trivial) _

theorem cellHeaderRemove_only (cellHeader cellBodyEntry : Nat) :
    Only Quiet (cellHeaderRemove cellHeader cellBodyEntry) :=
  (Only.load _).bind fun _ => (cellDirRemove_only _ _ _).bind fun _ => (Only.check _ _).bind fun _ =>
    (Only.load _).bind fun _ => (Only.store32 (fun _ => trivial) _).bind fun _ =>
      (Only.load _).bind fun _ => (Only.check _ _).bind fun _ => (Only.load _).bind fun _ =>
        (Only.load _).bind fun _ => (Only.store32 (fun _ => trivial) _).bind fun _ =>
          (Only.load _).bind fun _ => .check _ _

theorem assignField_only (f : EntryField) (ptr v : Nat) : Only Quiet (assignField f ptr v) :=
  .storeBits (fun _ => trivial) _ _ _

theorem cellBodySetTop_only (ptr : Nat) : Only Quiet (cellBodySetTop ptr) :=
  (assignField_only _ _ _).bind fun _ => (assignField_only _ _ _).bind fun _ =>
    assignField_only _ _ _

theorem cellBodyFreeSpace_only (cellBody : Nat) (cell : Cell) :
    Only Quiet (cellBodyFreeSpace cellBody cell) :=
  (Only.load _).bind fun _ => (Only.load _).bind fun _ => (Only.load _).bind fun _ =>
    (Only.emit trivial).bind fun _ => .pure _

theorem cellBodyAddTop_only (cellBody : Nat) (cell : Cell) (c : Checksum) (buffer : List UInt8) :
    Only Quiet (cellBodyAddTop cellBody cell c buffer) := by
  rw [cellBodyAddTop]
  refine (cellBodyFreeSpace_only _ _).bind fun _ => .ite (.pure false) ?_
  exact (Only.load _).bind fun _ => (assignField_only _ _ _).bind fun _ =>
    (assignField_only _ _ _).bind fun _ => (assignField_only _ _ _).bind fun _ =>
    (Only.storeBytes (fun _ _ => trivial) _ _).bind fun _ =>
    (Only.storeBytes (fun _ _ => trivial) _ _).bind fun _ => (Only.load _).bind fun _ =>
    (cellHeaderAdd_only _ _ _).bind fun _ => (cellBodySetTop_only _).bind fun _ =>
    (assignField_only _ _ _).bind fun _ => (Only.load _).bind fun _ =>
    (Only.store32 (fun _ => trivial) _).bind fun _ => (Only.load _).bind fun _ =>
    (Only.store32 (fun _ => trivial) _).bind fun _ => .pure true

theorem cellBodyPushDownTop_only (cellBody : Nat) (cell : Cell) (ptr : Nat) (c : Checksum)
    (buffer : List UInt8) : Only Quiet (cellBodyPushDownTop cellBody cell ptr c buffer) :=
  (cellBodySetTop_only _).bind fun _ => (Only.load _).bind fun _ =>
    (Only.store32 (fun _ => trivial) _).bind fun _ => (cellBodyAddTop_only _ _ _ _).bind fun _ =>
      .pure ()

theorem cellBodyDropBelowTop_only (cell : Cell) (cellBody : Nat) :
    Only Quiet (cellBodyDropBelowTop cell cellBody) :=
  (Only.load _).bind fun _ => (Only.load _).bind fun _ => (Only.load _).bind fun _ =>
    (Only.check _ _).bind fun _ => (cellHeaderRemove_only _ _).bind fun _ =>
      (cellBodySetTop_only _).bind fun _ => .store32 (fun _ => trivial) _

theorem cellBodyAddDirEntry_only (cell : Cell) (cellBody : Nat) (e : CellDirEntry) (size : Nat) :
    Only Quiet (cellBodyAddDirEntry cell cellBody e size) := by
  rw [cellBodyAddDirEntry]
  exact (cellBodyFreeSpace_only _ _).bind fun _ => .ite (cellHeaderAdd_only _ _ _)
    ((cellBodyDropBelowTop_only _ _).bind fun _ => (cellBodyFreeSpace_only _ _).bind fun _ =>
      (Only.check _ _).bind fun _ => cellHeaderAdd_only _ _ _)

theorem cellBodyEvict_only (cell : Cell) (ptr : Nat) : Only Quiet (cellBodyEvict cell ptr) :=
  (Only.load _).bind fun _ => .ite (.pure ()) (cellHeaderRemove_only _ _)

theorem cellBodyMergeLoop_only (cell : Cell) (required fuel ptr free : Nat) :
    Only Quiet (cellBodyMergeLoop cell required fuel ptr free) := by
  induction fuel generalizing ptr free with
  | zero => exact .throw _
  | succ fuel ih =>
      rw [cellBodyMergeLoop]
      exact .ite ((Only.load _).bind fun _ => (Only.emit trivial).bind fun _ =>
        (Only.load _).bind fun _ => .ite (.pure none) ((cellBodyEvict_only _ _).bind fun _ =>
          (Only.load _).bind fun _ => ih _ _)) (.pure _)

theorem cellBodyWriteChunk_only (ptr : Nat) (c : Checksum) (buffer : List UInt8) :
    Only Quiet (cellBodyWriteChunk ptr c buffer) :=
  (Only.storeBytes (fun _ _ => trivial) _ _).bind fun _ => (assignField_only _ _ _).bind fun _ =>
    (assignField_only _ _ _).bind fun _ => .storeBytes (fun _ _ => trivial) _ _

theorem cellBodyAddHole_only (cellBody : Nat) (cell : Cell) (free size : Nat) :
    Only Quiet (cellBodyAddHole cellBody cell free size) :=
  (Only.load _).bind fun _ => (Only.memset (fun _ _ => trivial) _ _).bind fun _ =>
    (assignField_only _ _ _).bind fun _ => (assignField_only _ _ _).bind fun _ =>
    (assignField_only _ _ _).bind fun _ => (assignField_only _ _ _).bind fun _ =>
    assignField_only _ _ _

theorem cellBodyAddMerged_only (cellBody : Nat) (cell : Cell) (ptr : Nat) (c : Checksum)
    (buffer : List UInt8) : Only Quiet (cellBodyAddMerged cellBody cell ptr c buffer) := by
  have hsplit : ∀ free, Only Quiet (cellBodyAddAndSplit cellBody cell ptr c buffer free) := fun _ =>
    (cellBodyWriteChunk_only _ _ _).bind fun _ => (Only.load _).bind fun _ =>
      (cellBodyAddDirEntry_only _ _ _ _).bind fun _ => (Only.load _).bind fun _ =>
        (Only.store32 (fun _ => trivial) _).bind fun _ => cellBodyAddHole_only _ _ _ _
  have hnext : ∀ last, Only Quiet (cellBodyNextEntryIsTop last) := fun _ =>
    (Only.load _).bind fun _ => (Only.emit trivial).bind fun _ => .load _
  rw [cellBodyAddMerged]
  refine (Only.load _).bind fun _ => (cellBodyMergeLoop_only _ _ _ _ _).bind fun merged => ?_
  cases merged with
  | none => exact cellBodyPushDownTop_only _ _ _ _ _
  | some found => exact (hnext _).bind fun _ => .ite (cellBodyPushDownTop_only _ _ _ _ _) (hsplit _)

theorem cellBodyAddOffset_only (cellBody : Nat) (cell : Cell) (c : Checksum) (buffer : List UInt8) :
    Only Quiet (cellBodyAddOffset cellBody cell c buffer) := by
  have hplace : ∀ ptr, Only Quiet (cellBodyAddInPlace cellBody cell ptr c buffer) := fun _ =>
    (cellBodyWriteChunk_only _ _ _).bind fun _ => (Only.load _).bind fun _ =>
      (cellBodyAddDirEntry_only _ _ _ _).bind fun _ => (Only.load _).bind fun _ =>
        .store32 (fun _ => trivial) _
  rw [cellBodyAddOffset]
  exact (Only.load _).bind fun _ => (Only.emit trivial).bind fun _ =>
    (cellBodyEvict_only _ _).bind fun _ => (assignField_only _ _ _).bind fun _ =>
      (Only.load _).bind fun _ => .ite (hplace _) (cellBodyAddMerged_only _ _ _ _ _)

theorem cellBodyAdd_only (cellBody : Nat) (cell : Cell) (c : Checksum) (buffer : List UInt8) :
    Only Quiet (cellBodyAdd cellBody cell c buffer) := by
  rw [cellBodyAdd]
  exact (Only.load _).bind fun _ => (Only.load _).bind fun _ => .ite
    ((cellBodyAddTop_only _ _ _ _).bind fun _ => .ite (.pure ())
      ((Only.store32 (fun _ => trivial) _).bind fun _ => cellBodyAddOffset_only _ _ _ _))
    (cellBodyAddOffset_only _ _ _ _)

/-! ## Calls -/

theorem cellAddChunk_only (cell : Cell) (c : Checksum) (buffer : List UInt8) :
    Only NoCall (cellAddChunk cell c buffer) := by
  have hentry : Only NoCall (cellIcOnEntry (cellIcPtr cell.cellHeader)) :=
    (Only.load _).bind fun _ => (Only.store32 (fun _ => trivial) _).bind fun _ =>
      (Only.emit trivial).bind fun _ => .load _
  have hexit : Only NoCall (cellIcOnExit (cellIcPtr cell.cellHeader)) :=
    (Only.emit trivial).bind fun _ => (Only.load _).bind fun _ =>
      (Only.store32 (fun _ => trivial) _).bind fun _ => (Only.emit trivial).bind fun _ => .load _
  rw [cellAddChunk]
  refine (cellDirGetChunk_reads _ _ c).only.bind fun found => ?_
  cases found with
  | some entry => exact .pure false
  | none =>
      exact hentry.bind fun _ => ((cellBodyAdd_only _ _ _ _).mono fun _ he => he.noCall).bind fun _ =>
        hexit.bind fun _ => .pure true

theorem cacheAddChunk_only (cache : Cache) (c : Checksum) (buffer : List UInt8) :
    Only NoCall (cacheAddChunk cache c buffer) :=
  (cacheGetCellIndex_reads cache c).only.bind fun cell => cellAddChunk_only cell c buffer

end

end Theo
