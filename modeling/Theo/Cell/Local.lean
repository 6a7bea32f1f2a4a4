import Theo.Cell.Calls
import Theo.Lib.Local

set_option autoImplicit false

/-! # An insertion depends on its own slab only

Every address that an insertion reads at lies in the slab of its cell. Most are fixed; the others
are known to lie there from what the insertion notes or stores at them (`SlabEvent`). So the same
insertion on the same slab in another memory does the same (`cellAddChunk_same`). -/

namespace Theo

open ByteMachine BucketIndex

/-- An event of an operation on the cell at `slab`: what it stores and what it visits lies in the
slab. -/
def SlabEvent (slab : Nat) : Event Site → Prop
  | .store _ addr bytes => slab ≤ addr ∧ addr + bytes.length ≤ slab + 1048576
  | .mark (.freeSpace top _ _ _) => top ≤ 1019836
  | .mark (.visit ptr) => slab ≤ ptr ∧ ptr + 36 ≤ slab + 1048576
  | _ => True

/-- Locality on a slab. -/
abbrev SlabLocal {α : Type} (slab : Nat) (P : Mem → Prop) (x : Act α) : Prop :=
  Local slab (slab + 1048576) (SlabEvent slab) P x

section

variable {α : Type} {slab : Nat} {P : Mem → Prop} {s s' : Store}

/-! ## Loads and bit fields -/

theorem load32_local {addr : Nat} (hlo : slab ≤ addr) (hhi : addr + 4 ≤ slab + 1048576) :
    SlabLocal slab P (load (·.load32 addr)) := .load fun _ h => (h.mono hlo hhi).load32

theorem loadDirEntry_local {ptr : Nat} (hP : ∀ m, P m → slab ≤ ptr ∧ ptr + 36 ≤ slab + 1048576) :
    SlabLocal slab P (load (loadDirEntry · ptr)) :=
  .load fun hm h => loadDirEntry_congr (h.mono (hP _ hm).1 (hP _ hm).2)

theorem loadChecksum_local {ptr : Nat} (hP : ∀ m, P m → slab ≤ ptr ∧ ptr + 36 ≤ slab + 1048576) :
    SlabLocal slab P (load (loadChecksum · ptr)) :=
  .load fun hm h => loadChecksum_congr (h.mono (hP _ hm).1 (by have := (hP _ hm).2; omega))

theorem entryBits_local {ptr : Nat} (hP : ∀ m, P m → slab ≤ ptr ∧ ptr + 36 ≤ slab + 1048576) :
    SlabLocal slab P (load (entryBits · ptr)) :=
  .load fun hm h => entryBits_congr (h.mono (by have := (hP _ hm).1; omega) (hP _ hm).2)

theorem entryFree_local {ptr : Nat} (hP : ∀ m, P m → slab ≤ ptr ∧ ptr + 36 ≤ slab + 1048576) :
    SlabLocal slab P (load (cellBodyEntryFree · ptr)) :=
  .load fun hm h => by
    rw [cellBodyEntryFree, cellBodyEntryFree,
      entryBits_congr (h.mono (by have := (hP _ hm).1; omega) (hP _ hm).2)]

theorem entryTop_local {ptr : Nat} (hP : ∀ m, P m → slab ≤ ptr ∧ ptr + 36 ≤ slab + 1048576) :
    SlabLocal slab P (load (cellBodyEntryTop · ptr)) :=
  .load fun hm h => by
    rw [cellBodyEntryTop, cellBodyEntryTop,
      entryBits_congr (h.mono (by have := (hP _ hm).1; omega) (hP _ hm).2)]

theorem storeBits_local (site : Site) (addr w n v : Nat) :
    SlabLocal slab P (storeBits site addr w n v) :=
  .storeBits w n v fun bytes hlen h => by rwa [SlabEvent, hlen] at h

theorem assignField_local (f : EntryField) (ptr v : Nat) :
    SlabLocal slab P (assignField f ptr v) := storeBits_local _ _ _ _ _

/-! ## The directory -/

section Directory

variable {block : Nat}

theorem entryCount_local (hlo : slab ≤ block) (hhi : block + 112 ≤ slab + 1048576) :
    SlabLocal slab P (load (entryCount · block)) :=
  .load fun _ h => by
    rw [entryCount, entryCount, (h.mono (by omega) (by omega)).load32]

theorem blockOverflowCount_local (hlo : slab ≤ block) (hhi : block + 112 ≤ slab + 1048576) :
    SlabLocal slab P (load (blockOverflowCount · block)) :=
  .load fun _ h => by
    rw [blockOverflowCount, blockOverflowCount, (h.mono (by omega) (by omega)).load32]

theorem overflowCount_local :
    SlabLocal slab P (load (overflowCount · (overflowPtr (slab + 1019900)))) :=
  .load fun _ h => by
    rw [overflowCount, overflowCount,
      (h.mono (by simp only [overflowPtr]; omega) (by simp only [overflowPtr]; omega)).load32]

theorem cellDirBlockAddLoop_local (e : CellDirEntry) {entry n : Nat} (hlo : slab ≤ block)
    (hhi : block + 112 ≤ slab + 1048576) (hentry : block ≤ entry)
    (hend : entry + 36 * n ≤ block + 108) :
    SlabLocal slab P (cellDirBlockAddLoop block e entry n) := by
  induction n generalizing P entry with
  | zero => exact .pure false
  | succ n ih =>
      rw [cellDirBlockAddLoop]
      refine (loadDirEntry_local fun _ _ => ⟨by omega, by omega⟩).seq fun slot => .ite (fun _ => ?_)
        fun _ => ih (by rw [sizeofCellDirEntry]; omega) (by rw [sizeofCellDirEntry]; omega)
      exact (Local.storeBytes _ _ _).seq fun _ => (entryCount_local hlo hhi).seq fun _ =>
        (storeBits_local _ _ _ _ _).seq fun _ => .pure true

theorem cellDirBlockFindLoop_local (c : Checksum) {entry n : Nat} (hlo : slab ≤ entry)
    (hhi : entry + 36 * n ≤ slab + 1048576) :
    SlabLocal slab P (cellDirBlockFindLoop c entry n) := by
  induction n generalizing P entry with
  | zero => exact .pure none
  | succ n ih =>
      have hrest : SlabLocal slab (fun _ => True)
          (cellDirBlockFindLoop c (entry + sizeofCellDirEntry) n) :=
        ih (by omega) (by rw [sizeofCellDirEntry]; omega)
      rw [cellDirBlockFindLoop]
      exact (loadDirEntry_local fun _ _ => ⟨by omega, by omega⟩).seq fun slot =>
        .ite (fun _ => hrest) fun _ => .ite (fun _ => .pure _) fun _ => hrest

theorem cellDirBlockRemove_local (c : Checksum) (hlo : slab ≤ block)
    (hhi : block + 112 ≤ slab + 1048576) : SlabLocal slab P (cellDirBlockRemove block c) := by
  have hfind : SlabLocal slab P (cellDirBlockFind block c) := by
    rw [cellDirBlockFind]
    exact (entryCount_local hlo hhi).seq fun _ => .ite (fun _ => .pure none) fun _ =>
      cellDirBlockFindLoop_local c hlo (by rw [cellDirBlockEntries]; omega)
  rw [cellDirBlockRemove]
  refine hfind.seq fun found => ?_
  cases found with
  | none => exact .pure false
  | some entry =>
      have hclear : SlabLocal slab (fun _ => True) (cellDirEntryInit .dir entry) :=
        (Local.memset _ _ _).seq fun _ => .memset _ _ _
      exact hclear.seq fun _ => (entryCount_local hlo hhi).seq fun _ =>
        (storeBits_local _ _ _ _ _).seq fun _ => .pure true

theorem cellDirBlockDecrementOverflow_local (hlo : slab ≤ block)
    (hhi : block + 112 ≤ slab + 1048576) :
    SlabLocal slab P (cellDirBlockDecrementOverflow block) :=
  (blockOverflowCount_local hlo hhi).seq fun _ => (Local.check _ _).seq fun _ =>
    (storeBits_local _ _ _ _ _).seq fun _ => blockOverflowCount_local hlo hhi

theorem cellDirAdd_local (e : CellDirEntry) :
    SlabLocal slab P (cellDirAdd (slab + 1019900) (slab + 1019872) e) := by
  have hblock := e.checksum.blockNo_lt
  have hlo : slab ≤ blockPtr (slab + 1019900) e.checksum.blockNo := by rw [blockPtr]; omega
  have hhi : blockPtr (slab + 1019900) e.checksum.blockNo + 112 ≤ slab + 1048576 := by
    rw [blockPtr]
    omega
  have hover : SlabLocal slab (fun _ => True)
      (cellDirOverflowAdd (overflowPtr (slab + 1019900)) (slab + 1019872) e) :=
    overflowCount_local.seq fun _ => (storeBits_local _ _ _ _ _).seq fun _ =>
      overflowCount_local.seq fun _ => (Local.storeBytes _ _ _).seq fun _ => .pure _
  have hincrement : SlabLocal slab (fun _ => True)
      (cellDirBlockIncrementOverflow (blockPtr (slab + 1019900) e.checksum.blockNo)) :=
    (blockOverflowCount_local hlo hhi).seq fun _ => (storeBits_local _ _ _ _ _).seq fun _ =>
      blockOverflowCount_local hlo hhi
  rw [cellDirAdd]
  refine (cellDirBlockAddLoop_local e hlo hhi (Nat.le_refl _) (by rw [cellDirBlockEntries])).seq
    fun added => .ite (fun _ => .pure ()) fun _ => ?_
  exact hover.seq fun _ => hincrement.seq fun _ => .pure ()

/-! Removing a record scans the overflow records. Where it finds one it clears the newest, which is
where the scan began; so that the scan lay in the slab is known behind it. -/

theorem overflowRemoveLoop_clears {oflow cde ptr n : Nat} {c : Checksum} {es : List (Event Site)}
    (hrun : cellDirOverflowRemoveLoop oflow cde c ptr n s = .ok true (s.after es)) :
    ∃ bytes, .store .overflowRemove cde bytes ∈ es := by
  induction n generalizing ptr with
  | zero =>
      rw [cellDirOverflowRemoveLoop, pure_run, EStateM.Result.ok.injEq] at hrun
      cases hrun.1
  | succ n ih =>
      rw [cellDirOverflowRemoveLoop, load_bind] at hrun
      split at hrun
      · rw [load_bind, cellDirEntryCopy, storeBytes_bind, memset_bind, load_bind, storeBits_bind,
          pure_run, EStateM.Result.ok.injEq, Machine.storeBytes_after, Machine.storeBytes_after,
          Machine.after_append] at hrun
        obtain ⟨-, hafter⟩ := hrun
        rw [Machine.storeBits_after, Machine.after_append] at hafter
        rw [← Machine.after_inj hafter]
        refine ⟨[0], ?_⟩
        simp [sizeofCellDirEntry, List.replicate_succ, byteStores]
      · exact ih hrun

theorem cellDirOverflowRemoveLoop_local (c : Checksum) (cde ptr n : Nat) :
    SlabLocal slab (fun _ => slab ≤ cde ∧ cde ≤ ptr ∧ ptr + 36 * n ≤ slab + 1019872)
      (cellDirOverflowRemoveLoop (overflowPtr (slab + 1019900)) cde c ptr n) := by
  induction n generalizing ptr with
  | zero => exact .pure false
  | succ n ih =>
      rw [cellDirOverflowRemoveLoop]
      refine (loadDirEntry_local fun _ hp => ⟨by omega, by omega⟩).keep fun entry => .ite (fun _ => ?_)
        fun _ => (ih _).weaken fun _ hp => by simp only [sizeofCellDirEntry]; omega
      exact (loadDirEntry_local fun _ hp => ⟨hp.1, by omega⟩).seq fun newest =>
        (Local.storeBytes _ _ _).seq fun _ => (Local.memset _ _ _).seq fun _ =>
          overflowCount_local.seq fun _ => (storeBits_local _ _ _ _ _).seq fun _ => .pure true

/-- Where the overflow records begin. -/
def recordsStart (slab : Nat) (m : Mem) : Nat :=
  slab + 1019872 - overflowCount m (overflowPtr (slab + 1019900)) * 36

theorem cellDirOverflowRemove_local (hslab : 0 < slab) (c : Checksum) :
    SlabLocal slab (fun m => slab ≤ recordsStart slab m)
      (cellDirOverflowRemove (overflowPtr (slab + 1019900)) (slab + 1019872) c) := by
  rw [cellDirOverflowRemove]
  refine overflowCount_local.bind (R := fun count _ => slab ≤ slab + 1019872 - count * 36) ?_
    fun count => .ite (fun hone => ?_) fun _ => ?_
  · intro s a es hP hrun _
    rw [load_run, EStateM.Result.ok.injEq] at hrun
    rw [← hrun.1]
    exact hP
  · refine (loadDirEntry_local fun _ hstart => ⟨hstart, ?_⟩).seq fun entry => .ite (fun _ => ?_)
      fun _ => .pure false
    · rw [hone]
      omega
    · exact (Local.memset _ _ _).seq fun _ => (storeBits_local _ _ _ _ _).seq fun _ => .pure true
  · refine (cellDirOverflowRemoveLoop_local c _ _ count).weaken fun _ hstart => ?_
    simp only [sizeofCellDirEntry]
    omega

/-- A removal that finds its record has scanned the slab only. -/
theorem cellDirOverflowRemove_start {c : Checksum} {es : List (Event Site)}
    (hrun : cellDirOverflowRemove (overflowPtr (slab + 1019900)) (slab + 1019872) c s =
      .ok true (s.after es)) (hes : ∀ e ∈ es, SlabEvent slab e) : slab ≤ recordsStart slab s.mem := by
  rw [cellDirOverflowRemove, load_bind] at hrun
  rw [recordsStart]
  split at hrun
  · next hone =>
      rw [hone]
      omega
  · obtain ⟨bytes, hclear⟩ := overflowRemoveLoop_clears hrun
    exact (hes _ hclear).1

/-- A removal that has to find its record. -/
theorem cellDirRemove_local (hslab : 0 < slab) (c : Checksum) :
    SlabLocal slab P (cellDirRemove (slab + 1019900) (slab + 1019872) c >>= fun ret => always ret) := by
  have hblock := c.blockNo_lt
  have hlo : slab ≤ blockPtr (slab + 1019900) c.blockNo := by rw [blockPtr]; omega
  have hhi : blockPtr (slab + 1019900) c.blockNo + 112 ≤ slab + 1048576 := by rw [blockPtr]; omega
  have hrest : ∀ removed : Bool, SlabLocal slab (fun _ => True)
      ((if removed then cellDirBlockDecrementOverflow (blockPtr (slab + 1019900) c.blockNo) >>=
          fun _ => pure true else pure false) >>= fun ret => always ret) := fun removed =>
    (Local.ite (fun _ => (cellDirBlockDecrementOverflow_local hlo hhi).seq fun _ => .pure true)
      fun _ => .pure false).seq fun _ => Local.check _ _
  have hfound : SlabLocal slab (fun _ => True)
      (cellDirOverflowRemove (overflowPtr (slab + 1019900)) (slab + 1019872) c >>= fun removed =>
        (if removed then cellDirBlockDecrementOverflow (blockPtr (slab + 1019900) c.blockNo) >>=
          fun _ => pure true else pure false) >>= fun ret => always ret) := by
    refine ((cellDirOverflowRemove_local hslab c).seq hrest).of_run fun _ hrun hes => ?_
    obtain ⟨removed, es₁, es₂, rfl, hremove, hrest'⟩ :=
      (cellDirOverflowRemove_local hslab c).split hrest hrun
    cases removed with
    | true => exact cellDirOverflowRemove_start hremove (List.forall_mem_append.1 hes).1
    | false => cases hrest'
  rw [cellDirRemove, bind_assoc]
  refine (cellDirBlockRemove_local c hlo hhi).seq fun removed => ?_
  cases removed with
  | true =>
      rw [if_pos rfl, pure_bind]
      exact Local.check _ _
  | false =>
      rw [if_neg Bool.false_ne_true, bind_assoc]
      refine (Local.load fun _ h => ?_).seq fun overflowed => ?_
      · rw [blockOverflowCount, blockOverflowCount, (h.mono (by omega) (by omega)).load32]
      · cases overflowed with
        | true =>
            rw [if_pos rfl, bind_assoc]
            exact hfound
        | false =>
            rw [if_neg Bool.false_ne_true, pure_bind]
            exact Local.check _ _

end Directory

/-! ## The header -/

theorem cellHeaderAdd_local (e : CellDirEntry) (size : Nat) :
    SlabLocal slab P (cellHeaderAdd (slab + 1019872) e size) := by
  rw [cellHeaderAdd]
  simp only [cellDirPtr, entryCountPtr, byteCountPtr, Nat.add_assoc, Nat.reduceAdd]
  exact (cellDirAdd_local e).seq fun _ => (load32_local (by omega) (by omega)).seq fun _ =>
    (Local.store32 _ _ _).seq fun _ => (load32_local (by omega) (by omega)).seq fun _ =>
      .store32 _ _ _

/-- The entry at `ptr` lies in the slab. -/
abbrev EntryIn (slab ptr : Nat) : Prop := slab ≤ ptr ∧ ptr + 36 ≤ slab + 1048576

theorem cellHeaderRemove_local (hslab : 0 < slab) (ptr : Nat) :
    SlabLocal slab (fun _ => EntryIn slab ptr) (cellHeaderRemove (slab + 1019872) ptr) := by
  rw [cellHeaderRemove]
  simp only [cellDirPtr, entryCountPtr, byteCountPtr, Nat.add_assoc, Nat.reduceAdd]
  refine (loadChecksum_local fun _ hp => hp).keep fun c => ?_
  rw [← bind_assoc]
  exact (cellDirRemove_local hslab c).keep fun _ => (load32_local (by omega) (by omega)).keep fun _ =>
    (Local.store32 _ _ _).keep fun _ => (load32_local (by omega) (by omega)).keep fun _ =>
      (Local.check _ _).keep fun _ => (load32_local (by omega) (by omega)).keep fun _ =>
        (entryBits_local fun _ hp => hp).seq fun _ => (Local.store32 _ _ _).seq fun _ =>
          (load32_local (by omega) (by omega)).seq fun _ => .check _ _

/-! ## The body -/

theorem headerOverflowCount_congr {m m' : Mem} (h : m.Agree m' slab (slab + 1048576)) :
    headerOverflowCount m' (slab + 1019872) = headerOverflowCount m (slab + 1019872) := by
  rw [headerOverflowCount, headerOverflowCount]
  simp only [overflowPtr, cellDirPtr, Nat.add_assoc, Nat.reduceAdd]
  exact overflowCount_congr (h.mono (by omega) (by omega))

theorem cellBodyFreeSpace_local :
    SlabLocal slab P (cellBodyFreeSpace (slab + 1019892) (cellAt slab)) := by
  rw [cellBodyFreeSpace, cellHeaderBytesUsed, cellAt]
  exact (load32_local (by omega) (by omega)).seq fun top =>
    (Local.load fun _ h => by rw [headerOverflowCount_congr h]).seq fun used =>
      (Local.load fun _ h => headerOverflowCount_congr h).seq fun overflow =>
        (Local.emit _).seq fun _ => .pure _

/-- What is noted of the free space shows that the top lies in the body. -/
theorem cellBodyFreeSpace_top {n : Nat} {es : List (Event Site)}
    (hrun : cellBodyFreeSpace (slab + 1019892) (cellAt slab) s = .ok n (s.after es))
    (hes : ∀ e ∈ es, SlabEvent slab e) :
    topEntryOffset (replay s.mem es) (slab + 1019892) ≤ 1019836 := by
  rw [cellBodyFreeSpace, load_bind, cellHeaderBytesUsed, load_bind, load_bind, emit_bind, pure_run,
    EStateM.Result.ok.injEq] at hrun
  have heq := Machine.after_inj ((Machine.emit_after _ _).symm.trans hrun.2)
  subst heq
  exact hes _ (List.mem_singleton_self _)

theorem cellBodySetTop_local (ptr : Nat) : SlabLocal slab P (cellBodySetTop ptr) :=
  (assignField_local _ _ _).seq fun _ => (assignField_local _ _ _).seq fun _ =>
    assignField_local _ _ _

theorem cellBodyAddTop_local (c : Checksum) (buffer : List UInt8) :
    SlabLocal slab P (cellBodyAddTop (slab + 1019892) (cellAt slab) c buffer) := by
  rw [cellBodyAddTop]
  refine cellBodyFreeSpace_local.seq fun free => .ite (fun _ => .pure false) fun _ => ?_
  refine (load32_local (by omega) (by omega)).seq fun top => (assignField_local _ _ _).seq fun _ =>
    (assignField_local _ _ _).seq fun _ => (assignField_local _ _ _).seq fun _ =>
      (Local.storeBytes _ _ _).seq fun _ => (Local.storeBytes _ _ _).seq fun _ =>
        (load32_local (by omega) (by omega)).seq fun _ => (cellHeaderAdd_local _ _).seq fun _ => ?_
  exact (cellBodySetTop_local _).seq fun _ => (assignField_local _ _ _).seq fun _ =>
    (load32_local (by omega) (by omega)).seq fun _ => (Local.store32 _ _ _).seq fun _ =>
      (load32_local (by omega) (by omega)).seq fun _ => (Local.store32 _ _ _).seq fun _ => .pure true

theorem cellBodyPushDownTop_local (ptr : Nat) (c : Checksum) (buffer : List UInt8) :
    SlabLocal slab P (cellBodyPushDownTop (slab + 1019892) (cellAt slab) ptr c buffer) :=
  (cellBodySetTop_local ptr).seq fun _ => (load32_local (by omega) (by omega)).seq fun _ =>
    (Local.store32 _ _ _).seq fun _ => (cellBodyAddTop_local c buffer).seq fun _ => .pure ()

theorem cellBodyNextEntryIsTop_local (ptr : Nat) :
    SlabLocal slab (fun _ => EntryIn slab ptr) (cellBodyNextEntryIsTop ptr) :=
  (entryBits_local fun _ hp => hp).seq fun _ => .emit_bind (entryTop_local fun _ hp => hp)

/-- Setting the top at an entry shows that the entry lies in the slab. -/
theorem cellBodySetTop_entryIn {ptr : Nat} (hptr : slab ≤ ptr) {f : Unit → Act α} {a : α}
    {es : List (Event Site)} (hf : ∀ u, SlabLocal slab (fun _ => True) (f u))
    (hrun : (cellBodySetTop ptr >>= f) s = .ok a (s.after es)) (hes : ∀ e ∈ es, SlabEvent slab e) :
    EntryIn slab ptr := by
  rw [cellBodySetTop, bind_assoc] at hrun
  have hrest : SlabLocal slab (fun _ => True)
      ((assignField .topEntry ptr 1 >>= fun _ => assignField .size ptr 0) >>= f) :=
    ((assignField_local _ _ _).seq fun _ => assignField_local _ _ _).seq hf
  have hfirst : SlabLocal slab (fun _ => True) (assignField .freeSpace ptr 1) :=
    assignField_local _ _ _
  obtain ⟨_, es₁, es₂, rfl, hassign, -⟩ := hfirst.split (fun _ => hrest) hrun
  have heq := Machine.after_inj ((Machine.storeBits_after _ _ _ _ _ _).symm.trans
    (EStateM.Result.ok.inj hassign).2)
  subst heq
  exact ⟨hptr, (hes _ (List.mem_append_left _ (List.mem_singleton_self _))).2⟩

/-- The entry below the top lies in the slab, because the top is set there. -/
theorem cellBodyDropBelowTop_local (hslab : 0 < slab) :
    SlabLocal slab (fun m => topEntryOffset m (slab + 1019892) ≤ 1019836)
      (cellBodyDropBelowTop (cellAt slab) (slab + 1019892)) := by
  have hback : ∀ offset, SlabLocal slab (fun _ => True) (cellBodySetTop (slab + offset) >>= fun _ =>
      store32 .bodyOffsets (slab + 1019892) offset) := fun offset =>
    (cellBodySetTop_local _).seq fun _ => .store32 _ _ _
  have hfront : ∀ offset, SlabLocal slab (fun _ => EntryIn slab (slab + offset))
      (load (cellBodyEntryFree · (slab + offset)) >>= fun free => always (!free) >>= fun _ =>
        cellHeaderRemove (slab + 1019872) (slab + offset)) := fun offset =>
    (entryFree_local fun _ hp => hp).keep fun _ => (Local.check _ _).keep fun _ =>
      cellHeaderRemove_local hslab _
  have hrest : ∀ offset, SlabLocal slab (fun _ => True)
      ((load (cellBodyEntryFree · (slab + offset)) >>= fun free => always (!free) >>= fun _ =>
        cellHeaderRemove (slab + 1019872) (slab + offset)) >>= fun _ =>
          cellBodySetTop (slab + offset) >>= fun _ =>
            store32 .bodyOffsets (slab + 1019892) offset) := by
    intro offset
    refine ((hfront offset).seq fun _ => hback offset).of_run fun _ hrun hes => ?_
    obtain ⟨_, es₁, es₂, rfl, -, hset⟩ := (hfront offset).split (fun _ => hback offset) hrun
    exact cellBodySetTop_entryIn (by omega) (fun _ => Local.store32 _ _ _) hset
      (List.forall_mem_append.1 hes).2
  rw [cellBodyDropBelowTop]
  simp only [bind_assoc] at hrest
  refine Local.bind (R := fun offset _ => offset ≤ 1019836) (load32_local (by omega) (by omega)) ?_
    fun offset => (entryBits_local fun _ hoffset => ?_).seq fun bits => hrest _
  · intro s a es htop hrun _
    rw [load_run, EStateM.Result.ok.injEq] at hrun
    rw [← hrun.1]
    exact htop
  · simp only [cellAt]
    omega

theorem cellBodyAddDirEntry_local (hslab : 0 < slab) (e : CellDirEntry) (size : Nat) :
    SlabLocal slab P (cellBodyAddDirEntry (cellAt slab) (slab + 1019892) e size) :=
  cellBodyFreeSpace_local.bind (fun _ hrun hes => cellBodyFreeSpace_top hrun hes) fun _ =>
    .ite (fun _ => cellHeaderAdd_local e size) fun _ => (cellBodyDropBelowTop_local hslab).seq fun _ =>
      cellBodyFreeSpace_local.seq fun _ => (Local.check _ _).seq fun _ => cellHeaderAdd_local e size

theorem cellBodyEvict_local (hslab : 0 < slab) (ptr : Nat) :
    SlabLocal slab (fun _ => EntryIn slab ptr) (cellBodyEvict (cellAt slab) ptr) :=
  (entryFree_local fun _ hp => hp).keep fun _ =>
    .ite (fun _ => .pure ()) fun _ => cellHeaderRemove_local hslab ptr

/-- What follows the merge loop may rely on the last merged entry lying in the slab. -/
theorem cellBodyMergeLoop_local (hslab : 0 < slab) (required fuel ptr free : Nat)
    {f : Option (Nat × Nat) → Act α} (hnone : SlabLocal slab (fun _ => True) (f none))
    (hsome : ∀ last free, SlabLocal slab (fun _ => EntryIn slab last) (f (some (last, free)))) :
    SlabLocal slab (fun _ => EntryIn slab ptr)
      (cellBodyMergeLoop (cellAt slab) required fuel ptr free >>= f) := by
  induction fuel generalizing ptr free with
  | zero => exact .throw_bind _ _
  | succ fuel ih =>
      rw [cellBodyMergeLoop]
      by_cases hfree : free < required
      · rw [if_pos hfree, bind_assoc]
        refine (entryBits_local fun _ hp => hp).keep fun bits => ?_
        rw [bind_assoc]
        refine .emit_bind ?_
        rw [bind_assoc]
        refine (entryTop_local fun _ hp => hp).keep fun top => ?_
        cases top with
        | true =>
            rw [if_pos rfl, pure_bind]
            exact hnone.weaken fun _ _ => trivial
        | false =>
            rw [if_neg Bool.false_ne_true, bind_assoc]
            refine (cellBodyEvict_local hslab _).keep fun _ => ?_
            rw [bind_assoc]
            exact (entryBits_local fun _ hp => hp).keep fun _ => ih _ _
      · rw [if_neg hfree, pure_bind]
        exact hsome ptr free

theorem cellBodyWriteChunk_local (ptr : Nat) (c : Checksum) (buffer : List UInt8) :
    SlabLocal slab P (cellBodyWriteChunk ptr c buffer) :=
  (Local.storeBytes _ _ _).seq fun _ => (assignField_local _ _ _).seq fun _ =>
    (assignField_local _ _ _).seq fun _ => .storeBytes _ _ _

theorem cellBodyAddInPlace_local (hslab : 0 < slab) (ptr : Nat) (c : Checksum)
    (buffer : List UInt8) :
    SlabLocal slab P (cellBodyAddInPlace (slab + 1019892) (cellAt slab) ptr c buffer) :=
  (cellBodyWriteChunk_local _ _ _).seq fun _ => (load32_local (by omega) (by omega)).seq fun _ =>
    (cellBodyAddDirEntry_local hslab _ _).seq fun _ => (load32_local (by omega) (by omega)).seq
      fun _ => .store32 _ _ _

theorem cellBodyAddHole_local (free size : Nat) :
    SlabLocal slab P (cellBodyAddHole (slab + 1019892) (cellAt slab) free size) :=
  (load32_local (by omega) (by omega)).seq fun _ => (Local.memset _ _ _).seq fun _ =>
    (assignField_local _ _ _).seq fun _ => (assignField_local _ _ _).seq fun _ =>
      (assignField_local _ _ _).seq fun _ => (assignField_local _ _ _).seq fun _ =>
        assignField_local _ _ _

theorem cellBodyAddAndSplit_local (hslab : 0 < slab) (ptr : Nat) (c : Checksum)
    (buffer : List UInt8) (free : Nat) :
    SlabLocal slab P (cellBodyAddAndSplit (slab + 1019892) (cellAt slab) ptr c buffer free) :=
  (cellBodyWriteChunk_local _ _ _).seq fun _ => (load32_local (by omega) (by omega)).seq fun _ =>
    (cellBodyAddDirEntry_local hslab _ _).seq fun _ => (load32_local (by omega) (by omega)).seq
      fun _ => (Local.store32 _ _ _).seq fun _ => cellBodyAddHole_local _ _

theorem cellBodyAddMerged_local (hslab : 0 < slab) (ptr : Nat) (c : Checksum)
    (buffer : List UInt8) : SlabLocal slab (fun _ => EntryIn slab ptr)
      (cellBodyAddMerged (slab + 1019892) (cellAt slab) ptr c buffer) := by
  rw [cellBodyAddMerged]
  refine (entryBits_local fun _ hp => hp).keep fun bits => cellBodyMergeLoop_local hslab _ _ _ _
    (cellBodyPushDownTop_local ptr c buffer) fun last free => ?_
  exact (cellBodyNextEntryIsTop_local last).seq fun _ =>
    .ite (fun _ => cellBodyPushDownTop_local ptr c buffer) fun _ =>
      cellBodyAddAndSplit_local hslab ptr c buffer free

theorem cellBodyAddOffset_local (hslab : 0 < slab) (c : Checksum) (buffer : List UInt8) :
    SlabLocal slab P (cellBodyAddOffset (slab + 1019892) (cellAt slab) c buffer) := by
  rw [cellBodyAddOffset]
  refine (load32_local (by omega) (by omega)).seq fun next => .emit_bind ?_
  exact (cellBodyEvict_local hslab _).keep fun _ => (assignField_local _ _ _).keep fun _ =>
    (entryBits_local fun _ hp => hp).keep fun _ =>
      .ite (fun _ => cellBodyAddInPlace_local hslab _ c buffer) fun _ =>
        cellBodyAddMerged_local hslab _ c buffer

theorem cellBodyAdd_local (hslab : 0 < slab) (c : Checksum) (buffer : List UInt8) :
    SlabLocal slab (fun m => nextEntryOffset m (slab + 1019892) ≤ 1019836)
      (cellBodyAdd (slab + 1019892) (cellAt slab) c buffer) := by
  rw [cellBodyAdd]
  refine Local.bind (R := fun next _ => next ≤ 1019836) (load32_local (by omega) (by omega)) ?_
    fun next => (entryTop_local fun _ hnext => ?_).seq fun top => ?_
  · intro s a es hnext hrun _
    rw [load_run, EStateM.Result.ok.injEq] at hrun
    rw [← hrun.1]
    exact hnext
  · simp only [cellAt]
    omega
  · refine .ite (fun _ => (cellBodyAddTop_local c buffer).seq fun _ => .ite (fun _ => .pure ())
      fun _ => ?_) fun _ => cellBodyAddOffset_local hslab c buffer
    exact (Local.store32 _ _ _).seq fun _ => cellBodyAddOffset_local hslab c buffer

/-! ## The operations on a cell -/

theorem cellInsert_local (hslab : 0 < slab) (c : Checksum) (buffer : List UInt8) :
    SlabLocal slab (fun m => nextEntryOffset m (slab + 1019892) ≤ 1019836)
      (cellBodyAdd (slab + 1019892) (cellAt slab) c buffer >>= fun _ => do
        let _ ← cellIcOnExit (slab + 1019884)
        pure true) := by
  have hexit : SlabLocal slab (fun _ => True) (cellIcOnExit (slab + 1019884)) :=
    (Local.emit _).seq fun _ => (load32_local (by omega) (by omega)).seq fun _ =>
      (Local.store32 _ _ _).seq fun _ => (Local.emit _).seq fun _ =>
        load32_local (by omega) (by omega)
  exact (cellBodyAdd_local hslab c buffer).seq fun _ => hexit.seq fun _ => .pure true

theorem AddEvent.slabEvent {visits : Nat → Prop} {top overflow : Nat} {e : Event Site}
    (h : AddEvent slab visits top overflow e) (htop : top + 36 * overflow ≤ 1019836)
    (hvisits : ∀ ptr, visits ptr → EntryIn slab ptr) : SlabEvent slab e := by
  have hin : ∀ {site lo hi}, e.StoreIn site lo hi → slab ≤ lo → hi ≤ slab + 1048576 →
      SlabEvent slab e := by
    rintro site lo hi ⟨addr, bytes, rfl, hlo, hhi⟩ hslab hend
    exact ⟨by omega, by omega⟩
  rcases h with h | (h | h | h | h) | h | ⟨top', overflow', hle, rfl⟩ | ⟨ptr, hptr, rfl⟩
  · exact hin h (by omega) (by omega)
  · exact hin h (by omega) (by omega)
  · exact hin h (by omega) (by omega)
  · exact hin h (by omega) (by omega)
  · exact hin h (by omega) (by omega)
  · exact hin h (by omega) (by omega)
  · show top' ≤ 1019836
    omega
  · exact hvisits ptr hptr

theorem entered_after (s : Store) (slab : Nat) : entered s slab = s.after
    [.store .integrity (slab + 1019884)
      (Mem.bytes32 (u32 (s.mem.load32 (slab + 1019884) + 1))), .barrier] := by
  rw [entered, Machine.emit_after, Machine.store32_after, Machine.after_append, List.singleton_append]

theorem left_slabEvent (s : Store) : Emits (SlabEvent slab) s (left s slab) := by
  refine ((Emits.emit s trivial).trans (Emits.store32 _ ?_)).trans (Emits.emit _ trivial)
  exact ⟨by omega, by rw [Mem.bytes32_length]; omega⟩

/-- What an insertion does to a slab that holds a cell, it does to the same slab in every memory. -/
theorem cellAddChunk_same {r : Ring} (hslab : 0 < slab) (h : CellHolds chunkerLimits s.mem slab r)
    (hsame : s.mem.Agree s'.mem slab (slab + 1048576)) {c : Checksum} {buffer : List UInt8}
    {added : Bool} {s₁ : Store} (hlo : 2049 ≤ buffer.length) (hhi : buffer.length ≤ 24576)
    (hrun : cellAddChunk (cellAt slab) c buffer s = .ok added s₁) :
    ∃ es, s₁ = s.after es ∧ cellAddChunk (cellAt slab) c buffer s' = .ok added (s'.after es) := by
  have h' := h.congr hsame
  rcases chunker_cases (c := c) h hlo hhi with ⟨hstored, hrun'⟩ |
      ⟨hnone, r', s₂, -, hrun', hholds, hemits⟩ | ⟨-, -, s₂, hrun', -⟩
  · rcases chunker_cases (c := c) h' hlo hhi with ⟨-, hrun''⟩ | ⟨hnone, -⟩ | ⟨hnone, -⟩
    · rw [hrun', EStateM.Result.ok.injEq] at hrun
      obtain ⟨rfl, rfl⟩ := hrun
      exact ⟨[], (Machine.after_nil _).symm, by rw [Machine.after_nil, hrun'']⟩
    · exact absurd hnone hstored
    · exact absurd hnone hstored
  · have hfind : r.dir.find c = none := h.inv.find_eq_none.2 hnone
    have hroom := h.inv.room
    rw [Ring.top, Ring.entries, span_append] at hroom
    have hvisits : ∀ ptr, Boundary slab r ptr → EntryIn slab ptr := by
      rintro ptr ⟨xs, ys, hsplit, rfl⟩
      have hspan := congrArg span hsplit
      rw [Ring.entries, span_append, span_append] at hspan
      exact ⟨by omega, by omega⟩
    have hnext : nextEntryOffset (entered s slab).mem (slab + 1019892) ≤ 1019836 := by
      rw [h.shaped.entered_rep.nextOffset, Ring.next]
      omega
    -- the stores of the insertion stay inside the slab, so they are the same on `s'`
    obtain ⟨es, hes₁, hes⟩ := ((hemits.mono fun _ he => he.slabEvent hholds.inv.room hvisits).trans
      (left_slabEvent s₂)).eq_after
    have hcode := (hsame.mono (by omega) (by omega) :
      s.mem.Agree s'.mem (slab + 1019884) (slab + 1019884 + 4)).load32
    rw [hrun', EStateM.Result.ok.injEq] at hrun
    obtain ⟨rfl, rfl⟩ := hrun
    rw [cellAddChunk_missing h.shaped hfind] at hrun'
    rw [cellAddChunk_missing h'.shaped hfind]
    rw [hes₁] at hrun'
    have hagree : (entered s slab).mem.Agree (entered s' slab).mem slab (slab + 1048576) := by
      rw [entered_after, entered_after, hcode]
      exact replay_same hsame _
    have hrun₂ := (cellInsert_local hslab c buffer).same hnext hagree hrun' hes
    rw [entered_after, Machine.after_append] at hes₁
    refine ⟨_, hes₁, hrun₂.trans ?_⟩
    rw [entered_after s', hcode, Machine.after_append]
  · rw [hrun'] at hrun
    cases hrun

/-- Every call answers the same and does the same to its slab. -/
theorem Cell.call_same {r : Ring} (hslab : 0 < slab) (h : CellHolds chunkerLimits s.mem slab r)
    (hsame : s.mem.Agree s'.mem slab (slab + 1048576)) {call : Call} {answer : Answer} {s₁ : Store}
    (hsized : call.Sized 2049 24576) (hrun : (cellAt slab).call call s = .ok answer s₁) :
    ∃ es, s₁ = s.after es ∧ (cellAt slab).call call s' = .ok answer (s'.after es) := by
  have h' := h.congr hsame
  -- the calls other than insertions store nothing and read off the ring
  have hread : ∀ {out}, (cellAt slab).call call s = .ok out s →
      (cellAt slab).call call s' = .ok out s' →
      ∃ es, s₁ = s.after es ∧ (cellAt slab).call call s' = .ok answer (s'.after es) := by
    intro out hs hs'
    rw [hs, EStateM.Result.ok.injEq] at hrun
    obtain ⟨rfl, rfl⟩ := hrun
    exact ⟨[], (Machine.after_nil _).symm, by rw [Machine.after_nil, hs']⟩
  cases call with
  | addChunk c buffer =>
      obtain ⟨added, s₂, hadd, hanswer⟩ := of_bind_ok hrun
      rw [pure_run, EStateM.Result.ok.injEq] at hanswer
      obtain ⟨rfl, rfl⟩ := hanswer
      obtain ⟨es, hes, hadd'⟩ := cellAddChunk_same hslab h hsame hsized.1 hsized.2 hadd
      exact ⟨es, hes, bind_ok hadd' _⟩
  | hasChunk c => exact hread (bind_ok (cellHasChunk_run h c) _) (bind_ok (cellHasChunk_run h' c) _)
  | getChunk c chunk =>
      exact hread (bind_ok (cellGetChunk_run h c chunk) _) (bind_ok (cellGetChunk_run h' c chunk) _)
  | entryCount =>
      refine @hread (.count (liveCount r.entries)) ?_ ?_
      · rw [← h.counts.1]
        rfl
      · rw [← h'.counts.1]
        rfl
  | byteCount =>
      refine @hread (.count (liveBytes r.entries)) ?_ ?_
      · rw [← h.counts.2]
        rfl
      · rw [← h'.counts.2]
        rfl

/-! ## Initialising a cell -/

theorem cellDirInitLoop_local (dir i n : Nat) : SlabLocal slab P (cellDirInitLoop dir i n) := by
  induction n generalizing P i with
  | zero => exact .pure ()
  | succ n ih => exact (Local.memset _ _ _).seq fun _ => ih _

theorem cellHeaderInit_local : SlabLocal slab P (cellHeaderInit (slab + 1019872) (cellAt slab)) := by
  have hdir : SlabLocal slab (fun _ => True) (cellDirInit (cellDirPtr (slab + 1019872))) :=
    (Local.memset _ _ _).seq fun _ => (cellDirInitLoop_local _ _ _).seq fun _ => .memset _ _ _
  have hbody : SlabLocal slab (fun _ => True)
      (cellBodyInit (cellBodyPtr (slab + 1019872)) (cellAt slab)) :=
    (Local.memset _ _ _).seq fun _ => (cellBodySetTop_local _).seq fun _ =>
      (assignField_local _ _ _).seq fun _ => (Local.store32 _ _ _).seq fun _ => .store32 _ _ _
  exact (Local.memset _ _ _).seq fun _ => (Local.memset _ _ _).seq fun _ => hdir.seq fun _ =>
    hbody.seq fun _ => (Local.emit _).seq fun _ => (Local.store32 _ _ _).seq fun _ => .emit _

theorem cellHeaderSane_congr {m m' : Mem} (h : m.Agree m' slab (slab + 1048576)) :
    cellHeaderSane m' (slab + 1019872) = cellHeaderSane m (slab + 1019872) := by
  rw [cellHeaderSane, cellHeaderSane, cellIcSane, cellIcSane, entryCode, entryCode, exitCode,
    exitCode]
  simp only [cellIcPtr, Nat.add_assoc, Nat.reduceAdd]
  rw [(h.mono (by omega) (by omega)).load32, (h.mono (by omega) (by omega)).load32,
    (h.mono (by omega) (by omega)).load32]

theorem cellInit_local : SlabLocal slab P (cellInit slab cacheCellSize) := by
  rw [cellInit]
  simp only [cacheCellSize, sizeofCellHeader, Nat.reduceSub]
  exact (Local.check _ _).seq fun _ => (Local.load fun _ h => cellHeaderSane_congr h).seq fun _ =>
    .ite (fun _ => .pure _) fun _ => cellHeaderInit_local.seq fun _ => .pure _

theorem InitEvent.slabEvent {e : Event Site} (h : InitEvent slab e) : SlabEvent slab e := by
  rcases h with ⟨site, addr, n, rfl, hlo, hhi⟩ | ⟨addr, bytes, rfl, hlo, hhi⟩
  · exact ⟨by omega, by rw [List.length_replicate]; omega⟩
  · exact ⟨by omega, by omega⟩

theorem SlabEvent.inside {e : Event Site} (h : SlabEvent slab e) : Inside slab e := by
  intro lo hi hd
  cases e with
  | store site addr bytes =>
      obtain ⟨hlo, hhi⟩ := h
      show hi ≤ addr ∨ addr + bytes.length ≤ lo
      omega
  | barrier => trivial
  | mark note => trivial

theorem initialised_slabEvent (s : Store) : Emits (SlabEvent slab) s (initialised s slab) := by
  refine ((Emits.emit s trivial).trans (Emits.store32 _ ?_)).trans (Emits.emit _ trivial)
  exact ⟨by omega, by rw [Mem.bytes32_length]; omega⟩

theorem cellInit_slabEvent (slab : Nat) (s : Store) : ∃ es,
    cellInit slab cacheCellSize s = .ok (cellAt slab) (s.after es) ∧ ∀ e ∈ es, SlabEvent slab e := by
  cases hsane : cellHeaderSane s.mem (slab + 1019872) with
  | true => exact ⟨[], by rw [cellInit_sane hsane, Machine.after_nil], by simp⟩
  | false =>
      obtain ⟨s₁, hrun, hemits, -, -, -⟩ := cellInit_insane slab chunkerLimits hsane
      obtain ⟨es, hes₁, hes⟩ := ((hemits.mono fun _ he => he.slabEvent).trans
        (initialised_slabEvent s₁)).eq_after
      exact ⟨es, by rw [hrun, hes₁], hes⟩

/-- A slab is initialised in the same way in every memory. -/
theorem cellInit_same (hsame : s.mem.Agree s'.mem slab (slab + 1048576)) : ∃ es,
    cellInit slab cacheCellSize s = .ok (cellAt slab) (s.after es) ∧
      cellInit slab cacheCellSize s' = .ok (cellAt slab) (s'.after es) ∧
        ∀ e ∈ es, SlabEvent slab e := by
  obtain ⟨es, hrun, hes⟩ := cellInit_slabEvent slab s
  exact ⟨es, hrun, (cellInit_local (P := fun _ => True)).same trivial hsame hrun hes, hes⟩

end

end Theo
