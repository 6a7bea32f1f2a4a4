import Theo.Lib.Index
import Theo.Model.CellDir

set_option autoImplicit false

/-! # The cell directory refines the bucketed index

`DirRep m cellDir bufferTop dir` says that the bytes of the `cell_dir` at `cellDir`, and of the
overflow records under `bufferTop`, are those of the index `dir`. Each operation of the directory
then returns what the operation of the index returns, represents its result, and stores only
inside the structure and its overflow area. -/

namespace Theo

open ByteMachine BucketIndex

/-- The directory as an index: keys are checksums, byte 17 of which is the block. -/
abbrev Dir := Index CellDirEntry

abbrev Dir.add (dir : Dir) (e : CellDirEntry) : Dir :=
  Index.add 4095 CellDirEntry.checksum Checksum.blockNo dir e

abbrev Dir.find (dir : Dir) (c : Checksum) : Option CellDirEntry :=
  Index.find CellDirEntry.checksum Checksum.blockNo dir c

abbrev Dir.remove (dir : Dir) (c : Checksum) : Option Dir :=
  Index.remove CellDirEntry.checksum Checksum.blockNo dir c

abbrev Dir.inSlots (dir : Dir) (c : Checksum) : Nat :=
  Index.inSlots CellDirEntry.checksum Checksum.blockNo dir c

abbrev Dir.Holds (dir : Dir) (L : List CellDirEntry) : Prop :=
  Index.Holds CellDirEntry.checksum Checksum.blockNo dir L

theorem Dir.add_over_length_le (dir : Dir) (e : CellDirEntry) :
    (dir.add e).stack.length ≤ dir.stack.length + 1 := Index.add_over_length_le dir e

/-! ## Representation -/

/-- The slot at `ptr`: empty, or holding an entry. -/
def SlotRep (m : Mem) (ptr : Nat) : Option CellDirEntry → Prop
  | none => (loadDirEntry m ptr).set = false
  | some e => loadDirEntry m ptr = e ∧ e.set = true

def SlotsRep (m : Mem) : Nat → List (Option CellDirEntry) → Prop
  | _, [] => True
  | ptr, slot :: slots => SlotRep m ptr slot ∧ SlotsRep m (ptr + 36) slots

/-- Overflow records, ascending from `ptr`: the newest one comes first. -/
def OverRep (m : Mem) : Nat → List CellDirEntry → Prop
  | _, [] => True
  | ptr, e :: es => loadDirEntry m ptr = e ∧ OverRep m (ptr + 36) es

structure BlockRep (m : Mem) (ptr : Nat) (slots : List (Option CellDirEntry)) (spilled : Nat) :
    Prop where
  length : slots.length = 3
  slot : SlotsRep m ptr slots
  count : entryCount m ptr = (slots.filterMap id).length
  spilled : blockOverflowCount m ptr = spilled

structure DirRep (m : Mem) (cellDir bufferTop : Nat) (dir : Dir) : Prop where
  block : ∀ i < 256, BlockRep m (blockPtr cellDir i) (dir.slots i) (dir.spilled i)
  count : overflowCount m (overflowPtr cellDir) = dir.stack.length
  stack : OverRep m (bufferTop - 36 * dir.stack.length) dir.stack
  room : 36 * dir.stack.length ≤ bufferTop

theorem SlotRep.congr {m m' : Mem} {ptr : Nat} {slot : Option CellDirEntry}
    (h : SlotRep m ptr slot) (hm : m.Agree m' ptr (ptr + 36)) : SlotRep m' ptr slot := by
  cases slot with
  | none => simpa [SlotRep, loadDirEntry_congr hm] using h
  | some e => simpa [SlotRep, loadDirEntry_congr hm] using h

theorem SlotsRep.congr {m m' : Mem} {ptr : Nat} {slots : List (Option CellDirEntry)}
    (h : SlotsRep m ptr slots) (hm : m.Agree m' ptr (ptr + 36 * slots.length)) :
    SlotsRep m' ptr slots := by
  induction slots generalizing ptr with
  | nil => trivial
  | cons slot slots ih =>
      simp only [List.length_cons] at hm
      exact ⟨h.1.congr (hm.mono (by omega) (by omega)), ih h.2 (hm.mono (by omega) (by omega))⟩

theorem OverRep.congr {m m' : Mem} {ptr : Nat} {es : List CellDirEntry}
    (h : OverRep m ptr es) (hm : m.Agree m' ptr (ptr + 36 * es.length)) : OverRep m' ptr es := by
  induction es generalizing ptr with
  | nil => trivial
  | cons e es ih =>
      simp only [List.length_cons] at hm
      refine ⟨?_, ih h.2 (hm.mono (by omega) (by omega))⟩
      rw [loadDirEntry_congr (hm.mono (by omega) (by omega))]
      exact h.1

theorem entryCount_congr {m m' : Mem} {ptr : Nat} (hm : m.Agree m' (ptr + 108) (ptr + 112)) :
    entryCount m' ptr = entryCount m ptr := by
  rw [entryCount, hm.load32, entryCount]

theorem blockOverflowCount_congr {m m' : Mem} {ptr : Nat}
    (hm : m.Agree m' (ptr + 108) (ptr + 112)) :
    blockOverflowCount m' ptr = blockOverflowCount m ptr := by
  rw [blockOverflowCount, hm.load32, blockOverflowCount]

theorem overflowCount_congr {m m' : Mem} {ptr : Nat} (hm : m.Agree m' ptr (ptr + 4)) :
    overflowCount m' ptr = overflowCount m ptr := by
  rw [overflowCount, hm.load32, overflowCount]

theorem BlockRep.congr {m m' : Mem} {ptr spilled : Nat} {slots : List (Option CellDirEntry)}
    (h : BlockRep m ptr slots spilled) (hm : m.Agree m' ptr (ptr + 112)) :
    BlockRep m' ptr slots spilled where
  length := h.length
  slot := h.slot.congr (hm.mono (by omega) (by rw [h.length]; omega))
  count := by rw [entryCount_congr (hm.mono (by omega) (by omega)), h.count]
  spilled := by rw [blockOverflowCount_congr (hm.mono (by omega) (by omega)), h.spilled]

/-- The directory depends on its own bytes and on those of its overflow records only. -/
theorem DirRep.congr {m m' : Mem} {cellDir bufferTop : Nat} {dir : Dir}
    (h : DirRep m cellDir bufferTop dir) (hdir : m.Agree m' cellDir (cellDir + 28676))
    (hover : m.Agree m' (bufferTop - 36 * dir.stack.length) bufferTop) :
    DirRep m' cellDir bufferTop dir where
  block i hi := by
    refine (h.block i hi).congr (hdir.mono ?_ ?_) <;> simp only [blockPtr] <;> omega
  count := by
    rw [overflowCount_congr (hdir.mono (by simp only [overflowPtr]; omega)
      (by simp only [overflowPtr]; omega)), h.count]
  stack := by
    have hroom := h.room
    exact h.stack.congr (hover.mono (by omega) (by omega))
  room := h.room

/-! ## Stores of the directory -/

/-- A store of the directory: inside the structure, an added overflow record from `addLo` up, or
an overflow record touched by a removal from `removeLo` up. -/
def DirStore (cellDir bufferTop addLo removeLo : Nat) (e : Event Site) : Prop :=
  e.StoreIn .dir cellDir (cellDir + 28676) ∨ e.StoreIn .overflowAdd addLo bufferTop ∨
    e.StoreIn .overflowRemove removeLo bufferTop

theorem DirStore.mono {cellDir bufferTop addLo removeLo addLo' removeLo' : Nat} {e : Event Site}
    (h : DirStore cellDir bufferTop addLo removeLo e) (hadd : addLo' ≤ addLo)
    (hremove : removeLo' ≤ removeLo) : DirStore cellDir bufferTop addLo' removeLo' e := by
  rcases h with h | h | h
  · exact Or.inl h
  · exact Or.inr (Or.inl (h.mono hadd (Nat.le_refl _)))
  · exact Or.inr (Or.inr (h.mono hremove (Nat.le_refl _)))

/-! ## Blocks -/

section Block

variable {s : Store} {ptr : Nat} {slots : List (Option CellDirEntry)}

/-- Filling the first empty slot. -/
theorem cellDirBlockAddLoop_some (block : Nat) {e : CellDirEntry} {slots' : List (Option CellDirEntry)}
    (hrep : SlotsRep s.mem ptr slots) (hset : e.set = true)
    (hadd : slotsAdd slots e = some slots') :
    ∃ q, ptr ≤ q ∧ q + 36 ≤ ptr + 36 * slots.length ∧
      SlotsRep (s.mem.write q e.bytes) ptr slots' ∧
      cellDirBlockAddLoop block e ptr slots.length s = .ok true
        ((s.storeBytes .dir q e.bytes).storeBits .dir (block + 108) 0 4
          (entryCount (s.mem.write q e.bytes) block + 1)) := by
  induction slots generalizing ptr slots' with
  | nil => simp [slotsAdd] at hadd
  | cons slot slots ih =>
      cases slot with
      | none =>
          simp only [slotsAdd, Option.some.injEq] at hadd
          subst hadd
          have hslot : (loadDirEntry s.mem ptr).set = false := hrep.1
          have hrest : SlotsRep (s.mem.write ptr e.bytes) (ptr + 36) slots :=
            hrep.2.congr (Mem.write_agree _ _ _ (Or.inr (by simp)))
          refine ⟨ptr, Nat.le_refl _, by simp only [List.length_cons]; omega,
            ⟨⟨loadDirEntry_write _ _ _, hset⟩, hrest⟩, ?_⟩
          rw [List.length_cons, cellDirBlockAddLoop, load_bind, if_pos hslot, cellDirEntryCopy,
            storeBytes_bind, load_bind, Machine.mem_storeBytes, storeBits_bind, pure_run]
      | some x =>
          rw [slotsAdd, Option.map_eq_some_iff] at hadd
          obtain ⟨rest, hrest, rfl⟩ := hadd
          obtain ⟨hx, hxset⟩ := hrep.1
          obtain ⟨q, hlo, hhi, hq, hrun⟩ := ih hrep.2 hrest
          have hhead : SlotRep (s.mem.write q e.bytes) ptr (some x) :=
            SlotRep.congr hrep.1 (Mem.write_agree _ _ _ (Or.inl hlo))
          refine ⟨q, by omega, by simp only [List.length_cons]; omega, ⟨hhead, hq⟩, ?_⟩
          rw [List.length_cons, cellDirBlockAddLoop, load_bind, if_neg (by simp [hx, hxset])]
          exact hrun

theorem cellDirBlockAddLoop_none (block : Nat) {e : CellDirEntry} (hrep : SlotsRep s.mem ptr slots)
    (hadd : slotsAdd slots e = none) :
    cellDirBlockAddLoop block e ptr slots.length s = .ok false s := by
  induction slots generalizing ptr with
  | nil => rfl
  | cons slot slots ih =>
      cases slot with
      | none => simp [slotsAdd] at hadd
      | some x =>
          rw [slotsAdd, Option.map_eq_none_iff] at hadd
          obtain ⟨hx, hxset⟩ := hrep.1
          rw [List.length_cons, cellDirBlockAddLoop, load_bind, if_neg (by simp [hx, hxset])]
          exact ih hrep.2 hadd

/-- Finding a slot: it holds the entry found, and clearing it is the removal of the index. -/
theorem cellDirBlockFindLoop_some {c : Checksum} {e : CellDirEntry}
    (hrep : SlotsRep s.mem ptr slots)
    (hfind : slotsFind CellDirEntry.checksum c slots = some e) :
    ∃ q, ptr ≤ q ∧ q + 36 ≤ ptr + 36 * slots.length ∧ loadDirEntry s.mem q = e ∧
      cellDirBlockFindLoop c ptr slots.length s = .ok (some q) s ∧
      ∃ slots', slotsRemove CellDirEntry.checksum c slots = some slots' ∧
        ∀ m', s.mem.Agree m' ptr q → s.mem.Agree m' (q + 36) (ptr + 36 * slots.length) →
          (loadDirEntry m' q).set = false → SlotsRep m' ptr slots' := by
  induction slots generalizing ptr with
  | nil => simp [slotsFind] at hfind
  | cons slot slots ih =>
      cases slot with
      | none =>
          have hslot : (loadDirEntry s.mem ptr).set = false := hrep.1
          obtain ⟨q, hlo, hhi, hq, hrun, slots', hremove, hclear⟩ := ih hrep.2 hfind
          refine ⟨q, by omega, by simp only [List.length_cons]; omega, hq, ?_, none :: slots',
            by rw [slotsRemove, hremove]; rfl, ?_⟩
          · rw [List.length_cons, cellDirBlockFindLoop, load_bind, if_pos hslot]
            exact hrun
          · intro m' hbefore hafter hcleared
            simp only [List.length_cons] at hafter
            exact ⟨SlotRep.congr hrep.1 (hbefore.mono (Nat.le_refl _) hlo),
              hclear m' (hbefore.mono (by omega) (Nat.le_refl _))
                (hafter.mono (Nat.le_refl _) (by omega)) hcleared⟩
      | some x =>
          obtain ⟨hx, hxset⟩ := hrep.1
          rw [slotsFind] at hfind
          split at hfind
          · next hkey =>
              rw [Option.some.injEq] at hfind
              subst hfind
              refine ⟨ptr, Nat.le_refl _, by simp only [List.length_cons]; omega, hx, ?_, none :: slots,
                by rw [slotsRemove, if_pos hkey], ?_⟩
              · rw [List.length_cons, cellDirBlockFindLoop, load_bind, if_neg (by simp [hx, hxset]),
                  if_pos (by rw [hx, hkey])]
                rfl
              · intro m' _ hafter hcleared
                simp only [List.length_cons] at hafter
                exact ⟨hcleared, hrep.2.congr (hafter.mono (Nat.le_refl _) (by omega))⟩
          · next hkey =>
              obtain ⟨q, hlo, hhi, hq, hrun, slots', hremove, hclear⟩ := ih hrep.2 hfind
              refine ⟨q, by omega, by simp only [List.length_cons]; omega, hq, ?_, some x :: slots',
                by rw [slotsRemove, if_neg hkey, hremove]; rfl, ?_⟩
              · rw [List.length_cons, cellDirBlockFindLoop, load_bind, if_neg (by simp [hx, hxset]),
                  if_neg (by rw [hx]; exact fun hh => hkey hh.symm)]
                exact hrun
              · intro m' hbefore hafter hcleared
                simp only [List.length_cons] at hafter
                exact ⟨SlotRep.congr hrep.1 (hbefore.mono (Nat.le_refl _) hlo),
                  hclear m' (hbefore.mono (by omega) (Nat.le_refl _))
                    (hafter.mono (Nat.le_refl _) (by omega)) hcleared⟩

theorem cellDirBlockFindLoop_none {c : Checksum} (hrep : SlotsRep s.mem ptr slots)
    (hfind : slotsFind CellDirEntry.checksum c slots = none) :
    cellDirBlockFindLoop c ptr slots.length s = .ok none s := by
  induction slots generalizing ptr with
  | nil => rfl
  | cons slot slots ih =>
      cases slot with
      | none =>
          have hslot : (loadDirEntry s.mem ptr).set = false := hrep.1
          rw [List.length_cons, cellDirBlockFindLoop, load_bind, if_pos hslot]
          exact ih hrep.2 hfind
      | some x =>
          obtain ⟨hx, hxset⟩ := hrep.1
          rw [slotsFind] at hfind
          split at hfind
          · cases hfind
          · next hkey =>
              rw [List.length_cons, cellDirBlockFindLoop, load_bind, if_neg (by simp [hx, hxset]),
                if_neg (by rw [hx]; exact fun hh => hkey hh.symm)]
              exact ih hrep.2 hfind

variable {block spilled : Nat}

/-- The counters of a block after its entry count was stored. -/
theorem entryCount_storeBits (s : Store) (block v : Nat) :
    entryCount (s.storeBits .dir (block + 108) 0 4 v).mem block = v % 16 := by
  rw [entryCount, Machine.load32_storeBits _ _ _ _ (by omega)]
  exact getBits_setBits_self _ _ _ _

theorem blockOverflowCount_storeBits_count (s : Store) (block v : Nat) :
    blockOverflowCount (s.storeBits .dir (block + 108) 0 4 v).mem block =
      blockOverflowCount s.mem block := by
  rw [blockOverflowCount, Machine.load32_storeBits _ _ _ _ (by omega),
    getBits_setBits_above _ _ _ (by omega), blockOverflowCount]

theorem blockOverflowCount_storeBits (s : Store) (block v : Nat) :
    blockOverflowCount (s.storeBits .dir (block + 108) 4 12 v).mem block = v % 4096 := by
  rw [blockOverflowCount, Machine.load32_storeBits _ _ _ _ (by omega)]
  exact getBits_setBits_self _ _ _ _

theorem entryCount_storeBits_overflow (s : Store) (block v : Nat) :
    entryCount (s.storeBits .dir (block + 108) 4 12 v).mem block = entryCount s.mem block := by
  rw [entryCount, Machine.load32_storeBits _ _ _ _ (by omega),
    getBits_setBits_below _ _ _ (by omega), entryCount]

theorem BlockRep.filterMap_le (h : BlockRep s.mem block slots spilled) :
    (slots.filterMap id).length ≤ 3 := by
  have := List.length_filterMap_le id slots
  rw [h.length] at this
  exact this

theorem cellDirBlockAdd_some {e : CellDirEntry} {slots' : List (Option CellDirEntry)}
    (h : BlockRep s.mem block slots spilled) (hset : e.set = true)
    (hadd : slotsAdd slots e = some slots') :
    ∃ s', cellDirBlockAdd block e s = .ok true s' ∧ BlockRep s'.mem block slots' spilled ∧
      Emits (Event.StoreIn .dir block (block + 112)) s s' := by
  obtain ⟨q, hlo, hhi, hq, hrun⟩ :=
    cellDirBlockAddLoop_some block h.slot hset hadd
  rw [h.length] at hhi hrun
  have hlen := (slotsAdd_perm hadd).length_eq
  rw [List.length_cons] at hlen
  have hlen3 := slotsAdd_length hadd
  rw [h.length] at hlen3
  have hword : s.mem.Agree (s.mem.write q e.bytes) (block + 108) (block + 112) :=
    Mem.write_agree _ _ _ (Or.inr (by simp only [CellDirEntry.bytes_length]; omega))
  refine ⟨_, hrun, ⟨hlen3, ?_, ?_, ?_⟩, ?_⟩
  · rw [← Machine.mem_storeBytes s .dir] at hq
    exact hq.congr (Machine.storeBits_agree _ _ _ _ _ _ (Or.inl (by omega)))
  · have hle := h.filterMap_le
    rw [entryCount_storeBits, entryCount_congr hword, h.count]
    have := List.length_filterMap_le id slots'
    omega
  · rw [blockOverflowCount_storeBits_count, Machine.mem_storeBytes,
      blockOverflowCount_congr hword, h.spilled]
  · exact (Emits.storeBytes_in s hlo (by simp only [CellDirEntry.bytes_length]; omega)).trans
      (Emits.storeBits_in _ (by omega) (by omega))

theorem cellDirBlockAdd_none {e : CellDirEntry} (h : BlockRep s.mem block slots spilled)
    (hadd : slotsAdd slots e = none) : cellDirBlockAdd block e s = .ok false s := by
  have hrun := cellDirBlockAddLoop_none block h.slot hadd
  rwa [h.length] at hrun

theorem cellDirBlockFind_some {c : Checksum} {e : CellDirEntry}
    (h : BlockRep s.mem block slots spilled)
    (hfind : slotsFind CellDirEntry.checksum c slots = some e) :
    ∃ q, block ≤ q ∧ q + 36 ≤ block + 108 ∧ loadDirEntry s.mem q = e ∧
      cellDirBlockFind block c s = .ok (some q) s ∧
      ∃ slots', slotsRemove CellDirEntry.checksum c slots = some slots' ∧
        ∀ m', s.mem.Agree m' block q → s.mem.Agree m' (q + 36) (block + 108) →
          (loadDirEntry m' q).set = false → SlotsRep m' block slots' := by
  obtain ⟨q, hlo, hhi, hq, hrun, hremove⟩ := cellDirBlockFindLoop_some h.slot hfind
  rw [h.length] at hhi hrun hremove
  have hcount : entryCount s.mem block ≠ 0 := by
    rw [h.count]
    exact Nat.ne_of_gt (List.length_pos_of_mem (slotsFind_some hfind).1)
  refine ⟨q, hlo, hhi, hq, ?_, hremove⟩
  rw [cellDirBlockFind, load_bind, if_neg hcount]
  exact hrun

theorem cellDirBlockFind_none {c : Checksum} (h : BlockRep s.mem block slots spilled)
    (hfind : slotsFind CellDirEntry.checksum c slots = none) :
    cellDirBlockFind block c s = .ok none s := by
  have hrun := cellDirBlockFindLoop_none h.slot hfind
  rw [h.length] at hrun
  rw [cellDirBlockFind, load_bind]
  split
  · rfl
  · exact hrun

theorem cellDirBlockRemove_some {c : Checksum} {slots' : List (Option CellDirEntry)}
    (h : BlockRep s.mem block slots spilled)
    (hremove : slotsRemove CellDirEntry.checksum c slots = some slots') :
    ∃ s', cellDirBlockRemove block c s = .ok true s' ∧ BlockRep s'.mem block slots' spilled ∧
      Emits (Event.StoreIn .dir block (block + 112)) s s' := by
  obtain ⟨e, he⟩ : ∃ e, slotsFind CellDirEntry.checksum c slots = some e := by
    rw [← Option.ne_none_iff_exists', Ne, slotsFind_eq_none_iff, hremove]
    exact Option.some_ne_none _
  obtain ⟨q, hlo, hhi, -, hrun, slots'', hremove', hclear⟩ := cellDirBlockFind_some h he
  rw [hremove, Option.some.injEq] at hremove'
  subst hremove'
  obtain ⟨x, -, hperm⟩ := slotsRemove_perm hremove
  have hlen := hperm.length_eq
  rw [List.length_cons] at hlen
  have hlen3 := slotsRemove_length hremove
  rw [h.length] at hlen3
  -- the two stores of `cell_dir_entry_init`, then the count
  let s₁ := (s.storeBytes .dir q (List.replicate 36 0)).storeBytes .dir q (List.replicate 32 0)
  have hframe : ∀ {lo hi}, (hi ≤ q ∨ q + 36 ≤ lo) → s.mem.Agree s₁.mem lo hi := by
    intro lo hi hd
    refine Mem.Agree.trans (Machine.storeBytes_agree _ _ _ _ ?_)
      (Machine.storeBytes_agree _ _ _ _ ?_) <;> simp only [List.length_replicate] <;> omega
  have hcleared : (loadDirEntry s₁.mem q).set = false := by
    have hword : s₁.mem.load32 (q + 32) = 0 := by
      have hagree : (s.storeBytes .dir q (List.replicate 36 0)).mem.Agree s₁.mem
          (q + 32) (q + 32 + 4) :=
        Machine.storeBytes_agree _ _ _ _ (Or.inr (by simp))
      rw [hagree.load32, Machine.mem_storeBytes]
      exact ((Mem.write_zero s.mem q 36).mono (by omega) (by omega)).load32
    simp only [loadDirEntry, hword]
    decide
  refine ⟨s₁.storeBits .dir (block + 108) 0 4 (entryCount s₁.mem block + 15), ?_,
    ⟨hlen3, ?_, ?_, ?_⟩, ?_⟩
  · rw [cellDirBlockRemove, bind_ok hrun]
    rfl
  · exact (hclear s₁.mem (hframe (Or.inl (Nat.le_refl _))) (hframe (Or.inr (Nat.le_refl _)))
      hcleared).congr (Machine.storeBits_agree _ _ _ _ _ _ (Or.inl (by omega)))
  · have hle := h.filterMap_le
    rw [entryCount_storeBits, entryCount_congr (hframe (Or.inr (by omega))), h.count]
    omega
  · rw [blockOverflowCount_storeBits_count, blockOverflowCount_congr (hframe (Or.inr (by omega))),
      h.spilled]
  · have h₁ : Emits (Event.StoreIn .dir block (block + 112)) s s₁ :=
      (Emits.storeBytes_in s hlo (by simp only [List.length_replicate]; omega)).trans
        (Emits.storeBytes_in _ hlo (by simp only [List.length_replicate]; omega))
    exact h₁.trans (Emits.storeBits_in _ (by omega) (by omega))

theorem cellDirBlockRemove_none {c : Checksum} (h : BlockRep s.mem block slots spilled)
    (hremove : slotsRemove CellDirEntry.checksum c slots = none) :
    cellDirBlockRemove block c s = .ok false s := by
  rw [← slotsFind_eq_none_iff] at hremove
  rw [cellDirBlockRemove, bind_ok (cellDirBlockFind_none h hremove)]
  rfl

theorem cellDirBlockGetChunk_run {c : Checksum} (h : BlockRep s.mem block slots spilled) :
    cellDirBlockGetChunk block c s = .ok (slotsFind CellDirEntry.checksum c slots) s := by
  cases hfind : slotsFind CellDirEntry.checksum c slots with
  | none =>
      rw [cellDirBlockGetChunk, bind_ok (cellDirBlockFind_none h hfind)]
      rfl
  | some e =>
      obtain ⟨q, -, -, hq, hrun, -⟩ := cellDirBlockFind_some h hfind
      rw [cellDirBlockGetChunk, bind_ok hrun]
      simp only [load_bind, pure_run, hq]

end Block

/-! ## The directory -/

/-- The structure and `n` overflow records under `bufferTop` do not overlap. -/
def Apart (cellDir bufferTop n : Nat) : Prop :=
  bufferTop ≤ cellDir ∨ cellDir + 28676 + 36 * n ≤ bufferTop

section Dir

variable {s : Store} {cellDir bufferTop : Nat} {dir : Dir}

theorem overflowCount_storeBits (s : Store) (ptr v : Nat) :
    overflowCount (s.storeBits .dir ptr 0 16 v).mem ptr = v % 65536 := by
  rw [overflowCount, Machine.load32_storeBits _ _ _ _ (by omega)]
  exact getBits_setBits_self _ _ _ _

/-- A store inside block `b` represents the directory with that block replaced. -/
theorem DirRep.update_block (h : DirRep s.mem cellDir bufferTop dir)
    (hapart : Apart cellDir bufferTop dir.stack.length) {s' : Store} {b : Nat} (hb : b < 256)
    {slots : List (Option CellDirEntry)}
    (hblock : BlockRep s'.mem (blockPtr cellDir b) slots (dir.spilled b))
    (hemits : Emits (Event.StoreIn .dir (blockPtr cellDir b) (blockPtr cellDir b + 112)) s s') :
    DirRep s'.mem cellDir bufferTop { dir with slots := Function.update dir.slots b slots } := by
  simp only [blockPtr] at hemits
  have hframe : ∀ {lo hi}, (hi ≤ cellDir + 112 * b ∨ cellDir + 112 * b + 112 ≤ lo) →
      s.mem.Agree s'.mem lo hi := fun hd => hemits.agree fun e he => he.avoids hd
  have hroom := h.room
  refine ⟨fun i hi => ?_, ?_, ?_, hroom⟩
  · by_cases hib : i = b
    · subst hib
      simpa using hblock
    · simp only [Function.update_of_ne hib]
      refine (h.block i hi).congr (hframe ?_)
      simp only [blockPtr]
      omega
  · rw [overflowCount_congr (hframe (Or.inr (by simp only [overflowPtr]; omega))), h.count]
  · refine h.stack.congr (hframe ?_)
    unfold Apart at hapart
    omega

theorem BlockRep.respill {slots : List (Option CellDirEntry)} {block spilled : Nat}
    (h : BlockRep s.mem block slots spilled) (v : Nat) :
    BlockRep (s.storeBits .dir (block + 108) 4 12 v).mem block slots (v % 4096) where
  length := h.length
  slot := h.slot.congr (Machine.storeBits_agree _ _ _ _ _ _ (Or.inl (by rw [h.length])))
  count := (entryCount_storeBits_overflow s _ _).trans h.count
  spilled := blockOverflowCount_storeBits s _ _

/-- The overflow count of one block is set, after stores outside the blocks. -/
theorem DirRep.respill (h : DirRep s.mem cellDir bufferTop dir) {s₁ : Store} (b v : Nat)
    (hkeep : ∀ {lo hi}, cellDir ≤ lo → hi ≤ cellDir + 28672 → s.mem.Agree s₁.mem lo hi) :
    ∀ i < 256, BlockRep (s₁.storeBits .dir (cellDir + 112 * b + 108) 4 12 v).mem
      (blockPtr cellDir i) (dir.slots i) (Function.update dir.spilled b (v % 4096) i) := by
  intro i hi
  have hblock : BlockRep s₁.mem (blockPtr cellDir i) (dir.slots i) (dir.spilled i) :=
    (h.block i hi).congr (hkeep (by rw [blockPtr]; omega) (by rw [blockPtr]; omega))
  by_cases hib : i = b
  · subst hib
    rw [Function.update_self]
    exact hblock.respill v
  · rw [Function.update_of_ne hib]
    refine hblock.congr (Machine.storeBits_agree _ _ _ _ _ _ ?_)
    rw [blockPtr]
    omega

/-- An entry that goes into a free slot of its block. -/
theorem cellDirAdd_slot (h : DirRep s.mem cellDir bufferTop dir) {e : CellDirEntry}
    (hset : e.set = true) (hapart : Apart cellDir bufferTop dir.stack.length)
    {slots' : List (Option CellDirEntry)}
    (hadd : slotsAdd (dir.slots e.checksum.blockNo) e = some slots') :
    ∃ s', cellDirAdd cellDir bufferTop e s = .ok () s' ∧
      DirRep s'.mem cellDir bufferTop (dir.add e) ∧
      Emits (Event.StoreIn .dir cellDir (cellDir + 28676)) s s' := by
  have hb := e.checksum.blockNo_lt
  obtain ⟨s', hrun, hblock, hemits⟩ := cellDirBlockAdd_some (h.block _ hb) hset hadd
  refine ⟨s', ?_, ?_, hemits.mono fun ev hev => hev.mono ?_ ?_⟩
  · rw [cellDirAdd, bind_ok hrun]
    rfl
  · simp only [Dir.add, Index.add, hadd]
    exact h.update_block hapart hb hblock hemits
  · simp only [blockPtr]
    omega
  · simp only [blockPtr]
    omega

/-- An entry that becomes the newest overflow record. -/
theorem cellDirAdd_overflow (h : DirRep s.mem cellDir bufferTop dir) {e : CellDirEntry}
    (hroom : 36 * (dir.stack.length + 1) ≤ bufferTop)
    (hapart : Apart cellDir bufferTop (dir.stack.length + 1)) (hover : dir.stack.length < 65535)
    (hadd : slotsAdd (dir.slots e.checksum.blockNo) e = none) :
    ∃ s', cellDirAdd cellDir bufferTop e s = .ok () s' ∧
      DirRep s'.mem cellDir bufferTop (dir.add e) ∧
      Emits (DirStore cellDir bufferTop (bufferTop - 36 * (dir.add e).stack.length) bufferTop)
        s s' := by
  have hb := e.checksum.blockNo_lt
  have hrep := h.block _ hb
  unfold Apart at hapart
  have hadd' : dir.add e = { dir with
      spilled := Function.update dir.spilled e.checksum.blockNo
        ((dir.spilled e.checksum.blockNo + 1) % 4096)
      stack := e :: dir.stack } := by
    simp only [Dir.add, Index.add, hadd]
  -- the shared counter, the record below the others, the counter of the block
  let ovf := cellDir + 28672
  let ptr := bufferTop - (dir.stack.length + 1) * 36
  let block := cellDir + 112 * e.checksum.blockNo
  let s₁ := s.storeBits .dir ovf 0 16 (dir.stack.length + 1)
  let s₂ := s₁.storeBytes .overflowAdd ptr e.bytes
  have hcount₁ : overflowCount s₁.mem ovf = dir.stack.length + 1 := by
    rw [overflowCount_storeBits]
    omega
  have hframe₁ : ∀ {lo hi}, (hi ≤ ovf ∨ ovf + 4 ≤ lo) → s.mem.Agree s₁.mem lo hi :=
    fun hd => Machine.storeBits_agree _ _ _ _ _ _ hd
  have hframe₂ : ∀ {lo hi}, (hi ≤ ptr ∨ ptr + 36 ≤ lo) → s₁.mem.Agree s₂.mem lo hi :=
    fun hd => Machine.storeBytes_agree _ _ _ _ (by simpa using hd)
  have hspilled₂ : blockOverflowCount s₂.mem block = dir.spilled e.checksum.blockNo := by
    rw [← hrep.spilled]
    exact blockOverflowCount_congr ((hframe₁ (by omega)).trans (hframe₂ (by omega)))
  let s₃ := s₂.storeBits .dir (block + 108) 4 12 (dir.spilled e.checksum.blockNo + 1)
  have hframe₃ : ∀ {lo hi}, (hi ≤ block + 108 ∨ block + 112 ≤ lo) →
      s₂.mem.Agree s₃.mem lo hi := fun hd => Machine.storeBits_agree _ _ _ _ _ _ (by omega)
  refine ⟨s₃, ?_, ?_, ?_⟩
  · have hcount : overflowCount s.mem ovf = dir.stack.length := h.count
    have hinc : cellDirOverflowAdd ovf bufferTop e s = .ok (dir.stack.length + 1) s₂ := by
      simp only [cellDirOverflowAdd, load_bind, hcount, storeBits_bind]
      rw [show overflowCount (s.storeBits .dir ovf 0 16 (dir.stack.length + 1)).mem ovf =
        dir.stack.length + 1 from hcount₁]
      rfl
    have hblockInc : cellDirBlockIncrementOverflow block s₂ =
        .ok (blockOverflowCount s₃.mem block) s₃ := by
      simp only [cellDirBlockIncrementOverflow, load_bind, hspilled₂]
      rfl
    rw [cellDirAdd, bind_ok (cellDirBlockAdd_none hrep hadd)]
    simp only [Bool.false_eq_true, if_false, overflowPtr, blockPtr]
    rw [bind_ok hinc, bind_ok hblockInc]
    rfl
  · rw [hadd']
    refine ⟨h.respill _ _ ?_, ?_, ⟨?_, ?_⟩, by simpa using hroom⟩
    · intro lo hi hlo hhi
      exact (hframe₁ (by omega)).trans (hframe₂ (by omega))
    · have hagree : s₁.mem.Agree s₃.mem ovf (ovf + 4) :=
        (hframe₂ (by omega)).trans (hframe₃ (Or.inr (by omega)))
      exact (overflowCount_congr hagree).trans hcount₁
    · have hptr : bufferTop - 36 * (e :: dir.stack).length = ptr := by
        simp only [List.length_cons]
        omega
      rw [hptr, loadDirEntry_congr (hframe₃ (by omega))]
      show loadDirEntry (s₁.storeBytes .overflowAdd ptr e.bytes).mem ptr = e
      rw [Machine.mem_storeBytes, loadDirEntry_write]
    · have hptr : bufferTop - 36 * (e :: dir.stack).length + 36 =
          bufferTop - 36 * dir.stack.length := by
        simp only [List.length_cons]
        omega
      rw [hptr]
      exact h.stack.congr (((hframe₁ (by omega)).trans (hframe₂ (by omega))).trans
        (hframe₃ (by omega)))
  · have h₁ : Emits (DirStore cellDir bufferTop ptr bufferTop) s s₁ :=
      (Emits.storeBits_in s (Nat.le_refl _) (Nat.le_refl _)).mono
        fun ev hev => Or.inl (hev.mono (by omega) (by omega))
    have h₂ : Emits (DirStore cellDir bufferTop ptr bufferTop) s₁ s₂ :=
      (Emits.storeBytes_in s₁ (Nat.le_refl _) (Nat.le_refl _)).mono
        fun ev hev => Or.inr (Or.inl (hev.mono (Nat.le_refl _)
          (by simp only [CellDirEntry.bytes_length]; omega)))
    have h₃ : Emits (DirStore cellDir bufferTop ptr bufferTop) s₂ s₃ :=
      (Emits.storeBits_in s₂ (Nat.le_refl _) (Nat.le_refl _)).mono
        fun ev hev => Or.inl (hev.mono (by omega) (by omega))
    have hlen : bufferTop - 36 * (dir.add e).stack.length = ptr := by
      rw [hadd']
      simp only [List.length_cons]
      omega
    rw [hlen]
    exact (h₁.trans h₂).trans h₃

/-- `cell_dir_add` stores the entry as the index does. -/
theorem cellDirAdd_spec (h : DirRep s.mem cellDir bufferTop dir) {e : CellDirEntry}
    (hset : e.set = true) (hroom : 36 * (dir.stack.length + 1) ≤ bufferTop)
    (hapart : Apart cellDir bufferTop (dir.stack.length + 1)) (hover : dir.stack.length < 65535) :
    ∃ s', cellDirAdd cellDir bufferTop e s = .ok () s' ∧
      DirRep s'.mem cellDir bufferTop (dir.add e) ∧
      Emits (DirStore cellDir bufferTop (bufferTop - 36 * (dir.add e).stack.length) bufferTop)
        s s' := by
  cases hadd : slotsAdd (dir.slots e.checksum.blockNo) e with
  | some slots' =>
      obtain ⟨s', hrun, hrep, hemits⟩ :=
        cellDirAdd_slot h hset (by unfold Apart at hapart ⊢; omega) hadd
      exact ⟨s', hrun, hrep, hemits.mono fun _ he => Or.inl he⟩
  | none => exact cellDirAdd_overflow h hroom hapart hover hadd

/-- The scan for a record to remove: it moves the newest record, outside the scanned part, into
the place of the removed one. -/
theorem cellDirOverflowRemoveLoop_run (ovf : Nat) (c : Checksum) {newestPtr ptr : Nat}
    {newest : CellDirEntry} {es : List CellDirEntry} (hrep : OverRep s.mem ptr es)
    (hnewest : loadDirEntry s.mem newestPtr = newest) :
    match overReplace CellDirEntry.checksum c newest es with
    | none => cellDirOverflowRemoveLoop ovf newestPtr c ptr es.length s = .ok false s
    | some es' => ∃ q, ptr ≤ q ∧ q + 36 ≤ ptr + 36 * es.length ∧
        OverRep (s.mem.write q newest.bytes) ptr es' ∧
        ∃ s₁, s₁ = (s.storeBytes .overflowRemove q newest.bytes).storeBytes .overflowRemove
            newestPtr (List.replicate 36 0) ∧
          cellDirOverflowRemoveLoop ovf newestPtr c ptr es.length s =
            .ok true (s₁.storeBits .dir ovf 0 16 (overflowCount s₁.mem ovf - 1)) := by
  induction es generalizing ptr with
  | nil => rfl
  | cons e es ih =>
      obtain ⟨he, hes⟩ := hrep
      rw [overReplace]
      by_cases hkey : e.checksum = c
      · rw [if_pos hkey]
        refine ⟨ptr, Nat.le_refl _, by simp only [List.length_cons]; omega,
          ⟨loadDirEntry_write _ _ _, hes.congr (Mem.write_agree _ _ _ (Or.inr (by simp)))⟩,
          _, rfl, ?_⟩
        rw [List.length_cons, cellDirOverflowRemoveLoop, load_bind, he, if_pos hkey, load_bind,
          hnewest]
        rfl
      · rw [if_neg hkey]
        have hrest := ih hes
        have hstep : cellDirOverflowRemoveLoop ovf newestPtr c ptr (e :: es).length s =
            cellDirOverflowRemoveLoop ovf newestPtr c (ptr + 36) es.length s := by
          rw [List.length_cons, cellDirOverflowRemoveLoop, load_bind, he, if_neg hkey]
          rfl
        rw [hstep]
        cases hrep' : overReplace CellDirEntry.checksum c newest es with
        | none => simpa [hrep'] using hrest
        | some es' =>
            rw [hrep'] at hrest
            obtain ⟨q, hlo, hhi, hq, s₁, hs₁, hrun⟩ := hrest
            refine ⟨q, by omega, by simp only [List.length_cons]; omega, ⟨?_, hq⟩, s₁, hs₁, hrun⟩
            rw [loadDirEntry_congr (Mem.write_agree _ _ _ (Or.inl hlo)), he]

/-- The scan of `cell_dir_overflow_remove`, from the newest record `x` on: some record gets the newest
one, which is cleared. -/
theorem cellDirOverflowRemove_scan (ovf : Nat) {base : Nat} {c : Checksum} {x : CellDirEntry}
    {xs es' : List CellDirEntry} (hx : loadDirEntry s.mem base = x)
    (hxs : OverRep s.mem (base + 36) xs)
    (hremove : overRemove CellDirEntry.checksum c (x :: xs) = some es') :
    ∃ q, base ≤ q ∧ q + 36 ≤ base + 36 * (xs.length + 1) ∧
      OverRep ((s.mem.write q x.bytes).write base (List.replicate 36 0)) (base + 36) es' ∧
      ∃ s₁, s₁ = (s.storeBytes .overflowRemove q x.bytes).storeBytes .overflowRemove
          base (List.replicate 36 0) ∧
        cellDirOverflowRemoveLoop ovf base c base (xs.length + 1) s =
          .ok true (s₁.storeBits .dir ovf 0 16 (overflowCount s₁.mem ovf - 1)) := by
  rw [overRemove] at hremove
  split at hremove
  · next hkey =>
      rw [Option.some.injEq] at hremove
      subst hremove
      refine ⟨base, Nat.le_refl _, by omega, ?_, _, rfl, ?_⟩
      · exact (hxs.congr (Mem.write_agree _ _ _ (Or.inr (by simp)))).congr
          (Mem.write_agree _ _ _ (Or.inr (by simp)))
      · rw [cellDirOverflowRemoveLoop, load_bind, hx, if_pos hkey, load_bind, hx]
        rfl
  · next hkey =>
      have hloop := cellDirOverflowRemoveLoop_run ovf c hxs hx
      rw [hremove] at hloop
      obtain ⟨q, hlo, hhi, hq, s₁, hs₁, hrun⟩ := hloop
      refine ⟨q, by omega, by omega, ?_, s₁, hs₁, ?_⟩
      · exact hq.congr (Mem.write_agree _ _ _ (Or.inr (by simp)))
      · rw [cellDirOverflowRemoveLoop, load_bind, hx, if_neg hkey]
        exact hrun

/-- `cell_dir_overflow_remove` is the removal from the stack. -/
theorem cellDirOverflowRemove_some {ovf : Nat} {c : Checksum} {es es' : List CellDirEntry}
    (hcount : overflowCount s.mem ovf = es.length)
    (hrep : OverRep s.mem (bufferTop - 36 * es.length) es) (hroom : 36 * es.length ≤ bufferTop)
    (hapart : bufferTop ≤ ovf ∨ ovf + 4 ≤ bufferTop - 36 * es.length)
    (hremove : overRemove CellDirEntry.checksum c es = some es') :
    ∃ s', cellDirOverflowRemove ovf bufferTop c s = .ok true s' ∧
      OverRep s'.mem (bufferTop - 36 * es'.length) es' ∧
      overflowCount s'.mem ovf = es'.length ∧
      Emits (fun e => e.StoreIn .dir ovf (ovf + 4) ∨
        e.StoreIn .overflowRemove (bufferTop - 36 * es.length) bufferTop) s s' := by
  cases es with
  | nil => simp [overRemove] at hremove
  | cons x xs =>
      obtain ⟨hx, hxs⟩ := hrep
      have hlen := overRemove_length hremove
      simp only [List.length_cons] at hroom hapart hxs hcount hx hlen
      have hlt : xs.length + 1 < 65536 := by
        rw [← hcount, overflowCount, getBits]
        exact Nat.mod_lt _ (by decide)
      -- the stores: a record `q` gets the newest record, which is then cleared and uncounted
      let base := bufferTop - (xs.length + 1) * 36
      have hbase : bufferTop - 36 * (xs.length + 1) = base := by omega
      rw [hbase] at hx hxs hapart
      by_cases hone : xs.length + 1 = 1
      · obtain rfl : xs = [] := List.eq_nil_of_length_eq_zero (by omega)
        rw [overRemove] at hremove
        split at hremove
        · next hkey =>
            rw [Option.some.injEq] at hremove
            subst hremove
            let s₁ := s.storeBytes .overflowRemove base (List.replicate 36 0)
            refine ⟨s₁.storeBits .dir ovf 0 16 0, ?_, trivial, overflowCount_storeBits _ _ _, ?_⟩
            · simp only [cellDirOverflowRemove, load_bind, hcount, if_pos hone]
              rw [show bufferTop - (([] : List CellDirEntry).length + 1) * sizeofCellDirEntry = base
                from rfl, hx, if_pos hkey]
              rfl
            · have hcleared : Emits (Event.StoreIn .overflowRemove base (base + 36)) s s₁ :=
                Emits.storeBytes_in s (Nat.le_refl _) (by simp)
              refine (hcleared.mono fun e he => Or.inr (he.mono ?_ ?_)).trans
                ((Emits.storeBits_in s₁ (Nat.le_refl _) (Nat.le_refl _)).mono fun e he => Or.inl he)
              · simp only [List.length_cons]
                omega
              · omega
        · simp [overReplace] at hremove
      · obtain ⟨q, hlo, hhi, hq, s₁, rfl, hrun⟩ := cellDirOverflowRemove_scan ovf hx hxs hremove
        let s₀ := s.storeBytes .overflowRemove q x.bytes
        let s₁ := s₀.storeBytes .overflowRemove base (List.replicate 36 0)
        have hagree : s.mem.Agree s₁.mem ovf (ovf + 4) :=
          (Machine.storeBytes_agree s .overflowRemove q x.bytes
            (by simp only [CellDirEntry.bytes_length]; omega)).trans
          (Machine.storeBytes_agree s₀ .overflowRemove base (List.replicate 36 0)
            (by simp only [List.length_replicate]; omega))
        have hcount₁ : overflowCount s₁.mem ovf = xs.length + 1 := by
          rw [overflowCount_congr hagree, hcount]
        refine ⟨s₁.storeBits .dir ovf 0 16 (overflowCount s₁.mem ovf - 1), ?_, ?_, ?_, ?_⟩
        · simp only [cellDirOverflowRemove, load_bind, hcount, if_neg hone]
          exact hrun
        · have hbase' : bufferTop - 36 * es'.length = base + 36 := by omega
          rw [hbase']
          have hmem : s₁.mem = (s.mem.write q x.bytes).write base (List.replicate 36 0) := by
            simp only [s₁, s₀, Machine.mem_storeBytes]
          rw [← hmem] at hq
          exact hq.congr (Machine.storeBits_agree _ _ _ _ _ _ (by omega))
        · rw [overflowCount_storeBits, hcount₁]
          omega
        · have hmoved : Emits (Event.StoreIn .overflowRemove base bufferTop) s s₁ :=
            (Emits.storeBytes_in s hlo (by simp only [CellDirEntry.bytes_length]; omega)).trans
              (Emits.storeBytes_in s₀ (Nat.le_refl _)
                (by simp only [List.length_replicate]; omega))
          refine (hmoved.mono fun e he => Or.inr (he.mono ?_ (Nat.le_refl _))).trans
            ((Emits.storeBits_in s₁ (Nat.le_refl _) (Nat.le_refl _)).mono fun e he => Or.inl he)
          simp only [List.length_cons]
          omega

theorem cellDirOverflowRemove_none {ovf : Nat} {c : Checksum} {es : List CellDirEntry}
    (hcount : overflowCount s.mem ovf = es.length)
    (hrep : OverRep s.mem (bufferTop - 36 * es.length) es)
    (hremove : overRemove CellDirEntry.checksum c es = none) :
    cellDirOverflowRemove ovf bufferTop c s = .ok false s := by
  simp only [cellDirOverflowRemove, load_bind, hcount, sizeofCellDirEntry]
  rw [Nat.mul_comm es.length 36]
  cases es with
  | nil => rfl
  | cons x xs =>
      have hx : x.checksum ≠ c := overRemove_none hremove x List.mem_cons_self
      split
      · rw [load_bind, hrep.1, if_neg hx, pure_run]
      · rw [List.length_cons, cellDirOverflowRemoveLoop, load_bind]
        simp only [List.length_cons] at hrep
        rw [hrep.1, if_neg hx]
        rw [overRemove, if_neg hx] at hremove
        have hloop := cellDirOverflowRemoveLoop_run ovf c hrep.2 hrep.1
        rw [hremove] at hloop
        exact hloop

/-- A checksum in a slot of its block. -/
theorem cellDirRemove_slot (h : DirRep s.mem cellDir bufferTop dir)
    (hapart : Apart cellDir bufferTop dir.stack.length) {c : Checksum}
    {slots : List (Option CellDirEntry)}
    (hslots : slotsRemove CellDirEntry.checksum c (dir.slots c.blockNo) = some slots) :
    ∃ s', cellDirRemove cellDir bufferTop c s = .ok true s' ∧
      DirRep s'.mem cellDir bufferTop
        { dir with slots := Function.update dir.slots c.blockNo slots } ∧
      Emits (Event.StoreIn .dir cellDir (cellDir + 28676)) s s' := by
  have hb := c.blockNo_lt
  obtain ⟨s', hrun, hblock, hemits⟩ := cellDirBlockRemove_some (h.block _ hb) hslots
  refine ⟨s', ?_, h.update_block hapart hb hblock hemits,
    hemits.mono fun ev hev => hev.mono ?_ ?_⟩
  · rw [cellDirRemove, bind_ok hrun]
    rfl
  · simp only [blockPtr]
    omega
  · simp only [blockPtr]
    omega

/-- A checksum among the overflow records. -/
theorem cellDirRemove_overflow (h : DirRep s.mem cellDir bufferTop dir)
    (hapart : Apart cellDir bufferTop dir.stack.length) {c : Checksum} {stack : List CellDirEntry}
    (hslots : slotsRemove CellDirEntry.checksum c (dir.slots c.blockNo) = none)
    (hpos : 0 < dir.spilled c.blockNo)
    (hover : overRemove CellDirEntry.checksum c dir.stack = some stack) :
    ∃ s', cellDirRemove cellDir bufferTop c s = .ok true s' ∧
      DirRep s'.mem cellDir bufferTop { dir with
        spilled := Function.update dir.spilled c.blockNo (dir.spilled c.blockNo - 1)
        stack := stack } ∧
      Emits (DirStore cellDir bufferTop bufferTop (bufferTop - 36 * dir.stack.length)) s s' := by
  have hb := c.blockNo_lt
  have hrep := h.block _ hb
  have hspill : dir.spilled c.blockNo < 4096 := by
    rw [← hrep.spilled, blockOverflowCount, getBits]
    exact Nat.mod_lt _ (by decide)
  let ovf := cellDir + 28672
  let block := cellDir + 112 * c.blockNo
  have hroom := h.room
  have hlen := overRemove_length hover
  unfold Apart at hapart
  have hcount₀ : overflowCount s.mem ovf = dir.stack.length := h.count
  obtain ⟨s₁, hrun, hrec, hcount, hemits⟩ :=
    cellDirOverflowRemove_some hcount₀ h.stack hroom (by omega) hover
  have hframe₁ : ∀ {lo hi}, (hi ≤ ovf ∨ ovf + 4 ≤ lo) →
      (hi ≤ bufferTop - 36 * dir.stack.length ∨ bufferTop ≤ lo) → s.mem.Agree s₁.mem lo hi := by
    intro lo hi h₁ h₂
    refine hemits.agree fun e he => ?_
    rcases he with he | he
    · exact he.avoids h₁
    · exact he.avoids h₂
  have hspilled : blockOverflowCount s₁.mem block = dir.spilled c.blockNo := by
    rw [← hrep.spilled]
    exact blockOverflowCount_congr (hframe₁ (by omega) (by omega))
  -- the counter of the block, behind the removal of the record
  let s₂ := s₁.storeBits .dir (block + 108) 4 12 (dir.spilled c.blockNo - 1)
  have hframe₂ : ∀ {lo hi}, (hi ≤ block + 108 ∨ block + 112 ≤ lo) →
      s₁.mem.Agree s₂.mem lo hi := fun hd => Machine.storeBits_agree _ _ _ _ _ _ (by omega)
  refine ⟨s₂, ?_, ⟨?_, ?_, ?_, by dsimp only; omega⟩, ?_⟩
  · have hdec : cellDirBlockDecrementOverflow block s₁ =
        .ok (blockOverflowCount s₂.mem block) s₂ := by
      simp only [cellDirBlockDecrementOverflow, load_bind, hspilled]
      rw [always, check_bind_true _ (by simpa using hpos)]
      rfl
    rw [cellDirRemove, bind_ok (cellDirBlockRemove_none hrep hslots)]
    simp only [Bool.false_eq_true, if_false, cellDirBlockOverflowed, load_bind,
      hrep.spilled, hpos, decide_true, if_true]
    simp only [overflowPtr, blockPtr]
    rw [bind_ok hrun]
    simp only [if_true]
    rw [bind_ok hdec]
    rfl
  · have hmod : (dir.spilled c.blockNo - 1) % 4096 = dir.spilled c.blockNo - 1 :=
      Nat.mod_eq_of_lt (by omega)
    have hblocks := h.respill c.blockNo (dir.spilled c.blockNo - 1)
      fun hlo hhi => hframe₁ (by omega) (by omega)
    rwa [hmod] at hblocks
  · have hagree : s₁.mem.Agree s₂.mem ovf (ovf + 4) := hframe₂ (Or.inr (by omega))
    exact (overflowCount_congr hagree).trans hcount
  · show OverRep s₂.mem (bufferTop - 36 * stack.length) stack
    exact hrec.congr (hframe₂ (by omega))
  · refine (hemits.mono fun e he => ?_).trans
      ((Emits.storeBits_in s₁ (Nat.le_refl _) (Nat.le_refl _)).mono fun e he =>
        Or.inl (he.mono (by omega) (by omega)))
    rcases he with he | he
    · exact Or.inl (he.mono (by omega) (by omega))
    · exact Or.inr (Or.inr he)

/-- `cell_dir_remove` of a stored checksum is the removal of the index. -/
theorem cellDirRemove_some (h : DirRep s.mem cellDir bufferTop dir)
    (hapart : Apart cellDir bufferTop dir.stack.length) {c : Checksum} {dir' : Dir}
    (hremove : dir.remove c = some dir') :
    ∃ s', cellDirRemove cellDir bufferTop c s = .ok true s' ∧
      DirRep s'.mem cellDir bufferTop dir' ∧
      Emits (DirStore cellDir bufferTop bufferTop (bufferTop - 36 * dir.stack.length)) s s' := by
  rw [Dir.remove, Index.remove] at hremove
  split at hremove
  · next slots hslots =>
      rw [Option.some.injEq] at hremove
      subst hremove
      obtain ⟨s', hrun, hrep, hemits⟩ := cellDirRemove_slot h hapart hslots
      exact ⟨s', hrun, hrep, hemits.mono fun _ he => Or.inl he⟩
  · next hslots =>
      split at hremove
      · next hpos =>
          rw [Option.map_eq_some_iff] at hremove
          obtain ⟨stack, hover, rfl⟩ := hremove
          exact cellDirRemove_overflow h hapart hslots hpos hover
      · cases hremove

/-- Removing a checksum the index does not hold changes nothing. -/
theorem cellDirRemove_none (h : DirRep s.mem cellDir bufferTop dir) {c : Checksum}
    (hremove : dir.remove c = none) : cellDirRemove cellDir bufferTop c s = .ok false s := by
  have hrep := h.block _ c.blockNo_lt
  rw [Dir.remove, Index.remove] at hremove
  split at hremove
  · cases hremove
  · next hslots =>
      rw [cellDirRemove, bind_ok (cellDirBlockRemove_none hrep hslots)]
      simp only [Bool.false_eq_true, if_false, cellDirBlockOverflowed, load_bind, hrep.spilled]
      split at hremove
      · next hpos =>
          rw [Option.map_eq_none_iff] at hremove
          rw [if_pos (by simpa using hpos),
            bind_ok (cellDirOverflowRemove_none h.count h.stack hremove)]
          rfl
      · next hpos => rw [if_neg (by simpa using hpos), pure_run]

theorem cellDirOverflowGetLoop_run {ptr : Nat} {c : Checksum} {es : List CellDirEntry}
    (hrep : OverRep s.mem ptr es) :
    cellDirOverflowGetLoop c ptr es.length s = .ok (es.find? (·.checksum = c)) s := by
  induction es generalizing ptr with
  | nil => rfl
  | cons e es ih =>
      rw [List.length_cons, cellDirOverflowGetLoop, load_bind, hrep.1]
      by_cases hkey : e.checksum = c
      · rw [if_pos hkey, List.find?_cons_of_pos (by simpa using hkey)]
        rfl
      · rw [if_neg hkey, List.find?_cons_of_neg (by simpa using hkey)]
        exact ih hrep.2

/-- `cell_dir_get_chunk` finds what the index finds. -/
theorem cellDirGetChunk_run (h : DirRep s.mem cellDir bufferTop dir) (c : Checksum) :
    cellDirGetChunk cellDir bufferTop c s = .ok (dir.find c) s := by
  have hrep := h.block _ c.blockNo_lt
  rw [cellDirGetChunk, bind_ok (cellDirBlockGetChunk_run hrep), Dir.find, Index.find]
  cases hslots : slotsFind CellDirEntry.checksum c (dir.slots c.blockNo) with
  | some e => rfl
  | none =>
      simp only [cellDirBlockOverflowed, load_bind, hrep.spilled]
      by_cases hpos : 0 < dir.spilled c.blockNo
      · simp only [hpos, decide_true, if_true, cellDirOverflowGetChunk, load_bind, h.count,
          sizeofCellDirEntry]
        split
        · next hzero =>
            rw [List.eq_nil_of_length_eq_zero hzero]
            rfl
        · rw [Nat.mul_comm dir.stack.length 36]
          exact cellDirOverflowGetLoop_run h.stack
      · simp only [hpos, decide_false, Bool.false_eq_true, if_false, pure_run]

/-! ## A new directory -/

/-- Clearing the blocks one by one. -/
theorem cellDirInitLoop_spec (cellDir i n : Nat) (hi : i + n ≤ 256) (s : Store) :
    ∃ s', cellDirInitLoop cellDir i n s = .ok () s' ∧
      Emits (Event.ClearIn .dir cellDir (cellDir + 28676)) s s' := by
  induction n generalizing i s with
  | zero => exact ⟨s, rfl, Emits.refl _ s⟩
  | succ n ih =>
      obtain ⟨s', hrun, hemits⟩ := ih (i + 1) (by omega)
        (s.storeBytes .dir (blockPtr cellDir i) (List.replicate 112 0))
      refine ⟨s', ?_, (Emits.memset_in s ?_ ?_).trans hemits⟩
      · rw [cellDirInitLoop, cellDirBlockInit, memset_bind]
        exact hrun
      · simp only [blockPtr]
        omega
      · simp only [blockPtr]
        omega

theorem cellDirInit_spec (cellDir : Nat) (s : Store) :
    ∃ s', cellDirInit cellDir s = .ok () s' ∧ s'.mem.Zero cellDir (cellDir + 28676) ∧
      Emits (Event.ClearIn .dir cellDir (cellDir + 28676)) s s' := by
  obtain ⟨sa, hsa⟩ : ∃ sa, sa = s.storeBytes .dir cellDir (List.replicate 28676 0) := ⟨_, rfl⟩
  obtain ⟨sb, hblocks, hemitsb⟩ := cellDirInitLoop_spec cellDir 0 256 (Nat.le_refl _) sa
  obtain ⟨sc, hsc⟩ : ∃ sc, sc = sb.storeBytes .dir (overflowPtr cellDir) (List.replicate 4 0) :=
    ⟨_, rfl⟩
  have hzero : sa.mem.Zero cellDir (cellDir + 28676) := by
    rw [hsa, Machine.mem_storeBytes]
    exact Mem.write_zero _ _ _
  have hemitsa : Emits (Event.ClearIn .dir cellDir (cellDir + 28676)) s sa := by
    rw [hsa]
    exact Emits.memset_in s (Nat.le_refl _) (Nat.le_refl _)
  have hemitsc : Emits (Event.ClearIn .dir cellDir (cellDir + 28676)) sb sc := by
    rw [hsc]
    exact Emits.memset_in sb (by simp only [overflowPtr]; omega) (by simp only [overflowPtr]; omega)
  refine ⟨sc, ?_, ?_, (hemitsa.trans hemitsb).trans hemitsc⟩
  · rw [cellDirInit, memset_bind, sizeofCellDir, ← hsa, cellDirBlockCount, bind_ok hblocks,
      cellDirOverflowInit, memset_run, hsc]
  · exact (hemitsb.trans hemitsc).zero (fun e he => Or.inr ⟨_, _, _, he⟩) hzero

/-- An all-zero directory is that of the index with no entries. -/
theorem dirRep_zero {m : Mem} (bufferTop : Nat) (hz : m.Zero cellDir (cellDir + 28676)) :
    DirRep m cellDir bufferTop (Index.empty 3) := by
  have hslot : ∀ {ptr}, cellDir ≤ ptr → ptr + 36 ≤ cellDir + 28676 →
      (loadDirEntry m ptr).set = false := by
    intro ptr hlo hhi
    have hword : m.load32 (ptr + 32) = 0 := (hz.mono (by omega) (by omega)).load32
    simp only [loadDirEntry, hword]
    decide
  refine ⟨fun i hi => ⟨rfl, ?_, ?_, ?_⟩, ?_, trivial, Nat.zero_le _⟩
  · refine ⟨hslot ?_ ?_, hslot ?_ ?_, hslot ?_ ?_, trivial⟩ <;> simp only [blockPtr] <;> omega
  · rw [entryCount, (hz.mono (by simp only [blockPtr]; omega)
      (by simp only [blockPtr]; omega)).load32]
    rfl
  · rw [blockOverflowCount, (hz.mono (by simp only [blockPtr]; omega)
      (by simp only [blockPtr]; omega)).load32]
    rfl
  · rw [overflowCount, (hz.mono (by simp only [overflowPtr]; omega)
      (by simp only [overflowPtr]; omega)).load32]
    rfl

end Dir

end Theo
