import Theo.Proofs.Directory

set_option autoImplicit false

/-! # The directory as a finite map

Runs of `cell_dir_add` and `cell_dir_remove` on a directory that starts with `cell_dir_init`. The
directory is at `cellDir`, and the memory under `bufferTop` has room for `room` overflow records. As
long as an overflowing block holds fewer than 4095 overflow records and there are fewer than 65535 of
them, the directory is a finite map: look-ups and removals answer as the calls of the run say
(`cellDir_finite_map`). -/

namespace Theo

open ByteMachine BucketIndex

inductive DirCall where
  | add (entry : CellDirEntry)
  | remove (checksum : Checksum)

/-- The entry that the call leaves for `c`, if the one before it is `found`. -/
def DirCall.entryFor (c : Checksum) (found : Option CellDirEntry) : DirCall → Option CellDirEntry
  | .add e => if e.checksum = c then some e else found
  | .remove c' => if c' = c then none else found

/-- The entry last added for `c`, unless it has been removed since. -/
def lastEntry (calls : List DirCall) (c : Checksum) : Option CellDirEntry :=
  calls.foldl (DirCall.entryFor c) none

/-- The entry in slot `j` of the block at `block`. -/
def slotEntry (m : Mem) (block j : Nat) : CellDirEntry := loadDirEntry m (block + 36 * j)

/-- All overflow records, the newest first. -/
def overflowEntries (m : Mem) (cellDir bufferTop : Nat) : List CellDirEntry :=
  let n := overflowCount m (overflowPtr cellDir)
  (List.range n).map fun i => loadDirEntry m (bufferTop - 36 * n + 36 * i)

/-- An entry that finds no free slot in its block can become one more overflow record. -/
def OverflowFits (m : Mem) (cellDir bufferTop room : Nat) (e : CellDirEntry) : Prop :=
  (∀ j < 3, (slotEntry m (blockPtr cellDir e.checksum.blockNo) j).set = true) →
    (overflowEntries m cellDir bufferTop).countP
        (fun x => x.checksum.blockNo = e.checksum.blockNo) < 4095 ∧
      (overflowEntries m cellDir bufferTop).length < 65535 ∧
      (overflowEntries m cellDir bufferTop).length < room

/-- A run of calls on a new directory, with the largest number of overflow records so far. -/
inductive DirRun (cellDir bufferTop room : Nat) (s₀ : Store) : List DirCall → Nat → Store → Prop
  | init {s : Store} (run : cellDirInit cellDir s₀ = .ok () s) :
      DirRun cellDir bufferTop room s₀ [] 0 s
  | add {calls : List DirCall} {peak : Nat} {s s' : Store} {e : CellDirEntry}
      (past : DirRun cellDir bufferTop room s₀ calls peak s) (set : e.set = true)
      (new : lastEntry calls e.checksum = none) (fits : OverflowFits s.mem cellDir bufferTop room e)
      (run : cellDirAdd cellDir bufferTop e s = .ok () s') :
      DirRun cellDir bufferTop room s₀ (calls ++ [.add e])
        (max peak (overflowEntries s'.mem cellDir bufferTop).length) s'
  | remove {calls : List DirCall} {peak : Nat} {s s' : Store} {c : Checksum} {removed : Bool}
      (past : DirRun cellDir bufferTop room s₀ calls peak s)
      (run : cellDirRemove cellDir bufferTop c s = .ok removed s') :
      DirRun cellDir bufferTop room s₀ (calls ++ [.remove c])
        (max peak (overflowEntries s'.mem cellDir bufferTop).length) s'

/-- A store inside the structure, or into the highest `peak` records under `bufferTop`. -/
def InDirectory (cellDir bufferTop peak : Nat) (e : Event Site) : Prop :=
  ∃ site addr bytes, e = .store site addr bytes ∧
    (cellDir ≤ addr ∧ addr + bytes.length ≤ cellDir + 28676 ∨
      bufferTop - 36 * peak ≤ addr ∧ addr + bytes.length ≤ bufferTop)

@[simp]
theorem lastEntry_nil (c : Checksum) : lastEntry [] c = none := rfl

@[simp]
theorem lastEntry_append (calls : List DirCall) (call : DirCall) (c : Checksum) :
    lastEntry (calls ++ [call]) c = call.entryFor c (lastEntry calls c) := List.foldl_append

/-! ## Reading the representation back -/

section

variable {m : Mem} {ptr cellDir bufferTop : Nat} {dir : Dir}

theorem OverRep.entries {es : List CellDirEntry} (h : OverRep m ptr es) :
    (List.range es.length).map (fun i => loadDirEntry m (ptr + 36 * i)) = es := by
  induction es generalizing ptr with
  | nil => rfl
  | cons e es ih =>
      rw [List.length_cons, List.range_succ_eq_map, List.map_cons, List.map_map, Nat.mul_zero,
        Nat.add_zero, h.1, ← ih h.2]
      simp only [List.length_map, List.length_range, Function.comp_def, Nat.succ_eq_add_one,
        Nat.mul_add, Nat.mul_one, Nat.add_assoc, Nat.add_comm 36]

theorem DirRep.overflowEntries_eq (h : DirRep m cellDir bufferTop dir) :
    overflowEntries m cellDir bufferTop = dir.stack := by
  rw [overflowEntries, h.count]
  exact h.stack.entries

theorem SlotRep.set_iff {slot : Option CellDirEntry} (h : SlotRep m ptr slot) :
    (loadDirEntry m ptr).set = slot.isSome := by
  cases slot with
  | none => exact h
  | some e => rw [h.1, h.2, Option.isSome_some]

/-- The slots of a block without an empty one are all set. -/
theorem SlotsRep.full {slots : List (Option CellDirEntry)} (h : SlotsRep m ptr slots)
    (hfull : none ∉ slots) {j : Nat} (hj : j < slots.length) : (slotEntry m ptr j).set = true := by
  induction slots generalizing ptr j with
  | nil => cases hj
  | cons slot slots ih =>
      rw [List.mem_cons, not_or] at hfull
      cases j with
      | zero =>
          rw [slotEntry, Nat.mul_zero, Nat.add_zero, h.1.set_iff]
          exact Option.isSome_iff_ne_none.2 (Ne.symm hfull.1)
      | succ j =>
          rw [slotEntry, Nat.mul_add, Nat.mul_one, Nat.add_comm _ 36, ← Nat.add_assoc]
          exact ih h.2 hfull.2 (Nat.lt_of_succ_lt_succ hj)

theorem SlotsRep.set_count {slots : List (Option CellDirEntry)} (h : SlotsRep m ptr slots) :
    (List.range slots.length).countP (fun j => (slotEntry m ptr j).set) =
      (slots.filterMap id).length := by
  induction slots generalizing ptr with
  | nil => rfl
  | cons slot slots ih =>
      have htail : (List.range slots.length).countP
          ((fun j => (slotEntry m ptr j).set) ∘ Nat.succ) = (slots.filterMap id).length := by
        rw [← ih h.2]
        refine List.countP_congr fun j _ => ?_
        simp only [Function.comp_def, slotEntry, Nat.succ_eq_add_one, Nat.mul_add, Nat.mul_one,
          Nat.add_assoc, Nat.add_comm 36]
      have hhead : (slotEntry m ptr 0).set = slot.isSome := by
        rw [slotEntry, Nat.mul_zero, Nat.add_zero, h.1.set_iff]
      rw [List.length_cons, List.range_succ_eq_map, List.countP_cons, List.countP_map, htail, hhead]
      cases slot with
      | none => rfl
      | some e => rfl

end

/-! ## The invariant of a run -/

/-- The directory represents an index that holds the entries added and not removed since, and the
overflow area has stayed within the largest number of records. -/
structure DirInv (cellDir bufferTop room : Nat) (s₀ : Store) (calls : List DirCall) (peak : Nat)
    (s : Store) (dir : Dir) (L : List CellDirEntry) : Prop where
  rep : DirRep s.mem cellDir bufferTop dir
  holds : dir.Holds L
  map : ∀ c e, lastEntry calls c = some e ↔ e ∈ L ∧ e.checksum = c
  stack_le : dir.stack.length ≤ peak
  peak_le : peak ≤ room
  emits : Emits (InDirectory cellDir bufferTop peak) s₀ s

section

variable {cellDir bufferTop room peak : Nat} {s₀ s s' : Store} {calls : List DirCall} {dir : Dir}
  {L : List CellDirEntry}

theorem InDirectory.mono {peak' : Nat} {e : Event Site} (h : InDirectory cellDir bufferTop peak e)
    (hle : peak ≤ peak') : InDirectory cellDir bufferTop peak' e := by
  obtain ⟨site, addr, bytes, rfl, hdir | ⟨hlo, hhi⟩⟩ := h
  · exact ⟨site, addr, bytes, rfl, Or.inl hdir⟩
  · exact ⟨site, addr, bytes, rfl, Or.inr ⟨by omega, hhi⟩⟩

theorem DirStore.inDirectory {addLo removeLo : Nat} {e : Event Site}
    (h : DirStore cellDir bufferTop addLo removeLo e) (hadd : bufferTop - 36 * peak ≤ addLo)
    (hremove : bufferTop - 36 * peak ≤ removeLo) : InDirectory cellDir bufferTop peak e := by
  rcases h with ⟨addr, bytes, rfl, hlo, hhi⟩ | ⟨addr, bytes, rfl, hlo, hhi⟩ |
    ⟨addr, bytes, rfl, hlo, hhi⟩
  · exact ⟨_, addr, bytes, rfl, Or.inl ⟨hlo, hhi⟩⟩
  · exact ⟨_, addr, bytes, rfl, Or.inr ⟨by omega, hhi⟩⟩
  · exact ⟨_, addr, bytes, rfl, Or.inr ⟨by omega, hhi⟩⟩

namespace DirInv

theorem find_eq (h : DirInv cellDir bufferTop room s₀ calls peak s dir L) (c : Checksum) :
    dir.find c = lastEntry calls c := by
  apply Option.ext
  intro e
  rw [h.map]
  exact Index.find_eq_some h.holds

theorem new (h : DirInv cellDir bufferTop room s₀ calls peak s dir L) {c : Checksum}
    (hnew : lastEntry calls c = none) : c ∉ L.map CellDirEntry.checksum := by
  intro hmem
  obtain ⟨e, he, rfl⟩ := List.mem_map.1 hmem
  rw [(h.map e.checksum e).2 ⟨he, rfl⟩] at hnew
  cases hnew

theorem apart (hapart : Apart cellDir bufferTop room)
    (h : DirInv cellDir bufferTop room s₀ calls peak s dir L) :
    Apart cellDir bufferTop dir.stack.length := by
  have := h.stack_le
  have := h.peak_le
  unfold Apart at hapart ⊢
  omega

/-- A new directory holds nothing. -/
theorem init (cellDir bufferTop room : Nat) (s₀ : Store) : ∃ s, cellDirInit cellDir s₀ = .ok () s ∧
    DirInv cellDir bufferTop room s₀ [] 0 s (Index.empty 3) [] := by
  obtain ⟨s, hrun, hzero, hemits⟩ := cellDirInit_spec cellDir s₀
  refine ⟨s, hrun, dirRep_zero bufferTop hzero, Index.empty_holds 3, ?_, Nat.le_refl 0,
    Nat.zero_le room, hemits.mono fun e he => ?_⟩
  · intro c e
    simp
  · exact (show DirStore cellDir bufferTop bufferTop bufferTop e from
      Or.inl he.storeIn).inDirectory (by omega) (by omega)

/-- Where an entry fits, its block has a free slot or counts it exactly. -/
theorem accepts (h : DirInv cellDir bufferTop room s₀ calls peak s dir L) {e : CellDirEntry}
    (hfits : OverflowFits s.mem cellDir bufferTop room e) :
    none ∈ dir.slots e.checksum.blockNo ∨
      dir.spilled e.checksum.blockNo < 4095 ∧ dir.stack.length < 65535 ∧
        dir.stack.length < room := by
  by_cases hfree : none ∈ dir.slots e.checksum.blockNo
  · exact Or.inl hfree
  · right
    have hblock := h.rep.block _ e.checksum.blockNo_lt
    have hfull : ∀ j < 3, (slotEntry s.mem (blockPtr cellDir e.checksum.blockNo) j).set = true :=
      fun j hj => hblock.slot.full hfree (by rw [hblock.length]; exact hj)
    have hroom := hfits hfull
    rwa [h.rep.overflowEntries_eq, ← h.holds.spilled_eq] at hroom

/-- What one more call leaves behind: the records that the index has, and the stores so far. -/
theorem step (h : DirInv cellDir bufferTop room s₀ calls peak s dir L) {call : DirCall} {dir' : Dir}
    {L' : List CellDirEntry} (hrep : DirRep s'.mem cellDir bufferTop dir') (hholds : dir'.Holds L')
    (hmap : ∀ c e, call.entryFor c (lastEntry calls c) = some e ↔ e ∈ L' ∧ e.checksum = c)
    (hroom : dir'.stack.length ≤ room) {addLo removeLo : Nat}
    (hadd : bufferTop - 36 * max peak dir'.stack.length ≤ addLo)
    (hremove : bufferTop - 36 * max peak dir'.stack.length ≤ removeLo)
    (hemits : Emits (DirStore cellDir bufferTop addLo removeLo) s s') :
    DirInv cellDir bufferTop room s₀ (calls ++ [call])
      (max peak (overflowEntries s'.mem cellDir bufferTop).length) s' dir' L' := by
  rw [hrep.overflowEntries_eq]
  refine ⟨hrep, hholds, fun c e => ?_, Nat.le_max_right _ _, Nat.max_le.2 ⟨h.peak_le, hroom⟩, ?_⟩
  · rw [lastEntry_append]
    exact hmap c e
  · exact (h.emits.mono fun e he => he.mono (Nat.le_max_left _ _)).trans
      (hemits.mono fun e he => he.inDirectory hadd hremove)

theorem add (h : DirInv cellDir bufferTop room s₀ calls peak s dir L) (hroom : 36 * room ≤ bufferTop)
    (hapart : Apart cellDir bufferTop room) {e : CellDirEntry} (hset : e.set = true)
    (hnew : lastEntry calls e.checksum = none)
    (hfits : OverflowFits s.mem cellDir bufferTop room e) :
    ∃ s', cellDirAdd cellDir bufferTop e s = .ok () s' ∧
      DirInv cellDir bufferTop room s₀ (calls ++ [.add e])
        (max peak (overflowEntries s'.mem cellDir bufferTop).length) s' (dir.add e) (e :: L) := by
  have haccepts := h.accepts hfits
  have hmap : ∀ c x, (DirCall.add e).entryFor c (lastEntry calls c) = some x ↔
      x ∈ e :: L ∧ x.checksum = c := by
    intro c x
    rw [DirCall.entryFor, List.mem_cons]
    split
    · next hc =>
        subst hc
        constructor
        · intro hx
          exact ⟨Or.inl (Option.some.inj hx).symm, by rw [Option.some.inj hx]⟩
        · rintro ⟨rfl | hx, hkey⟩
          · rfl
          · rw [(h.map _ x).2 ⟨hx, hkey⟩] at hnew
            cases hnew
    · next hc =>
        rw [h.map]
        constructor
        · exact fun hx => ⟨Or.inr hx.1, hx.2⟩
        · rintro ⟨rfl | hx, hkey⟩
          · exact absurd hkey hc
          · exact ⟨hx, hkey⟩
  have hholds : (dir.add e).Holds (e :: L) := by
    refine Index.add_holds h.holds (h.new hnew) ?_
    rcases haccepts with hfree | ⟨hspilled, -⟩
    · exact Or.inl hfree
    · exact Or.inr hspilled
  have hstack := h.stack_le
  have hpeak := h.peak_le
  cases hadd : slotsAdd (dir.slots e.checksum.blockNo) e with
  | some slots' =>
      obtain ⟨s', hrun, hrep, hemits⟩ := cellDirAdd_slot h.rep hset (h.apart hapart) hadd
      have hsame : (dir.add e).stack = dir.stack := by
        simp only [Dir.add, Index.add, hadd]
      have hstores : Emits (DirStore cellDir bufferTop bufferTop bufferTop) s s' :=
        hemits.mono fun _ he => Or.inl he
      exact ⟨s', hrun, h.step hrep hholds hmap (by rw [hsame]; omega) (by omega) (by omega) hstores⟩
  | none =>
      obtain ⟨-, htotal, hless⟩ := haccepts.resolve_left (slotsAdd_none hadd)
      have hlen : (dir.add e).stack.length = dir.stack.length + 1 := by
        simp only [Dir.add, Index.add, hadd, List.length_cons]
      obtain ⟨s', hrun, hrep, hemits⟩ := cellDirAdd_overflow h.rep (by omega)
        (by unfold Apart at hapart ⊢; omega) htotal hadd
      exact ⟨s', hrun, h.step hrep hholds hmap (by omega) (by omega) (by omega) hemits⟩

theorem remove (h : DirInv cellDir bufferTop room s₀ calls peak s dir L)
    (hapart : Apart cellDir bufferTop room) (c : Checksum) : ∃ s' dir' L',
      cellDirRemove cellDir bufferTop c s = .ok (lastEntry calls c).isSome s' ∧
      DirInv cellDir bufferTop room s₀ (calls ++ [.remove c])
        (max peak (overflowEntries s'.mem cellDir bufferTop).length) s' dir' L' := by
  have hstack := h.stack_le
  have hpeak := h.peak_le
  cases hfound : lastEntry calls c with
  | some e =>
      obtain ⟨he, rfl⟩ := (h.map c e).1 hfound
      have hperm := List.perm_cons_erase he
      obtain ⟨dir', hremove, hholds⟩ := Index.remove_holds h.holds hperm
      obtain ⟨s', hrun, hrep, hemits⟩ := cellDirRemove_some h.rep (h.apart hapart) hremove
      have hfewer := (Index.remove_noFuller hremove).stack
      have hnodup : L.Nodup := h.holds.nodup.of_map _
      have hmap : ∀ c x, (DirCall.remove e.checksum).entryFor c (lastEntry calls c) = some x ↔
          x ∈ L.erase e ∧ x.checksum = c := by
        intro c x
        rw [DirCall.entryFor, hnodup.mem_erase_iff]
        split
        · next hc =>
            subst hc
            refine iff_of_false (fun hx => nomatch hx) ?_
            rintro ⟨⟨hne, hx⟩, hkey⟩
            exact hne (h.holds.key_inj hx he hkey)
        · next hc =>
            rw [h.map]
            constructor
            · rintro ⟨hx, rfl⟩
              exact ⟨⟨fun heq => hc (by rw [heq]), hx⟩, rfl⟩
            · exact fun hx => ⟨hx.1.2, hx.2⟩
      exact ⟨s', dir', L.erase e, hrun, h.step hrep hholds hmap (by omega) (by omega) (by omega)
        hemits⟩
  | none =>
      have hremove := Index.remove_eq_none h.holds (h.new hfound)
      have hmap : ∀ c' x, (DirCall.remove c).entryFor c' (lastEntry calls c') = some x ↔
          x ∈ L ∧ x.checksum = c' := by
        intro c' x
        rw [DirCall.entryFor, ← h.map]
        split
        · next hc =>
            subst hc
            rw [hfound]
        · exact Iff.rfl
      have hstores : Emits (DirStore cellDir bufferTop bufferTop bufferTop) s s := Emits.refl _ s
      exact ⟨s, dir, L, cellDirRemove_none h.rep hremove, h.step h.rep h.holds hmap (by omega)
        (by omega) (by omega) hstores⟩

theorem entryCount_eq (h : DirInv cellDir bufferTop room s₀ calls peak s dir L) {i : Nat}
    (hi : i < 256) : entryCount s.mem (blockPtr cellDir i) =
      (List.range 3).countP fun j => (slotEntry s.mem (blockPtr cellDir i) j).set := by
  have hblock := h.rep.block i hi
  have hcount := hblock.slot.set_count
  rw [hblock.length] at hcount
  rw [hblock.count, hcount]

end DirInv

/-- The invariant of every run. -/
theorem DirRun.inv (hroom : 36 * room ≤ bufferTop) (hapart : Apart cellDir bufferTop room)
    (h : DirRun cellDir bufferTop room s₀ calls peak s) :
    ∃ dir L, DirInv cellDir bufferTop room s₀ calls peak s dir L := by
  induction h with
  | init run =>
      obtain ⟨s', hrun, hinv⟩ := DirInv.init cellDir bufferTop room s₀
      rw [run, EStateM.Result.ok.injEq] at hrun
      obtain ⟨-, rfl⟩ := hrun
      exact ⟨_, _, hinv⟩
  | add past set new fits run ih =>
      obtain ⟨dir, L, hinv⟩ := ih
      obtain ⟨s', hrun, hinv'⟩ := hinv.add hroom hapart set new fits
      rw [run, EStateM.Result.ok.injEq] at hrun
      obtain ⟨-, rfl⟩ := hrun
      exact ⟨_, _, hinv'⟩
  | @remove _ _ _ _ c _ past run ih =>
      obtain ⟨dir, L, hinv⟩ := ih
      obtain ⟨s', dir', L', hrun, hinv'⟩ := hinv.remove hapart c
      rw [run, EStateM.Result.ok.injEq] at hrun
      obtain ⟨-, rfl⟩ := hrun
      exact ⟨_, _, hinv'⟩

/-- The directory is a finite map: in every state of a run, a look-up answers with the entry last
added and not removed since, a removal says whether there is one and removes it and nothing else, an
entry that fits can be added, the counters of the blocks are exact, and no more than the structure and
the records that were once in use has been stored to. -/
theorem cellDir_finite_map (hroom : 36 * room ≤ bufferTop) (hapart : Apart cellDir bufferTop room)
    (h : DirRun cellDir bufferTop room s₀ calls peak s) :
    (∀ c, cellDirGetChunk cellDir bufferTop c s = .ok (lastEntry calls c) s) ∧
    (∀ c, ∃ s', cellDirRemove cellDir bufferTop c s = .ok (lastEntry calls c).isSome s' ∧
      ∀ c', cellDirGetChunk cellDir bufferTop c' s' =
        .ok (if c' = c then none else lastEntry calls c') s') ∧
    (∀ e : CellDirEntry, e.set = true → lastEntry calls e.checksum = none →
      OverflowFits s.mem cellDir bufferTop room e →
        ∃ s', cellDirAdd cellDir bufferTop e s = .ok () s') ∧
    (∀ i < 256, entryCount s.mem (blockPtr cellDir i) =
      (List.range 3).countP fun j => (slotEntry s.mem (blockPtr cellDir i) j).set) ∧
    Emits (InDirectory cellDir bufferTop peak) s₀ s := by
  obtain ⟨dir, L, hinv⟩ := h.inv hroom hapart
  refine ⟨fun c => ?_, fun c => ?_, fun e hset hnew hfits => ?_, fun i hi => hinv.entryCount_eq hi,
    hinv.emits⟩
  · rw [cellDirGetChunk_run hinv.rep, hinv.find_eq]
  · obtain ⟨s', dir', L', hrun, hinv'⟩ := hinv.remove hapart c
    refine ⟨s', hrun, fun c' => ?_⟩
    rw [cellDirGetChunk_run hinv'.rep, hinv'.find_eq, lastEntry_append, DirCall.entryFor]
    simp only [eq_comm]
  · obtain ⟨s', hrun, -⟩ := hinv.add hroom hapart hset hnew hfits
    exact ⟨s', hrun⟩

/-- Where there is room for a record more, a run can go on with any new entry. -/
theorem DirRun.add_next (h : DirRun cellDir bufferTop room s₀ calls peak s)
    (hinv : DirInv cellDir bufferTop room s₀ calls peak s dir L) (hroom : 36 * room ≤ bufferTop)
    (hapart : Apart cellDir bufferTop room) (hless : dir.stack.length < min room 4095)
    {e : CellDirEntry} (hset : e.set = true) (hnew : lastEntry calls e.checksum = none) :
    ∃ peak' s', DirRun cellDir bufferTop room s₀ (calls ++ [.add e]) peak' s' ∧
      DirInv cellDir bufferTop room s₀ (calls ++ [.add e]) peak' s' (dir.add e) (e :: L) := by
  have hfits : OverflowFits s.mem cellDir bufferTop room e := fun _ => by
    have hcount : dir.stack.countP (fun x => x.checksum.blockNo = e.checksum.blockNo) ≤
        dir.stack.length := List.countP_le_length
    rw [hinv.rep.overflowEntries_eq]
    omega
  obtain ⟨s', hrun, hinv'⟩ := hinv.add hroom hapart hset hnew hfits
  exact ⟨_, s', h.add hset hnew hfits hrun, hinv'⟩

end

/-- A key of block 0. -/
def dirKey (b : UInt8) : Checksum := ⟨b :: List.replicate 31 0, rfl⟩

/-- Five entries in one block, two of them overflow records, of which one is removed, and then one from
a slot. -/
theorem cellDir_finite_map_removed : ∃ peak s s' s'',
    DirRun 180 180 5 ⟨fun _ => 0, []⟩ [.add (cellDirEntrySet (dirKey 1) 26),
      .add (cellDirEntrySet (dirKey 2) 52), .add (cellDirEntrySet (dirKey 3) 78),
      .add (cellDirEntrySet (dirKey 4) 104), .add (cellDirEntrySet (dirKey 5) 130)] peak s ∧
    (overflowEntries s.mem 180 180).map CellDirEntry.checksum = [dirKey 5, dirKey 4] ∧
    cellDirRemove 180 180 (dirKey 4) s = .ok true s' ∧
    cellDirRemove 180 180 (dirKey 2) s' = .ok true s'' ∧
    cellDirGetChunk 180 180 (dirKey 2) s'' = .ok none s'' ∧
    cellDirGetChunk 180 180 (dirKey 4) s'' = .ok none s'' ∧
    cellDirGetChunk 180 180 (dirKey 5) s'' = .ok (some (cellDirEntrySet (dirKey 5) 130)) s'' := by
  have hroom : 36 * 5 ≤ 180 := by decide
  have hapart : Apart 180 180 5 := Or.inl (by decide)
  obtain ⟨s₀, hinit, hinv₀⟩ := DirInv.init 180 180 5 ⟨fun _ => 0, []⟩
  obtain ⟨_, s₁, hrun₁, hinv₁⟩ := (DirRun.init hinit).add_next (e := cellDirEntrySet (dirKey 1) 26)
    hinv₀ hroom hapart (by decide) rfl rfl
  obtain ⟨_, s₂, hrun₂, hinv₂⟩ := hrun₁.add_next (e := cellDirEntrySet (dirKey 2) 52) hinv₁ hroom
    hapart (by decide) rfl rfl
  obtain ⟨_, s₃, hrun₃, hinv₃⟩ := hrun₂.add_next (e := cellDirEntrySet (dirKey 3) 78) hinv₂ hroom
    hapart (by decide) rfl rfl
  obtain ⟨_, s₄, hrun₄, hinv₄⟩ := hrun₃.add_next (e := cellDirEntrySet (dirKey 4) 104) hinv₃ hroom
    hapart (by decide) rfl rfl
  obtain ⟨_, s₅, hrun₅, hinv₅⟩ := hrun₄.add_next (e := cellDirEntrySet (dirKey 5) 130) hinv₄ hroom
    hapart (by decide) rfl rfl
  obtain ⟨-, hremove, -⟩ := cellDir_finite_map hroom hapart hrun₅
  obtain ⟨s₆, hfirst, -⟩ := hremove (dirKey 4)
  obtain ⟨-, hremove', -⟩ := cellDir_finite_map hroom hapart (hrun₅.remove hfirst)
  obtain ⟨s₇, hsecond, hget⟩ := hremove' (dirKey 2)
  refine ⟨_, s₅, s₆, s₇, hrun₅, ?_, hfirst, hsecond, hget _, hget _, hget _⟩
  rw [hinv₅.rep.overflowEntries_eq]
  rfl

end Theo
