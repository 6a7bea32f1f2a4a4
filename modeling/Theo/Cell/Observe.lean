import Mathlib.Data.List.Induction
import Mathlib.Logic.Function.Iterate
import Theo.Cell.Reachable

set_option autoImplicit false

/-! # Reading a cell off its slab

The entries of the body in the order of a walk from offset 0, and the entries of the directory, as a
debugger would list them, without knowing how they came there. On a slab that holds a ring they are
the entries of the ring and those of its index. -/

namespace Theo

open ByteMachine BucketIndex

/-! ## The body -/

/-- The offset a walk over the body goes to from `offset`. -/
def bodyNext (m : Mem) (slab offset : Nat) : Nat :=
  offset + ((entryBits m (slab + offset)).size + sizeofCellBodyEntry)

/-- Where a walk over the body is after `k` steps. -/
def bodyOffset (m : Mem) (slab k : Nat) : Nat := (bodyNext m slab)^[k] 0

/-- The offsets a walk visits from `offset` on, up to the top, in at most `fuel` steps. -/
def bodyWalk (m : Mem) (slab : Nat) : Nat → Nat → List Nat
  | 0, _ => []
  | fuel + 1, offset =>
      if cellBodyEntryTop m (slab + offset) then []
      else offset :: bodyWalk m slab fuel (bodyNext m slab offset)

/-- The offsets of the entries in front of the top. -/
def bodyOffsets (m : Mem) (slab : Nat) : List Nat := bodyWalk m slab cacheCellSize 0

/-- The offsets at which a chunk lies, with its checksum. -/
def bodyPairs (m : Mem) (slab : Nat) : List (Checksum × Nat) :=
  ((bodyOffsets m slab).filter fun offset => !cellBodyEntryFree m (slab + offset)).map
    fun offset => (loadChecksum m (slab + offset), offset)

/-- The offsets at which `es` lie, the first at `a`. -/
def offsetsAt (a : Nat) : List Entry → List Nat
  | [] => []
  | e :: es => a :: offsetsAt (a + e.span) es

theorem offsetsAt_append (a : Nat) (xs ys : List Entry) :
    offsetsAt a (xs ++ ys) = offsetsAt a xs ++ offsetsAt (a + span xs) ys := by
  induction xs generalizing a with
  | nil => rfl
  | cons x xs ih => rw [List.cons_append, offsetsAt, offsetsAt, ih, span_cons, Nat.add_assoc,
      List.cons_append]

theorem offsetsAt_ge {a offset : Nat} {es : List Entry} (h : offset ∈ offsetsAt a es) :
    a ≤ offset ∧ offset < a + span es := by
  induction es generalizing a with
  | nil => simp [offsetsAt] at h
  | cons e es ih =>
      rw [span_cons, Entry.span]
      rcases List.mem_cons.1 h with rfl | h
      · omega
      · have := ih h
        rw [Entry.span] at this
        omega

section Body

variable {m : Mem} {slab : Nat} {r : Ring}

theorem EntryAt.bodyNext {a prev : Nat} {e : Entry} (h : EntryAt m (slab + a) prev e) :
    Theo.bodyNext m slab a = a + e.span := by
  rw [Theo.bodyNext, h.bits, Entry.span]
  rfl

theorem bodyWalk_seg {a prev fuel : Nat} {es : List Entry} (h : Seg m (slab + a) prev es)
    (htop : cellBodyEntryTop m (slab + (a + span es)) = true) (hfuel : es.length < fuel) :
    bodyWalk m slab fuel a = offsetsAt a es := by
  induction es generalizing a prev fuel with
  | nil =>
      obtain ⟨fuel, rfl⟩ := Nat.exists_eq_succ_of_ne_zero (Nat.ne_zero_of_lt hfuel)
      rw [span_nil, Nat.add_zero] at htop
      rw [bodyWalk, if_pos htop]
      rfl
  | cons e es ih =>
      obtain ⟨fuel, rfl⟩ := Nat.exists_eq_succ_of_ne_zero (Nat.ne_zero_of_lt hfuel)
      obtain ⟨hentry, hrest⟩ := h
      rw [bodyWalk, if_neg (by rw [hentry.top]; exact Bool.false_ne_true), hentry.bodyNext, offsetsAt]
      rw [Nat.add_assoc] at hrest
      rw [span_cons, ← Nat.add_assoc a] at htop
      rw [ih hrest htop (Nat.lt_of_succ_lt_succ hfuel)]

theorem length_le_span (es : List Entry) : 36 * es.length ≤ span es := by
  induction es with
  | nil => simp
  | cons e es ih =>
      rw [List.length_cons, span_cons, Entry.span]
      omega

/-- A walk visits the entries of the ring. -/
theorem CellRep.bodyOffsets (h : CellRep m slab r) (hroom : r.top ≤ 1019836) :
    Theo.bodyOffsets m slab = offsetsAt 0 r.entries := by
  have hlength := length_le_span r.entries
  have htop := h.top.top
  rw [Ring.top] at hroom htop
  rw [Theo.bodyOffsets]
  refine bodyWalk_seg h.body (by rwa [Nat.zero_add]) ?_
  rw [cacheCellSize]
  omega

theorem CellRep.bodyOffset (h : CellRep m slab r) {xs ys : List Entry}
    (hsplit : r.entries = xs ++ ys) : Theo.bodyOffset m slab xs.length = span xs := by
  induction xs using List.reverseRecOn generalizing ys with
  | nil => rfl
  | append_singleton xs x ih =>
      have hsplit' : r.entries = xs ++ (x :: ys) := by rw [hsplit, List.append_assoc]; rfl
      have hbody := h.body
      rw [hsplit', seg_append] at hbody
      rw [List.length_append, List.length_singleton, Theo.bodyOffset, Function.iterate_succ_apply',
        show (Theo.bodyNext m slab)^[xs.length] 0 = _ from ih hsplit', hbody.2.1.bodyNext,
        span_append, span_cons, span_nil, Nat.add_zero]

/-- The chunks of a segment, by offset. -/
theorem seg_pairs {a prev : Nat} {es : List Entry} (h : Seg m (slab + a) prev es)
    (hlt : a + span es < 2 ^ 31) :
    ((offsetsAt a es).filter fun offset => !cellBodyEntryFree m (slab + offset)).map
        (fun offset => (loadChecksum m (slab + offset), offset)) =
      (liveAt a es).map fun entry => (entry.checksum, entry.offset) := by
  induction es generalizing a prev with
  | nil => rfl
  | cons e es ih =>
      obtain ⟨hentry, hrest⟩ := h
      rw [Nat.add_assoc] at hrest
      rw [span_cons, ← Nat.add_assoc] at hlt
      rw [offsetsAt]
      by_cases hfree : e.free = true
      · rw [List.filter_cons_of_neg (by rw [hentry.free, hfree]; decide), liveAt_free hfree,
          ih hrest hlt]
      · rw [Bool.not_eq_true] at hfree
        have hmod : a % 2 ^ 31 = a := Nat.mod_eq_of_lt (by omega)
        rw [List.filter_cons_of_pos (by rw [hentry.free, hfree]; decide), liveAt_live hfree,
          List.map_cons, List.map_cons, ih hrest hlt, (hentry.chunk hfree).1]
        simp only [cellDirEntrySet, hmod]

/-- The chunks of the body are those of the ring. -/
theorem CellRep.bodyPairs (h : CellRep m slab r) (hroom : r.top ≤ 1019836) :
    Theo.bodyPairs m slab = (liveAt 0 r.entries).map fun entry => (entry.checksum, entry.offset) := by
  rw [Theo.bodyPairs, h.bodyOffsets hroom]
  refine seg_pairs h.body ?_
  rw [Ring.top] at hroom
  omega

end Body

/-! ## The directory -/

/-- The entries in the slots of a block. -/
def blockEntries (m : Mem) (block : Nat) : List CellDirEntry :=
  (List.range 3).filterMap fun k =>
    let entry := loadDirEntry m (block + sizeofCellDirEntry * k)
    if entry.set then some entry else none

/-- The entries below the header that the shared overflow counter counts. -/
def overflowRecords (m : Mem) (cellHeader : Nat) : List CellDirEntry :=
  (List.range (headerOverflowCount m cellHeader)).map fun k =>
    loadDirEntry m (cellHeader - sizeofCellDirEntry * (k + 1))

/-- The entries of the directory. -/
def dirEntries (m : Mem) (cellHeader : Nat) : List CellDirEntry :=
  (List.range cellDirBlockCount).flatMap
    (fun i => blockEntries m (blockPtr (cellDirPtr cellHeader) i)) ++ overflowRecords m cellHeader

section Directory

variable {m : Mem} {slab H n b : Nat} {dir : Dir}

theorem BlockRep.entries {ptr spilled : Nat} {slots : List (Option CellDirEntry)}
    (h : BlockRep m ptr slots spilled) : blockEntries m ptr = slots.filterMap id := by
  obtain ⟨hlength, hslots, -, -⟩ := h
  obtain ⟨x, y, z, rfl⟩ := List.length_eq_three.1 hlength
  obtain ⟨hx, hy, hz, -⟩ := hslots
  have hslot : ∀ {q} {slot : Option CellDirEntry}, SlotRep m q slot →
      (if (loadDirEntry m q).set then some (loadDirEntry m q) else none) = slot := by
    intro q slot hslot
    cases slot with
    | none => rw [if_neg (by rw [show (loadDirEntry m q).set = false from hslot]; decide)]
    | some e =>
        obtain ⟨hload, hset⟩ := hslot
        rw [hload, if_pos hset]
  simp only [Nat.add_assoc, Nat.reduceAdd] at hz
  have hread : (List.range 3).map (fun k =>
      if (loadDirEntry m (ptr + sizeofCellDirEntry * k)).set then
        some (loadDirEntry m (ptr + sizeofCellDirEntry * k)) else none) = [x, y, z] := by
    rw [show List.range 3 = [0, 1, 2] from rfl]
    simp only [sizeofCellDirEntry, List.map_cons, List.map_nil, Nat.mul_zero, Nat.add_zero,
      Nat.mul_one, hslot hx, hslot hy]
    exact congrArg (fun slot => [x, y, slot]) (hslot hz)
  rw [blockEntries, ← hread, List.filterMap_map]
  rfl

theorem OverRep.records {k : Nat} {xs : List CellDirEntry}
    (h : OverRep m (H - 36 * (k + xs.length)) xs) (hroom : 36 * (k + xs.length) ≤ H) :
    ((List.range' k xs.length).map fun i => loadDirEntry m (H - 36 * (i + 1))) = xs.reverse := by
  induction xs generalizing k with
  | nil => rfl
  | cons x xs ih =>
      rw [List.length_cons] at h hroom
      obtain ⟨hx, hxs⟩ := h
      have hptr : H - 36 * (k + (xs.length + 1)) + 36 = H - 36 * (k + xs.length) := by omega
      rw [hptr] at hxs
      rw [List.length_cons, List.range'_1_concat, List.map_append, ih hxs (by omega),
        List.reverse_cons, List.map_singleton, show k + xs.length + 1 = k + (xs.length + 1) from rfl,
        hx]

theorem HeaderRep.overflowRecords (h : HeaderRep m H n b dir) :
    Theo.overflowRecords m H = dir.stack.reverse := by
  have hover := h.dir.stack
  have hroom := h.dir.room
  rw [Theo.overflowRecords, headerOverflowCount_eq h, List.range_eq_range', sizeofCellDirEntry]
  exact OverRep.records (k := 0) (by rwa [Nat.zero_add]) (by rwa [Nat.zero_add])

/-- The directory holds the entries of the index. -/
theorem HeaderRep.dirEntries (h : HeaderRep m H n b dir) {L : List CellDirEntry}
    (hindex : dir.Holds L) : (Theo.dirEntries m H).Perm L := by
  have hblocks : (List.range cellDirBlockCount).flatMap
      (fun i => blockEntries m (blockPtr (cellDirPtr H) i)) =
        (List.range 256).flatMap fun i => (dir.slots i).filterMap id := by
    rw [cellDirBlockCount]
    refine List.flatMap_congr fun i hi => ?_
    exact (h.dir.block i (List.mem_range.1 hi)).entries
  rw [Theo.dirEntries, hblocks, h.overflowRecords]
  exact ((List.reverse_perm dir.stack).append_left _).trans
    (hindex.all_perm Checksum.blockNo_lt)

end Directory

end Theo
