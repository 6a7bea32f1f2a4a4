import Theo.Proofs.Cell

set_option autoImplicit false

/-! # Runs of a cell

`Reachable lo hi slab s`: the cell of `s` was made by `cell_init` on a zeroed slab and by insertions
of buffers of `lo` to `hi` bytes. What one insertion does is `cellAddChunk_cases`; with the sizes a
chunker emits neither the counters of a block nor the lengths in 15 bits can overflow, so that every
reachable cell holds a ring (`Reachable.holds`). -/

namespace Theo

open ByteMachine BucketIndex

/-- The cells reachable from `cell_init` on a zeroed slab by insertions of buffers of `lo` to `hi`
bytes that return. -/
inductive Reachable (lo hi slab : Nat) : Store → Prop
  | init {s s' : Store} (hz : s.mem.Zero slab (slab + cacheCellSize))
      (h : cellInit slab cacheCellSize s = .ok (cellAt slab) s') : Reachable lo hi slab s'
  | add {s s' : Store} {c : Checksum} {buffer : List UInt8} {added : Bool}
      (hs : Reachable lo hi slab s) (hlo : lo ≤ buffer.length) (hhi : buffer.length ≤ hi)
      (h : cellAddChunk (cellAt slab) c buffer s = .ok added s') : Reachable lo hi slab s'

/-- A chunk to be inserted. -/
def chunkOf (c : Checksum) (buffer : List UInt8) : Entry := Entry.chunk c buffer.length buffer

theorem chunkOf_isChunk {l : Limits} {buffer : List UInt8} (c : Checksum)
    (hmin : l.min ≤ buffer.length) (hmax : buffer.length ≤ l.max) : (chunkOf c buffer).IsChunk l :=
  ⟨rfl, hmin, hmax, rfl⟩

section

variable {l : Limits} {slab : Nat} {s s' : Store} {r r' : Ring} {c : Checksum}
  {buffer : List UInt8}

/-- What an insertion does: nothing if the chunk is found, and otherwise what the ring does. -/
theorem cellAddChunk_shaped (h : CellShaped l s.mem slab r) (hmin : l.min ≤ buffer.length)
    (hmax : buffer.length ≤ l.max)
    (hhole : ¬(r.above = [] ∧ r.fits (chunkOf c buffer)) →
      ∀ k, r.rewind.LeavesHole (chunkOf c buffer) k → k ≤ l.hole) :
    (r.dir.find c ≠ none ∧ cellAddChunk (cellAt slab) c buffer s = .ok false s) ∨
    (r.dir.find c = none ∧ ∃ r' s₁, r.add (chunkOf c buffer) = some r' ∧
      cellAddChunk (cellAt slab) c buffer s = .ok true (left s₁ slab) ∧
      CellShaped l (left s₁ slab).mem slab r' ∧
      Emits (AddEvent slab (Boundary slab r) r'.top r'.dir.stack.length) (entered s slab) s₁) ∨
    (r.dir.find c = none ∧ r.add (chunkOf c buffer) = none ∧
      ∃ s₁, cellAddChunk (cellAt slab) c buffer s = .error .always s₁ ∧
        Emits (AddEvent slab (Boundary slab r) r.top 0) (entered s slab) s₁) := by
  have he := chunkOf_isChunk c hmin hmax
  by_cases hfind : r.dir.find c = none
  · right
    cases hadd : r.add (chunkOf c buffer) with
    | some r' =>
        obtain ⟨s₁, hrun, hshaped, hemits⟩ := cellAddChunk_ok h he hfind hhole hadd
        exact Or.inl ⟨hfind, r', s₁, rfl, hrun, hshaped, hemits⟩
    | none =>
        obtain ⟨s₁, hrun, hemits⟩ := cellAddChunk_abort h he hfind hadd
        exact Or.inr ⟨hfind, rfl, s₁, hrun, hemits⟩
  · exact Or.inl ⟨hfind, cellAddChunk_found h hfind buffer⟩

/-- As long as the counters of the directory are exact, a chunk is found if it is stored. -/
theorem cellAddChunk_cases (h : CellHolds l s.mem slab r) (hmin : l.min ≤ buffer.length)
    (hmax : buffer.length ≤ l.max) (haccepts : r.dir.Accepts 4095 c.blockNo)
    (hhole : ¬(r.above = [] ∧ r.fits (chunkOf c buffer)) →
      ∀ k, r.rewind.LeavesHole (chunkOf c buffer) k → k ≤ l.hole) :
    (r.lookup c ≠ none ∧ cellAddChunk (cellAt slab) c buffer s = .ok false s) ∨
    (r.lookup c = none ∧ ∃ r' s₁, r.add (chunkOf c buffer) = some r' ∧
      cellAddChunk (cellAt slab) c buffer s = .ok true (left s₁ slab) ∧
      CellHolds l (left s₁ slab).mem slab r' ∧
      Emits (AddEvent slab (Boundary slab r) r'.top r'.dir.stack.length) (entered s slab) s₁) ∨
    (r.lookup c = none ∧ r.add (chunkOf c buffer) = none ∧
      ∃ s₁, cellAddChunk (cellAt slab) c buffer s = .error .always s₁ ∧
        Emits (AddEvent slab (Boundary slab r) r.top 0) (entered s slab) s₁) := by
  have he := chunkOf_isChunk c hmin hmax
  have hstep := cellAddChunk_shaped (c := c) h.shaped hmin hmax hhole
  rw [Ne, h.inv.find_eq_none] at hstep
  rcases hstep with hstored | ⟨hfresh, r', s₁, hadd, hrun, hshaped, hemits⟩ | habort
  · exact Or.inl hstored
  · have hinv' := h.inv.add he (Ring.lookup_eq_none.1 hfresh) haccepts hhole hadd
    exact Or.inr (Or.inl ⟨hfresh, r', s₁, hadd, hrun,
      ⟨hshaped.rep, hinv', hshaped.magic, hshaped.codes⟩, hemits⟩)
  · exact Or.inr (Or.inr habort)

/-- Chunks of 2049 bytes and more are too few for a block to run out of its counter. -/
theorem Ring.Inv.accepts (h : r.Inv l) (hmin : 2049 ≤ l.min) (b : Nat) : r.dir.Accepts 4095 b := by
  have hover := over_le r.entries [] (by simpa [liveCount] using h.count) h.valid (by simp)
  have hle := h.index.spilled_le b
  have hroom := h.room
  have hmul := Nat.mul_le_mul_right r.dir.stack.length (Nat.add_le_add_right hmin 36)
  rw [span_nil] at hover
  rw [Ring.top] at hroom
  exact Or.inr (by omega)

theorem Ring.Inv.add_chunk {e : Entry} (h : r.Inv chunkerLimits) (he : e.IsChunk chunkerLimits)
    (hfresh : r.Fresh e.checksum) (hadd : r.add e = some r') : r'.Inv chunkerLimits :=
  h.add he hfresh (h.accepts (by decide) _) (h.leavesHole_le he (by decide)) hadd

/-- An insertion of a chunk of the size a chunker emits. -/
theorem chunker_cases (h : CellHolds chunkerLimits s.mem slab r) (hlo : 2049 ≤ buffer.length)
    (hhi : buffer.length ≤ 24576) :
    (r.lookup c ≠ none ∧ cellAddChunk (cellAt slab) c buffer s = .ok false s) ∨
    (r.lookup c = none ∧ ∃ r' s₁, r.add (chunkOf c buffer) = some r' ∧
      cellAddChunk (cellAt slab) c buffer s = .ok true (left s₁ slab) ∧
      CellHolds chunkerLimits (left s₁ slab).mem slab r' ∧
      Emits (AddEvent slab (Boundary slab r) r'.top r'.dir.stack.length) (entered s slab) s₁) ∨
    (r.lookup c = none ∧ r.add (chunkOf c buffer) = none ∧
      ∃ s₁, cellAddChunk (cellAt slab) c buffer s = .error .always s₁ ∧
        Emits (AddEvent slab (Boundary slab r) r.top 0) (entered s slab) s₁) := by
  exact cellAddChunk_cases h hlo hhi (h.inv.accepts (by decide) _)
    (h.inv.leavesHole_le (chunkOf_isChunk c hlo hhi) (by decide))

/-- An insertion of a new chunk that does not abort on the ring. -/
theorem CellHolds.addNew (h : CellHolds chunkerLimits s.mem slab r) (hlo : 2049 ≤ buffer.length)
    (hhi : buffer.length ≤ 24576) (hfresh : r.lookup c = none)
    (hadd : r.add (chunkOf c buffer) = some r') :
    ∃ s₁, cellAddChunk (cellAt slab) c buffer s = .ok true (left s₁ slab) ∧
      CellHolds chunkerLimits (left s₁ slab).mem slab r' ∧
      Emits (AddEvent slab (Boundary slab r) r'.top r'.dir.stack.length) (entered s slab) s₁ := by
  rcases chunker_cases (c := c) h hlo hhi with
    ⟨hstored, -⟩ | ⟨-, r₁, s₁, hring, hrun, hholds, hemits⟩ | ⟨-, hring, -⟩
  · exact absurd hfresh hstored
  · rw [hadd, Option.some.injEq] at hring
    subst hring
    exact ⟨s₁, hrun, hholds, hemits⟩
  · rw [hadd] at hring
    cases hring

/-- An insertion that returns true is that of the ring. -/
theorem cellAddChunk_added (h : CellHolds chunkerLimits s.mem slab r) (hlo : 2049 ≤ buffer.length)
    (hhi : buffer.length ≤ 24576) (hrun : cellAddChunk (cellAt slab) c buffer s = .ok true s') :
    r.Fresh c ∧ ∃ r', r.add (chunkOf c buffer) = some r' ∧ CellHolds chunkerLimits s'.mem slab r' := by
  rcases chunker_cases h hlo hhi (c := c) with ⟨-, hfound⟩ |
      ⟨hlookup, r', s₁, hadd, hok, hholds, -⟩ | ⟨-, -, s₁, habort, -⟩
  · rw [hfound] at hrun
    cases hrun
  · rw [hok, EStateM.Result.ok.injEq] at hrun
    obtain ⟨-, rfl⟩ := hrun
    exact ⟨Ring.lookup_eq_none.1 hlookup, r', hadd, hholds⟩
  · rw [habort] at hrun
    cases hrun

theorem Reachable.holds (h : Reachable 2049 24576 slab s) :
    ∃ r, CellHolds chunkerLimits s.mem slab r := by
  induction h with
  | init hz h =>
      obtain ⟨s₁, hrun, -, -, -, hholds⟩ := cellInit_insane slab chunkerLimits (cellHeaderSane_zero hz)
      rw [hrun, EStateM.Result.ok.injEq] at h
      exact ⟨Ring.empty, h.2 ▸ hholds⟩
  | add _ hlo hhi h ih =>
      obtain ⟨r, hr⟩ := ih
      rcases chunker_cases hr hlo hhi with ⟨-, hrun⟩ | ⟨-, r', s₁, -, hrun, hholds, -⟩ |
          ⟨-, -, s₁, hrun, -⟩
      · rw [hrun, EStateM.Result.ok.injEq] at h
        exact ⟨r, h.2 ▸ hr⟩
      · rw [hrun, EStateM.Result.ok.injEq] at h
        exact ⟨r', h.2 ▸ hholds⟩
      · rw [hrun] at h
        cases h

end

/-! ## A cell with one chunk -/

/-- A machine whose memory is zeroed. -/
def zeroed : Store := ⟨fun _ => 0, []⟩

theorem zeroed_zero (lo hi : Nat) : zeroed.mem.Zero lo hi := fun _ _ _ => rfl

/-- The checksum whose bytes are all `b`. -/
def Checksum.fill (b : UInt8) : Checksum := ⟨List.replicate 32 b, List.length_replicate⟩

/-- A buffer of `n` bytes. -/
def someBytes (n : Nat) : List UInt8 := List.replicate n 7

@[simp]
theorem someBytes_length (n : Nat) : (someBytes n).length = n := List.length_replicate

theorem someBytes_sized : 2049 ≤ (someBytes 2049).length ∧ (someBytes 2049).length ≤ 24576 := by
  rw [someBytes_length]
  decide

theorem someBytes_largest : 2049 ≤ (someBytes 24576).length ∧ (someBytes 24576).length ≤ 24576 := by
  rw [someBytes_length]
  decide

theorem Ring.empty_fits {e : Entry} (h : e.size + 72 ≤ 1019836) : Ring.empty.fits e :=
  (Ring.fits_iff _ _).2 h

/-- The first chunk goes to the start. -/
theorem Ring.empty_add (c : Checksum) {buffer : List UInt8} (h : buffer.length ≤ 24576) :
    Ring.empty.add (chunkOf c buffer) = some (Ring.empty.push (chunkOf c buffer)) :=
  if_pos ⟨rfl, Ring.empty_fits (by
    show buffer.length + 72 ≤ 1019836
    omega)⟩

/-- The first insertion into a cell made of zeroes. -/
theorem insert_one : ∃ s s', cellInit 0 cacheCellSize zeroed = .ok (cellAt 0) s ∧
    Reachable 2049 24576 0 s ∧
    cellAddChunk (cellAt 0) (.fill 1) (someBytes 2049) s = .ok true s' ∧
    CellHolds chunkerLimits s'.mem 0 (Ring.empty.push (chunkOf (.fill 1) (someBytes 2049))) := by
  obtain ⟨s₁, hinit, -, -, -, hholds⟩ := cellInit_insane 0 chunkerLimits
    (cellHeaderSane_zero (zeroed_zero _ _))
  obtain ⟨s₂, hrun, hholds', -⟩ := hholds.addNew someBytes_sized.1 someBytes_sized.2 rfl
    (Ring.empty_add (.fill 1) someBytes_sized.2)
  exact ⟨_, _, hinit, .init (zeroed_zero _ _) hinit, hrun, hholds'⟩

/-- A cell that was made of zeroes and given one chunk. -/
theorem reachable_one : ∃ s, Reachable 2049 24576 0 s ∧
    CellHolds chunkerLimits s.mem 0 (Ring.empty.push (chunkOf (.fill 1) (someBytes 2049))) := by
  obtain ⟨s, s', -, hs, hrun, hholds⟩ := insert_one
  exact ⟨s', hs.add someBytes_sized.1 someBytes_sized.2 hrun, hholds⟩

end Theo
