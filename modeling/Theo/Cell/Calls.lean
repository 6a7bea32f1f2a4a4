import Theo.Cell.Reachable

set_option autoImplicit false

/-! # Sequences of calls on a cell

A caller sees the answers of the calls it makes, or that one of them aborted. The ring answers every
call on its own (`Ring.call`), and the cell answers like its ring (`Cell.call_refines`), so that
whatever is true of the answers is decided away from the bytes. -/

namespace Theo

open ByteMachine BucketIndex

/-- A call on a cell. -/
inductive Call where
  | addChunk (checksum : Checksum) (buffer : List UInt8)
  | hasChunk (checksum : Checksum)
  | getChunk (checksum : Checksum) (chunk : Chunk)
  | entryCount
  | byteCount

/-- What a call returns: its result, and for `cell_get_chunk` the chunk as it leaves it. -/
inductive Answer where
  | added (ret : Bool)
  | has (ret : Bool)
  | got (ret : Bool) (chunk : Chunk)
  | count (ret : Int)

/-- The buffers that are added have `lo` to `hi` bytes. -/
def Call.Sized (lo hi : Nat) : Call → Prop
  | .addChunk _ buffer => lo ≤ buffer.length ∧ buffer.length ≤ hi
  | _ => True

def Cell.call (cell : Cell) : Call → Act Answer
  | .addChunk checksum buffer => do pure (.added (← cellAddChunk cell checksum buffer))
  | .hasChunk checksum => do pure (.has (← cellHasChunk cell checksum))
  | .getChunk checksum chunk => do
      let got ← cellGetChunk cell checksum chunk
      pure (.got got.1 got.2)
  | .entryCount => do pure (.count (← cellEntryCount cell))
  | .byteCount => do pure (.count (← cellByteCount cell))

/-- Calls one after the other, and their answers. -/
def Cell.calls (cell : Cell) : List Call → Act (List Answer)
  | [] => pure []
  | call :: rest => do
      let answer ← cell.call call
      let answers ← cell.calls rest
      pure (answer :: answers)

/-! ## The calls on the ring -/

namespace Ring

/-- Insert a chunk that is not stored yet; `none` if the insertion aborts. -/
def insert (r : Ring) (c : Checksum) (buffer : List UInt8) : Option (Bool × Ring) :=
  match r.lookup c with
  | some _ => some (false, r)
  | none => (r.add (chunkOf c buffer)).map fun r' => (true, r')

def call (r : Ring) : Call → Option (Answer × Ring)
  | .addChunk c buffer => (r.insert c buffer).map fun out => (.added out.1, out.2)
  | .hasChunk c => some (.has (r.lookup c).isSome, r)
  | .getChunk c chunk =>
      let out := fetched c chunk (r.lookup c)
      some (.got out.1 out.2, r)
  | .entryCount => some (.count (liveCount r.entries), r)
  | .byteCount => some (.count (liveBytes r.entries), r)

def calls (r : Ring) : List Call → Option (List Answer × Ring)
  | [] => some ([], r)
  | call :: rest =>
      (r.call call).bind fun out => (out.2.calls rest).map fun outs => (out.1 :: outs.1, outs.2)

end Ring

namespace Ring

theorem empty_insert (c : Checksum) {buffer : List UInt8} (h : buffer.length ≤ 24576) :
    empty.insert c buffer = some (true, empty.push (chunkOf c buffer)) := by
  show (empty.add (chunkOf c buffer)).map _ = _
  rw [Ring.empty_add c h]
  rfl

end Ring

/-! ## Refinement -/

/-- Stores that stay inside the slab. -/
def Inside (slab : Nat) (e : Event Site) : Prop :=
  ∀ lo hi, hi ≤ slab ∨ slab + 1048576 ≤ lo → e.Avoids lo hi

section

variable {slab : Nat} {s s' : Store} {r : Ring}

theorem entered_inside (s : Store) : Emits (Inside slab) s (entered s slab) :=
  (Emits.store32_in s (Nat.le_refl _) (Nat.le_refl _) |>.mono fun _ he _ _ hd =>
    he.avoids (by omega)).trans (Emits.emit _ fun _ _ _ => trivial)

theorem left_inside (s : Store) : Emits (Inside slab) s (left s slab) :=
  ((Emits.emit s fun _ _ _ => trivial).trans
    ((Emits.store32_in (s.emit .barrier) (Nat.le_refl _) (Nat.le_refl _)).mono fun _ he _ _ hd =>
      he.avoids (by omega))).trans (Emits.emit _ fun _ _ _ => trivial)

theorem AddEvent.inside {visits : Nat → Prop} {top overflow : Nat} {ev : Event Site}
    (h : AddEvent slab visits top overflow ev) (htop : top + 36 * overflow ≤ 1019836) :
    Inside slab ev := fun _ _ hd => h.avoids htop (by omega)

/-- An insertion into the cell is that into its ring. -/
theorem cellAddChunk_refines (h : CellHolds chunkerLimits s.mem slab r) {c : Checksum}
    {buffer : List UInt8} (hlo : 2049 ≤ buffer.length) (hhi : buffer.length ≤ 24576) :
    (∃ s₁, r.insert c buffer = none ∧
      cellAddChunk (cellAt slab) c buffer s = .error .always s₁ ∧ Emits (Inside slab) s s₁) ∨
    ∃ added r' s', r.insert c buffer = some (added, r') ∧
      cellAddChunk (cellAt slab) c buffer s = .ok added s' ∧
      CellHolds chunkerLimits s'.mem slab r' ∧ Emits (Inside slab) s s' := by
  rw [Ring.insert]
  rcases chunker_cases h hlo hhi with ⟨hstored, hrun⟩ | ⟨hfresh, r', s₁, hadd, hrun, hholds, hemits⟩ |
      ⟨hfresh, hadd, s₁, hrun, hemits⟩
  · right
    obtain ⟨data, hdata⟩ := Option.ne_none_iff_exists'.1 hstored
    rw [hdata]
    exact ⟨false, r, s, rfl, hrun, h, Emits.refl _ s⟩
  · right
    rw [hfresh, hadd]
    refine ⟨true, r', _, rfl, hrun, hholds, ((entered_inside s).trans ?_).trans (left_inside s₁)⟩
    exact hemits.mono fun _ he => he.inside hholds.inv.room
  · left
    rw [hfresh, hadd]
    refine ⟨s₁, rfl, hrun, (entered_inside s).trans (hemits.mono fun _ he => he.inside ?_)⟩
    have hroom := h.inv.room
    omega

theorem int32_of_lt {n : Nat} (h : n < 2 ^ 31) : int32 n = n := by rw [int32, if_pos h]

theorem CellHolds.counts {l : Limits} {m : Mem} (h : CellHolds l m slab r) :
    cellHeaderEntryCount m (slab + 1019872) = liveCount r.entries ∧
      cellHeaderByteCount m (slab + 1019872) = liveBytes r.entries := by
  have hbytes := liveBytes_le_span r.entries
  have hroom := h.inv.room
  rw [Ring.top] at hroom
  simp only [cellHeaderEntryCount, cellHeaderByteCount, entryCountPtr, byteCountPtr]
  rw [h.rep.header.entries, h.rep.header.bytes]
  exact ⟨int32_of_lt (by omega), int32_of_lt (by omega)⟩

/-- The cell answers a call like its ring, and aborts where the ring has no answer. -/
theorem Cell.call_refines (h : CellHolds chunkerLimits s.mem slab r) {call : Call}
    (hsized : call.Sized 2049 24576) :
    (∃ s₁, r.call call = none ∧ (cellAt slab).call call s = .error .always s₁ ∧
      Emits (Inside slab) s s₁) ∨
    ∃ answer r' s', r.call call = some (answer, r') ∧
      (cellAt slab).call call s = .ok answer s' ∧ CellHolds chunkerLimits s'.mem slab r' ∧
      Emits (Inside slab) s s' := by
  cases call with
  | addChunk c buffer =>
      rcases cellAddChunk_refines h (c := c) hsized.1 hsized.2 with ⟨s₁, hnone, hrun, hemits⟩ |
          ⟨added, r', s', hsome, hrun, hholds, hemits⟩
      · exact Or.inl ⟨s₁, by rw [Ring.call, hnone]; rfl, bind_error hrun _, hemits⟩
      · exact Or.inr ⟨.added added, r', s', by rw [Ring.call, hsome]; rfl, bind_ok hrun _, hholds,
          hemits⟩
  | hasChunk c =>
      exact Or.inr ⟨_, r, s, rfl, bind_ok (cellHasChunk_run h c) _, h, Emits.refl _ s⟩
  | getChunk c chunk =>
      exact Or.inr ⟨_, r, s, rfl, bind_ok (cellGetChunk_run h c chunk) _, h, Emits.refl _ s⟩
  | entryCount =>
      refine Or.inr ⟨_, r, s, rfl, ?_, h, Emits.refl _ s⟩
      rw [← h.counts.1]
      rfl
  | byteCount =>
      refine Or.inr ⟨_, r, s, rfl, ?_, h, Emits.refl _ s⟩
      rw [← h.counts.2]
      rfl

theorem Cell.calls_refine {calls : List Call} (h : CellHolds chunkerLimits s.mem slab r)
    (hsized : ∀ call ∈ calls, call.Sized 2049 24576) :
    (∃ s₁, r.calls calls = none ∧ (cellAt slab).calls calls s = .error .always s₁ ∧
      Emits (Inside slab) s s₁) ∨
    ∃ answers r' s', r.calls calls = some (answers, r') ∧
      (cellAt slab).calls calls s = .ok answers s' ∧ CellHolds chunkerLimits s'.mem slab r' ∧
      Emits (Inside slab) s s' := by
  induction calls generalizing s r with
  | nil => exact Or.inr ⟨[], r, s, rfl, rfl, h, Emits.refl _ s⟩
  | cons call rest ih =>
      rw [Ring.calls, Cell.calls]
      rcases Cell.call_refines h (hsized call List.mem_cons_self) with ⟨s₁, hnone, hrun, hemits⟩ |
          ⟨answer, r₁, s₁, hsome, hrun, h₁, hemits⟩
      · exact Or.inl ⟨s₁, by rw [hnone]; rfl, bind_error hrun _, hemits⟩
      rw [hsome, Option.bind_some, bind_ok hrun]
      rcases ih h₁ fun call' hcall' => hsized call' (List.mem_cons_of_mem _ hcall') with
        ⟨s₂, hnone', hrun', hemits'⟩ | ⟨answers, r₂, s₂, hsome', hrun', h₂, hemits'⟩
      · exact Or.inl ⟨s₂, by rw [hnone']; rfl, bind_error hrun' _, hemits.trans hemits'⟩
      · exact Or.inr ⟨answer :: answers, r₂, s₂, by rw [hsome']; rfl, bind_ok hrun' _, h₂,
          hemits.trans hemits'⟩

end

end Theo
