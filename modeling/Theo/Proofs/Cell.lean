import Theo.Proofs.BodyOffset
import Theo.Proofs.CellInit
import Theo.Ring.Lookup

set_option autoImplicit false

/-! # The operations on a cell

On a slab that holds the cell `r`, the look-ups answer what `r` holds, and an insertion is that of
`r`, between an entry code and an exit code that agree again once it is over. -/

namespace Theo

open ByteMachine BucketIndex

variable {l : Limits} {slab : Nat} {r r' : Ring} {s : Store} {c : Checksum} {e : Entry}

/-! ## Frames -/

/-- The bytes of the slab in front of the integrity codes and behind them are all that matters. -/
theorem CellRep.congr {m m' : Mem} (h : CellRep m slab r)
    (hroom : r.top + 36 * r.dir.stack.length ≤ 1019836)
    (hbody : m.Agree m' slab (slab + 1019884))
    (hdir : m.Agree m' (slab + 1019892) (slab + 1048576)) : CellRep m' slab r where
  body := h.body.congr (hbody.mono (Nat.le_refl _) (by rw [Ring.top] at hroom; omega))
  top := h.top.congr (hbody.mono (by omega) (by omega))
  topOffset := by
    rw [topEntryOffset, (hdir.mono (by omega) (by omega) : m.Agree m' _ _).load32]
    exact h.topOffset
  nextOffset := by
    rw [nextEntryOffset, (hdir.mono (by omega) (by omega) : m.Agree m' _ _).load32]
    exact h.nextOffset
  header := h.header.congr (hbody.mono (by omega) (by omega)) (hbody.mono (by omega) (by omega))
    (hdir.mono (by omega) (by omega))

theorem CellHolds.congr {m m' : Mem} (h : CellHolds l m slab r)
    (hm : m.Agree m' slab (slab + 1048576)) : CellHolds l m' slab r where
  rep := h.rep.congr h.inv.room (hm.mono (by omega) (by omega)) (hm.mono (by omega) (by omega))
  inv := h.inv
  magic := by rw [(hm.mono (by omega) (by omega)).load32, h.magic]
  codes := by rw [(hm.mono (by omega) (by omega)).load32, (hm.mono (by omega) (by omega)).load32,
    h.codes]

/-- What an insertion does to the body and the directory stays in the slab, and off the magic number
and the integrity codes. -/
theorem AddEvent.avoids {visits : Nat → Prop} {top overflow lo hi : Nat} {ev : Event Site}
    (h : AddEvent slab visits top overflow ev) (htop : top + 36 * overflow ≤ 1019836)
    (hd : hi ≤ slab ∨ slab + 1048576 ≤ lo ∨ slab + 1019872 ≤ lo ∧ hi ≤ slab + 1019876 ∨
      slab + 1019884 ≤ lo ∧ hi ≤ slab + 1019892) : ev.Avoids lo hi := by
  rcases h with h | h | h | ⟨t, o, -, rfl⟩ | ⟨ptr, -, rfl⟩
  · exact h.avoids (by omega)
  · exact h.avoids (by omega)
  · exact h.avoids (by omega)
  · trivial
  · trivial

/-! ## Look-ups -/

theorem cellDirGetChunk_dir (h : DirRep s.mem (slab + 1019872 + 28) (slab + 1019872) r.dir)
    (c : Checksum) : cellDirGetChunk (cellDirPtr (cellAt slab).cellHeader) (cellAt slab).bufferTop c s =
      .ok (r.dir.find c) s := by
  have htop : (cellAt slab).bufferTop = slab + 1019872 := by
    have hsize : 1048576 - sizeofCellHeader = 1019872 := by decide
    rw [Cell.bufferTop, cellAt, hsize]
  have hdir : cellDirPtr (cellAt slab).cellHeader = slab + 1019872 + 28 := by rw [cellDirPtr, cellAt]
  rw [htop, hdir]
  exact cellDirGetChunk_run h c

theorem cellDirGetChunk_at (h : CellShaped l s.mem slab r) (c : Checksum) :
    cellDirGetChunk (cellDirPtr (cellAt slab).cellHeader) (cellAt slab).bufferTop c s =
      .ok (r.dir.find c) s := cellDirGetChunk_dir h.rep.header.dir c

/-- A look-up for a chunk reads the directory and nothing else of the header. -/
theorem cellHasChunk_dir (h : DirRep s.mem (slab + 1019872 + 28) (slab + 1019872) r.dir)
    (hinv : r.Inv l) (c : Checksum) :
    cellHasChunk (cellAt slab) c s = .ok (r.lookup c).isSome s := by
  rw [cellHasChunk, bind_ok (cellDirGetChunk_dir h c), pure_run]
  rcases hinv.find_eq c with ⟨hfind, hlookup⟩ | ⟨xs, e, ys, -, -, -, hfind, hlookup⟩
  · rw [hfind, hlookup]
    rfl
  · rw [hfind, hlookup]
    rfl

theorem cellHasChunk_run (h : CellHolds l s.mem slab r) (c : Checksum) :
    cellHasChunk (cellAt slab) c s = .ok (r.lookup c).isSome s :=
  cellHasChunk_dir h.rep.header.dir h.inv c

/-- What `cell_get_chunk` answers where a look-up finds `found`. -/
def fetched (c : Checksum) (chunk : Chunk) : Option (List UInt8) → Bool × Chunk
  | none => (false, chunk)
  | some data => (true, ⟨c, data ++ chunk.buffer.drop data.length, data.length⟩)

/-- A stored chunk lies at its offset, with its length and its bytes. -/
theorem CellHolds.chunk_at {m : Mem} (h : CellHolds l m slab r) {xs ys : List Entry}
    (hsplit : r.entries = xs ++ e :: ys) (hlive : e.free = false) :
    (entryBits m (slab + span xs)).size = e.size ∧
      loadChecksum m (slab + span xs) = e.checksum ∧
      m.read (slab + span xs + 36) e.size = e.data := by
  have hbody := h.rep.body
  rw [hsplit, seg_append] at hbody
  obtain ⟨hc, hdata⟩ := hbody.2.1.chunk hlive
  exact ⟨by rw [hbody.2.1.bits], hc, hdata⟩

theorem cellGetChunk_run (h : CellHolds l s.mem slab r) (c : Checksum) (chunk : Chunk) :
    cellGetChunk (cellAt slab) c chunk s = .ok (fetched c chunk (r.lookup c)) s := by
  rw [cellGetChunk, bind_ok (cellDirGetChunk_at h.shaped c)]
  rcases h.inv.find_eq c with ⟨hfind, hlookup⟩ | ⟨xs, e, ys, hsplit, hlive, -, hfind, hlookup⟩
  · rw [hfind, hlookup]
    rfl
  · obtain ⟨hsize, -, hdata⟩ := h.chunk_at hsplit hlive
    have hchunk := (h.inv.valid e (by rw [hsplit]; simp)).isChunk hlive
    have hle := hchunk.size_le
    have hlen := hchunk.data_length
    have hroom := h.inv.room
    rw [Ring.top, hsplit, span_append] at hroom
    have hoffset : (cellDirEntrySet c (span xs)).offset = span xs := by
      simp only [cellDirEntrySet]
      omega
    rw [hfind, hlookup]
    simp only [hoffset, cellAt, sizeofCellBodyEntry]
    rw [load_bind, load_bind, hsize, hdata, chunkSet, always]
    simp only [fetched, cellDirEntrySet]
    rw [bind_assoc, check_bind_true _ (decide_eq_true (by rw [chunkMaxBufferSize]; omega))]
    simp only [pure_bind, hlen, Nat.mod_eq_of_lt (show e.size < 2 ^ 16 by omega), pure_run]

/-! ## Insertion -/

/-- The machine behind the entry code and its barrier. -/
abbrev entered (s : Store) (slab : Nat) : Store :=
  (s.store32 .integrity (slab + 1019884) (u32 (s.mem.load32 (slab + 1019884) + 1))).emit .barrier

/-- The machine behind the exit code and the barriers around it. -/
abbrev left (s : Store) (slab : Nat) : Store :=
  ((s.emit .barrier).store32 .integrity (slab + 1019888) (s.mem.load32 (slab + 1019884))).emit
    .barrier

theorem cellIcOnEntry_bind {α : Type} (k : Nat → Act α) (s : Store) :
    (cellIcOnEntry (slab + 1019884) >>= k) s =
      k ((entered s slab).mem.load32 (slab + 1019884)) (entered s slab) := rfl

theorem cellIcOnExit_bind {α : Type} (k : Nat → Act α) (s : Store) :
    (cellIcOnExit (slab + 1019884) >>= k) s =
      k ((left s slab).mem.load32 (slab + 1019888)) (left s slab) := by
  rw [cellIcOnExit, bind_assoc, emit_bind, bind_assoc, load_bind, bind_assoc, store32_bind,
    bind_assoc, emit_bind, load_bind]
  simp only [entryCode, exitCode, Machine.mem_emit_barrier, Nat.add_assoc, Nat.reduceAdd]

/-- Adding a chunk that is found changes nothing. -/
theorem cellAddChunk_found (h : CellShaped l s.mem slab r) (hfound : r.dir.find c ≠ none)
    (buffer : List UInt8) : cellAddChunk (cellAt slab) c buffer s = .ok false s := by
  obtain ⟨entry, hentry⟩ := Option.ne_none_iff_exists'.1 hfound
  rw [cellAddChunk, bind_ok (cellDirGetChunk_at h c), hentry]
  rfl

/-- Adding a chunk that is not found: the insertion into the body, between the two codes. -/
theorem cellAddChunk_missing (h : CellShaped l s.mem slab r) (hmissing : r.dir.find c = none)
    (buffer : List UInt8) : cellAddChunk (cellAt slab) c buffer s =
      (cellBodyAdd (slab + 1019892) (cellAt slab) c buffer >>= fun _ => do
        let _ ← cellIcOnExit (slab + 1019884)
        pure true) (entered s slab) := by
  rw [cellAddChunk, bind_ok (cellDirGetChunk_at h c), hmissing]
  simp only [cellAt, cellIcPtr, cellBodyPtr, Nat.add_assoc, Nat.reduceAdd]
  rw [cellIcOnEntry_bind]

theorem entered_agree (s : Store) {lo hi : Nat} (hd : hi ≤ slab + 1019884 ∨ slab + 1019888 ≤ lo) :
    s.mem.Agree (entered s slab).mem lo hi :=
  Machine.store32_agree s .integrity _ _ (by omega)

theorem left_agree (s : Store) {lo hi : Nat} (hd : hi ≤ slab + 1019888 ∨ slab + 1019892 ≤ lo) :
    s.mem.Agree (left s slab).mem lo hi :=
  Machine.store32_agree (s.emit .barrier) .integrity _ _ (by omega)

theorem CellShaped.entered_rep (h : CellShaped l s.mem slab r) :
    CellRep (entered s slab).mem slab r :=
  h.rep.congr h.shape.room (entered_agree s (by omega)) (entered_agree s (by omega))

/-- Behind the exit code, what the insertion into the body has left is the cell. -/
theorem CellShaped.inserted {s₁ : Store} (h : CellShaped l s.mem slab r) (hshape' : r'.Shape l)
    (hrep : CellRep s₁.mem slab r') {visits : Nat → Prop} {top overflow : Nat}
    (hemits : Emits (AddEvent slab visits top overflow) (entered s slab) s₁)
    (htop : top + 36 * overflow ≤ 1019836) : CellShaped l (left s₁ slab).mem slab r' := by
  have hmagic : (entered s slab).mem.Agree s₁.mem (slab + 1019872) (slab + 1019876) :=
    hemits.agree fun _ hev => hev.avoids htop (by omega)
  refine ⟨hrep.congr hshape'.room (left_agree s₁ (by omega)) (left_agree s₁ (by omega)), hshape',
    ?_, ?_⟩
  · rw [(left_agree s₁ (by omega)).load32, hmagic.load32, (entered_agree s (by omega)).load32,
      h.magic]
  · rw [(left_agree s₁ (by omega)).load32, Machine.mem_emit_barrier, Machine.load32_store32]
    exact (Nat.mod_eq_of_lt (Mem.load32_lt _ _)).symm

/-- The insertion succeeds if that of the ring does. -/
theorem cellAddChunk_ok (h : CellShaped l s.mem slab r) (he : e.IsChunk l)
    (hmissing : r.dir.find e.checksum = none)
    (hhole : ¬(r.above = [] ∧ r.fits e) → ∀ k, r.rewind.LeavesHole e k → k ≤ l.hole)
    (hadd : r.add e = some r') :
    ∃ s₁, cellAddChunk (cellAt slab) e.checksum e.data s = .ok true (left s₁ slab) ∧
      CellShaped l (left s₁ slab).mem slab r' ∧
      Emits (AddEvent slab (Boundary slab r) r'.top r'.dir.stack.length) (entered s slab) s₁ := by
  have hshape' := h.shape.add he hhole hadd
  have hroom := hshape'.room
  obtain ⟨s₁, hrun, hrep, hemits⟩ := cellBodyAdd_spec h.entered_rep h.shape he hhole hadd
  refine ⟨s₁, ?_, h.inserted hshape' hrep hemits hroom, hemits⟩
  rw [cellAddChunk_missing h hmissing, bind_ok hrun, cellIcOnExit_bind, pure_run]

/-- The insertion aborts if that of the ring does. -/
theorem cellAddChunk_abort (h : CellShaped l s.mem slab r) (he : e.IsChunk l)
    (hmissing : r.dir.find e.checksum = none) (hadd : r.add e = none) :
    ∃ s₁, cellAddChunk (cellAt slab) e.checksum e.data s = .error .always s₁ ∧
      Emits (AddEvent slab (Boundary slab r) r.top 0) (entered s slab) s₁ := by
  obtain ⟨s₁, hrun, hemits⟩ := cellBodyAdd_abort h.entered_rep h.shape he hmissing hadd
  exact ⟨s₁, by rw [cellAddChunk_missing h hmissing, bind_error hrun], hemits 0⟩

end Theo
