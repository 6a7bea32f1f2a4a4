import Mathlib.Algebra.Ring.Nat
import Theo.Cell.Outcome
import Theo.Ring.Evict

set_option autoImplicit false

/-! # What an insertion evicts from a cell

An insertion at the top evicts nothing. Any other evicts the chunks of a run of entries, as short as
the insertion allows, and at most the one directly below the top besides. Every other chunk stays
where it is, with its bytes. -/

namespace Theo

open ByteMachine BucketIndex

/-- The length of a run of entries: their sizes, and a header for each after the first. -/
def runLength (m : Mem) (slab : Nat) (run : List Nat) : Nat :=
  (run.map fun offset => (entryBits m (slab + offset)).size + sizeofCellBodyEntry).sum -
    sizeofCellBodyEntry

/-- The offsets of the entries from `offset` up to the top. -/
def offsetsFrom (m : Mem) (slab offset : Nat) : List Nat :=
  (bodyOffsets m slab).filter (offset ≤ ·)

/-- The entries that an insertion of `size` bytes takes the place of: the one it overwrites if that
has the size, and otherwise the shortest run from there on that is long enough for the chunk and a
header, or all entries up to the top if no run is. -/
def OverwritesRun (m : Mem) (slab size : Nat) (run : List Nat) : Prop :=
  let p := overwriteOffset m slab
  if (entryBits m (slab + p)).size = size then run = [p]
  else
    run <+: offsetsFrom m slab p ∧
    (∀ shorter, shorter <+: run → shorter ≠ run →
      runLength m slab shorter < size + sizeofCellBodyEntry) ∧
    (runLength m slab run < size + sizeofCellBodyEntry → run = offsetsFrom m slab p)

/-- The gap between the top and the directory without the directory entries of the run. -/
def gapWithout (m : Mem) (slab : Nat) (run : List Nat) : Nat :=
  let p := overwriteOffset m slab
  let records := recordsOutside m slab p (p + (runLength m slab run + sizeofCellBodyEntry))
  cacheCellSize - (topEntryOffset m (cellBodyPtr (cellAt slab).cellHeader) + sizeofCellBodyEntry +
    sizeofCellHeader + records * sizeofCellDirEntry)

/-- The entry directly below the top, given up if it is not part of the run and the gap does not
hold a directory entry. -/
def sacrificed (m : Mem) (slab : Nat) (run : List Nat) : List Nat :=
  (bodyOffsets m slab).getLast?.toList.filter fun last =>
    last ∉ run ∧ gapWithout m slab run < sizeofCellDirEntry

/-- The chunk at `offset` is still there: in the same place, with its size and its bytes, and with
the same answers. -/
structure Kept (slab : Nat) (s s' : Store) (c : Checksum) (offset : Nat) : Prop where
  pair : (c, offset) ∈ bodyPairs s'.mem slab
  size : (entryBits s'.mem (slab + offset)).size = (entryBits s.mem (slab + offset)).size
  data : s'.mem.read (slab + offset + sizeofCellBodyEntry) (entryBits s.mem (slab + offset)).size =
    s.mem.read (slab + offset + sizeofCellBodyEntry) (entryBits s.mem (slab + offset)).size
  has : cellHasChunk (cellAt slab) c s' = .ok true s'
  get : ∀ chunk, ∃ out, cellGetChunk (cellAt slab) c chunk s = .ok out s ∧
    cellGetChunk (cellAt slab) c chunk s' = .ok out s'

/-! ## Offsets of a ring -/

theorem offsetsAt_take (a n : Nat) (es : List Entry) :
    (offsetsAt a es).take n = offsetsAt a (es.take n) := by
  induction es generalizing a n with
  | nil => rw [List.take_nil, offsetsAt, List.take_nil]
  | cons e es ih =>
      cases n with
      | zero => rfl
      | succ n => rw [offsetsAt, List.take_succ_cons, List.take_succ_cons, offsetsAt, ih]

/-- The offset of a chunk among those of the entries. -/
theorem liveAt_offset_mem {a : Nat} {es : List Entry} {y : CellDirEntry} (hy : y ∈ liveAt a es)
    (hlt : a + span es < 2 ^ 31) : y.offset ∈ offsetsAt a es := by
  obtain ⟨xs, e, ys, rfl, -, rfl⟩ := liveAt_mem_offset hy
  have hmod : (a + span xs) % 2 ^ 31 = a + span xs := by
    rw [span_append] at hlt
    exact Nat.mod_eq_of_lt (by omega)
  rw [offsetsAt_append, offsetsAt]
  simp only [cellDirEntrySet, hmod]
  exact List.mem_append_right _ List.mem_cons_self

section

variable {l : Limits} {slab : Nat} {s s' : Store} {r r' : Ring} {c : Checksum}
  {buffer : List UInt8} {e : Entry}

theorem CellRep.runLength {m : Mem} (h : CellRep m slab r) {xs es ys : List Entry}
    (hsplit : r.entries = xs ++ (es ++ ys)) :
    Theo.runLength m slab (offsetsAt (span xs) es) = span es - 36 := by
  have hbody := h.body
  rw [hsplit, seg_append, seg_append] at hbody
  have hseg := hbody.2.1
  have hsum : ∀ {a prev : Nat} {zs : List Entry}, Seg m (slab + a) prev zs →
      ((offsetsAt a zs).map fun offset => (entryBits m (slab + offset)).size + 36).sum = span zs := by
    intro a prev zs hzs
    induction zs generalizing a prev with
    | nil => rfl
    | cons z zs ih =>
        obtain ⟨hz, hzs⟩ := hzs
        rw [Nat.add_assoc] at hzs
        rw [offsetsAt, List.map_cons, List.sum_cons, ih hzs, hz.bits, span_cons, Entry.span]
  rw [Theo.runLength, sizeofCellBodyEntry, hsum hseg]

/-- The entries from the cut on. -/
theorem CellShaped.offsetsFrom (h : CellShaped l s.mem slab r) {xs ys : List Entry}
    (hsplit : r.entries = xs ++ ys) :
    Theo.offsetsFrom s.mem slab (span xs) = offsetsAt (span xs) ys := by
  have hroom := h.shape.room
  have hbelow : (offsetsAt 0 xs).filter (span xs ≤ ·) = [] := by
    rw [List.filter_eq_nil_iff]
    intro offset hoffset
    have := offsetsAt_ge hoffset
    simp only [decide_eq_true_eq]
    omega
  have habove : (offsetsAt (span xs) ys).filter (span xs ≤ ·) = offsetsAt (span xs) ys := by
    rw [List.filter_eq_self]
    intro offset hoffset
    exact decide_eq_true (offsetsAt_ge hoffset).1
  rw [Theo.offsetsFrom, h.rep.bodyOffsets (by omega), hsplit, offsetsAt_append, List.filter_append,
    hbelow, Nat.zero_add, habove, List.nil_append]

/-- The run that the ring takes is the one that the bytes name. -/
theorem CellShaped.overwritesRun (h : CellShaped l s.mem slab r) {size : Nat} {taken rest : List Entry}
    (habove : r.rewind.above = taken ++ rest) (htakes : Takes size r.rewind.above taken)
    (hne : r.rewind.above ≠ []) :
    OverwritesRun s.mem slab size (offsetsAt r.rewind.next taken) := by
  have hsplit : r.entries = r.rewind.below ++ (taken ++ rest) := by
    rw [← Ring.rewind_entries, Ring.entries, habove]
  have hfrom := h.offsetsFrom hsplit
  obtain ⟨x, es, hxes⟩ := List.exists_cons_of_ne_nil hne
  rw [OverwritesRun]
  simp only [h.overwritten hxes]
  rw [h.overwriteOffset, Ring.next, hfrom, sizeofCellBodyEntry]
  rw [hxes, Takes] at htakes
  split
  · next hsize =>
      rw [if_pos hsize] at htakes
      rw [htakes]
      rfl
  · next hsize =>
      rw [if_neg hsize] at htakes
      obtain ⟨hpre, hshortest, hall⟩ := htakes
      refine ⟨?_, ?_, ?_⟩
      · rw [offsetsAt_append]
        exact List.prefix_append _ _
      · intro shorter hshorter hother
        rw [List.prefix_iff_eq_take, offsetsAt_take] at hshorter
        have htake : taken.take shorter.length ++ (taken.drop shorter.length ++ rest) =
            taken ++ rest := by
          rw [← List.append_assoc, List.take_append_drop]
        have hlength := h.rep.runLength (hsplit.trans (congrArg (r.rewind.below ++ ·) htake.symm))
        rw [← hshorter] at hlength
        rw [hlength]
        refine hshortest _ (List.take_prefix _ _) fun heq => hother ?_
        rw [hshorter, heq]
      · intro hshort
        rw [h.rep.runLength hsplit] at hshort
        rw [← habove, hxes, ← hall hshort]

theorem CellHolds.gapWithout (h : CellHolds l s.mem slab r) {taken rest : List Entry}
    (habove : r.rewind.above = taken ++ rest) (hne : taken ≠ []) :
    Theo.gapWithout s.mem slab (offsetsAt r.rewind.next taken) =
      r.rewind.roomBeside (span taken) := by
  have hsplit : r.entries = r.rewind.below ++ (taken ++ rest) := by
    rw [← Ring.rewind_entries, Ring.entries, habove]
  have htops : r.rewind.top = r.top := by rw [Ring.top, Ring.rewind_entries, Ring.top]
  obtain ⟨x, es, rfl⟩ := List.exists_cons_of_ne_nil hne
  have hspan : span (x :: es) - 36 + 36 = span (x :: es) := by
    rw [span_cons, Entry.span]
    omega
  obtain ⟨htop, -⟩ := h.rep.apart
  rw [Theo.gapWithout, htop, h.shaped.overwriteOffset, Ring.next, h.rep.runLength hsplit,
    h.rep.recordsOutside, Ring.roomBeside,
    htops, Ring.rewind_dir, Ring.next]
  simp only [sizeofCellBodyEntry, sizeofCellHeader, sizeofCellDirEntry, cacheCellSize, hspan]
  omega

/-- The entry given up is the one that the bytes name. -/
theorem CellHolds.sacrificed (h : CellHolds l s.mem slab r) {taken rest gone new : List Entry}
    (hevicts : Ring.Evicts r.rewind e r' taken rest gone new) (hne : taken ≠ []) :
    Theo.sacrificed s.mem slab (offsetsAt r.rewind.next taken) =
      offsetsAt (r.rewind.next + span taken + span rest) gone := by
  have hroom := h.inv.room
  have hsplit : r.entries = r.rewind.below ++ taken ++ (rest ++ gone) := by
    rw [← Ring.rewind_entries, Ring.entries, hevicts.split, List.append_assoc]
  have hoffsets := h.rep.bodyOffsets (by omega)
  rw [hsplit, offsetsAt_append, Nat.zero_add, span_append, offsetsAt_append, Nat.zero_add] at hoffsets
  rw [Theo.sacrificed, h.gapWithout hevicts.split hne, hoffsets, sizeofCellDirEntry]
  have hout : ∀ offset ∈ offsetsAt (r.rewind.next + span taken) (rest ++ gone),
      offset ∉ offsetsAt r.rewind.next taken := by
    intro offset hoffset hin
    have h₁ := offsetsAt_ge hoffset
    have h₂ := offsetsAt_ge hin
    omega
  rw [Ring.next] at hout ⊢
  rcases hevicts.given with ⟨rfl, hnone⟩ | ⟨y, rfl, hfull⟩
  · rw [offsetsAt, List.filter_eq_nil_iff]
    intro last hlast hgiven
    rw [Option.mem_toList] at hlast
    simp only [decide_eq_true_eq] at hgiven
    rcases hnone with rfl | hgap
    · -- the run ends at the top, and holds the last entry
      have hsome : offsetsAt (span r.rewind.below) taken ≠ [] := by
        obtain ⟨x, es, rfl⟩ := List.exists_cons_of_ne_nil hne
        exact List.cons_ne_nil _ _
      rw [List.append_nil, offsetsAt, List.append_nil, List.getLast?_append_of_ne_nil _ hsome] at hlast
      exact hgiven.1 (List.mem_of_getLast? hlast)
    · omega
  · rw [offsetsAt_append, offsetsAt, offsetsAt, ← List.append_assoc, List.getLast?_concat,
      Option.toList_some, List.filter_singleton]
    have hlast : span r.rewind.below + span taken + span rest ∉
        offsetsAt (span r.rewind.below) taken := by
      refine hout _ ?_
      rw [offsetsAt_append]
      exact List.mem_append_right _ List.mem_cons_self
    rw [decide_eq_true ⟨hlast, hfull⟩]
    rfl

/-! ## Chunks that stay -/

/-- A chunk that lies at one offset in the ring before and after. -/
theorem CellHolds.kept (h : CellHolds l s.mem slab r) (h' : CellHolds l s'.mem slab r')
    {xs ys xs' ys' : List Entry} {y : Entry} (hsplit : r.entries = xs ++ y :: ys)
    (hsplit' : r'.entries = xs' ++ y :: ys') (hspan : span xs' = span xs) (hlive : y.free = false) :
    Kept slab s s' y.checksum (span xs) := by
  obtain ⟨hsize, -, hdata⟩ := h.chunk_at hsplit hlive
  obtain ⟨hsize', -, hdata'⟩ := h'.chunk_at hsplit' hlive
  rw [hspan] at hsize' hdata'
  have hroom := h'.inv.room
  have hfind : r.lookup y.checksum = some y.data :=
    h.inv.lookup_eq_some.2 ⟨y, by rw [hsplit]; simp, hlive, rfl, rfl⟩
  have hfind' : r'.lookup y.checksum = some y.data :=
    h'.inv.lookup_eq_some.2 ⟨y, by rw [hsplit']; simp, hlive, rfl, rfl⟩
  constructor
  · rw [h'.rep.bodyPairs (by omega), List.mem_map]
    have hmod : span xs' % 2 ^ 31 = span xs' := by
      rw [Ring.top, hsplit', span_append] at hroom
      exact Nat.mod_eq_of_lt (by omega)
    refine ⟨_, Ring.mem_liveAt_iff.2 ⟨xs', y, ys', hsplit', hlive, rfl⟩, ?_⟩
    simp only [cellDirEntrySet, hmod]
    rw [hspan]
  · rw [hsize, hsize']
  · rw [hsize, sizeofCellBodyEntry, hdata, hdata']
  · rw [cellHasChunk_run h', hfind']
    rfl
  · intro chunk
    exact ⟨_, cellGetChunk_run h _ chunk, by rw [cellGetChunk_run h', hfind', hfind]⟩

/-- A chunk of the body and its entry. -/
theorem CellHolds.pair_mem (h : CellHolds l s.mem slab r) {offset : Nat}
    (hpair : (c, offset) ∈ bodyPairs s.mem slab) :
    ∃ y ∈ liveAt 0 r.entries, y.checksum = c ∧ y.offset = offset := by
  have hroom := h.inv.room
  rw [h.rep.bodyPairs (by omega), List.mem_map] at hpair
  obtain ⟨y, hy, heq⟩ := hpair
  rw [Prod.mk.injEq] at heq
  exact ⟨y, hy, heq⟩

/-- A chunk of the part `es` of a ring, and where it lies. -/
theorem liveAt_split (xs : List Entry) {es : List Entry} (ys : List Entry) {y : CellDirEntry}
    (hy : y ∈ liveAt (span xs) es)
    (hlt : span xs + span es < 2 ^ 31) : ∃ pre z post, es = pre ++ z :: post ∧ z.free = false ∧
      z.checksum = y.checksum ∧ xs ++ (es ++ ys) = (xs ++ pre) ++ z :: (post ++ ys) ∧
      y.offset = span (xs ++ pre) := by
  obtain ⟨pre, z, post, rfl, hlive, rfl⟩ := liveAt_mem_offset hy
  refine ⟨pre, z, post, rfl, hlive, rfl, by simp only [List.append_assoc, List.cons_append], ?_⟩
  rw [span_append] at hlt
  rw [span_append]
  exact Nat.mod_eq_of_lt (by omega)

/-- At the top nothing is evicted. -/
theorem CellHolds.push_kept (h : CellHolds l s.mem slab r) (h' : CellHolds l s'.mem slab r')
    (habove : r.above = []) (hentries : r'.entries = r.below ++ [e]) {offset : Nat}
    (hpair : (c, offset) ∈ bodyPairs s.mem slab) : Kept slab s s' c offset := by
  have hroom := h.inv.room
  obtain ⟨y, hy, rfl, rfl⟩ := h.pair_mem hpair
  have hbelow : r.entries = r.below := by rw [Ring.entries, habove, List.append_nil]
  rw [Ring.top] at hroom
  obtain ⟨pre, z, post, hsplit, hlive, hc, -, hoffset⟩ :=
    liveAt_split [] [] hy (by rw [span_nil]; omega)
  rw [List.nil_append] at hoffset
  rw [← hc, hoffset]
  have hsplit' : r'.entries = pre ++ z :: (post ++ [e]) := by
    rw [hentries, ← hbelow, hsplit, List.append_assoc, List.cons_append]
  exact h.kept h' hsplit hsplit' rfl hlive

/-- Where the cut is: the chunks of the run and the one given up are gone, and the others stay where
they are. -/
theorem Ring.Evicts.chunk {taken rest gone new : List Entry} {y : CellDirEntry}
    (hevicts : Ring.Evicts r e r' taken rest gone new) (h : r.Inv l) (hfresh : r.Fresh e.checksum)
    (hy : y ∈ liveAt 0 r.entries) :
    ((y.offset ∈ offsetsAt r.next taken ∨
        y.offset ∈ offsetsAt (r.next + span taken + span rest) gone) ∧ r'.Fresh y.checksum) ∨
    (¬(y.offset ∈ offsetsAt r.next taken ∨
        y.offset ∈ offsetsAt (r.next + span taken + span rest) gone) ∧
      ∃ xs z ys xs' ys', r.entries = xs ++ z :: ys ∧ r'.entries = xs' ++ z :: ys' ∧
        span xs' = span xs ∧ z.free = false ∧ z.checksum = y.checksum ∧ y.offset = span xs) := by
  have hroom := h.room
  have hentries : r.entries = r.below ++ (taken ++ (rest ++ gone)) := by
    rw [Ring.entries, hevicts.split]
  rw [Ring.top, hentries, span_append, span_append, span_append] at hroom
  rw [hentries, liveAt_append, liveAt_append, liveAt_append, Nat.zero_add, List.mem_append,
    List.mem_append, List.mem_append] at hy
  rw [Ring.next]
  have hout : y.offset < span r.below ∨ span r.below + span taken ≤ y.offset ∧
      y.offset < span r.below + span taken + span rest →
      ¬(y.offset ∈ offsetsAt (span r.below) taken ∨
        y.offset ∈ offsetsAt (span r.below + span taken + span rest) gone) := by
    rintro hlt (hin | hin)
    · have := offsetsAt_ge hin
      omega
    · have := offsetsAt_ge hin
      omega
  -- below the run, in it, above it, or given up
  rcases hy with hy | hy | hy | hy
  · right
    have hoffset := liveAt_offset hy (by omega)
    refine ⟨hout (by omega), ?_⟩
    obtain ⟨pre, z, post, hbelow, hlive, hc, hsplit, hoffset'⟩ :=
      liveAt_split [] (taken ++ (rest ++ gone)) hy (by rw [span_nil]; omega)
    refine ⟨[] ++ pre, z, _, pre, post ++ (new ++ rest), hentries.trans hsplit, ?_, rfl, hlive, hc,
      hoffset'⟩
    rw [hevicts.entries, hbelow, List.append_assoc, List.cons_append]
  · left
    exact ⟨Or.inl (liveAt_offset_mem hy (by omega)), hevicts.fresh (b := 0) h hfresh
      (List.mem_map_of_mem (List.mem_append_left _ hy))⟩
  · right
    have hoffset := liveAt_offset hy (by omega)
    refine ⟨hout (by omega), ?_⟩
    rw [← span_append] at hy
    obtain ⟨pre, z, post, hrest, hlive, hc, hsplit, hoffset'⟩ :=
      liveAt_split _ gone hy (by rw [span_append]; omega)
    rw [← List.append_assoc] at hentries
    have haligned : span new = span taken := hevicts.aligned (by rw [hrest]; simp)
    refine ⟨_, z, _, r.below ++ new ++ pre, post, hentries.trans hsplit, ?_, ?_, hlive, hc, hoffset'⟩
    · rw [hevicts.entries, hrest]
      simp only [List.append_assoc]
    · simp only [span_append, haligned]
  · left
    exact ⟨Or.inr (liveAt_offset_mem hy (by omega)), hevicts.fresh (a := 0) h hfresh
      (List.mem_map_of_mem (List.mem_append_right _ hy))⟩

/-- Elsewhere it is the run, and the entry given up for the directory. -/
theorem CellHolds.evicted (h : CellHolds l s.mem slab r) (h' : CellHolds l s'.mem slab r')
    (hfresh : r.Fresh e.checksum) (hinv : r.rewind.Inv l) {taken rest gone new : List Entry}
    (hevicts : Ring.Evicts r.rewind e r' taken rest gone new) {offset : Nat}
    (hpair : (c, offset) ∈ bodyPairs s.mem slab) :
    ((offset ∈ offsetsAt r.rewind.next taken ∨
        offset ∈ offsetsAt (r.rewind.next + span taken + span rest) gone) →
      cellHasChunk (cellAt slab) c s' = .ok false s') ∧
    (¬(offset ∈ offsetsAt r.rewind.next taken ∨
        offset ∈ offsetsAt (r.rewind.next + span taken + span rest) gone) →
      Kept slab s s' c offset) := by
  obtain ⟨y, hy, rfl, rfl⟩ := h.pair_mem hpair
  have hfresh' : r.rewind.Fresh e.checksum := by rwa [Ring.Fresh, Ring.rewind_entries]
  rw [← Ring.rewind_entries] at hy
  rcases hevicts.chunk hinv hfresh' hy with ⟨hgone, hout⟩ |
      ⟨hkept, xs, z, ys, xs', ys', hsplit, hsplit', hspan, hlive, hc, hoffset⟩
  · refine ⟨fun _ => ?_, fun hno => absurd hgone hno⟩
    rw [cellHasChunk_run h', Ring.lookup_eq_none.2 hout]
    rfl
  · refine ⟨fun hin => absurd hin hkept, fun _ => ?_⟩
    rw [Ring.rewind_entries] at hsplit
    rw [← hc, hoffset]
    exact h.kept h' hsplit hsplit' hspan hlive

/-- What an insertion that returns true evicts. -/
theorem added_evicts (h : Reachable 2049 24576 slab s) (hlo : 2049 ≤ buffer.length)
    (hhi : buffer.length ≤ 24576) (hrun : cellAddChunk (cellAt slab) c buffer s = .ok true s') :
    (AddsAtTop s.mem slab buffer.length → ∀ c' offset, (c', offset) ∈ bodyPairs s.mem slab →
      Kept slab s s' c' offset) ∧
    (¬ AddsAtTop s.mem slab buffer.length → ∃ run, OverwritesRun s.mem slab buffer.length run ∧
      ∀ c' offset, (c', offset) ∈ bodyPairs s.mem slab →
        ((offset ∈ run ∨ offset ∈ sacrificed s.mem slab run) →
          cellHasChunk (cellAt slab) c' s' = .ok false s') ∧
        (¬(offset ∈ run ∨ offset ∈ sacrificed s.mem slab run) → Kept slab s s' c' offset)) := by
  obtain ⟨r, hr⟩ := h.holds
  have he := chunkOf_isChunk (l := chunkerLimits) c hlo hhi
  have htop : AddsAtTop s.mem slab buffer.length ↔ r.above = [] ∧ r.fits (chunkOf c buffer) :=
    hr.shaped.addsAtTop (chunkOf c buffer)
  rw [htop]
  obtain ⟨hfresh, r', hadd, hholds⟩ := cellAddChunk_added hr hlo hhi hrun
  refine ⟨fun hfits c' offset hpair => ?_, fun hno => ?_⟩
  · rw [Ring.add, if_pos hfits, Option.some.injEq] at hadd
    exact hr.push_kept hholds hfits.1 (by rw [← hadd, Ring.push_entries]) hpair
  · obtain ⟨taken, rest, gone, new, hevicts⟩ := hr.inv.add_evicts he hno hadd
    have hne := hr.inv.rewind_above_ne he.isBuffer hno
    have htaken := hevicts.takes.ne_nil
    refine ⟨_, hr.shaped.overwritesRun hevicts.split hevicts.takes hne, fun c' offset hpair => ?_⟩
    rw [hr.sacrificed hevicts htaken]
    exact hr.evicted hholds hfresh (hr.inv.rewind he hno) hevicts hpair

/-- An insertion that evicts the twelve chunks in front, and keeps the forty behind them. -/
theorem added_evicts_overwriting : ∃ s s' run, Reachable 2049 24576 0 s ∧
    (bodyPairs s.mem 0).length = 52 ∧
    cellAddChunk (cellAt 0) (.numbered 52 52) (someBytes 24576) s = .ok true s' ∧
    OverwritesRun s.mem 0 (someBytes 24576).length run ∧
    ∀ c offset, (c, offset) ∈ bodyPairs s.mem 0 →
      (offset < 25020 → (offset ∈ run ∨ offset ∈ sacrificed s.mem 0 run) ∧
        cellHasChunk (cellAt 0) c s' = .ok false s') ∧
      (25020 ≤ offset → ¬(offset ∈ run ∨ offset ∈ sacrificed s.mem 0 run) ∧ Kept 0 s s' c offset) := by
  obtain ⟨-, s, s₁, -, -, hs, hholds, hadd, hholds', -⟩ := overwrite_many
  obtain ⟨hlo, hhi⟩ := someBytes_largest
  have hno : ¬ AddsAtTop s.mem 0 (someBytes 24576).length := by
    have htop := hholds.shaped.addsAtTop (Entry.chunk (.numbered 52 52) 24576 (someBytes 24576))
    have hfull : ¬ ringWithOverflow.fits
        (Entry.chunk (.numbered 52 52) 24576 (someBytes 24576)) := by decide +kernel
    rw [someBytes_length]
    exact fun hat => hfull (htop.1 hat).2
  have hcount : (liveAt 0 ringWithOverflow.entries).length = 52 := by decide +kernel
  have hlookups : ∀ entry ∈ liveAt 0 ringWithOverflow.entries,
      (ringOverwritten.lookup entry.checksum).isSome = decide (25020 ≤ entry.offset) := by
    decide +kernel
  have hpairs := hholds.rep.bodyPairs (Nat.le_trans (Nat.le_add_right _ _) hholds.inv.room)
  obtain ⟨run, hrun, hevicts⟩ := (added_evicts hs hlo hhi hadd).2 hno
  refine ⟨s, _, run, hs, by rw [hpairs, List.length_map, hcount], hadd, hrun, ?_⟩
  intro c offset hpair
  obtain ⟨hgone, hkept⟩ := hevicts c offset hpair
  rw [hpairs] at hpair
  obtain ⟨entry, hentry, heq⟩ := List.mem_map.1 hpair
  obtain ⟨rfl, rfl⟩ := Prod.mk.inj heq
  have hanswer := cellHasChunk_run hholds' entry.checksum
  rw [hlookups entry hentry] at hanswer
  constructor
  · intro hlt
    rw [decide_eq_false (by omega)] at hanswer
    refine ⟨by_contra fun hout => ?_, hanswer⟩
    have hhas := (hkept hout).has
    rw [hanswer] at hhas
    cases hhas
  · intro hge
    rw [decide_eq_true hge] at hanswer
    have hout : ¬(entry.offset ∈ run ∨ entry.offset ∈ sacrificed s.mem 0 run) := fun hin => by
      have hhas := hgone hin
      rw [hanswer] at hhas
      cases hhas
    exact ⟨hout, hkept hout⟩

end

end Theo
