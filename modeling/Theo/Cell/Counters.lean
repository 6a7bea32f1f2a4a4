import Theo.Cell.Eviction

set_option autoImplicit false

/-! # The overflow counters of the directory

Each block counts its overflow records in 12 bits. The counters are exact as long as no insertion
adds a record to a block that already has 4095 (`WrapsCounter`), which takes chunks smaller than a
chunker emits. -/

namespace Theo

open ByteMachine BucketIndex

/-- The counter of block `b`. -/
def overflowCounter (m : Mem) (slab b : Nat) : Nat :=
  blockOverflowCount m (blockPtr (cellDirPtr (cellAt slab).cellHeader) b)

/-- The counters say how many overflow records there are, of each block and in all, and a block with
a record is known to have one. -/
structure CountersExact (m : Mem) (slab : Nat) : Prop where
  block : ∀ b < cellDirBlockCount, overflowCounter m slab b =
    (overflowRecords m (cellAt slab).cellHeader).countP fun y => y.checksum.blockNo = b
  sum : ((List.range cellDirBlockCount).map (overflowCounter m slab)).sum =
    headerOverflowCount m (cellAt slab).cellHeader
  consulted : ∀ y ∈ overflowRecords m (cellAt slab).cellHeader,
    0 < overflowCounter m slab y.checksum.blockNo

/-- Without the entries at the offsets `gone`, the block of `c` has no empty slot and as many
overflow records as its counter can count. -/
def KeepsFull (m : Mem) (slab : Nat) (c : Checksum) (gone : List Nat) : Prop :=
  ((blockEntries m (blockPtr (cellDirPtr (cellAt slab).cellHeader) c.blockNo)).countP
    fun y => y.offset ∉ gone) = 3 ∧
  4095 ≤ (overflowRecords m (cellAt slab).cellHeader).countP
    fun y => y.checksum.blockNo = c.blockNo ∧ y.offset ∉ gone

/-- The insertion stores a chunk that is not there yet in a block which is still full once the
chunks are evicted that make room for it. -/
def WrapsCounter (m : Mem) (slab : Nat) (c : Checksum) (size : Nat) : Prop :=
  c ∉ (bodyPairs m slab).map Prod.fst ∧ ¬ LosesInsert m slab size ∧
    (AddsAtTop m slab size ∧ KeepsFull m slab c [] ∨
      ¬ AddsAtTop m slab size ∧ ∃ run, OverwritesRun m slab size run ∧
        KeepsFull m slab c (run ++ sacrificed m slab run))

section

variable {l : Limits} {slab : Nat} {s s' : Store} {r r' : Ring} {c : Checksum}
  {buffer : List UInt8} {e : Entry} {dir : Dir} {L : List CellDirEntry}

/-! ## Counters and the index -/

theorem countP_block_sum (xs : List CellDirEntry) :
    ((List.range 256).map fun b => xs.countP fun y => y.checksum.blockNo = b).sum = xs.length := by
  have hperm := Index.Holds.flatMap_filter_perm (fun y : CellDirEntry => y.checksum.blockNo) xs 256
  have hlength := hperm.length_eq
  have hall : (xs.filter fun y => y.checksum.blockNo < 256) = xs :=
    List.filter_eq_self.2 fun y _ => decide_eq_true y.checksum.blockNo_lt
  rw [hall, List.length_flatMap] at hlength
  rw [← hlength]
  simp only [List.countP_eq_length_filter]

theorem CellRep.overflowCounter {m : Mem} (h : CellRep m slab r) {b : Nat} (hb : b < 256) :
    Theo.overflowCounter m slab b = r.dir.spilled b := by
  rw [Theo.overflowCounter]
  exact (h.header.dir.block b hb).spilled

/-- A counter has 12 bits. -/
theorem CellRep.spilled_le {m : Mem} (h : CellRep m slab r) {b : Nat} (hb : b < 256) :
    r.dir.spilled b ≤ 4095 := by
  rw [← (h.header.dir.block b hb).spilled, blockOverflowCount, getBits]
  omega

theorem CellRep.records {m : Mem} (h : CellRep m slab r) :
    Theo.overflowRecords m (cellAt slab).cellHeader = r.dir.stack.reverse :=
  h.header.overflowRecords

/-- The counters on the slab are exact where those of the index are. -/
theorem CellRep.countersExact_iff {m : Mem} (h : CellRep m slab r) : CountersExact m slab ↔
    ∀ b < 256, r.dir.spilled b = r.dir.stack.countP fun y => y.checksum.blockNo = b := by
  have hcount : headerOverflowCount m (cellAt slab).cellHeader = r.dir.stack.length :=
    headerOverflowCount_eq h.header
  constructor
  · intro hexact b hb
    have hblock := hexact.block b hb
    rwa [h.overflowCounter hb, h.records, List.countP_reverse] at hblock
  · intro hexact
    constructor
    · intro b hb
      rw [h.overflowCounter hb, h.records, List.countP_reverse]
      exact hexact b hb
    · rw [hcount, ← countP_block_sum]
      congr 1
      refine List.map_congr_left fun b hb => ?_
      rw [h.overflowCounter (List.mem_range.1 hb), hexact b (List.mem_range.1 hb)]
    · intro y hy
      rw [h.records, List.mem_reverse] at hy
      rw [h.overflowCounter y.checksum.blockNo_lt, hexact _ y.checksum.blockNo_lt, List.countP_pos_iff]
      exact ⟨y, hy, decide_eq_true rfl⟩

/-- What an insertion finds when it adds to the index is what the slab shows. -/
theorem CellHolds.keepsFull (h : CellHolds l s.mem slab r) (hdir : dir.Holds L)
    (hle : Index.NoFuller dir r.dir) {gone : List Nat}
    (hgone : ∀ y ∈ liveAt 0 r.entries,
      y.checksum ∈ L.map CellDirEntry.checksum ↔ y.offset ∉ gone) :
    KeepsFull s.mem slab c gone ↔ ¬ dir.Accepts 4095 c.blockNo := by
  obtain ⟨hstack, hslots⟩ := hle.restrict h.inv.index hdir
  have hblock := h.rep.header.dir.block _ c.blockNo_lt
  have hentries : blockEntries s.mem (blockPtr (cellDirPtr (cellAt slab).cellHeader) c.blockNo) =
      (r.dir.slots c.blockNo).filterMap id := hblock.entries
  have hlength : (dir.slots c.blockNo).length = 3 := (hle.slots_length _).trans hblock.length
  have hslot : ((r.dir.slots c.blockNo).filterMap id).countP (fun y => y.offset ∉ gone) =
      ((dir.slots c.blockNo).filterMap id).length := by
    rw [(hslots _).length_eq, ← List.countP_eq_length_filter]
    refine List.countP_congr fun y hy => ?_
    rw [decide_eq_true_eq, decide_eq_true_eq, hgone y (h.inv.index.mem_of_slot hy)]
  have hspilled : (r.dir.stack.countP fun y => y.checksum.blockNo = c.blockNo ∧ y.offset ∉ gone) =
      dir.spilled c.blockNo := by
    rw [hdir.spilled_eq, hstack.countP_eq, List.countP_filter]
    refine List.countP_congr fun y hy => ?_
    rw [Bool.and_eq_true, decide_eq_true_eq, decide_eq_true_eq, decide_eq_true_eq,
      hgone y (h.inv.index.mem_of_over hy)]
  have hfull := List.length_filterMap_le id (dir.slots c.blockNo)
  rw [KeepsFull, hentries, h.rep.records, List.countP_reverse, hslot, hspilled, Index.Accepts,
    Index.none_mem_iff, hlength]
  omega

theorem CellHolds.countersExact (h : CellHolds l s.mem slab r) : CountersExact s.mem slab := by
  rw [h.rep.countersExact_iff]
  intro b _
  exact h.inv.index.spilled_eq b

/-! ## One insertion -/

/-- There is one run that an insertion overwrites. -/
theorem OverwritesRun.unique {m : Mem} {size : Nat} {run run' : List Nat}
    (h : OverwritesRun m slab size run) (h' : OverwritesRun m slab size run') : run = run' := by
  have hle : ∀ {xs ys : List Nat}, xs <+: ys → ys <+: offsetsFrom m slab (overwriteOffset m slab) →
      (xs ≠ ys → runLength m slab xs < size + sizeofCellBodyEntry) →
      (runLength m slab xs < size + sizeofCellBodyEntry →
        xs = offsetsFrom m slab (overwriteOffset m slab)) → xs = ys := by
    intro xs ys hpre hys hshort hall
    by_contra hne
    rw [← hall (hshort hne)] at hys
    exact hne (hpre.eq_of_length_le hys.length_le)
  rw [OverwritesRun] at h h'
  split at h
  · next hsize =>
      rw [if_pos hsize] at h'
      rw [h, h']
  · next hsize =>
      rw [if_neg hsize] at h'
      obtain ⟨hpre, hshortest, hall⟩ := h
      obtain ⟨hpre', hshortest', hall'⟩ := h'
      rcases List.prefix_or_prefix_of_prefix hpre hpre' with hxs | hxs
      · exact hle hxs hpre' (hshortest' _ hxs) hall
      · exact (hle hxs hpre (hshortest _ hxs) hall').symm

/-- The chunks that are in the index without those that the insertion evicts. -/
theorem kept_iff_not_fresh {p : CellDirEntry} (hfresh : r.Fresh e.checksum)
    (hp : p.checksum = e.checksum) (hperm : (liveAt 0 r'.entries).Perm (p :: L)) {y : CellDirEntry}
    (hy : y ∈ liveAt 0 r.entries) :
    y.checksum ∈ L.map CellDirEntry.checksum ↔ ¬ r'.Fresh y.checksum := by
  have hne : y.checksum ≠ p.checksum := by
    rintro heq
    rw [hp] at heq
    exact hfresh (heq ▸ List.mem_map_of_mem hy)
  rw [Ring.Fresh, Classical.not_not, (hperm.map CellDirEntry.checksum).mem_iff, List.map_cons,
    List.mem_cons, or_iff_right hne]

/-- A counter that wraps is that of a block which accepts no entry any more. -/
theorem CellHolds.wrapsCounter (h : CellHolds l s.mem slab r) (he : e.IsChunk l)
    (hfresh : r.Fresh e.checksum) (hadd : r.add e = some r') {p : CellDirEntry}
    (hdir : dir.Holds L) (hle : Index.NoFuller dir r.dir) (hp : p.checksum = e.checksum)
    (hperm : (liveAt 0 r'.entries).Perm (p :: L)) :
    WrapsCounter s.mem slab e.checksum e.size ↔ ¬ dir.Accepts 4095 e.checksum.blockNo := by
  have hloses : ¬ LosesInsert s.mem slab e.size := by
    rw [h.losesInsert he, ← h.inv.add_fresh he hfresh hadd, Ring.Fresh, Classical.not_not,
      (hperm.map CellDirEntry.checksum).mem_iff, List.map_cons, hp]
    exact List.mem_cons_self
  have hkeys : e.checksum ∉ (bodyPairs s.mem slab).map Prod.fst := by
    rw [h.keys, Classical.not_not]
    exact Ring.lookup_eq_none.2 hfresh
  rw [WrapsCounter, and_iff_right hkeys, and_iff_right hloses]
  by_cases htop : AddsAtTop s.mem slab e.size
  · -- at the top nothing is evicted
    have hfits := (h.shaped.addsAtTop e).1 htop
    rw [Ring.add, if_pos hfits, Option.some.injEq] at hadd
    have hkeep : KeepsFull s.mem slab e.checksum [] ↔ ¬ dir.Accepts 4095 e.checksum.blockNo := by
      refine h.keepsFull hdir hle fun y hy => ?_
      rw [kept_iff_not_fresh hfresh hp hperm hy]
      refine iff_of_true ?_ List.not_mem_nil
      obtain ⟨xs, x, ys, hsplit, hlive, rfl⟩ := Ring.mem_liveAt_iff.1 hy
      refine Ring.not_fresh_of_mem (e := x) ?_ hlive
      rw [← hadd, Ring.push_entries]
      rw [Ring.entries, hfits.1, List.append_nil] at hsplit
      rw [hsplit]
      simp
    rw [hkeep]
    simp only [htop, true_and, not_true, false_and, or_false]
  · have hno : ¬(r.above = [] ∧ r.fits e) := fun hh => htop ((h.shaped.addsAtTop e).2 hh)
    -- the run that is overwritten is evicted, and what is given up for the record
    obtain ⟨taken, rest, gone, new, hevicts⟩ := h.inv.add_evicts he hno hadd
    have htaken := hevicts.takes.ne_nil
    have hrun := h.shaped.overwritesRun hevicts.split hevicts.takes (h.inv.rewind_above_ne he.isBuffer hno)
    have hfresh' : r.rewind.Fresh e.checksum := by rwa [Ring.Fresh, Ring.rewind_entries]
    have hkeep : KeepsFull s.mem slab e.checksum (offsetsAt r.rewind.next taken ++
        Theo.sacrificed s.mem slab (offsetsAt r.rewind.next taken)) ↔
          ¬ dir.Accepts 4095 e.checksum.blockNo := by
      refine h.keepsFull hdir hle fun y hy => ?_
      rw [kept_iff_not_fresh hfresh hp hperm hy, h.sacrificed hevicts htaken, List.mem_append]
      rw [← Ring.rewind_entries] at hy
      rcases hevicts.chunk (h.inv.rewind he hno) hfresh' hy with ⟨hgone, hout'⟩ |
          ⟨hkept, xs, z, ys, xs', ys', -, hsplit', -, hlive, hc, -⟩
      · exact iff_of_false (fun hno' => hno' hout') (fun hno' => hno' hgone)
      · refine iff_of_true ?_ hkept
        rw [← hc]
        exact Ring.not_fresh_of_mem (by rw [hsplit']; simp) hlive
    rw [← hkeep]
    simp only [htop, false_and, not_false_eq_true, true_and, false_or]
    constructor
    · rintro ⟨run, hrun', hfull⟩
      rwa [hrun.unique hrun']
    · intro hfull
      exact ⟨_, hrun, hfull⟩

/-- What an insertion does to the counters. -/
theorem CellHolds.add_counts {added : Bool} (h : CellHolds byteLimits s.mem slab r)
    (hlo : 1 ≤ buffer.length) (hhi : buffer.length ≤ 24576)
    (hrun : cellAddChunk (cellAt slab) c buffer s = .ok added s') :
    (¬ WrapsCounter s.mem slab c buffer.length → ∃ r', CellHolds byteLimits s'.mem slab r') ∧
    (WrapsCounter s.mem slab c buffer.length → ¬ CountersExact s'.mem slab) := by
  have he := chunkOf_isChunk (l := byteLimits) c hlo hhi
  have hhole := h.inv.leavesHole_le he (by decide)
  have hstep := cellAddChunk_shaped (c := c) h.shaped hlo hhi hhole
  rw [Ne, h.inv.find_eq_none] at hstep
  rcases hstep with ⟨hstored, hrun'⟩ | ⟨hnone, r', s₁, hadd, hrun', hshaped, -⟩ |
      ⟨-, -, s₁, hrun', -⟩
  · rw [hrun', EStateM.Result.ok.injEq] at hrun
    rw [← hrun.2]
    exact ⟨fun _ => ⟨r, h⟩, fun hwraps => absurd (h.keys.2 hstored) hwraps.1⟩
  · rw [hrun', EStateM.Result.ok.injEq] at hrun
    obtain ⟨-, rfl⟩ := hrun
    have hfresh := Ring.lookup_eq_none.1 hnone
    have hholds : ∀ L', r'.dir.Holds L' → (liveAt 0 r'.entries).Perm L' →
        ∃ r', CellHolds byteLimits (left s₁ slab).mem slab r' := by
      intro L' hindex hperm
      exact ⟨r', hshaped.rep, ⟨hshaped.shape, hindex.of_perm hperm.symm⟩, hshaped.magic,
        hshaped.codes⟩
    obtain ⟨dir, L, hdir, hle, ⟨heq, hL⟩ | ⟨p, hp, hout, heq, hperm⟩⟩ :=
      h.inv.add_indexes he hfresh hadd
    · -- the chunk is lost, and no counter has changed
      refine ⟨fun _ => hholds _ (heq ▸ hdir) (by rw [hL]), fun hwraps => ?_⟩
      have hlost : r'.Fresh (chunkOf c buffer).checksum := by
        rw [Ring.Fresh, hL]
        intro hmem
        obtain ⟨y, hy, hc⟩ := List.mem_map.1 hmem
        have hy' := h.inv.index.mem_of_noFuller hdir hle hy
        exact Ring.lookup_eq_none.1 hnone
          ((show y.checksum = c from hc) ▸ List.mem_map_of_mem hy')
      exact absurd ((h.losesInsert he).2 ((h.inv.add_fresh he hfresh hadd).1 hlost)) hwraps.2.1
    · -- the record goes into an index that is otherwise exact
      have hwraps := h.wrapsCounter he hfresh hadd hdir hle hp hperm
      rw [show WrapsCounter s.mem slab c buffer.length ↔ _ from hwraps]
      constructor
      · intro haccepts
        refine hholds (p :: L) ?_ hperm
        rw [heq]
        refine Index.add_holds hdir (by rw [hp]; exact hout) ?_
        rw [hp]
        exact Classical.not_not.1 haccepts
      · intro hfull hexact
        refine hfull ?_
        rw [hshaped.rep.countersExact_iff, heq] at hexact
        rw [← hp]
        exact Index.accepts_of_add hdir
          (Nat.le_trans (hle.spilled _) (h.rep.spilled_le p.checksum.blockNo_lt))
          (hexact _ p.checksum.blockNo_lt)
  · rw [hrun'] at hrun
    cases hrun

/-! ## Whole runs -/

theorem addChunks_exact_iff {adds : List (Checksum × List UInt8)}
    (h : CellHolds byteLimits s.mem slab r)
    (hsize : ∀ add ∈ adds, 1 ≤ add.2.length ∧ add.2.length ≤ 24576)
    (hrun : addChunks (cellAt slab) adds s = .ok () s') :
    (∀ pre post s₁, adds = pre ++ post → addChunks (cellAt slab) pre s = .ok () s₁ →
      CountersExact s₁.mem slab) ↔
    ∀ pre c buffer post s₁, adds = pre ++ (c, buffer) :: post →
      addChunks (cellAt slab) pre s = .ok () s₁ → ¬ WrapsCounter s₁.mem slab c buffer.length := by
  induction adds generalizing s r with
  | nil =>
      refine iff_of_true (fun pre post s₁ hsplit hpre => ?_) fun pre c buffer post s₁ hsplit => ?_
      · rw [(List.append_eq_nil_iff.1 hsplit.symm).1, addChunks, pure_run,
          EStateM.Result.ok.injEq] at hpre
        rw [← hpre.2]
        exact h.countersExact
      · simp at hsplit
  | cons add rest ih =>
      obtain ⟨c, buffer⟩ := add
      obtain ⟨hlo, hhi⟩ := hsize _ List.mem_cons_self
      cases hadd : cellAddChunk (cellAt slab) c buffer s with
      | error e s₂ =>
          rw [addChunks, bind_error hadd] at hrun
          cases hrun
      | ok added s₂ =>
          obtain ⟨hkeeps, hwraps⟩ := h.add_counts hlo hhi hadd
          rw [addChunks_cons hadd] at hrun
          by_cases hwrap : WrapsCounter s.mem slab c buffer.length
          · refine iff_of_false (fun hall => hwraps hwrap ?_) fun hall => ?_
            · exact hall [(c, buffer)] rest s₂ rfl (by rw [addChunks_cons hadd]; rfl)
            · exact hall [] c buffer rest s rfl rfl hwrap
          · obtain ⟨r', hr'⟩ := hkeeps hwrap
            rw [along_addChunks_cons (P := fun s => CountersExact s.mem slab) hadd,
              before_addChunks_cons
                (P := fun s c buffer => ¬ WrapsCounter s.mem slab c buffer.length) hadd,
              and_iff_right h.countersExact, and_iff_right hwrap]
            exact ih hr' (fun add hadd => hsize add (List.mem_cons_of_mem _ hadd)) hrun

/-- In a run of insertions into a new cell the counters are exact all along exactly if no insertion
wraps one. -/
theorem counters_exact_iff {s₀ : Store} (hz : s₀.mem.Zero slab (slab + cacheCellSize))
    (hinit : cellInit slab cacheCellSize s₀ = .ok (cellAt slab) s)
    {adds : List (Checksum × List UInt8)}
    (hsize : ∀ add ∈ adds, 1 ≤ add.2.length ∧ add.2.length ≤ 24576)
    (hrun : addChunks (cellAt slab) adds s = .ok () s') :
    (∀ pre post s₁, adds = pre ++ post → addChunks (cellAt slab) pre s = .ok () s₁ →
      CountersExact s₁.mem slab) ↔
    ∀ pre c buffer post s₁, adds = pre ++ (c, buffer) :: post →
      addChunks (cellAt slab) pre s = .ok () s₁ → ¬ WrapsCounter s₁.mem slab c buffer.length := by
  obtain ⟨s₁, hinit', -, -, -, hholds⟩ := cellInit_insane slab byteLimits (cellHeaderSane_zero hz)
  rw [hinit', EStateM.Result.ok.injEq] at hinit
  rw [hinit.2] at hholds
  exact addChunks_exact_iff hholds hsize hrun

/-- A lap with two overflow records, and an insertion that removes both. -/
theorem counters_exact_overwriting : ∃ s s₁ s' adds, cellInit 0 cacheCellSize zeroed = .ok (cellAt 0) s ∧
    adds = withBytes lapWithOverflow ++ [(.numbered 52 52, someBytes 24576)] ∧
    addChunks (cellAt 0) (withBytes lapWithOverflow) s = .ok () s₁ ∧
    (overflowRecords s₁.mem (cellAt 0).cellHeader).length = 2 ∧ overflowCounter s₁.mem 0 200 = 2 ∧
    addChunks (cellAt 0) adds s = .ok () s' ∧
    (overflowRecords s'.mem (cellAt 0).cellHeader).length = 0 ∧ overflowCounter s'.mem 0 200 = 0 ∧
    (∀ pre post s₁, adds = pre ++ post → addChunks (cellAt 0) pre s = .ok () s₁ →
      CountersExact s₁.mem 0) ∧
    ∀ pre c buffer post s₁, adds = pre ++ (c, buffer) :: post →
      addChunks (cellAt 0) pre s = .ok () s₁ → ¬ WrapsCounter s₁.mem 0 c buffer.length := by
  obtain ⟨s, s₁, s₂, hinit, hadds, -, hholds, hadd, hholds', -⟩ := overwrite_many
  have hrun : addChunks (cellAt 0) (withBytes lapWithOverflow ++ [(.numbered 52 52, someBytes 24576)])
      s = .ok () (left s₂ 0) := by
    rw [addChunks_append, bind_ok hadds]
    exact addChunks_cons hadd []
  have hsize : ∀ add ∈ withBytes lapWithOverflow ++ [(.numbered 52 52, someBytes 24576)],
      EmittedSize add.2 := by
    have hall : ∀ add ∈ withBytes (lapWithOverflow ++ [(.numbered 52 52, 24576)]),
        EmittedSize add.2 := withBytes_sized (by decide)
    rwa [withBytes, List.map_append] at hall
  have hexact : ∀ pre post s₁, withBytes lapWithOverflow ++ [(.numbered 52 52, someBytes 24576)] =
      pre ++ post → addChunks (cellAt 0) pre s = .ok () s₁ → CountersExact s₁.mem 0 := by
    intro pre post t hsplit hpre
    have hreach := (Reachable.init (zeroed_zero _ _) hinit).addChunks
      (fun add hadd => hsize add (by rw [hsplit]; exact List.mem_append_left _ hadd)) hpre
    obtain ⟨r, hr⟩ := hreach.holds
    exact hr.countersExact
  have hbytes : ∀ add ∈ withBytes lapWithOverflow ++ [(.numbered 52 52, someBytes 24576)],
      1 ≤ add.2.length ∧ add.2.length ≤ 24576 := fun add hadd =>
    ⟨Nat.le_trans (by decide) (hsize add hadd).1, (hsize add hadd).2⟩
  refine ⟨s, s₁, _, _, hinit, rfl, hadds, ?_, ?_, hrun, ?_, ?_, hexact,
    (counters_exact_iff (zeroed_zero _ _) hinit hbytes hrun).1 hexact⟩
  · rw [hholds.rep.records, List.length_reverse]
    decide +kernel
  · rw [hholds.rep.overflowCounter (by decide)]
    decide +kernel
  · rw [hholds'.rep.records, List.length_reverse]
    decide +kernel
  · rw [hholds'.rep.overflowCounter (by decide)]
    decide +kernel

/-! ## A counter that wraps -/

/-- Checksum number `i` of block 0. -/
def Checksum.spread (i : Nat) : Checksum :=
  ⟨UInt8.ofNat i :: UInt8.ofNat (i / 256) :: List.replicate 30 0, rfl⟩

theorem Checksum.spread_inj {i j : Nat} (hi : i < 65536) (hj : j < 65536)
    (h : Checksum.spread i = Checksum.spread j) : i = j := by
  rw [Checksum.spread, Checksum.spread, Checksum.mk.injEq, List.cons.injEq, List.cons.injEq] at h
  obtain ⟨hlow, hhigh, -⟩ := h
  have hlow' := congrArg UInt8.toNat hlow
  have hhigh' := congrArg UInt8.toNat hhigh
  simp only [UInt8.toNat_ofNat'] at hlow' hhigh'
  omega

theorem Checksum.blockNo_spread (i : Nat) : (Checksum.spread i).blockNo = 0 := rfl

/-- `n` chunks of one byte, all in block 0. -/
def tinyChunks (n : Nat) : List (Checksum × List UInt8) :=
  (List.range n).map fun i => (.spread i, someBytes 1)

/-- The cell that holds them. -/
def tinyEntries (n : Nat) : List Entry :=
  (List.range n).map fun i => chunkOf (.spread i) (someBytes 1)

theorem tinyEntries_succ (n : Nat) :
    tinyEntries (n + 1) = tinyEntries n ++ [chunkOf (.spread n) (someBytes 1)] := by
  rw [tinyEntries, List.range_succ, List.map_append]
  rfl

theorem span_tinyEntries (n : Nat) : span (tinyEntries n) = 37 * n := by
  induction n with
  | zero => rfl
  | succ n ih =>
      have hone : span [chunkOf (.spread n) (someBytes 1)] = 37 := rfl
      rw [tinyEntries_succ, span_append, ih, hone]
      omega

theorem liveCount_tinyEntries (n : Nat) : liveCount (tinyEntries n) = n := by
  induction n with
  | zero => rfl
  | succ n ih =>
      rw [tinyEntries_succ, liveCount_append, ih]
      rfl

/-- A cell of tiny chunks only, not yet overwritten. -/
structure HoldsTiny (s : Store) (n : Nat) (r : Ring) : Prop where
  holds : CellHolds byteLimits s.mem 0 r
  below : r.below = tinyEntries n
  above : r.above = []

/-- The block of all chunks has them in its slots and among the overflow records. -/
theorem HoldsTiny.spilled {n : Nat} (h : HoldsTiny s n r) :
    ((r.dir.slots 0).filterMap id).length + r.dir.spilled 0 = n := by
  have hentries : r.entries = tinyEntries n := by
    rw [Ring.entries, h.below, h.above, List.append_nil]
  have hperm := (h.holds.inv.index.perm 0).length_eq
  have hall : (liveAt 0 r.entries).filter (fun y => y.checksum.blockNo = 0) = liveAt 0 r.entries := by
    rw [List.filter_eq_self]
    intro y hy
    obtain ⟨xs, x, ys, hsplit, -, rfl⟩ := Ring.mem_liveAt_iff.1 hy
    have hx : x ∈ tinyEntries n := by rw [← hentries, hsplit]; simp
    obtain ⟨i, -, rfl⟩ := List.mem_map.1 hx
    rfl
  rw [hall, liveAt_length, hentries, liveCount_tinyEntries] at hperm
  rw [h.holds.inv.index.spilled_eq 0, List.countP_eq_length_filter, ← hperm, Index.entriesOf,
    List.length_append]

/-- The next chunk goes to the top. -/
theorem HoldsTiny.add {n : Nat} (h : HoldsTiny s n r) (hn : n ≤ 4098) :
    r.Fresh (.spread n) ∧ (r.above = [] ∧ r.fits (chunkOf (.spread n) (someBytes 1))) := by
  have hentries : r.entries = tinyEntries n := by
    rw [Ring.entries, h.below, h.above, List.append_nil]
  constructor
  · intro hmem
    obtain ⟨y, hy, hc⟩ := List.mem_map.1 hmem
    obtain ⟨xs, x, ys, hsplit, -, rfl⟩ := Ring.mem_liveAt_iff.1 hy
    have hx : x ∈ tinyEntries n := by rw [← hentries, hsplit]; simp
    obtain ⟨i, hi, rfl⟩ := List.mem_map.1 hx
    have hlt := List.mem_range.1 hi
    have heq := Checksum.spread_inj (by omega) (by omega) (show Checksum.spread i = .spread n from hc)
    omega
  · refine ⟨h.above, (Ring.fits_iff _ _).2 ?_⟩
    have hcount := h.holds.inv.count
    rw [hentries, liveCount_tinyEntries, Index.entryCount] at hcount
    rw [bodyRoom, Ring.next, h.below, span_tinyEntries]
    show (someBytes 1).length + 72 ≤ _
    rw [someBytes_length]
    omega

theorem tinyChunks_hold {n : Nat} (hn : n ≤ 4098) (h : HoldsTiny s 0 r) :
    ∃ s' r', addChunks (cellAt 0) (tinyChunks n) s = .ok () s' ∧ HoldsTiny s' n r' := by
  induction n with
  | zero => exact ⟨s, r, rfl, h⟩
  | succ n ih =>
      obtain ⟨s₁, r₁, hrun, htiny⟩ := ih (by omega)
      obtain ⟨hfresh, hfits⟩ := htiny.add (by omega)
      have hspilled := htiny.spilled
      have hlength := (htiny.holds.rep.header.dir.block 0 (by decide)).length
      have haccepts : r₁.dir.Accepts 4095 (Checksum.spread n).blockNo := by
        rw [Checksum.blockNo_spread, Index.Accepts, Index.none_mem_iff, hlength]
        omega
      have hadd : r₁.add (chunkOf (.spread n) (someBytes 1)) =
          some (r₁.push (chunkOf (.spread n) (someBytes 1))) := if_pos hfits
      have hsome : 1 ≤ (someBytes 1).length ∧ (someBytes 1).length ≤ 24576 := by
        rw [someBytes_length]
        decide
      rcases cellAddChunk_cases (c := .spread n) htiny.holds hsome.1 hsome.2 haccepts
        (fun hno => absurd hfits hno) with ⟨hstored, -⟩ | ⟨-, r', s₂, hadd', hrun', hholds, -⟩ |
          ⟨-, hnone, -⟩
      · exact absurd (Ring.lookup_eq_none.2 hfresh) hstored
      · rw [hadd, Option.some.injEq] at hadd'
        subst hadd'
        refine ⟨_, _, ?_, hholds, ?_, rfl⟩
        · rw [tinyChunks, List.range_succ, List.map_append, addChunks_append, ← tinyChunks,
            bind_ok hrun]
          exact addChunks_cons hrun' []
        · rw [Ring.push, htiny.below, tinyEntries_succ]
      · rw [hadd] at hnone
        cases hnone

/-- With the 4099th chunk the block has 4096 overflow records, and counts none. -/
theorem counters_wrap : ∃ s s', cellInit 0 cacheCellSize zeroed = .ok (cellAt 0) s ∧
    addChunks (cellAt 0) (tinyChunks 4099) s = .ok () s' ∧ ¬ CountersExact s'.mem 0 := by
  obtain ⟨s₁, hinit, -, -, -, hholds⟩ := cellInit_insane 0 byteLimits
    (cellHeaderSane_zero (zeroed_zero _ _))
  obtain ⟨s₂, r, hrun, htiny⟩ := tinyChunks_hold (Nat.le_refl _) ⟨hholds, rfl, rfl⟩
  obtain ⟨hfresh, hfits⟩ := htiny.add (Nat.le_refl _)
  have hsome : 1 ≤ (someBytes 1).length ∧ (someBytes 1).length ≤ 24576 := by
    rw [someBytes_length]
    decide
  have hadd : r.add (chunkOf (.spread 4098) (someBytes 1)) =
      some (r.push (chunkOf (.spread 4098) (someBytes 1))) := if_pos hfits
  have hentries : r.entries = r.below := by rw [Ring.entries, htiny.above, List.append_nil]
  have hwraps : WrapsCounter s₂.mem 0 (.spread 4098) (someBytes 1).length := by
    have hspilled := htiny.spilled
    have hcounter := htiny.holds.rep.spilled_le (b := 0) (by decide)
    have hlength := (htiny.holds.rep.header.dir.block 0 (by decide)).length
    have he := chunkOf_isChunk (l := byteLimits) (.spread 4098) hsome.1 hsome.2
    have hperm : (liveAt 0 (r.push (chunkOf (.spread 4098) (someBytes 1))).entries).Perm
        (cellDirEntrySet (.spread 4098) (span r.below) :: liveAt 0 r.entries) := by
      rw [Ring.push_entries, liveAt_append, liveAt_live he.live, Nat.zero_add, liveAt, hentries]
      exact List.perm_append_singleton _ _
    refine (htiny.holds.wrapsCounter he hfresh hadd htiny.holds.inv.index (Index.NoFuller.refl _) rfl
      hperm).2 ?_
    show ¬ r.dir.Accepts 4095 0
    have hslots := List.length_filterMap_le id (r.dir.slots 0)
    rw [Index.Accepts, Index.none_mem_iff, hlength]
    omega
  have hhole : ¬(r.above = [] ∧ r.fits (chunkOf (.spread 4098) (someBytes 1))) →
      ∀ k, r.rewind.LeavesHole (chunkOf (.spread 4098) (someBytes 1)) k → k ≤ byteLimits.hole :=
    fun hno => absurd hfits hno
  rcases cellAddChunk_shaped (c := .spread 4098) htiny.holds.shaped hsome.1 hsome.2 hhole with
    ⟨hstored, -⟩ | ⟨-, r', s₃, -, hrun', -⟩ | ⟨-, hnone, -⟩
  · rw [Ne, htiny.holds.inv.find_eq_none, Ring.lookup_eq_none] at hstored
    exact absurd hfresh hstored
  · refine ⟨_, _, hinit, ?_, (htiny.holds.add_counts hsome.1 hsome.2 hrun').2 hwraps⟩
    rw [tinyChunks, List.range_succ, List.map_append, addChunks_append, ← tinyChunks, bind_ok hrun]
    exact addChunks_cons hrun' []
  · rw [hadd] at hnone
    cases hnone

end

end Theo
