import Mathlib.Algebra.Ring.Nat
import Theo.Cache.Calls

set_option autoImplicit false

/-! # What a cache counts

The counters of each cell are those of its ring, and the rings of different cells hold different
checksums. So the sums over the cells count the checksums that the cache holds, and the bytes it
returns for them (`cacheGetMetrics_exact`). -/

namespace Theo

open ByteMachine BucketIndex

/-- The caches reachable from `cache_init` on a zeroed buffer of `size` bytes by insertions of buffers
of `lo` to `hi` bytes that return. -/
inductive CacheReachable (lo hi base size : Nat) : Cache → Store → Prop
  | init {cache : Cache} {s s' : Store} (hz : s.mem.Zero base (base + size))
      (h : cacheInit base size s = .ok cache s') : CacheReachable lo hi base size cache s'
  | add {cache : Cache} {s s' : Store} {c : Checksum} {buffer : List UInt8} {added : Bool}
      (hs : CacheReachable lo hi base size cache s) (hlo : lo ≤ buffer.length)
      (hhi : buffer.length ≤ hi) (h : cacheAddChunk cache c buffer s = .ok added s') :
      CacheReachable lo hi base size cache s'

/-- The `buffer_size` that `cache_get_chunk` returns for a checksum, or 0 if it returns nothing. -/
def Cache.chunkSize (cache : Cache) (chunk : Chunk) (s : Store) (c : Checksum) : Nat :=
  match cacheGetChunk cache c chunk s with
  | .ok (true, got) _ => got.bufferSize
  | _ => 0

section

variable {base n : Nat} {s s' : Store} {rings : Nat → Ring} {c : Checksum}

/-- `cache_init` returns only on a buffer of two slots or more. -/
theorem cacheInit_slots {size : Nat} {cache : Cache} (h : cacheInit base size s = .ok cache s') :
    ∃ n, 1 ≤ n ∧ size / cacheCellSize = n + 1 := by
  by_cases hslots : 2 ≤ size / cacheCellSize
  · exact ⟨size / cacheCellSize - 1, by omega, by omega⟩
  · rw [cacheInit, always, check_bind_false _ (decide_eq_false hslots)] at h
    cases h

/-- Every reachable cache holds rings. -/
theorem CacheReachable.holds {size : Nat} {cache : Cache} (hsize : size < 2 ^ 64)
    (h : CacheReachable 2049 24576 base size cache s) :
    ∃ n rings, 1 ≤ n ∧ size / cacheCellSize = n + 1 ∧ cache = cacheAt base n ∧
      CacheHolds s.mem base n rings := by
  induction h with
  | init hz h =>
      obtain ⟨n, hn, hslots⟩ := cacheInit_slots h
      obtain ⟨s', hrun, hholds, -⟩ := cacheInit_zero hn hslots hsize hz
      rw [hrun, EStateM.Result.ok.injEq] at h
      obtain ⟨rfl, rfl⟩ := h
      exact ⟨n, _, hn, hslots, rfl, hholds⟩
  | @add _ _ c buffer _ _ hlo hhi h ih =>
      obtain ⟨n, rings, hn, hslots, rfl, hholds⟩ := ih
      have hcall : (cacheAt base n).call (.addChunk c buffer) _ = .ok (.added _) _ := bind_ok h _
      have hsized : CacheCall.Sized 2049 24576 (.addChunk c buffer) := ⟨hlo, hhi⟩
      obtain ⟨es, rfl, ⟨rings', hholds'⟩, -, -⟩ := Cache.call_returned hholds hn hsized hcall
      exact ⟨n, rings', hn, hslots, rfl, hholds'⟩

/-! ## Look-ups -/

theorem CacheHolds.chunkSize (h : CacheHolds s.mem base n rings) (hn : 1 ≤ n) (chunk : Chunk)
    (c : Checksum) : (cacheAt base n).chunkSize chunk s c =
      (((rings (c.part % n)).lookup c).map List.length).getD 0 := by
  rw [Cache.chunkSize, cacheGetChunk_run h hn]
  cases (rings (c.part % n)).lookup c with
  | none => rfl
  | some data => rfl

/-! ## The checksums of a ring -/

namespace Ring

/-- The checksums of the chunks that a ring holds. -/
def checksums (r : Ring) : List Checksum := (liveAt 0 r.entries).map CellDirEntry.checksum

variable {l : Limits} {r : Ring}

theorem mem_checksums : c ∈ r.checksums ↔ r.lookup c ≠ none := by
  rw [Ne, lookup_eq_none, Fresh, not_not, checksums]

theorem checksums_length : r.checksums.length = liveCount r.entries := by
  rw [checksums, List.length_map, liveAt_length]

theorem sum_sizes {f : Checksum → Nat} (a : Nat) {es : List Entry}
    (h : ∀ e ∈ es, e.free = false → f e.checksum = e.size) :
    (((liveAt a es).map CellDirEntry.checksum).map f).sum = liveBytes es := by
  induction es generalizing a with
  | nil => rfl
  | cons e es ih =>
      have htail := fun a => ih a fun e' he' => h e' (List.mem_cons_of_mem _ he')
      rw [liveBytes]
      cases hfree : e.free with
      | true => rw [liveAt_free hfree, htail, if_pos rfl, Nat.zero_add]
      | false =>
          rw [liveAt_live hfree, List.map_cons, List.map_cons, List.sum_cons, htail,
            if_neg Bool.false_ne_true]
          exact congrArg (· + liveBytes es) (h e List.mem_cons_self hfree)

/-- What the look-ups of the chunks return adds up to the bytes of the ring. -/
theorem Inv.sum_lengths (h : r.Inv l) {f : Checksum → Nat}
    (hf : ∀ c ∈ r.checksums, f c = ((r.lookup c).map List.length).getD 0) :
    (r.checksums.map f).sum = liveBytes r.entries := by
  refine sum_sizes 0 fun e he hlive => ?_
  have hlookup : r.lookup e.checksum = some e.data := h.lookup_eq_some.2 ⟨e, he, hlive, rfl, rfl⟩
  rw [hf _ (mem_checksums.2 (by rw [hlookup]; exact Option.some_ne_none _)), hlookup]
  exact ((h.valid e he).isChunk hlive).data_length

end Ring

/-! ## The checksums of a cache -/

/-- The checksums that the rings of a cache of `n` cells hold. -/
def checksumsOf (n : Nat) (rings : Nat → Ring) : List Checksum :=
  (List.range n).flatMap fun i => (rings i).checksums

theorem CacheHolds.mem_checksums (h : CacheHolds s.mem base n rings) (hn : 1 ≤ n) :
    c ∈ checksumsOf n rings ↔ cacheHasChunk (cacheAt base n) c s = .ok true s := by
  rw [cacheHasChunk_run h hn, EStateM.Result.ok.injEq, and_iff_left rfl,
    Option.isSome_iff_ne_none, checksumsOf, List.mem_flatMap]
  constructor
  · rintro ⟨i, hi, hc⟩
    have hlookup := Ring.mem_checksums.1 hc
    rwa [h.placed i (List.mem_range.1 hi) c hlookup]
  · intro hlookup
    exact ⟨_, List.mem_range.2 (Nat.mod_lt _ hn), Ring.mem_checksums.2 hlookup⟩

/-- No cell holds a checksum twice, and no two cells hold the same. -/
theorem CacheHolds.checksums_nodup (h : CacheHolds s.mem base n rings) :
    (checksumsOf n rings).Nodup := by
  rw [checksumsOf, List.nodup_flatMap]
  refine ⟨fun i hi => (h.cell i (List.mem_range.1 hi)).inv.index.nodup, ?_⟩
  refine List.nodup_range.imp_of_mem fun {i j} hi hj hne c hci hcj => hne ?_
  rw [← h.placed i (List.mem_range.1 hi) c (Ring.mem_checksums.1 hci),
    h.placed j (List.mem_range.1 hj) c (Ring.mem_checksums.1 hcj)]

theorem sum_flatMap {α : Type} (f : α → List Nat) (xs : List α) :
    (xs.flatMap f).sum = (xs.map fun x => (f x).sum).sum := by
  induction xs with
  | nil => rfl
  | cons x xs ih => rw [List.flatMap_cons, List.sum_append_nat, ih, List.map_cons, List.sum_cons]

/-! ## The loop over the cells -/

theorem addU64_of_lt {a k : Nat} (h : a + k < 2 ^ 64) : addU64 a k = a + k := by
  rw [addU64]
  omega

theorem cellGetMetrics_run {slab : Nat} {r : Ring} (h : CellHolds chunkerLimits s.mem slab r)
    (metrics : CacheMetrics) (hbytes : metrics.byteCount + 1048576 < 2 ^ 64)
    (hentries : metrics.entryCount + 1048576 < 2 ^ 64) :
    cellGetMetrics (cellAt slab) metrics s =
      .ok ⟨metrics.byteCount + liveBytes r.entries, metrics.entryCount + liveCount r.entries⟩ s := by
  have hspan := liveBytes_le_span r.entries
  have hroom := h.inv.room
  rw [Ring.top] at hroom
  rw [cellGetMetrics, load_bind, load_bind, pure_run]
  simp only [cellAt]
  rw [h.counts.1, h.counts.2, addU64_of_lt (by omega), addU64_of_lt (by omega)]

theorem CacheHolds.live_le (h : CacheHolds s.mem base n rings) {i : Nat} (hi : i < n) :
    liveBytes (rings i).entries ≤ 1048576 ∧ liveCount (rings i).entries ≤ 1048576 := by
  have hspan := liveBytes_le_span (rings i).entries
  have hroom := (h.cell i hi).inv.room
  rw [Ring.top] at hroom
  exact ⟨by omega, by omega⟩

theorem cacheGetMetricsLoop_run (h : CacheHolds s.mem base n rings) {i k : Nat} (hik : i + k ≤ n)
    {metrics : CacheMetrics} (hbytes : metrics.byteCount + k * 1048576 < 2 ^ 64)
    (hentries : metrics.entryCount + k * 1048576 < 2 ^ 64) :
    cacheGetMetricsLoop (cacheAt base n) i k metrics s =
      .ok ⟨metrics.byteCount + ((List.range' i k).map fun j => liveBytes (rings j).entries).sum,
        metrics.entryCount + ((List.range' i k).map fun j => liveCount (rings j).entries).sum⟩ s := by
  induction k generalizing i metrics with
  | zero => rfl
  | succ k ih =>
      have hi : i < n := by omega
      obtain ⟨hb, he⟩ := h.live_le hi
      have hcell : (cacheAt base n).cells[i]? = some (cellAt (slabOf base i)) := by
        rw [cacheAt, List.getElem?_map, List.getElem?_range hi]
        rfl
      rw [cacheGetMetricsLoop, hcell]
      have hrun := cellGetMetrics_run (h.cell i hi) metrics (by omega) (by omega)
      show (cellGetMetrics _ _ >>= fun metrics => _) s = _
      rw [bind_ok hrun, ih (by omega) (by simp only; omega) (by simp only; omega)]
      simp only [List.range'_succ, List.map_cons, List.sum_cons, Nat.add_assoc]

theorem cacheGetMetrics_run (h : CacheHolds s.mem base n rings)
    (hsize : (n + 1) * cacheCellSize < 2 ^ 64) :
    cacheGetMetrics (cacheAt base n) s =
      .ok ⟨((List.range n).map fun j => liveBytes (rings j).entries).sum,
        ((List.range n).map fun j => liveCount (rings j).entries).sum⟩ s := by
  have hfit : n * 1048576 < 2 ^ 64 :=
    Nat.lt_of_le_of_lt (Nat.mul_le_mul_right 1048576 (Nat.le_succ n)) hsize
  rw [cacheGetMetrics, load_bind, cacheMetricsInit]
  show cacheGetMetricsLoop (cacheAt base n) 0 (cacheCellCount s.mem base) ⟨0, 0⟩ s = _
  rw [h.count, cacheGetMetricsLoop_run h (by omega) (by simpa using hfit) (by simpa using hfit),
    List.range_eq_range']
  simp only [Nat.zero_add]

/-- The metrics of a reachable cache are exact: for a list `cs` of the checksums that it holds, each
once, the entries are as many as there are, and the bytes are those it returns for them. -/
theorem cacheGetMetrics_exact {size : Nat} {cache : Cache} (hsize : size < 2 ^ 64)
    (h : CacheReachable 2049 24576 base size cache s) (chunk : Chunk) :
    ∃ (metrics : CacheMetrics) (cs : List Checksum),
      cacheGetMetrics cache s = .ok metrics s ∧ cs.Nodup ∧
      (∀ c, c ∈ cs ↔ cacheHasChunk cache c s = .ok true s) ∧
      (∀ c ∈ cs, ∃ got, cacheGetChunk cache c chunk s = .ok (true, got) s) ∧
      metrics.entryCount = cs.length ∧
      metrics.byteCount = (cs.map (cache.chunkSize chunk s)).sum := by
  obtain ⟨n, rings, hn, hslots, rfl, hholds⟩ := h.holds hsize
  have hfit : (n + 1) * cacheCellSize < 2 ^ 64 := by
    rw [← hslots]
    exact Nat.lt_of_le_of_lt (Nat.div_mul_le_self _ _) hsize
  refine ⟨_, checksumsOf n rings, cacheGetMetrics_run hholds hfit, hholds.checksums_nodup,
    fun c => hholds.mem_checksums hn, fun c hc => ?_, ?_, ?_⟩
  · rw [hholds.mem_checksums hn, cacheHasChunk_run hholds hn, EStateM.Result.ok.injEq] at hc
    obtain ⟨data, hdata⟩ := Option.isSome_iff_exists.1 hc.1
    exact ⟨_, by rw [cacheGetChunk_run hholds hn, hdata]; rfl⟩
  · show _ = (checksumsOf n rings).length
    rw [checksumsOf, List.length_flatMap]
    refine congrArg List.sum (List.map_congr_left fun i _ => ?_)
    exact Ring.checksums_length.symm
  · show _ = ((checksumsOf n rings).map ((cacheAt base n).chunkSize chunk s)).sum
    rw [checksumsOf, List.map_flatMap, sum_flatMap]
    refine congrArg List.sum (List.map_congr_left fun i hi => ?_)
    refine ((hholds.cell i (List.mem_range.1 hi)).inv.sum_lengths fun c hc => ?_).symm
    rw [hholds.chunkSize hn, hholds.placed i (List.mem_range.1 hi) c (Ring.mem_checksums.1 hc)]

/-- The metrics of a cache with two chunks of 2049 bytes. -/
theorem cacheGetMetrics_exact_two : ∃ (s : Store) (metrics : CacheMetrics) (cs : List Checksum),
    CacheReachable 2049 24576 0 ((2 + 1) * cacheCellSize) (cacheAt 0 2) s ∧
    cacheGetMetrics (cacheAt 0 2) s = .ok metrics s ∧ cs.Nodup ∧
    (∀ c, c ∈ cs ↔ cacheHasChunk (cacheAt 0 2) c s = .ok true s) ∧
    (∀ c ∈ cs, ∃ got, cacheGetChunk (cacheAt 0 2) c ⟨.fill 0, [], 0⟩ s = .ok (true, got) s) ∧
    metrics.entryCount = cs.length ∧
    metrics.byteCount = (cs.map ((cacheAt 0 2).chunkSize ⟨.fill 0, [], 0⟩ s)).sum ∧
    metrics.entryCount = 2 ∧ metrics.byteCount = 4098 := by
  obtain ⟨s₁, s₂, s₃, rings, hinit, hadd, hadd', hholds, hzero, hone⟩ := cacheAddChunk_two
  obtain ⟨hlo, hhi⟩ := someBytes_sized
  have hs : CacheReachable 2049 24576 0 ((2 + 1) * cacheCellSize) (cacheAt 0 2) s₃ :=
    .add (.add (.init (zeroed_zero _ _) hinit) hlo hhi hadd) hlo hhi hadd'
  obtain ⟨metrics, cs, hmetrics, hnodup, hcs, hgot, hcount, hbytes⟩ :=
    cacheGetMetrics_exact (slots_lt (by decide)) hs ⟨.fill 0, [], 0⟩
  have hsums := cacheGetMetrics_run hholds (slots_lt (by decide))
  rw [hmetrics, EStateM.Result.ok.injEq] at hsums
  have hrange : List.range 2 = [0, 1] := rfl
  refine ⟨s₃, metrics, cs, hs, hmetrics, hnodup, hcs, hgot, hcount, hbytes, ?_, ?_⟩
  · rw [hsums.1]
    simp only [hrange, List.map_cons, List.map_nil, hzero, hone]
    decide +kernel
  · rw [hsums.1]
    simp only [hrange, List.map_cons, List.map_nil, hzero, hone]
    decide +kernel

end

end Theo
