import Mathlib.Algebra.Group.Action.Defs
import Mathlib.Algebra.Order.BigOperators.Group.Finset
import Mathlib.Algebra.Order.Ring.Nat
import Theo.Manager.Calls

set_option autoImplicit false

/-! # Chunks that fit

A cell in its first lap gives up nothing. So as long as the distinct chunks that go to each cell take
no more bytes than it has (`Fit`), no insertion aborts, and the cache holds just the chunks that it was
given (`HoldsJust`). -/

namespace Theo

open ByteMachine BucketIndex

/-- Of these chunks, those that go to cell `i` of `n`. -/
def chunksFor (checksumGen : List UInt8 → Checksum) (n i : Nat) (chunks : Finset (List UInt8)) :
    Finset (List UInt8) :=
  chunks.filter fun x => (checksumGen x).part % n = i

/-- The chunks fit into the first laps of `n` cells, each with its header and, at worst, an entry in
the overflow directory. -/
def Fit (checksumGen : List UInt8 → Checksum) (n : Nat) (chunks : Finset (List UInt8)) : Prop :=
  ∀ i < n, ∑ x ∈ chunksFor checksumGen n i chunks, (x.length + 72) ≤ 1019836

/-- A ring in its first lap, with these chunks in this order. -/
structure Ring.Grown (checksumGen : List UInt8 → Checksum) (r : Ring) (chunks : List (List UInt8)) :
    Prop where
  above : r.above = []
  below : r.below = chunks.map fun x => chunkOf (checksumGen x) x

/-- A cache in its first lap, with just these chunks. -/
def HoldsJust (checksumGen : List UInt8 → Checksum) (base n : Nat) (stored : Finset (List UInt8))
    (m : Mem) : Prop :=
  ∃ rings, CacheHolds m base n rings ∧ ∀ i < n, ∃ chunks : List (List UInt8),
    chunks.Nodup ∧ (rings i).Grown checksumGen chunks ∧
      chunks.toFinset = chunksFor checksumGen n i stored

section

variable {base n i : Nat} {checksumGen : List UInt8 → Checksum} {chunks : List (List UInt8)}
  {stored stored' : Finset (List UInt8)} {x data : List UInt8} {c : Checksum} {r : Ring} {s : Store}
  {m : Mem} {cacheManager : CacheManager}

theorem mem_chunksFor :
    x ∈ chunksFor checksumGen n i stored ↔ x ∈ stored ∧ (checksumGen x).part % n = i :=
  Finset.mem_filter

theorem Fit.mono (h : Fit checksumGen n stored') (hsub : stored ⊆ stored') :
    Fit checksumGen n stored := fun i hi =>
  Nat.le_trans (Finset.sum_le_sum_of_subset (Finset.filter_subset_filter _ hsub)) (h i hi)

/-! ## One cell -/

theorem span_chunks (checksumGen : List UInt8 → Checksum) (chunks : List (List UInt8)) :
    span (chunks.map fun x => chunkOf (checksumGen x) x) + 36 * chunks.length =
      (chunks.map fun x => x.length + 72).sum := by
  induction chunks with
  | nil => rfl
  | cons x chunks ih =>
      rw [List.map_cons, span_cons, List.length_cons, List.map_cons, List.sum_cons, ← ih]
      show x.length + 36 + _ + _ = _
      omega

theorem liveCount_chunks (checksumGen : List UInt8 → Checksum) (chunks : List (List UInt8)) :
    liveCount (chunks.map fun x => chunkOf (checksumGen x) x) = chunks.length := by
  induction chunks with
  | nil => rfl
  | cons x chunks ih =>
      rw [List.map_cons, liveCount, ih, List.length_cons]
      exact Nat.add_comm 1 _

theorem Ring.Grown.entries (h : r.Grown checksumGen chunks) :
    r.entries = chunks.map fun x => chunkOf (checksumGen x) x := by
  rw [Ring.entries, h.above, List.append_nil, h.below]

theorem Ring.Grown.lookup (h : r.Grown checksumGen chunks) (hinv : r.Inv chunkerLimits) :
    r.lookup c = some data ↔ data ∈ chunks ∧ checksumGen data = c := by
  rw [hinv.lookup_eq_some, h.entries]
  constructor
  · rintro ⟨e, he, -, hc, hdata⟩
    obtain ⟨x, hx, rfl⟩ := List.mem_map.1 he
    have hx' : x = data := hdata
    subst hx'
    exact ⟨hx, hc⟩
  · rintro ⟨hmem, rfl⟩
    exact ⟨chunkOf (checksumGen data) data, List.mem_map.2 ⟨data, hmem, rfl⟩, rfl, rfl, rfl⟩

/-- The next chunk goes to the top where there is room for it, and takes nothing away. -/
theorem Ring.Grown.add (h : r.Grown checksumGen chunks) (hinv : r.Inv chunkerLimits)
    (hroom : (chunks.map fun x => x.length + 72).sum + (x.length + 72) ≤ 1019836) :
    ∃ r', r.add (chunkOf (checksumGen x) x) = some r' ∧ r'.Grown checksumGen (chunks ++ [x]) := by
  have hover : r.dir.stack.length ≤ chunks.length := by
    have hcount := hinv.count
    rw [h.entries, liveCount_chunks] at hcount
    have hle : r.dir.stack.length ≤ r.dir.entryCount 256 := Nat.le_add_left _ _
    omega
  have hfits : r.fits (chunkOf (checksumGen x) x) = true := by
    rw [Ring.fits_iff, bodyRoom, Ring.next, h.below]
    have hspan := span_chunks checksumGen chunks
    have hsize : (chunkOf (checksumGen x) x).size = x.length := rfl
    omega
  refine ⟨r.push (chunkOf (checksumGen x) x), if_pos ⟨h.above, hfits⟩, rfl, ?_⟩
  show r.below ++ [chunkOf (checksumGen x) x] = _
  rw [h.below, List.map_append]
  rfl

/-! ## The cells of a cache -/

theorem CacheHolds.holdsJust (h : CacheHolds m base n fun _ => Ring.empty) :
    HoldsJust checksumGen base n ∅ m :=
  ⟨_, h, fun _ _ => ⟨[], List.nodup_nil, ⟨rfl, rfl⟩, rfl⟩⟩

theorem HoldsJust.cell (h : HoldsJust checksumGen base n stored m) (hn : 1 ≤ n) :
    ∃ rings, CacheHolds m base n rings ∧ ∀ c data,
      (rings (c.part % n)).lookup c = some data ↔ data ∈ stored ∧ checksumGen data = c := by
  obtain ⟨rings, hholds, hcells⟩ := h
  refine ⟨rings, hholds, fun c data => ?_⟩
  have hindex : c.part % n < n := Nat.mod_lt _ hn
  obtain ⟨chunks, -, hgrown, hchunks⟩ := hcells _ hindex
  rw [hgrown.lookup (hholds.cell _ hindex).inv, ← List.mem_toFinset, hchunks, mem_chunksFor]
  constructor
  · rintro ⟨⟨hmem, -⟩, hc⟩
    exact ⟨hmem, hc⟩
  · rintro ⟨hmem, rfl⟩
    exact ⟨⟨hmem, rfl⟩, rfl⟩

/-- A look-up finds just the chunks that are stored. -/
theorem HoldsJust.hasChunk (h : HoldsJust checksumGen base n stored s.mem)
    (hcache : cacheManager.cache = cacheAt base n) (hn : 1 ≤ n)
    (hinj : ∀ y ∈ stored, checksumGen y = checksumGen x → y = x) :
    cacheManagerHasChunk cacheManager (checksumGen x) s =
      .ok (decide (x ∈ stored)) (s.emit (.mark (.hasChunk (checksumGen x).bytes))) := by
  obtain ⟨rings, hholds, hlookup⟩ := h.cell hn
  have hfound : ((rings ((checksumGen x).part % n)).lookup (checksumGen x)).isSome =
      decide (x ∈ stored) := by
    rw [Bool.eq_iff_iff, decide_eq_true_eq, Option.isSome_iff_exists]
    constructor
    · rintro ⟨data, hdata⟩
      obtain ⟨hmem, hc⟩ := (hlookup _ _).1 hdata
      exact hinj data hmem hc ▸ hmem
    · exact fun hmem => ⟨x, (hlookup _ _).2 ⟨hmem, rfl⟩⟩
  rw [cacheManagerHasChunk_run hcache hholds hn, hfound]

/-- A stored chunk is fetched as it was given. -/
theorem HoldsJust.getChunk (h : HoldsJust checksumGen base n stored s.mem)
    (hcache : cacheManager.cache = cacheAt base n) (hn : 1 ≤ n) (hx : x ∈ stored) (chunk : Chunk) :
    ∃ chunk', cacheManagerGetChunk cacheManager (checksumGen x) chunk s = .ok (true, chunk') s ∧
      chunk'.checksum = checksumGen x ∧ chunk'.buffer.take chunk'.bufferSize = x := by
  obtain ⟨rings, hholds, hlookup⟩ := h.cell hn
  refine ⟨⟨checksumGen x, x ++ chunk.buffer.drop x.length, x.length⟩, ?_, rfl, List.take_left⟩
  rw [cacheManagerGetChunk_run hcache hholds hn, (hlookup _ _).2 ⟨hx, rfl⟩]
  rfl

/-- An insertion of a chunk that fits returns, and stores the chunk if it is new. -/
theorem HoldsJust.addChunk (h : HoldsJust checksumGen base n stored s.mem)
    (hcache : cacheManager.cache = cacheAt base n) (hn : 1 ≤ n) (hlo : 2049 ≤ x.length)
    (hhi : x.length ≤ 24576) (hinj : ∀ y ∈ stored, checksumGen y = checksumGen x → y = x)
    (hfit : Fit checksumGen n (insert x stored)) :
    ∃ s', cacheManagerAddChunk cacheManager (checksumGen x) x s =
        .ok (decide (x ∉ stored)) s' ∧
      HoldsJust checksumGen base n (insert x stored) s'.mem := by
  obtain ⟨rings₁, hholds₁, hlookup⟩ := h.cell hn
  obtain ⟨rings, hholds, hcells⟩ := h
  have hindex : (checksumGen x).part % n < n := Nat.mod_lt _ hn
  obtain ⟨chunks, hnodup, hgrown, hchunks⟩ := hcells _ hindex
  have hinv := (hholds.cell _ hindex).inv
  by_cases hx : x ∈ stored
  · have hfound : (rings ((checksumGen x).part % n)).lookup (checksumGen x) = some x := by
      rw [hgrown.lookup hinv, ← List.mem_toFinset, hchunks, mem_chunksFor]
      exact ⟨⟨hx, rfl⟩, rfl⟩
    have hinsert : (rings ((checksumGen x).part % n)).insert (checksumGen x) x =
        some (false, rings ((checksumGen x).part % n)) := by rw [Ring.insert, hfound]
    obtain ⟨s', hrun, hholds'⟩ := cacheManagerAddChunk_run hcache hholds hn hlo hhi hinsert
    rw [Function.update_eq_self] at hholds'
    rw [Finset.insert_eq_of_mem hx, decide_eq_false (not_not_intro hx)]
    exact ⟨s', hrun, rings, hholds', hcells⟩
  · have hmem : x ∉ chunks := by
      rw [← List.mem_toFinset, hchunks, mem_chunksFor]
      exact fun h => hx h.1
    have hmissing : (rings ((checksumGen x).part % n)).lookup (checksumGen x) = none := by
      rw [Option.eq_none_iff_forall_ne_some]
      intro data hdata
      obtain ⟨hdata, hc⟩ := (hgrown.lookup hinv).1 hdata
      rw [← List.mem_toFinset, hchunks, mem_chunksFor] at hdata
      exact hx (hinj data hdata.1 hc ▸ hdata.1)
    have hroom : (chunks.map fun y => y.length + 72).sum + (x.length + 72) ≤ 1019836 := by
      have hsum := hfit _ hindex
      have hfilter : chunksFor checksumGen n ((checksumGen x).part % n) (insert x stored) =
          insert x chunks.toFinset := by
        rw [chunksFor, Finset.filter_insert, if_pos rfl, hchunks, chunksFor]
      rw [hfilter, Finset.sum_insert (by rwa [List.mem_toFinset]),
        List.sum_toFinset _ hnodup] at hsum
      omega
    obtain ⟨r', hadd, hgrown'⟩ := hgrown.add hinv hroom
    have hinsert : (rings ((checksumGen x).part % n)).insert (checksumGen x) x = some (true, r') := by
      rw [Ring.insert, hmissing, hadd, Option.map_some]
    obtain ⟨s', hrun, hholds'⟩ := cacheManagerAddChunk_run hcache hholds hn hlo hhi hinsert
    rw [decide_eq_true hx]
    refine ⟨s', hrun, _, hholds', fun i hi => ?_⟩
    by_cases hown : i = (checksumGen x).part % n
    · subst hown
      refine ⟨chunks ++ [x], ?_, by rwa [Function.update_self], ?_⟩
      · exact (List.nodup_append_comm.1 (List.nodup_cons.2 ⟨hmem, hnodup⟩))
      · rw [List.toFinset_append, hchunks, chunksFor, chunksFor, Finset.filter_insert, if_pos rfl,
          Finset.insert_eq, Finset.union_comm]
        rfl
    · obtain ⟨chunks', hnodup', hgrown₁, hchunks'⟩ := hcells i hi
      refine ⟨chunks', hnodup', by rwa [Function.update_of_ne hown], ?_⟩
      rw [hchunks', chunksFor, chunksFor, Finset.filter_insert, if_neg (Ne.symm hown)]

end

end Theo
