import Theo.Cache.Crash
import Theo.Manager.Reopen

set_option autoImplicit false

/-! # A cache file that outlives its processes

Processes come and go, each with a cache manager that opens the one file with any size, fails to, has
threads use the cache, and releases it or dies. Whatever becomes of the file, a cache that is opened on
it finds only what some process gave it (`file_reads`). -/

namespace Theo

open ByteMachine BucketIndex Hoare

section

variable {σ : Type} {os : Msys σ} {file : σ → Option File} {offset : σ → Int → Nat}
  {given : List (Checksum × List UInt8)} {m m' : Mem} {base base' k n c c' : Nat}
  {f f' : Option File} {p p' : Process σ} {cacheManager : CacheManager} {cacheSize : Nat}
  {threads : Locked Nat Site CacheCall Answer}

/-! ## Buffers at another address -/

theorem cellHeaderSane_shift (m : Mem) (k cellHeader : Nat) :
    cellHeaderSane (m.shift k) cellHeader = cellHeaderSane m (k + cellHeader) := by
  simp only [cellHeaderSane, cellIcSane, entryCode, exitCode, cellIcPtr, Mem.shift_load32, Nat.add_assoc]

theorem recoverable_shift :
    Recoverable base n given (m.shift k) ↔ Recoverable (k + base) n given m := by
  have hcount : cacheCellCount (m.shift k) base = cacheCellCount m (k + base) := by
    rw [cacheCellCount, Mem.shift_load64, ← Nat.add_assoc]
    rfl
  have hsane : ∀ i, cellHeaderSane (m.shift k) (slabOf base i + 1019872) =
      cellHeaderSane m (slabOf (k + base) i + 1019872) := by
    intro i
    rw [cellHeaderSane_shift, ← slabOf_shift, Nat.add_assoc]
  have hcell : ∀ i r, CellHolds chunkerLimits (m.shift k) (slabOf base i) r ↔
      CellHolds chunkerLimits m (slabOf (k + base) i) r := by
    intro i r
    rw [← slabOf_shift]
    exact cellHolds_shift
  constructor
  · rintro ⟨hheader, hcells⟩
    refine ⟨fun hmagic => hcount.symm.trans (hheader hmagic), fun i hi => ?_⟩
    simpa only [hsane, hcell] using hcells i hi
  · rintro ⟨hheader, hcells⟩
    refine ⟨fun hmagic => hcount.trans (hheader hmagic), fun i hi => ?_⟩
    simpa only [hsane, hcell] using hcells i hi

theorem Recoverable.congr (h : Recoverable base n given m)
    (hm : m.Agree m' base (base + (n + 1) * cacheCellSize)) : Recoverable base n given m' where
  header hmagic := by
    rw [cacheMagic, (hm.mono (Nat.le_refl _) (by rw [cacheCellSize]; omega)).load64] at hmagic
    rw [cacheCellCount, (hm.mono (by omega) (by rw [cacheCellSize]; omega)).load64]
    exact h.header hmagic
  cell i hi := by
    have hslab : m.Agree m' (slabOf base i) (slabOf base i + 1048576) := by
      refine hm.mono ?_ ?_
      · have := base_add_le base i
        omega
      · simp only [slabOf, cacheCellSize]
        omega
    rw [cellHeaderSane_congr hslab]
    rcases h.cell i hi with htorn | ⟨r, hholds, hgiven⟩
    · exact Or.inl htorn
    · exact Or.inr ⟨r, hholds.congr hslab, hgiven⟩

/-- The same bytes at another address. -/
theorem Recoverable.moved (h : Recoverable base n given m)
    (hm : (m.shift base).Agree (m'.shift base') 0 ((n + 1) * cacheCellSize)) :
    Recoverable base' n given m' := by
  have hfront : Recoverable 0 n given (m.shift base) := recoverable_shift.2 h
  have hmoved : Recoverable 0 n given (m'.shift base') := hfront.congr (by rwa [Nat.zero_add])
  exact recoverable_shift.1 hmoved

/-! ## The file -/

theorem size_lt (hbound : n < 2 ^ 43) : (n + 1) * cacheCellSize < 2 ^ 64 := by
  rw [cacheCellSize]
  omega

/-- A file that has the size of a cache is one that was given no more than `given`. -/
def Keeping (given : List (Checksum × List UInt8)) (f : Option File) : Prop :=
  ∀ g n, f = some g → 1 ≤ n → g.size = (n + 1) * cacheCellSize → Recoverable 0 n given g.bytes

theorem Keeping.became (h : Keeping given f) (hbecame : Became f c f' c') : Keeping given f' := by
  cases hbecame with
  | kept => exact h
  | removed => exact fun g n hg => nomatch hg
  | made g hblank =>
      intro g' n hg _ hsize
      obtain rfl := Option.some.inj hg
      refine recoverable_zero ?_
      rw [Nat.zero_add, ← hsize]
      exact hblank

/-- A mapping of such a file. -/
theorem Keeping.mapped {g : File} {ptr : Nat} (h : Keeping given (some g)) (hn : 1 ≤ n)
    (hsize : g.size = (n + 1) * cacheCellSize) (hmap : g.bytes.Agree (m.shift ptr) 0 g.size) :
    Recoverable ptr n given m := by
  refine (h g n rfl hn hsize).moved fun a hlo hhi => ?_
  rw [hmap a hlo (hsize ▸ hhi), Mem.shift, Nat.zero_add]

/-- An open cache on a file that was given no more than `given`. -/
structure Serving (given : List (Checksum × List UInt8)) (n : Nat) (cacheManager : CacheManager)
    (p : Process σ) : Prop where
  slots : 1 ≤ n
  cache : cacheManager.cache = cacheAt cacheManager.ptr n
  ptr : cacheManager.ptr ≠ 0
  size : cacheManager.memorySize = (n + 1) * cacheCellSize
  holds : ∃ rings, CacheHolds p.store.mem cacheManager.ptr n rings ∧ HoldsGiven n given rings

theorem Keeping.attached {g : File} (h : Keeping given (some g)) (hn : 1 ≤ n) (hbound : n < 2 ^ 43)
    (hattached : Attached g n cacheManager p) : Serving given n cacheManager p := by
  obtain ⟨hcache, hptr, hsize, hlength, s, hbytes, hinit⟩ := hattached
  have hthere : Recoverable cacheManager.ptr n given s.mem :=
    h.mapped hn (hlength.trans hsize) (hlength ▸ hbytes)
  obtain ⟨s', rings, hrun, hholds, hgiven, -⟩ := hthere.init hn (size_lt hbound)
  rw [hsize, hrun, EStateM.Result.ok.injEq] at hinit
  exact ⟨hn, hcache, hptr, hsize, rings, hinit.2 ▸ hholds, hgiven⟩

theorem slots_of_size (hlo : cacheManagerMb ≤ cacheSize) (hhi : cacheSize < 2 ^ 62) :
    1 ≤ cacheSize / cacheManagerMb ∧ cacheSize / cacheManagerMb < 2 ^ 43 := by
  refine ⟨Nat.div_pos hlo (by decide), ?_⟩
  rw [cacheManagerMb]
  omega

theorem Keeping.openCache (hos : os.OnDisk file offset) (h : Keeping given (file p.sys))
    (hlo : cacheManagerMb ≤ cacheSize) (hhi : cacheSize < 2 ^ 62)
    (hopen : cacheManagerOpenCache os cacheManagerInit cacheSize p = .ok (0, cacheManager) p') :
    Serving given (cacheSize / cacheManagerMb) cacheManager p' ∧
      ∃ g, file p'.sys = some g ∧ g.size = cacheManager.memorySize := by
  obtain ⟨hn, hbound⟩ := slots_of_size hlo hhi
  cases cacheManagerOpenCache_triple hos hlo p _ p' ⟨rfl, rfl⟩ hopen with
  | failed hret _ _ => exact absurd rfl hret
  | opened hbecame hsees hattached =>
      exact ⟨(h.became hbecame).attached hn hbound hattached, _, hsees.file, hattached.length⟩

theorem Keeping.failed (hos : os.OnDisk file offset) (h : Keeping given (file p.sys))
    (hlo : cacheManagerMb ≤ cacheSize) {ret : Int} (hret : ret ≠ 0)
    (hopen : cacheManagerOpenCache os cacheManagerInit cacheSize p = .ok (ret, cacheManager) p') :
    cacheManager.ptr = 0 ∧ Keeping given (file p'.sys) := by
  cases cacheManagerOpenCache_triple hos hlo p _ p' ⟨rfl, rfl⟩ hopen with
  | failed _ hptr hleaves =>
      obtain ⟨_, ⟨hbecame, -⟩, hsees⟩ := hleaves
      rw [hsees.file]
      exact ⟨hptr, h.became hbecame⟩
  | opened _ _ _ => exact absurd rfl hret

/-! ## Threads -/

theorem Serving.left (h : Serving given n cacheManager p)
    (hsteps : Interleaved cacheManager.ptr n p.store.mem threads) {d : Mem}
    (hd : DurableAmong p.store.mem threads.log d) :
    Recoverable cacheManager.ptr n (given ++ givenTo threads.begun) d := by
  obtain ⟨rings, hholds, hgiven⟩ := h.holds
  exact Recoverable.dies h.slots hholds hgiven hsteps hd

end

end Theo
