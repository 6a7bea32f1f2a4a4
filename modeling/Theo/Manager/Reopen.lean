import Theo.Manager.Calls
import Theo.Manager.Disk

set_option autoImplicit false

/-! # Reopening a cache file

Rounds of opening, insertions and releasing on one file. Between two rounds there is no file, or one of
zeros, or the one of the last round whose cache was open; and whichever of these an open finds, or
replaces, the header counts the cells that there are (`reopen_cache`). -/

namespace Theo

open ByteMachine Hoare

/-- Rounds of a process that starts as `p₀`, each with a new cache manager. `last` is the cache manager of
the last round whose cache was opened, with the process just before it was released; `now` is that of the
round that is going on. -/
inductive Rounds {σ : Type} (os : Msys σ) (p₀ : Process σ) :
    Option (CacheManager × Process σ) → Option CacheManager → Process σ → Prop where
  | start : Rounds os p₀ none none p₀
  | failed {last : Option (CacheManager × Process σ)} {cacheManager : CacheManager}
      {p p' : Process σ} {cacheSize : Nat} {ret : Int} (h : Rounds os p₀ last none p)
      (hlo : cacheManagerMb ≤ cacheSize) (hhi : cacheSize < 2 ^ 62)
      (hopen : cacheManagerOpenCache os cacheManagerInit cacheSize p = .ok (ret, cacheManager) p')
      (hret : ret ≠ 0) : Rounds os p₀ last none p'
  | failedReleased {last : Option (CacheManager × Process σ)} {cacheManager closed : CacheManager}
      {p p' p'' : Process σ} {cacheSize : Nat} {ret : Int} (h : Rounds os p₀ last none p)
      (hlo : cacheManagerMb ≤ cacheSize) (hhi : cacheSize < 2 ^ 62)
      (hopen : cacheManagerOpenCache os cacheManagerInit cacheSize p = .ok (ret, cacheManager) p')
      (hret : ret ≠ 0) (hrelease : cacheManagerRelease os cacheManager p' = .ok closed p'') :
      Rounds os p₀ last none p''
  | opened {last : Option (CacheManager × Process σ)} {cacheManager : CacheManager}
      {p p' : Process σ} {cacheSize : Nat} (h : Rounds os p₀ last none p)
      (hlo : cacheManagerMb ≤ cacheSize) (hhi : cacheSize < 2 ^ 62)
      (hopen : cacheManagerOpenCache os cacheManagerInit cacheSize p = .ok (0, cacheManager) p') :
      Rounds os p₀ last (some cacheManager) p'
  | add {last : Option (CacheManager × Process σ)} {cacheManager : CacheManager} {p p' : Process σ}
      {checksum : Checksum} {buffer : List UInt8} {added : Bool}
      (h : Rounds os p₀ last (some cacheManager) p) (hlo : 2049 ≤ buffer.length)
      (hhi : buffer.length ≤ 24576)
      (hadd : onCache (cacheManagerAddChunk cacheManager checksum buffer) p = .ok added p') :
      Rounds os p₀ last (some cacheManager) p'
  | released {last : Option (CacheManager × Process σ)} {cacheManager closed : CacheManager}
      {p p' : Process σ} (h : Rounds os p₀ last (some cacheManager) p)
      (hrelease : cacheManagerRelease os cacheManager p = .ok closed p') :
      Rounds os p₀ (some (cacheManager, p)) none p'

/-- Two cache managers answer look-ups alike, each on its memory. -/
structure AnswersAlike (cacheManager : CacheManager) (s : Store) (cacheManager' : CacheManager)
    (s' : Store) : Prop where
  hasChunk : ∀ c, ∃ has t t', cacheManagerHasChunk cacheManager c s = .ok has t ∧
    cacheManagerHasChunk cacheManager' c s' = .ok has t'
  getChunk : ∀ c chunk, ∃ got t t', cacheManagerGetChunk cacheManager c chunk s = .ok got t ∧
    cacheManagerGetChunk cacheManager' c chunk s' = .ok got t'

/-- A cache manager answers look-ups as one whose cache is empty. -/
structure AnswersEmpty (cacheManager : CacheManager) (s : Store) : Prop where
  hasChunk : ∀ c, ∃ t, cacheManagerHasChunk cacheManager c s = .ok false t
  getChunk : ∀ c chunk, ∃ t, cacheManagerGetChunk cacheManager c chunk s = .ok (false, chunk) t

section

variable {σ : Type} {os : Msys σ} {file : σ → Option File} {offset : σ → Int → Nat}
  {last : Option (CacheManager × Process σ)} {now : Option CacheManager} {p₀ p p' : Process σ}
  {f f' : Option File} {c c' n : Nat} {rings : Nat → Ring} {cacheManager : CacheManager}

/-! ## Between rounds -/

/-- The cache of a round, of `n` cells that hold `rings`. -/
structure Live (n : Nat) (rings : Nat → Ring) (cacheManager : CacheManager) (p : Process σ) :
    Prop where
  slots : 1 ≤ n
  cache : cacheManager.cache = cacheAt cacheManager.ptr n
  ptr : cacheManager.ptr ≠ 0
  size : cacheManager.memorySize = (n + 1) * cacheCellSize
  holds : CacheHolds p.store.mem cacheManager.ptr n rings

/-- The last round is the one of `cacheManager`, which ended with the cache `rings`, and the file has not
been created since. -/
structure Since (last : Option (CacheManager × Process σ)) (n : Nat) (rings : Nat → Ring) (c : Nat) :
    Prop where
  round : ∃ cacheManager p, last = some (cacheManager, p) ∧ creations p.calls = c ∧
    Live n rings cacheManager p

/-- The file between two rounds. -/
inductive Between (last : Option (CacheManager × Process σ)) : Option File → Nat → Prop where
  | absent {c : Nat} (hlast : ∀ cacheManager p, last = some (cacheManager, p) → creations p.calls ≤ c) :
      Between last none c
  | blank {c : Nat} {g : File} (hblank : g.Blank)
      (hlast : ∀ cacheManager p, last = some (cacheManager, p) → creations p.calls < c) :
      Between last (some g) c
  | image {c n : Nat} {g : File} {rings : Nat → Ring} (hlast : Since last n rings c)
      (hsize : g.size = (n + 1) * cacheCellSize) (hholds : CacheHolds g.bytes 0 n rings) :
      Between last (some g) c

theorem Between.le (h : Between last f c) : ∀ cacheManager p, last = some (cacheManager, p) →
    creations p.calls ≤ c := by
  intro cacheManager p hp
  cases h with
  | absent hlast => exact hlast cacheManager p hp
  | blank _ hlast => exact Nat.le_of_lt (hlast cacheManager p hp)
  | image hlast _ _ =>
      obtain ⟨cacheManager', p', hp', hc, -⟩ := hlast.round
      rw [hp, Option.some.injEq, Prod.mk.injEq] at hp'
      rw [hp'.2, hc]

theorem Between.became (h : Between last f c) (hbecame : Became f c f' c') : Between last f' c' := by
  cases hbecame with
  | kept => exact h
  | removed => exact .absent h.le
  | made g hblank => exact .blank hblank fun cacheManager p hp => Nat.lt_succ_of_le (h.le _ p hp)

/-! ## Opening -/

/-- What an open cache holds, given the file it was opened on: what the last round ended with, or
nothing. -/
inductive Reopened (last : Option (CacheManager × Process σ)) (n : Nat) (rings : Nat → Ring) (c : Nat) :
    Prop where
  | same (hlast : Since last n rings c)
  | anew (hrings : rings = fun _ => Ring.empty)
      (hlast : ∀ cacheManager p, last = some (cacheManager, p) → creations p.calls < c)

/-- A cache that is opened on the image of one holds what that held. -/
theorem Attached.live {g : File} (h : Attached g n cacheManager p) (hn : 1 ≤ n)
    (hholds : CacheHolds g.bytes 0 n rings) : Live n rings cacheManager p := by
  obtain ⟨hcache, hptr, hsize, hlength, s, hbytes, hinit⟩ := h
  have hslots : cacheManager.memorySize / cacheCellSize = n + 1 := by rw [hsize, slots_eq]
  have hmoved : CacheHolds s.mem cacheManager.ptr n rings := by
    refine hholds.moved (hsize ▸ fun a hlo hhi => ?_)
    rw [hbytes a hlo hhi, Mem.shift, Nat.zero_add]
  obtain ⟨s', hrun, hholds'⟩ := cacheInit_holds hn hslots hmoved
  rw [hinit, EStateM.Result.ok.injEq] at hrun
  exact ⟨hn, hcache, hptr, hsize, hrun.2 ▸ hholds'⟩

theorem Between.opened {g : File} (h : Between last (some g) c) (hn : 1 ≤ n) (hbound : n < 2 ^ 43)
    (hattached : Attached g n cacheManager p) :
    ∃ rings, Live n rings cacheManager p ∧ Reopened last n rings c := by
  cases h with
  | blank hblank hlast =>
      -- zeros have no magic, so `cache_init` writes a header and empty cells
      obtain ⟨hcache, hptr, hsize, hlength, s, hbytes, hinit⟩ := hattached
      have hslots : cacheManager.memorySize / cacheCellSize = n + 1 := by rw [hsize, slots_eq]
      have hz : s.mem.Zero cacheManager.ptr (cacheManager.ptr + cacheManager.memorySize) := by
        intro a hlo hhi
        have hshift := hbytes.zero (hlength ▸ hblank) (a - cacheManager.ptr) (Nat.zero_le _) (by omega)
        rwa [Mem.shift, Nat.add_sub_cancel' hlo] at hshift
      obtain ⟨s', hrun, hholds, -⟩ := cacheInit_zero hn hslots
        (by rw [hsize, cacheCellSize]; omega) hz
      rw [hinit, EStateM.Result.ok.injEq] at hrun
      exact ⟨_, ⟨hn, hcache, hptr, hsize, hrun.2 ▸ hholds⟩, .anew rfl hlast⟩
  | @image _ n' _ rings hlast hsize' hholds =>
      -- the size fixes the number of cells, so the header in the file counts those of this round
      have hcells : n' = n := by
        have hsize := hattached.length.trans hattached.size
        rw [hsize', cacheCellSize] at hsize
        omega
      subst hcells
      exact ⟨rings, hattached.live hn hholds, .same hlast⟩

/-- A round that opens its cache. -/
theorem Between.openCache (hos : os.OnDisk file offset) {cacheSize : Nat} (h : Between last f c)
    (hsees : Sees file f c p) (hlo : cacheManagerMb ≤ cacheSize) (hhi : cacheSize < 2 ^ 62)
    (hopen : cacheManagerOpenCache os cacheManagerInit cacheSize p = .ok (0, cacheManager) p') :
    ∃ n rings g c', Live n rings cacheManager p' ∧ Sees file (some g) c' p' ∧
      g.size = cacheManager.memorySize ∧ Reopened last n rings c' ∧
      cacheManager.memorySize = cacheManagerFilesize cacheSize := by
  have hbound : cacheSize / cacheManagerMb < 2 ^ 43 := by
    rw [cacheManagerMb]
    omega
  have hslots : 1 ≤ cacheSize / cacheManagerMb := Nat.div_pos hlo (by decide)
  cases cacheManagerOpenCache_triple hos hlo p _ p' hsees hopen with
  | failed hret _ _ => exact absurd rfl hret
  | opened hbecame hsees' hattached =>
      obtain ⟨rings, hlive, hopened⟩ := (h.became hbecame).opened hslots hbound hattached
      exact ⟨_, rings, _, _, hlive, hsees', hattached.length, hopened, hattached.size⟩

/-- A round that fails to. -/
theorem Between.failed (hos : os.OnDisk file offset) {cacheSize : Nat} {ret : Int}
    (h : Between last f c) (hsees : Sees file f c p) (hlo : cacheManagerMb ≤ cacheSize)
    (hopen : cacheManagerOpenCache os cacheManagerInit cacheSize p = .ok (ret, cacheManager) p')
    (hret : ret ≠ 0) : cacheManager.ptr = 0 ∧ ∃ f' c', Between last f' c' ∧ Sees file f' c' p' := by
  cases cacheManagerOpenCache_triple hos hlo p _ p' hsees hopen with
  | failed _ hptr hleaves =>
      obtain ⟨⟨f', c'⟩, ⟨hbecame, -⟩, hsees'⟩ := hleaves
      exact ⟨hptr, f', c', h.became hbecame, hsees'⟩
  | opened _ _ _ => exact absurd rfl hret

/-! ## Runs -/

/-- What holds while no round is going on, and in the middle of one. -/
def RoundsInv (file : σ → Option File) (last : Option (CacheManager × Process σ)) (p : Process σ) :
    Option CacheManager → Prop
  | none => ∃ f c, Between last f c ∧ Sees file f c p
  | some cacheManager => ∃ n rings g c, Live n rings cacheManager p ∧ Sees file (some g) c p ∧
      g.size = cacheManager.memorySize

theorem Live.add (h : Live n rings cacheManager p) {checksum : Checksum} {buffer : List UInt8}
    {added : Bool} (hlo : 2049 ≤ buffer.length) (hhi : buffer.length ≤ 24576)
    (hadd : onCache (cacheManagerAddChunk cacheManager checksum buffer) p = .ok added p') :
    (∃ rings', Live n rings' cacheManager p') ∧ p'.sys = p.sys ∧ p'.calls = p.calls := by
  have hstep : Triple (fun q => q = p) (onCache (cacheManagerAddChunk cacheManager checksum buffer))
      (fun _ q => (∃ rings', Live n rings' cacheManager q) ∧ q.sys = p.sys ∧ q.calls = p.calls) := by
    refine onCache_triple fun q added s hq hrun => ?_
    subst hq
    obtain ⟨r', -, hholds⟩ := cacheManagerAddChunk_holds h.cache h.holds h.slots hlo hhi hrun
    exact ⟨⟨_, h.slots, h.cache, h.ptr, h.size, hholds⟩, rfl, rfl⟩
  exact hstep p added p' rfl hadd

/-- Releasing a cache leaves it in the file. -/
theorem Live.released (hos : os.OnDisk file offset) (h : Live n rings cacheManager p) {g : File}
    (hsees : Sees file (some g) c p) (hlength : g.size = cacheManager.memorySize)
    {closed : CacheManager} (hrelease : cacheManagerRelease os cacheManager p = .ok closed p') :
    ∃ g', Between (some (cacheManager, p)) (some g') c ∧ Sees file (some g') c p' ∧
      g'.size = cacheManager.memorySize := by
  obtain ⟨-, f, hunmapped, hsees'⟩ :=
    cacheManagerRelease_triple hos cacheManager p closed p' ⟨hsees, rfl⟩ hrelease
  obtain ⟨g', rfl, hsize, hbytes⟩ := hunmapped.2 g h.ptr rfl
  rw [hlength, Nat.min_self, h.size] at hbytes
  refine ⟨g', .image ⟨cacheManager, p, rfl, hsees.created, h⟩ ?_ ?_, hsees', hsize.trans hlength⟩
  · rw [hsize, hlength, h.size]
  · refine h.holds.moved fun a hlo hhi => ?_
    rw [Mem.shift, Nat.zero_add]
    exact hbytes a hlo hhi

theorem Rounds.inv (hos : os.OnDisk file offset) (hfile : file p₀.sys = none)
    (h : Rounds os p₀ last now p) : RoundsInv file last p now := by
  induction h with
  | start =>
      refine ⟨none, _, Between.absent fun _ _ hlast => ?_, ⟨hfile, rfl⟩⟩
      cases hlast
  | failed _ hlo _ hopen hret ih =>
      -- an open that fails has kept the file, removed it or left zeros
      obtain ⟨f, c, hbetween, hsees⟩ := ih
      exact (hbetween.failed hos hsees hlo hopen hret).2
  | failedReleased _ hlo _ hopen hret hrelease ih =>
      obtain ⟨f, c, hbetween, hsees⟩ := ih
      obtain ⟨hptr, f', c', hbetween', hsees'⟩ := hbetween.failed hos hsees hlo hopen hret
      exact ⟨f', c', hbetween', (cacheManagerRelease_unmapped hos hptr _ _ _ hsees' hrelease).2⟩
  | opened _ hlo hhi hopen ih =>
      obtain ⟨f, c, hbetween, hsees⟩ := ih
      obtain ⟨n, rings, g, c', hlive, hsees', hlength, -⟩ := hbetween.openCache hos hsees hlo hhi hopen
      exact ⟨n, rings, g, c', hlive, hsees', hlength⟩
  | add _ hlo hhi hadd ih =>
      obtain ⟨n, rings, g, c, hlive, hsees, hlength⟩ := ih
      obtain ⟨⟨rings', hlive'⟩, hsys, hcalls⟩ := hlive.add hlo hhi hadd
      exact ⟨n, rings', g, c, hlive', ⟨hsys ▸ hsees.file, hcalls ▸ hsees.created⟩, hlength⟩
  | released _ hrelease ih =>
      obtain ⟨n, rings, g, c, hlive, hsees, hlength⟩ := ih
      obtain ⟨g', hbetween, hsees', -⟩ := hlive.released hos hsees hlength hrelease
      exact ⟨some g', c, hbetween, hsees'⟩

/-! ## Answers -/

theorem Live.answersAlike {cacheManager' : CacheManager} (h : Live n rings cacheManager p)
    (h' : Live n rings cacheManager' p') :
    AnswersAlike cacheManager p.store cacheManager' p'.store where
  hasChunk c := ⟨_, _, _, cacheManagerHasChunk_run h.cache h.holds h.slots c,
    cacheManagerHasChunk_run h'.cache h'.holds h'.slots c⟩
  getChunk c chunk := ⟨_, _, _, cacheManagerGetChunk_run h.cache h.holds h.slots c chunk,
    cacheManagerGetChunk_run h'.cache h'.holds h'.slots c chunk⟩

theorem Live.answersEmpty (h : Live n (fun _ => Ring.empty) cacheManager p) :
    AnswersEmpty cacheManager p.store where
  hasChunk c := ⟨_, cacheManagerHasChunk_run h.cache h.holds h.slots c⟩
  getChunk c chunk := ⟨_, cacheManagerGetChunk_run h.cache h.holds h.slots c chunk⟩

/-- A cache that is opened counts the cells it has, every checksum has a cell, and it answers as the last
one that was open before it was released; or as an empty one, if the file has been created
since. -/
theorem reopen_cache (hos : os.OnDisk file offset) (hfile : file p₀.sys = none)
    (h : Rounds os p₀ last none p) {cacheSize : Nat} (hlo : cacheManagerMb ≤ cacheSize)
    (hhi : cacheSize < 2 ^ 62)
    (hopen : cacheManagerOpenCache os cacheManagerInit cacheSize p = .ok (0, cacheManager) p') :
    (∃ g, file p'.sys = some g ∧ g.size = cacheManager.memorySize) ∧
    cacheCellCount p'.store.mem cacheManager.cache.cacheHeader =
      cacheManager.memorySize / cacheManagerMb - 1 ∧
    cacheManager.cache.cells.length = cacheManager.memorySize / cacheManagerMb - 1 ∧
    (∀ checksum, ∃ cell ∈ cacheManager.cache.cells,
      cacheGetCellIndex cacheManager.cache checksum p'.store = .ok cell p'.store) ∧
    (∀ before q, last = some (before, q) → creations p'.calls = creations q.calls →
      AnswersAlike before q.store cacheManager p'.store) ∧
    ((∀ before q, last = some (before, q) → creations p'.calls ≠ creations q.calls) →
      AnswersEmpty cacheManager p'.store) := by
  obtain ⟨f, c, hbetween, hsees⟩ := h.inv hos hfile
  obtain ⟨n, rings, g, c', hlive, hsees', hlength, hopened, -⟩ :=
    hbetween.openCache hos hsees hlo hhi hopen
  have hcells : cacheManager.memorySize / cacheManagerMb - 1 = n := by
    have hslots : cacheManager.memorySize / cacheManagerMb = n + 1 := by
      rw [hlive.size]
      exact slots_eq n
    rw [hslots, Nat.add_sub_cancel]
  rw [hcells]
  refine ⟨⟨g, hsees'.file, hlength⟩, ?_, ?_, fun checksum => ?_, ?_, ?_⟩
  · rw [hlive.cache]
    exact hlive.holds.count
  · rw [hlive.cache, cacheAt, List.length_map, List.length_range]
  · rw [hlive.cache]
    refine ⟨_, ?_, cacheGetCellIndex_run hlive.holds hlive.slots checksum⟩
    exact List.mem_map.2 ⟨_, List.mem_range.2 (Nat.mod_lt _ hlive.slots), rfl⟩
  · intro before q hlast hsame
    cases hopened with
    | same hsince =>
        obtain ⟨before', q', hlast', -, hbefore⟩ := hsince.round
        rw [hlast, Option.some.injEq, Prod.mk.injEq] at hlast'
        obtain ⟨rfl, rfl⟩ := hlast'
        exact hbefore.answersAlike hlive
    | anew _ hlt =>
        have hcreated := hlt before q hlast
        rw [← hsees'.created, hsame] at hcreated
        exact absurd hcreated (Nat.lt_irrefl _)
  · intro hnone
    cases hopened with
    | same hsince =>
        obtain ⟨before, q, hlast, hc, -⟩ := hsince.round
        exact absurd (hsees'.created.trans hc.symm) (hnone before q hlast)
    | anew hrings _ =>
        subst hrings
        exact hlive.answersEmpty

/-! ## A disk on which every call succeeds -/

/-- The file and the offset of the one descriptor. -/
structure Disk where
  file : Option File
  offset : Nat

def msysDisk : Msys Disk where
  stat disk := (disk.file.map File.size, disk)
  unlink disk := (0, { disk with file := none })
  openFile create disk :=
    (3, ⟨if create then some (disk.file.getD File.empty) else disk.file, 0⟩)
  write _ bytes disk :=
    (bytes.length, ⟨disk.file.map fun f => f.write disk.offset bytes, disk.offset + bytes.length⟩)
  fsync _ disk := (0, disk)
  close _ disk := (0, disk)
  mmap _ _ _ disk := (.mapped 4096 ((disk.file.getD File.empty).bytes), disk)
  munmap _ length bytes disk :=
    (0, { disk with file := disk.file.map fun f =>
      ⟨f.size, fun i => if i < length then bytes i else f.bytes i⟩ })

theorem msysDisk_onDisk : msysDisk.OnDisk Disk.file fun disk _ => disk.offset where
  stat _ := ⟨rfl, rfl⟩
  unlink _ := rfl
  openFailed _ _ h := absurd h (show ¬ (3 : Int) < 0 by decide)
  opened _ _ := rfl
  created _ _ := ⟨rfl, rfl⟩
  writeFailed _ bytes _ h := absurd h (Int.not_lt.2 (Int.natCast_nonneg bytes.length))
  written := by
    intro fd bytes disk f hfile _
    refine ⟨Int.le_refl _, ?_, ?_⟩
    · show disk.file.map _ = some (f.write disk.offset (bytes.take (bytes.length : Int).toNat))
      rw [Int.toNat_natCast, List.take_length, hfile]
      rfl
    · show disk.offset + bytes.length = disk.offset + (bytes.length : Int).toNat
      rw [Int.toNat_natCast]
  fsync _ _ := rfl
  close _ _ := rfl
  mmap _ _ _ _ := rfl
  mapped := by
    intro length sync fd disk ptr bytes f hfile h
    obtain ⟨rfl, rfl⟩ := Mapping.mapped.inj h
    rw [hfile]
    exact ⟨by decide, Mem.Agree.refl _ _ _⟩
  munmap := by
    intro ptr length bytes disk f hfile _
    refine ⟨_, congrArg (Option.map _) hfile, rfl, fun a _ ha => ?_⟩
    exact if_pos (Nat.lt_of_lt_of_le ha (Nat.min_le_left _ _))

theorem disk_writeLoop (fd : Int) (fuel : Nat) (p : Process Disk) :
    ∃ p', createFileWriteLoop msysDisk fd (fuel + 1) 0 p = .ok 0 p' := by
  have hwrite : ∃ p', msysWrite msysDisk fd (List.replicate (cacheManagerMb - 0) 0) p =
      .ok ((List.replicate (cacheManagerMb - 0) (0 : UInt8)).length : Int) p' := ⟨_, rfl⟩
  obtain ⟨p', hrun⟩ := hwrite
  rw [List.length_replicate] at hrun
  refine ⟨p', ?_⟩
  rw [createFileWriteLoop, sys_bind_ok hrun, if_neg (Int.not_lt.2 (Int.natCast_nonneg _)),
    Int.toNat_natCast, if_neg (by decide)]
  rfl

theorem disk_createLoop (fd : Int) (n : Nat) (p : Process Disk) :
    ∃ p', createFileLoop msysDisk fd n p = .ok 0 p' := by
  induction n generalizing p with
  | zero => exact ⟨p, rfl⟩
  | succ n ih =>
      have hone : ∃ p₁, createFileWriteLoop msysDisk fd cacheManagerMb 0 p = .ok 0 p₁ :=
        disk_writeLoop fd 1048575 p
      obtain ⟨p₁, hrun⟩ := hone
      obtain ⟨p', hrest⟩ := ih p₁
      refine ⟨p', ?_⟩
      rw [createFileLoop, sys_bind_ok hrun, if_neg (by decide)]
      exact hrest

theorem disk_create (size : Nat) (p : Process Disk) :
    ∃ p', cacheManagerCreateFile msysDisk size p = .ok 0 p' := by
  have hopen : ∃ p₁, msysOpen msysDisk true p = .ok 3 p₁ := ⟨_, rfl⟩
  obtain ⟨p₁, hopen⟩ := hopen
  have hmalloc : (note .xmallocBuffer : Sys Disk Unit) p₁ = .ok () (p₁.note .xmallocBuffer) := rfl
  obtain ⟨p₂, hloop⟩ := disk_createLoop 3 (size / cacheManagerMb) (p₁.note .xmallocBuffer)
  have hsync : ∃ p₃, createFileSync msysDisk 3 0 p₂ = .ok () p₃ := ⟨_, rfl⟩
  obtain ⟨p₃, hsync⟩ := hsync
  have hclose : ∃ p₄, msysClose msysDisk 3 p₃ = .ok 0 p₄ := ⟨_, rfl⟩
  obtain ⟨p₄, hclose⟩ := hclose
  have hfree : (note .xfreeBuffer : Sys Disk Unit) p₄ = .ok () (p₄.note .xfreeBuffer) := rfl
  refine ⟨p₄.note .xfreeBuffer, ?_⟩
  rw [cacheManagerCreateFile, sys_bind_ok hopen, if_neg (by decide), sys_bind_ok hmalloc,
    sys_bind_ok hloop, sys_bind_ok hsync, sys_bind_ok hclose, sysAlways_bind (decide_eq_true rfl),
    sys_bind_ok hfree]
  rfl

theorem disk_check (size : Nat) (p : Process Disk) :
    ∃ p', cacheManagerCheckFile msysDisk size p = .ok 0 p' := by
  have hstat : ∃ p₁, msysStat msysDisk p = .ok (p.sys.file.map File.size) p₁ := ⟨_, rfl⟩
  obtain ⟨p₁, hstat⟩ := hstat
  rw [cacheManagerCheckFile, sys_bind_ok hstat]
  cases p.sys.file.map File.size with
  | none => exact disk_create size p₁
  | some length =>
      have hunlink : ∃ p₂, msysUnlink msysDisk p₁ = .ok 0 p₂ := ⟨_, rfl⟩
      obtain ⟨p₂, hunlink⟩ := hunlink
      show ∃ p', (if length ≠ size then _ else _ : Sys Disk Int) p₁ = .ok 0 p'
      split
      · rw [sys_bind_ok hunlink, if_neg (by decide)]
        exact disk_create size p₂
      · exact ⟨p₁, rfl⟩

/-- Opening succeeds. -/
theorem disk_open {cacheSize : Nat} (hlo : cacheManagerMb ≤ cacheSize) (p : Process Disk) :
    ∃ cacheManager p', cacheManagerOpenCache msysDisk cacheManagerInit cacheSize p =
      .ok (0, cacheManager) p' := by
  have hslots : cacheManagerFilesize cacheSize / cacheCellSize = cacheSize / cacheManagerMb + 1 :=
    slots_eq _
  obtain ⟨p₁, hcheck⟩ := disk_check (cacheManagerFilesize cacheSize) p
  have hopen : ∃ p₂, msysOpen msysDisk false p₁ = .ok 3 p₂ := ⟨_, rfl⟩
  obtain ⟨p₂, hopen⟩ := hopen
  have hmap : ∃ bytes p₃, msysMmap msysDisk (cacheManagerFilesize cacheSize) true 3 p₂ =
      .ok (.mapped 4096 bytes) p₃ := ⟨_, _, rfl⟩
  obtain ⟨bytes, p₃, hmap⟩ := hmap
  have hnote : (note (.cacheInit 4096) : Sys Disk Unit) p₃ = .ok () (p₃.note (.cacheInit 4096)) := rfl
  obtain ⟨s, hinit, -⟩ := cacheInit_spec 4096 (Nat.div_pos hlo (by decide)) hslots p₃.store
  have hcache : onCache (cacheInit 4096 (cacheManagerFilesize cacheSize)) (p₃.note (.cacheInit 4096)) =
      .ok (cacheAt 4096 (cacheSize / cacheManagerMb)) { p₃.note (.cacheInit 4096) with store := s } :=
    onCache_ok hinit
  let cacheManager : CacheManager := ⟨⟨[], 0⟩, 0, cacheManagerFilesize cacheSize, 3, true⟩
  have hmapped : cacheManagerOpenCache msysDisk cacheManagerInit cacheSize p =
      cacheManagerMapped cacheManager 4096 p₃ := by
    rw [cacheManagerOpenCache, sys_bind_ok hcheck, if_neg (by decide), sys_bind_ok hopen,
      if_neg (by decide), cacheManagerMap, sys_bind_ok hmap]
    rfl
  refine ⟨{ cacheManager with ptr := 4096, cache := cacheAt 4096 (cacheSize / cacheManagerMb) },
    { p₃.note (.cacheInit 4096) with store := s }, ?_⟩
  rw [hmapped, cacheManagerMapped, sys_bind_ok hnote, sys_bind_ok hcache]
  rfl

/-- Releasing succeeds. -/
theorem disk_release {p : Process Disk} (h : Live n rings cacheManager p) :
    ∃ closed p', cacheManagerRelease msysDisk cacheManager p = .ok closed p' := by
  have hcells : cacheManager.cache.cells ≠ [] := by
    apply List.ne_nil_of_length_pos
    rw [h.cache, cacheAt, List.length_map, List.length_range]
    exact h.slots
  have hload : onCache (load (cacheCellCount · cacheManager.cache.cacheHeader)) p = .ok n p := by
    rw [h.cache]
    exact onCache_ok (congrArg (EStateM.Result.ok · p.store) h.holds.count)
  have hloop : onCache (cacheReleaseLoop cacheManager.cache 0 n) p = .ok () p := by
    refine onCache_ok (cacheReleaseLoop_run ?_ p.store)
    rw [h.cache, cacheAt, List.length_map, List.length_range, Nat.zero_add]
  have hrelease : ∃ p₁, cacheRelease cacheManager.cache p =
      .ok { cacheManager.cache with cells := [] } p₁ := by
    rw [cacheRelease, if_neg hcells, sys_bind_ok hload, sys_bind_ok hloop]
    exact ⟨_, rfl⟩
  obtain ⟨p₁, hrelease⟩ := hrelease
  have hunmap : ∃ unmapped p₂, cacheManagerUnmap msysDisk
      { cacheManager with cache := { cacheManager.cache with cells := [] } } p₁ = .ok unmapped p₂ := by
    rw [cacheManagerUnmap, if_pos h.ptr]
    exact ⟨_, _, rfl⟩
  obtain ⟨unmapped, p₂, hunmap⟩ := hunmap
  have hclose : ∃ closed p', cacheManagerClose msysDisk unmapped p₂ = .ok closed p' := by
    rw [cacheManagerClose]
    split
    · exact ⟨_, _, rfl⟩
    · exact ⟨_, _, rfl⟩
  obtain ⟨closed, p', hclose⟩ := hclose
  refine ⟨closed, p', ?_⟩
  rw [cacheManagerRelease, sys_bind_ok hrelease, sys_bind_ok hunmap, hclose]

/-- The first cache on the disk is empty. -/
theorem disk_first : ∃ cacheManager p' g c,
    cacheManagerOpenCache msysDisk cacheManagerInit cacheManagerMb ⟨⟨none, 0⟩, [], zeroed⟩ =
      .ok (0, cacheManager) p' ∧
    Live (cacheManagerMb / cacheManagerMb) (fun _ => Ring.empty) cacheManager p' ∧
    Sees Disk.file (some g) c p' ∧ g.size = cacheManager.memorySize ∧
    cacheManager.memorySize = cacheManagerFilesize cacheManagerMb := by
  have hos := msysDisk_onDisk
  have hlo : cacheManagerMb ≤ cacheManagerMb := Nat.le_refl _
  have hhi : cacheManagerMb < 2 ^ 62 := by decide
  let p₀ : Process Disk := ⟨⟨none, 0⟩, [], zeroed⟩
  obtain ⟨cacheManager, p', hopen⟩ := disk_open hlo p₀
  have hstart : Between (σ := Disk) none none 0 := .absent fun _ _ hlast => by cases hlast
  have hsees₀ : Sees Disk.file none 0 p₀ := ⟨rfl, rfl⟩
  obtain ⟨n, rings, g, c, hlive, hsees, hlength, hopened, hsize⟩ :=
    hstart.openCache hos hsees₀ hlo hhi hopen
  have hempty : rings = fun _ => Ring.empty := by
    cases hopened with
    | same hsince =>
        obtain ⟨_, _, hnone, -⟩ := hsince.round
        cases hnone
    | anew hrings _ => exact hrings
  have hone : n = cacheManagerMb / cacheManagerMb := by
    have hcells := hlive.size.symm.trans hsize
    rw [cacheManagerFilesize, cacheManagerMb, cacheCellSize] at hcells
    rw [cacheManagerMb]
    omega
  subst hempty hone
  exact ⟨cacheManager, p', g, c, hopen, hlive, hsees, hlength, hsize⟩

/-- A round that adds a chunk, and the file opened again: the chunk is there. -/
theorem reopen_cache_disk : ∃ before q p cacheManager p',
    Rounds msysDisk ⟨⟨none, 0⟩, [], zeroed⟩ (some (before, q)) none p ∧
    cacheManagerOpenCache msysDisk cacheManagerInit cacheManagerMb p = .ok (0, cacheManager) p' ∧
    cacheManager.cache.cells.length = cacheManager.memorySize / cacheManagerMb - 1 ∧
    creations p'.calls = creations q.calls ∧
    (∃ t, cacheManagerHasChunk before (.fill 1) q.store = .ok true t) ∧
    ∃ t, cacheManagerHasChunk cacheManager (.fill 1) p'.store = .ok true t := by
  have hos := msysDisk_onDisk
  have hlo : cacheManagerMb ≤ cacheManagerMb := Nat.le_refl _
  have hhi : cacheManagerMb < 2 ^ 62 := by decide
  let p₀ : Process Disk := ⟨⟨none, 0⟩, [], zeroed⟩
  have hstart : Rounds msysDisk p₀ none none p₀ := .start
  obtain ⟨before, p₁, g, c', hopen, hlive, hsees₁, hlength, hsize⟩ := disk_first
  -- the chunk
  obtain ⟨s, hadd, hholds⟩ := cacheManagerAddChunk_run hlive.cache hlive.holds hlive.slots
    someBytes_sized.1 someBytes_sized.2 (Ring.empty_insert (.fill 1) someBytes_sized.2)
  let q : Process Disk := { p₁ with store := s }
  have hadded : onCache (cacheManagerAddChunk before (.fill 1) (someBytes 2049)) p₁ = .ok true q :=
    onCache_ok hadd
  have hlive' : Live _ _ before q := ⟨hlive.slots, hlive.cache, hlive.ptr, hlive.size, hholds⟩
  have hstored : ∃ t, cacheManagerHasChunk before (.fill 1) q.store = .ok true t := by
    have hhas := cacheManagerHasChunk_run hlive'.cache hlive'.holds hlive'.slots (.fill 1)
    rw [Function.update_self] at hhas
    exact ⟨_, hhas⟩
  -- the file
  obtain ⟨closed, p, hrelease⟩ := disk_release hlive'
  have hseesq : Sees Disk.file (some g) c' q := ⟨hsees₁.file, hsees₁.created⟩
  obtain ⟨g', -, hsees', hlength'⟩ := hlive'.released hos hseesq hlength hrelease
  have hrounds := ((hstart.opened hlo hhi hopen).add someBytes_sized.1 someBytes_sized.2
    hadded).released hrelease
  obtain ⟨cacheManager, p', hreopen⟩ := disk_open hlo p
  have hsame : creations p'.calls = creations q.calls :=
    ((cacheManagerOpenCache_keeps hos (hlength'.trans hsize) p _ p' hsees' hreopen).created).trans
      hseesq.created.symm
  obtain ⟨-, -, hcells, -, halike, -⟩ := reopen_cache hos rfl hrounds hlo hhi hreopen
  refine ⟨before, q, p, cacheManager, p', hrounds, hreopen, hcells, hsame, hstored, ?_⟩
  obtain ⟨has, t, t', hbefore, hafter⟩ := (halike before q rfl hsame).hasChunk (.fill 1)
  obtain ⟨t₀, hstored⟩ := hstored
  rw [hstored, EStateM.Result.ok.injEq] at hbefore
  rw [← hbefore.1] at hafter
  exact ⟨t', hafter⟩

end

end Theo
