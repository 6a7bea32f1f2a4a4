import Theo.Manager.Calls

set_option autoImplicit false

/-! # The resources of a cache manager

Descriptors, mappings and allocated memory as resources that the calls of a process acquire, use and
release. However the system calls turn out, a cache manager that was opened and released has released
everything that it acquired, once, and has used nothing that it did not hold, unless the file that was
mapped has the header of a larger cache (`open_release_resources`). -/

namespace Theo

open ByteMachine Ledger

inductive Resource where
  | fd (n : Int)
  | mapping (ptr length : Nat)
  | buffer
  | cells
deriving DecidableEq

/-- The resource is a mapping at `ptr`. -/
def Resource.mappedAt (ptr : Nat) : Resource → Bool
  | .mapping ptr' _ => ptr' = ptr
  | _ => false

/-- What a call does to resources. -/
def SysCall.ops : SysCall → List (Op Resource)
  | .stat _ => []
  | .unlink _ => []
  | .openFile _ fd => if fd < 0 then [] else [.acquire (.fd fd)]
  | .write fd _ _ => [.use (· = .fd fd)]
  | .fsync fd _ => [.use (· = .fd fd)]
  | .close fd _ => [.release (.fd fd)]
  | .mmap length fd (.mapped ptr _) => [.use (· = .fd fd), .acquire (.mapping ptr length)]
  | .mmap _ fd (.failed _) => [.use (· = .fd fd)]
  | .munmap ptr length _ => [.release (.mapping ptr length)]
  | .xmallocBuffer => [.acquire .buffer]
  | .xfreeBuffer => [.release .buffer]
  | .cacheInit ptr => [.use (Resource.mappedAt ptr), .acquire .cells]
  | .xfreeCells cacheHeader => [.use (Resource.mappedAt cacheHeader), .release .cells]

/-- Calls that only happen if the file gets mapped. -/
def SysCall.isMilestone : SysCall → Bool
  | .mmap _ _ (.mapped _ _) => true
  | .cacheInit _ => true
  | _ => false

/-- If the call maps a file with the header of a cache, the header counts no more cells than the file
has slots for. -/
def SysCall.HeaderCounts : SysCall → Prop
  | .mmap length _ (.mapped _ bytes) =>
      cacheMagic bytes 0 = cacheHeaderMagic → cacheCellCount bytes 0 ≤ length / cacheCellSize - 1
  | _ => True

/-- What is relied on: opening fails with -1; writing some bytes fails, or writes at least one of them;
closing, synchronising and unmapping succeed; and nothing is mapped at address 0. -/
structure Msys.Regular {σ : Type} (os : Msys σ) : Prop where
  openFile : ∀ create s, (os.openFile create s).1 = -1 ∨ 0 ≤ (os.openFile create s).1
  write : ∀ fd bytes s, bytes ≠ [] →
    (os.write fd bytes s).1 < 0 ∨ 0 < (os.write fd bytes s).1 ∧ (os.write fd bytes s).1 ≤ bytes.length
  fsync : ∀ fd s, (os.fsync fd s).1 = 0
  close : ∀ fd s, (os.close fd s).1 = 0
  munmap : ∀ ptr length bytes s, (os.munmap ptr length bytes s).1 = 0
  mmap : ∀ length sync fd s ptr bytes, (os.mmap length sync fd s).1 = .mapped ptr bytes → ptr ≠ 0

/-- Further calls, which turn the resources `held` into `held'`; `milestones` are those of them that only
happen if the file gets mapped. -/
def Steps {σ : Type} (p p' : Process σ) (held held' : List Resource) (milestones : List SysCall) :
    Prop :=
  ∃ calls, p'.calls = p.calls ++ calls ∧ Ledger.run held (calls.flatMap SysCall.ops) = some held' ∧
    calls.filter SysCall.isMilestone = milestones

section

variable {σ α β : Type} {os : Msys σ} {p p' p'' : Process σ} {held held' held'' : List Resource}
  {ms ms' : List SysCall} {cacheManager : CacheManager}

namespace Steps

theorem refl (p : Process σ) (held : List Resource) : Steps p p held held [] :=
  ⟨[], (List.append_nil _).symm, rfl, rfl⟩

theorem trans (h : Steps p p' held held' ms) (h' : Steps p' p'' held' held'' ms') :
    Steps p p'' held held'' (ms ++ ms') := by
  obtain ⟨calls, hcalls, hrun, hms⟩ := h
  obtain ⟨calls', hcalls', hrun', hms'⟩ := h'
  refine ⟨calls ++ calls', by rw [hcalls', hcalls, List.append_assoc], ?_, ?_⟩
  · rw [List.flatMap_append, Ledger.run_append, hrun, Option.bind_some, hrun']
  · rw [List.filter_append, hms, hms']

/-- One call. -/
theorem note {p₀ : Process σ} (hcalls : p₀.calls = p.calls) {call : SysCall}
    (h : Ledger.run held call.ops = some held') :
    Steps p (p₀.note call) held held' ([call].filter SysCall.isMilestone) :=
  ⟨[call], by rw [Process.note, hcalls], by rw [List.flatMap_singleton, h], rfl⟩

end Steps

/-- A held descriptor can be used. -/
theorem run_use_fd {fd : Int} (h : Resource.fd fd ∈ held) (ops : List (Op Resource)) :
    Ledger.run held (.use (· = .fd fd) :: ops) = Ledger.run held ops :=
  run_use (List.any_eq_true.2 ⟨_, h, decide_eq_true rfl⟩) ops

/-- A system call. -/
theorem sysCall_steps {call : σ → α × σ} {record : α → SysCall} {p : Process σ}
    (h : Ledger.run held (record (call p.sys).1).ops = some held') : ∃ p',
      sysCall call record p = .ok (call p.sys).1 p' ∧
      Steps p p' held held' ([record (call p.sys).1].filter SysCall.isMilestone) :=
  ⟨_, rfl, Steps.note rfl h⟩

theorem msysClose_steps (hos : os.Regular) {fd : Int} (hfd : Resource.fd fd ∈ held)
    (p : Process σ) : ∃ p', msysClose os fd p = .ok 0 p' ∧
      Steps p p' held (held.erase (.fd fd)) [] := by
  have hcall : ∃ p', msysClose os fd p = .ok (os.close fd p.sys).1 p' ∧
      Steps p p' held (held.erase (.fd fd)) [] := sysCall_steps (run_release hfd [])
  rwa [hos.close] at hcall

/-- Opening the file fails, or acquires a descriptor. -/
theorem msysOpen_steps (hos : os.Regular) (create : Bool) (p : Process σ) :
    (∃ p', msysOpen os create p = .ok (-1) p' ∧ Steps p p' [] [] []) ∨
    ∃ fd p', 0 ≤ fd ∧ msysOpen os create p = .ok fd p' ∧ Steps p p' [] [.fd fd] [] := by
  obtain ⟨fd, hfd⟩ : ∃ fd, fd = (os.openFile create p.sys).1 := ⟨_, rfl⟩
  have hcases := hos.openFile create p.sys
  rw [← hfd] at hcases
  rcases hcases with rfl | hpos
  · left
    have hopen : ∃ p', msysOpen os create p = .ok (os.openFile create p.sys).1 p' ∧
        Steps p p' [] [] [] := sysCall_steps (by rw [← hfd]; rfl)
    rwa [← hfd] at hopen
  · right
    have hopen : ∃ p', msysOpen os create p = .ok (os.openFile create p.sys).1 p' ∧
        Steps p p' [] [.fd fd] [] := by
      refine sysCall_steps ?_
      rw [← hfd, SysCall.ops, if_neg (Int.not_lt.2 hpos)]
      rfl
    rw [← hfd] at hopen
    obtain ⟨p', hrun, hsteps⟩ := hopen
    exact ⟨fd, p', hpos, hrun, hsteps⟩

/-! ## Creating the file -/

theorem createFileWriteLoop_steps (hos : os.Regular) {fd : Int} (hfd : Resource.fd fd ∈ held)
    {fuel written : Nat} (hwritten : written < cacheManagerMb) (hfuel : cacheManagerMb ≤ written + fuel)
    (p : Process σ) : ∃ ret p', createFileWriteLoop os fd fuel written p = .ok ret p' ∧
      (ret = 0 ∨ ret = -1) ∧ Steps p p' held held [] := by
  induction fuel generalizing written p with
  | zero => exact absurd hfuel (by omega)
  | succ fuel ih =>
      let bytes : List UInt8 := List.replicate (cacheManagerMb - written) 0
      have hlength : bytes.length = cacheManagerMb - written := List.length_replicate
      have hne : bytes ≠ [] := List.ne_nil_of_length_pos (by omega)
      have hwrite : ∃ p₁, msysWrite os fd bytes p = .ok (os.write fd bytes p.sys).1 p₁ ∧
          Steps p p₁ held held [] := sysCall_steps (run_use_fd hfd [])
      obtain ⟨p₁, hrun₁, hsteps⟩ := hwrite
      rw [createFileWriteLoop, sys_bind_ok hrun₁]
      rcases hos.write fd bytes p.sys hne with hneg | ⟨hpos, hle⟩
      · rw [if_pos hneg]
        exact ⟨-1, p₁, rfl, Or.inr rfl, hsteps⟩
      · rw [if_neg (by omega)]
        split
        · next hmore =>
            obtain ⟨ret, p', hrun, hret, hrest⟩ := ih hmore (by omega) p₁
            exact ⟨ret, p', hrun, hret, hsteps.trans hrest⟩
        · exact ⟨0, p₁, rfl, Or.inl rfl, hsteps⟩

theorem createFileLoop_steps (hos : os.Regular) {fd : Int} (hfd : Resource.fd fd ∈ held) (n : Nat)
    (p : Process σ) : ∃ ret p', createFileLoop os fd n p = .ok ret p' ∧ (ret = 0 ∨ ret = -1) ∧
      Steps p p' held held [] := by
  induction n generalizing p with
  | zero => exact ⟨0, p, rfl, Or.inl rfl, Steps.refl p held⟩
  | succ n ih =>
      obtain ⟨ret, p₁, hrun, hret, hsteps⟩ := createFileWriteLoop_steps hos hfd
        (show 0 < cacheManagerMb by rw [cacheManagerMb]; omega)
        (show cacheManagerMb ≤ 0 + cacheManagerMb by rw [Nat.zero_add]) p
      rw [createFileLoop, sys_bind_ok hrun]
      rcases hret with rfl | rfl
      · obtain ⟨ret, p', hrest, hret, hmore⟩ := ih p₁
        rw [if_neg (by decide)]
        exact ⟨ret, p', hrest, hret, hsteps.trans hmore⟩
      · rw [if_pos (by decide)]
        exact ⟨-1, p₁, rfl, Or.inr rfl, hsteps⟩

theorem createFileSync_steps (hos : os.Regular) {fd : Int} (hfd : Resource.fd fd ∈ held) (ret : Int)
    (p : Process σ) : ∃ p', createFileSync os fd ret p = .ok () p' ∧ Steps p p' held held [] := by
  rw [createFileSync]
  split
  · exact ⟨p, rfl, Steps.refl p held⟩
  · have hcall : ∃ p', msysFsync os fd p = .ok (os.fsync fd p.sys).1 p' ∧
        Steps p p' held held [] := sysCall_steps (run_use_fd hfd [])
    obtain ⟨p', hrun, hsteps⟩ := hcall
    refine ⟨p', ?_, hsteps⟩
    rw [sys_bind_ok hrun, hos.fsync]
    rfl

/-- A file is created with nothing held behind it, whether it was written or not. -/
theorem cacheManagerCreateFile_steps (hos : os.Regular) (size : Nat) (p : Process σ) : ∃ ret p',
    cacheManagerCreateFile os size p = .ok ret p' ∧ Steps p p' [] [] [] := by
  rw [cacheManagerCreateFile]
  rcases msysOpen_steps hos true p with ⟨p₁, hrun₁, hsteps₁⟩ | ⟨fd, p₁, hpos, hrun₁, hsteps₁⟩
  · rw [sys_bind_ok hrun₁, if_pos (by decide)]
    exact ⟨-1, p₁, rfl, hsteps₁⟩
  · rw [sys_bind_ok hrun₁, if_neg (Int.not_lt.2 hpos)]
    have hbuffer : Steps p₁ (p₁.note .xmallocBuffer) [.fd fd] [.buffer, .fd fd] [] :=
      Steps.note rfl rfl
    have hheld : Resource.fd fd ∈ [Resource.buffer, .fd fd] :=
      List.mem_cons_of_mem _ List.mem_cons_self
    obtain ⟨ret, p₂, hrun₂, hret, hsteps₂⟩ :=
      createFileLoop_steps hos hheld (size / cacheManagerMb) (p₁.note .xmallocBuffer)
    obtain ⟨p₃, hrun₃, hsteps₃⟩ := createFileSync_steps hos hheld ret p₂
    obtain ⟨p₄, hrun₄, hsteps₄⟩ := msysClose_steps hos hheld p₃
    have herase : [Resource.buffer, .fd fd].erase (.fd fd) = [.buffer] := by
      rw [List.erase_cons_tail (by simp), List.erase_cons_head]
    rw [herase] at hsteps₄
    have hfree : Steps p₄ (p₄.note .xfreeBuffer) [.buffer] [] [] := Steps.note rfl rfl
    refine ⟨ret, p₄.note .xfreeBuffer, ?_,
      ((((hsteps₁.trans hbuffer).trans hsteps₂).trans hsteps₃).trans hsteps₄).trans hfree⟩
    have hmalloc : (note .xmallocBuffer : Sys σ Unit) p₁ = .ok () (p₁.note .xmallocBuffer) := rfl
    have hxfree : (note .xfreeBuffer : Sys σ Unit) p₄ = .ok () (p₄.note .xfreeBuffer) := rfl
    rw [sys_bind_ok hmalloc, sys_bind_ok hrun₂, sys_bind_ok hrun₃, sys_bind_ok hrun₄,
      sysAlways_bind (decide_eq_true rfl), sys_bind_ok hxfree]
    rfl

theorem cacheManagerCheckFile_steps (hos : os.Regular) (size : Nat) (p : Process σ) : ∃ ret p',
    cacheManagerCheckFile os size p = .ok ret p' ∧ Steps p p' [] [] [] := by
  have hstat : ∃ p₁, msysStat os p = .ok (os.stat p.sys).1 p₁ ∧ Steps p p₁ [] [] [] :=
    sysCall_steps rfl
  obtain ⟨p₁, hrun₁, hsteps₁⟩ := hstat
  rw [cacheManagerCheckFile, sys_bind_ok hrun₁]
  cases hsize : (os.stat p.sys).1 with
  | none =>
      obtain ⟨ret, p', hrun, hsteps⟩ := cacheManagerCreateFile_steps hos size p₁
      exact ⟨ret, p', hrun, hsteps₁.trans hsteps⟩
  | some stSize =>
      simp only
      split
      · have hunlink : ∃ p₂, msysUnlink os p₁ = .ok (os.unlink p₁.sys).1 p₂ ∧
            Steps p₁ p₂ [] [] [] := sysCall_steps rfl
        obtain ⟨p₂, hrun₂, hsteps₂⟩ := hunlink
        rw [sys_bind_ok hrun₂]
        split
        · exact ⟨_, p₂, rfl, hsteps₁.trans hsteps₂⟩
        · obtain ⟨ret, p', hrun, hsteps⟩ := cacheManagerCreateFile_steps hos size p₂
          exact ⟨ret, p', hrun, (hsteps₁.trans hsteps₂).trans hsteps⟩
      · exact ⟨0, p₁, rfl, hsteps₁⟩

/-! ## Releasing -/

/-- The resources that a cache manager knows to hold. -/
def CacheManager.holding (cacheManager : CacheManager) : List Resource :=
  (if cacheManager.cache.cells = [] then [] else [.cells]) ++
    ((if cacheManager.ptr = 0 then [] else [.mapping cacheManager.ptr cacheManager.memorySize]) ++
      (if cacheManager.fd = -1 then [] else [.fd cacheManager.fd]))

/-- Where there are cells, their header is mapped. -/
def CacheManager.Headed (cacheManager : CacheManager) : Prop :=
  cacheManager.cache.cells ≠ [] →
    cacheManager.ptr ≠ 0 ∧ cacheManager.cache.cacheHeader = cacheManager.ptr

/-- Where there are cells, their header counts no more of them. -/
def CacheManager.Counts (cacheManager : CacheManager) (m : Mem) : Prop :=
  cacheManager.cache.cells ≠ [] →
    cacheCellCount m cacheManager.cache.cacheHeader ≤ cacheManager.cache.cells.length

/-- A cache manager that holds nothing. -/
structure CacheManager.Closed (cacheManager : CacheManager) : Prop where
  cells : cacheManager.cache.cells = []
  ptr : cacheManager.ptr = 0
  fd : cacheManager.fd = -1

theorem CacheManager.Closed.holding (h : cacheManager.Closed) : cacheManager.holding = [] := by
  rw [CacheManager.holding, if_pos h.cells, if_pos h.ptr, if_pos h.fd]
  rfl

theorem CacheManager.Closed.headed (h : cacheManager.Closed) : cacheManager.Headed :=
  fun hne => absurd h.cells hne

theorem CacheManager.Closed.counts (h : cacheManager.Closed) (m : Mem) : cacheManager.Counts m :=
  fun hne => absurd h.cells hne

/-- No call has mapped the file, and there are no cells to count. -/
theorem CacheManager.Closed.counts_iff (h : cacheManager.Closed) (m : Mem) :
    cacheManager.Counts m ↔ ∀ call ∈ ([] : List SysCall), call.HeaderCounts :=
  iff_of_true (h.counts m) fun _ hcall => absurd hcall List.not_mem_nil

/-- The cells are released while their header is still mapped. -/
theorem cacheRelease_steps {cache : Cache} (p : Process σ)
    (h : cache.cells ≠ [] → held.any (Resource.mappedAt cache.cacheHeader) = true ∧
      cacheCellCount p.store.mem cache.cacheHeader ≤ cache.cells.length) : ∃ cache' p',
      cacheRelease cache p = .ok cache' p' ∧ cache'.cells = [] ∧
      Steps p p' ((if cache.cells = [] then [] else [.cells]) ++ held) held [] := by
  rw [cacheRelease]
  by_cases hcells : cache.cells = []
  · rw [if_pos hcells, if_pos hcells]
    exact ⟨cache, p, rfl, hcells, Steps.refl p held⟩
  · obtain ⟨hmapped, hcount⟩ := h hcells
    rw [if_neg hcells, if_neg hcells]
    have hload : onCache (load (cacheCellCount · cache.cacheHeader)) p =
        .ok (cacheCellCount p.store.mem cache.cacheHeader) p := rfl
    have hloop : onCache (cacheReleaseLoop cache 0 (cacheCellCount p.store.mem cache.cacheHeader)) p =
        .ok () p := by
      rw [onCache, cacheReleaseLoop_run (by rwa [Nat.zero_add])]
    have hfree : (note (.xfreeCells cache.cacheHeader) : Sys σ Unit) p =
        .ok () (p.note (.xfreeCells cache.cacheHeader)) := rfl
    rw [sys_bind_ok hload, sys_bind_ok hloop, sys_bind_ok hfree]
    refine ⟨_, _, rfl, rfl, Steps.note rfl ?_⟩
    have hany : (Resource.cells :: held).any (Resource.mappedAt cache.cacheHeader) = true := by
      rw [List.any_cons, hmapped, Bool.or_true]
    rw [SysCall.ops, List.singleton_append, run_use hany, run_release List.mem_cons_self,
      List.erase_cons_head, run_nil]

/-- Without enough cells, their release runs past them. -/
theorem cacheRelease_outOfBounds {cache : Cache} (p : Process σ)
    (hcount : cache.cells.length < cacheCellCount p.store.mem cache.cacheHeader)
    (hcells : cache.cells ≠ []) : cacheRelease cache p = .error .outOfBounds p := by
  have hload : onCache (load (cacheCellCount · cache.cacheHeader)) p =
      .ok (cacheCellCount p.store.mem cache.cacheHeader) p := rfl
  have hloop : onCache (cacheReleaseLoop cache 0 (cacheCellCount p.store.mem cache.cacheHeader)) p =
      .error .outOfBounds p := by
    rw [onCache, cacheReleaseLoop_outOfBounds (Nat.zero_le _) (by rwa [Nat.zero_add])]
  rw [cacheRelease, if_neg hcells, sys_bind_ok hload, sys_bind_error hloop]

theorem cacheManagerUnmap_steps (hos : os.Regular) (cacheManager : CacheManager) (p : Process σ) : ∃ p',
    cacheManagerUnmap os cacheManager p = .ok { cacheManager with ptr := 0 } p' ∧
      Steps p p' ((if cacheManager.ptr = 0 then []
        else [.mapping cacheManager.ptr cacheManager.memorySize]) ++ held) held [] := by
  rw [cacheManagerUnmap]
  by_cases hptr : cacheManager.ptr = 0
  · rw [if_neg (not_not_intro hptr), if_pos hptr]
    refine ⟨p, ?_, Steps.refl p held⟩
    rw [← hptr]
    rfl
  · rw [if_pos hptr, if_neg hptr]
    have hcall : ∃ ret p', msysMunmap os cacheManager.ptr cacheManager.memorySize p = .ok ret p' ∧
        ret = 0 ∧ Steps p p' ([.mapping cacheManager.ptr cacheManager.memorySize] ++ held) held [] := by
      refine ⟨_, _, rfl, hos.munmap _ _ _ _, Steps.note rfl ?_⟩
      rw [SysCall.ops, List.singleton_append, run_release List.mem_cons_self,
        List.erase_cons_head, run_nil]
    obtain ⟨ret, p', hrun, rfl, hsteps⟩ := hcall
    rw [sys_bind_ok hrun, sysAlways_bind (decide_eq_true rfl)]
    exact ⟨p', rfl, hsteps⟩

theorem cacheManagerClose_steps (hos : os.Regular) (cacheManager : CacheManager) (p : Process σ) : ∃ p',
    cacheManagerClose os cacheManager p = .ok { cacheManager with fd := -1 } p' ∧
      Steps p p' (if cacheManager.fd = -1 then [] else [.fd cacheManager.fd]) [] [] := by
  rw [cacheManagerClose]
  by_cases hfd : cacheManager.fd = -1
  · rw [if_neg (not_not_intro hfd), if_pos hfd]
    refine ⟨p, ?_, Steps.refl p []⟩
    rw [← hfd]
    rfl
  · rw [if_pos hfd, if_neg hfd]
    obtain ⟨p', hrun, hsteps⟩ := msysClose_steps hos (List.mem_singleton_self _) p
    rw [List.erase_cons_head] at hsteps
    rw [sys_bind_ok hrun, sysAlways_bind (decide_eq_true rfl)]
    exact ⟨p', rfl, hsteps⟩

/-- Releasing a cache manager releases what it holds, and leaves it closed. -/
theorem cacheManagerRelease_steps (hos : os.Regular) (p : Process σ) (hheaded : cacheManager.Headed)
    (hcounts : cacheManager.Counts p.store.mem) : ∃ cacheManager' p',
      cacheManagerRelease os cacheManager p = .ok cacheManager' p' ∧ cacheManager'.Closed ∧
      Steps p p' cacheManager.holding [] [] := by
  have hheld : cacheManager.cache.cells ≠ [] →
      ((if cacheManager.ptr = 0 then []
        else [Resource.mapping cacheManager.ptr cacheManager.memorySize]) ++
        (if cacheManager.fd = -1 then [] else [Resource.fd cacheManager.fd])).any
          (Resource.mappedAt cacheManager.cache.cacheHeader) = true ∧
      cacheCellCount p.store.mem cacheManager.cache.cacheHeader ≤ cacheManager.cache.cells.length := by
    intro hne
    obtain ⟨hptr, hheader⟩ := hheaded hne
    refine ⟨?_, hcounts hne⟩
    rw [if_neg hptr, List.singleton_append, List.any_cons, hheader, Resource.mappedAt,
      decide_eq_true rfl, Bool.true_or]
  obtain ⟨cache, p₁, hrun₁, hcells, hsteps₁⟩ := cacheRelease_steps p hheld
  obtain ⟨p₂, hrun₂, hsteps₂⟩ :=
    cacheManagerUnmap_steps hos { cacheManager with cache := cache } p₁
  obtain ⟨p₃, hrun₃, hsteps₃⟩ :=
    cacheManagerClose_steps hos { cacheManager with cache := cache, ptr := 0 } p₂
  refine ⟨{ cacheManager with cache := cache, ptr := 0, fd := -1 }, p₃, ?_, ⟨hcells, rfl, rfl⟩,
    (hsteps₁.trans hsteps₂).trans hsteps₃⟩
  rw [cacheManagerRelease, sys_bind_ok hrun₁, sys_bind_ok hrun₂, hrun₃]

/-- Without enough cells, a release of the cache manager releases nothing. -/
theorem cacheManagerRelease_outOfBounds {p : Process σ} (h : ¬cacheManager.Counts p.store.mem) :
    cacheManagerRelease os cacheManager p = .error .outOfBounds p := by
  obtain ⟨hcells, hcount⟩ := Classical.not_imp.1 h
  rw [cacheManagerRelease, sys_bind_error (cacheRelease_outOfBounds p (Nat.lt_of_not_le hcount) hcells)]

/-! ## Opening -/

theorem mapBytes_cacheMagic (m : Mem) {ptr length : Nat} (bytes : Mem) (h : 16 ≤ length) :
    cacheMagic (mapBytes m ptr length bytes) ptr = cacheMagic bytes 0 := by
  have hagree := (mapBytes_shift m ptr length bytes).mono (Nat.le_refl 0) (show 0 + 8 ≤ length by omega)
  have hload := hagree.load64
  rwa [Mem.shift_load64, Nat.add_zero] at hload

theorem mapBytes_cacheCellCount (m : Mem) {ptr length : Nat} (bytes : Mem) (h : 16 ≤ length) :
    cacheCellCount (mapBytes m ptr length bytes) ptr = cacheCellCount bytes 0 := by
  have hagree := (mapBytes_shift m ptr length bytes).mono (show 0 ≤ 0 + 8 by omega)
    (show 0 + 8 + 8 ≤ length by omega)
  have hload := hagree.load64
  rwa [Mem.shift_load64, Nat.zero_add] at hload

/-- The file is mapped: the descriptor is used, the mapping acquired. -/
theorem msysMmap_mapped {length ptr : Nat} {sync : Bool} {fd : Int} {bytes : Nat → UInt8}
    {p : Process σ} (h : (os.mmap length sync fd p.sys).1 = .mapped ptr bytes) : ∃ p',
      msysMmap os length sync fd p = .ok (.mapped ptr bytes) p' ∧
      p'.store.mem = mapBytes p.store.mem ptr length bytes ∧
      Steps p p' [.fd fd] [.mapping ptr length, .fd fd] [.mmap length fd (.mapped ptr bytes)] := by
  let mapped : Process σ := { p with
    sys := (os.mmap length sync fd p.sys).2
    store := { p.store with mem := mapBytes p.store.mem ptr length bytes } }
  have hrun : msysMmap os length sync fd p =
      .ok (.mapped ptr bytes) (mapped.note (.mmap length fd (.mapped ptr bytes))) := by
    rw [msysMmap, h]
    rfl
  have hops : Ledger.run [.fd fd] (SysCall.mmap length fd (.mapped ptr bytes)).ops =
      some [.mapping ptr length, .fd fd] := by
    rw [SysCall.ops, run_use_fd (List.mem_singleton_self _), run_acquire, run_nil]
  exact ⟨_, hrun, rfl, Steps.note rfl hops⟩

/-- The file is not mapped. -/
theorem msysMmap_failed {length : Nat} {sync eopnotsupp : Bool} {fd : Int} {p : Process σ}
    (h : (os.mmap length sync fd p.sys).1 = .failed eopnotsupp) : ∃ p',
      msysMmap os length sync fd p = .ok (.failed eopnotsupp) p' ∧
      Steps p p' [.fd fd] [.fd fd] [] := by
  let failed : Process σ := { p with sys := (os.mmap length sync fd p.sys).2 }
  have hrun : msysMmap os length sync fd p =
      .ok (.failed eopnotsupp) (failed.note (.mmap length fd (.failed eopnotsupp))) := by
    rw [msysMmap, h]
    rfl
  exact ⟨_, hrun, Steps.note rfl (run_use_fd (List.mem_singleton_self _) [])⟩

/-- What an open has come to. Either the file is mapped and its cells initialised; or the cache manager is
closed, and the file was not mapped. -/
inductive Opened (ret : Int) (cacheManager : CacheManager) : List SysCall → Prop where
  | reached {length ptr : Nat} {fd : Int} {bytes : Nat → UInt8} (hret : ret = 0) :
      Opened ret cacheManager [.mmap length fd (.mapped ptr bytes), .cacheInit ptr]
  | failed (hret : ret ≠ 0) (hclosed : cacheManager.Closed) : Opened ret cacheManager []

/-- The cache manager has its file open and nothing else. -/
structure CacheManager.HasFile (cacheManager : CacheManager) : Prop where
  cells : cacheManager.cache.cells = []
  ptr : cacheManager.ptr = 0
  fd : 0 ≤ cacheManager.fd
  slots : ∃ n, 1 ≤ n ∧ cacheManager.memorySize = (n + 1) * cacheCellSize

theorem CacheManager.HasFile.holding (h : cacheManager.HasFile) :
    cacheManager.holding = [.fd cacheManager.fd] := by
  have hfd := h.fd
  rw [CacheManager.holding, if_pos h.cells, if_pos h.ptr, if_neg (by omega)]
  rfl

/-- The cells of the mapped file are initialised. -/
theorem cacheManagerMapped_steps (hos : os.Regular) (hfile : cacheManager.HasFile) {ptr : Nat}
    {sync : Bool} {bytes : Nat → UInt8}
    (hmap : (os.mmap cacheManager.memorySize sync cacheManager.fd p.sys).1 = .mapped ptr bytes) :
    ∃ p₁, ∃ cacheManager' : CacheManager, ∃ p', msysMmap os cacheManager.memorySize sync cacheManager.fd p =
        .ok (.mapped ptr bytes) p₁ ∧
      (∀ dax, cacheManagerMapped { cacheManager with dax := dax } ptr p₁ =
        .ok (0, { cacheManager' with dax := dax }) p') ∧
      cacheManager'.Headed ∧
      cacheManager'.holding =
        [.cells, .mapping ptr cacheManager.memorySize, .fd cacheManager.fd] ∧
      (cacheManager'.Counts p'.store.mem ↔
        ∀ call ∈ [SysCall.mmap cacheManager.memorySize cacheManager.fd (.mapped ptr bytes),
          .cacheInit ptr], call.HeaderCounts) ∧
      Steps p p' [.fd cacheManager.fd] cacheManager'.holding
        [.mmap cacheManager.memorySize cacheManager.fd (.mapped ptr bytes), .cacheInit ptr] := by
  obtain ⟨n, hn, hsize⟩ := hfile.slots
  have hslots : cacheManager.memorySize / cacheCellSize = n + 1 := by rw [hsize, slots_eq]
  have hlength : 16 ≤ cacheManager.memorySize := by
    rw [hsize, cacheCellSize]
    omega
  have hptr := hos.mmap _ _ _ _ _ _ hmap
  obtain ⟨p₁, hrun₁, hmem, hsteps₁⟩ := msysMmap_mapped hmap
  obtain ⟨s, hinit, -, hold, hnew, -, -⟩ := cacheInit_spec ptr hn hslots p₁.store
  have hnote : (note (.cacheInit ptr) : Sys σ Unit) p₁ = .ok () (p₁.note (.cacheInit ptr)) := rfl
  have hcache : onCache (cacheInit ptr cacheManager.memorySize) (p₁.note (.cacheInit ptr)) =
      .ok (cacheAt ptr n) { p₁.note (.cacheInit ptr) with store := s } := onCache_ok hinit
  have hcells : (cacheAt ptr n).cells ≠ [] := by
    apply List.ne_nil_of_length_pos
    rw [cacheAt, List.length_map, List.length_range]
    exact hn
  -- the mapping is used, and the cells are acquired
  have hops : Ledger.run [.mapping ptr cacheManager.memorySize, .fd cacheManager.fd]
      (SysCall.cacheInit ptr).ops =
        some [.cells, .mapping ptr cacheManager.memorySize, .fd cacheManager.fd] := by
    have hany : [Resource.mapping ptr cacheManager.memorySize, .fd cacheManager.fd].any
        (Resource.mappedAt ptr) = true := by
      rw [List.any_cons, Resource.mappedAt, decide_eq_true rfl, Bool.true_or]
    rw [SysCall.ops, run_use hany, run_acquire, run_nil]
  have hsteps₂ : Steps p₁ { p₁.note (.cacheInit ptr) with store := s }
      [.mapping ptr cacheManager.memorySize, .fd cacheManager.fd]
      [.cells, .mapping ptr cacheManager.memorySize, .fd cacheManager.fd] [.cacheInit ptr] :=
    ⟨[.cacheInit ptr], rfl, by rw [List.flatMap_singleton, hops], rfl⟩
  have hholding : CacheManager.holding { cacheManager with ptr := ptr, cache := cacheAt ptr n } =
      [.cells, .mapping ptr cacheManager.memorySize, .fd cacheManager.fd] := by
    have hfd : cacheManager.fd ≠ -1 := by
      have := hfile.fd
      omega
    rw [CacheManager.holding, if_neg hcells, if_neg hptr, if_neg hfd]
    rfl
  refine ⟨p₁, { cacheManager with ptr := ptr, cache := cacheAt ptr n }, _, hrun₁, fun dax => ?_,
    fun _ => ⟨hptr, rfl⟩, hholding, ?_, hholding ▸ hsteps₁.trans hsteps₂⟩
  · rw [cacheManagerMapped, sys_bind_ok hnote, sys_bind_ok hcache]
    rfl
  · -- the header is the one in the file, or a new one
    have hcounts : CacheManager.Counts { cacheManager with ptr := ptr, cache := cacheAt ptr n } s.mem ↔
        cacheCellCount s.mem ptr ≤ n := by
      have hlen : (cacheAt ptr n).cells.length = n := by
        rw [cacheAt, List.length_map, List.length_range]
      rw [CacheManager.Counts, hlen]
      exact ⟨fun h => h hcells, fun h _ => h⟩
    have hmagics : cacheMagic bytes 0 = cacheMagic p₁.store.mem ptr := by
      rw [hmem, mapBytes_cacheMagic _ _ hlength]
    have hcellCounts : cacheCellCount bytes 0 = cacheCellCount p₁.store.mem ptr := by
      rw [hmem, mapBytes_cacheCellCount _ _ hlength]
    have hinitHeader : (SysCall.cacheInit ptr).HeaderCounts := trivial
    refine hcounts.trans ?_
    rw [List.forall_mem_cons, List.forall_mem_singleton, and_iff_left hinitHeader,
      SysCall.HeaderCounts, hslots, Nat.add_sub_cancel, hmagics, hcellCounts]
    by_cases hmagic : cacheMagic p₁.store.mem ptr = cacheHeaderMagic
    · rw [hold hmagic]
      exact ⟨fun h _ => h, fun h => h hmagic⟩
    · rw [hnew hmagic]
      exact iff_of_true (Nat.mod_le _ _) fun h => absurd h hmagic

/-- The jump to `err`. -/
theorem cacheManagerErr_steps (hos : os.Regular) (hfile : cacheManager.HasFile) (p : Process σ) :
    ∃ cacheManager' p', cacheManagerErr os cacheManager p = .ok (-1, cacheManager') p' ∧
      cacheManager'.Closed ∧ Steps p p' [.fd cacheManager.fd] [] [] := by
  obtain ⟨cacheManager', p', hrun, hclosed, hsteps⟩ :=
    cacheManagerRelease_steps hos p (fun hne => absurd hfile.cells hne)
      fun hne => absurd hfile.cells hne
  rw [hfile.holding] at hsteps
  refine ⟨cacheManager', p', ?_, hclosed, hsteps⟩
  rw [cacheManagerErr, sys_bind_ok hrun]
  rfl

/-- An open file is mapped, or closed again. -/
theorem cacheManagerMap_steps (hos : os.Regular) (hfile : cacheManager.HasFile) (p : Process σ) :
    ∃ ret cacheManager' p' ms, cacheManagerMap os cacheManager p = .ok (ret, cacheManager') p' ∧
      cacheManager'.Headed ∧
      (cacheManager'.Counts p'.store.mem ↔ ∀ call ∈ ms, call.HeaderCounts) ∧
      Opened ret cacheManager' ms ∧ Steps p p' [.fd cacheManager.fd] cacheManager'.holding ms := by
  rw [cacheManagerMap]
  cases hmap : (os.mmap cacheManager.memorySize true cacheManager.fd p.sys).1 with
  | mapped ptr bytes =>
      obtain ⟨p₁, cacheManager', p', hrun₁, hrun, hheaded, -, hcounts, hsteps⟩ :=
        cacheManagerMapped_steps hos hfile hmap
      rw [sys_bind_ok hrun₁]
      exact ⟨0, _, p', _, hrun true, hheaded, hcounts, .reached rfl, hsteps⟩
  | failed eopnotsupp =>
      obtain ⟨p₁, hrun₁, hsteps₁⟩ := msysMmap_failed hmap
      rw [sys_bind_ok hrun₁]
      cases eopnotsupp with
      | false =>
          obtain ⟨cacheManager', p', hrun, hclosed, hsteps⟩ := cacheManagerErr_steps hos hfile p₁
          refine ⟨-1, cacheManager', p', _, hrun, hclosed.headed, hclosed.counts_iff _,
            .failed (by decide) hclosed, ?_⟩
          rw [hclosed.holding]
          exact hsteps₁.trans hsteps
      | true =>
          -- the second attempt, without `MAP_SYNC`
          show ∃ ret cacheManager' p' ms, (msysMmap os cacheManager.memorySize false cacheManager.fd >>=
            fun mapping => _) p₁ = .ok (ret, cacheManager') p' ∧ _
          cases hmap' : (os.mmap cacheManager.memorySize false cacheManager.fd p₁.sys).1 with
          | mapped ptr bytes =>
              obtain ⟨p₂, cacheManager', p', hrun₂, hrun, hheaded, -, hcounts, hsteps⟩ :=
                cacheManagerMapped_steps hos hfile hmap'
              rw [sys_bind_ok hrun₂]
              exact ⟨0, _, p', _, hrun cacheManager.dax, hheaded, hcounts, .reached rfl,
                hsteps₁.trans hsteps⟩
          | failed eopnotsupp =>
              obtain ⟨p₂, hrun₂, hsteps₂⟩ := msysMmap_failed hmap'
              rw [sys_bind_ok hrun₂]
              obtain ⟨cacheManager', p', hrun, hclosed, hsteps⟩ := cacheManagerErr_steps hos hfile p₂
              refine ⟨-1, cacheManager', p', _, hrun, hclosed.headed, hclosed.counts_iff _,
            .failed (by decide) hclosed, ?_⟩
              rw [hclosed.holding]
              exact (hsteps₁.trans hsteps₂).trans hsteps

theorem cacheManagerFilesize_eq (cacheSize : Nat) :
    cacheManagerFilesize cacheSize = (cacheSize / cacheManagerMb + 1) * cacheCellSize := rfl

/-- Opening a cache on a new cache manager. -/
theorem cacheManagerOpenCache_steps (hos : os.Regular) {cacheSize : Nat}
    (hsize : cacheManagerMb ≤ cacheSize) (p : Process σ) : ∃ ret cacheManager' p' ms,
      cacheManagerOpenCache os cacheManagerInit cacheSize p = .ok (ret, cacheManager') p' ∧
      cacheManager'.Headed ∧
      (cacheManager'.Counts p'.store.mem ↔ ∀ call ∈ ms, call.HeaderCounts) ∧
      Opened ret cacheManager' ms ∧ Steps p p' [] cacheManager'.holding ms := by
  have hclosed : ∀ memorySize, CacheManager.Closed { cacheManagerInit with memorySize := memorySize } :=
    fun _ => ⟨rfl, rfl, rfl⟩
  obtain ⟨ret, p₁, hrun₁, hsteps₁⟩ :=
    cacheManagerCheckFile_steps hos (cacheManagerFilesize cacheSize) p
  rw [cacheManagerOpenCache, sys_bind_ok hrun₁]
  by_cases hret : ret = 0
  · rw [if_neg (not_not_intro hret)]
    rcases msysOpen_steps hos false p₁ with ⟨p₂, hrun₂, hsteps₂⟩ | ⟨fd, p₂, hpos, hrun₂, hsteps₂⟩
    · rw [sys_bind_ok hrun₂, if_pos (by decide)]
      have hclosed' := hclosed (cacheManagerFilesize cacheSize)
      refine ⟨-1, _, p₂, _, rfl, hclosed'.headed, hclosed'.counts_iff _,
        .failed (by decide) hclosed', ?_⟩
      exact hclosed'.holding ▸ hsteps₁.trans hsteps₂
    · rw [sys_bind_ok hrun₂, if_neg (Int.not_lt.2 hpos)]
      have hfile : CacheManager.HasFile { cacheManagerInit with
          memorySize := cacheManagerFilesize cacheSize
          fd := fd } :=
        ⟨rfl, rfl, hpos, cacheSize / cacheManagerMb,
          Nat.div_pos hsize (by rw [cacheManagerMb]; omega), cacheManagerFilesize_eq cacheSize⟩
      obtain ⟨ret, cacheManager', p', ms, hrun, hheaded, hcounts, hopened, hsteps⟩ :=
        cacheManagerMap_steps hos hfile p₂
      exact ⟨ret, cacheManager', p', ms, hrun, hheaded, hcounts, hopened,
        (hsteps₁.trans hsteps₂).trans hsteps⟩
  · rw [if_pos hret]
    have hclosed' := hclosed (cacheManagerFilesize cacheSize)
    refine ⟨ret, _, p₁, _, rfl, hclosed'.headed, hclosed'.counts_iff _, .failed hret hclosed', ?_⟩
    exact hclosed'.holding ▸ hsteps₁

/-- Releasing a cache manager again and again. -/
def cacheManagerReleases (os : Msys σ) (cacheManager : CacheManager) : Nat → Sys σ CacheManager
  | 0 => pure cacheManager
  | n + 1 => do
      let cacheManager ← cacheManagerRelease os cacheManager
      cacheManagerReleases os cacheManager n

theorem cacheManagerReleases_steps (hos : os.Regular) (n : Nat) (p : Process σ)
    (hheaded : cacheManager.Headed) (hcounts : cacheManager.Counts p.store.mem) : ∃ cacheManager' p',
      cacheManagerReleases os cacheManager (n + 1) p = .ok cacheManager' p' ∧
      Steps p p' cacheManager.holding [] [] := by
  induction n generalizing cacheManager p with
  | zero =>
      obtain ⟨cacheManager', p', hrun, -, hsteps⟩ :=
        cacheManagerRelease_steps hos p hheaded hcounts
      refine ⟨cacheManager', p', ?_, hsteps⟩
      rw [cacheManagerReleases, sys_bind_ok hrun]
      rfl
  | succ n ih =>
      obtain ⟨closed, p₁, hrun₁, hclosed, hsteps₁⟩ :=
        cacheManagerRelease_steps hos p hheaded hcounts
      obtain ⟨cacheManager', p', hrun, hsteps⟩ := ih p₁ hclosed.headed (hclosed.counts _)
      rw [hclosed.holding] at hsteps
      refine ⟨cacheManager', p', ?_, hsteps₁.trans hsteps⟩
      rw [cacheManagerReleases, sys_bind_ok hrun₁, hrun]

/-! ## The whole life of a cache manager -/

/-- Cells are acquired at the calls of `cache_init` alone. -/
theorem acquired_cells (calls : List SysCall) :
    acquired .cells (calls.flatMap SysCall.ops) =
      acquired .cells ((calls.filter SysCall.isMilestone).flatMap SysCall.ops) := by
  induction calls with
  | nil => rfl
  | cons call calls ih =>
      have hcall : acquired Resource.cells call.ops =
          acquired .cells (([call].filter SysCall.isMilestone).flatMap SysCall.ops) := by
        cases call with
        | openFile create fd =>
            rw [SysCall.ops]
            split <;> rfl
        | mmap length fd ptr => cases ptr <;> rfl
        | _ => rfl
      rw [List.flatMap_cons, acquired_append, hcall, ih, ← acquired_append, ← List.flatMap_append,
        ← List.filter_append, List.singleton_append]

/-- Only a call that maps the file says something of a header. -/
theorem headerCounts_milestones (calls : List SysCall) :
    (∀ call ∈ calls, call.HeaderCounts) ↔
      ∀ call ∈ calls.filter SysCall.isMilestone, call.HeaderCounts := by
  refine ⟨fun h call hcall => h call (List.mem_filter.1 hcall).1, fun h call hcall => ?_⟩
  by_cases hmilestone : call.isMilestone = true
  · exact h call (List.mem_filter.2 ⟨hcall, hmilestone⟩)
  · cases call with
    | mmap length fd mapping =>
        cases mapping with
        | mapped ptr bytes => exact absurd rfl hmilestone
        | failed eopnotsupp => trivial
    | _ => trivial

/-- An open cache manager is released, `releases + 1` times: in its calls, those of the open among them,
nothing is used or released that is not held, everything that was acquired is released, once, and the
cells are if there are any. -/
def ReleasesAll (os : Msys σ) (releases : Nat) (ret : Int) (cacheManager : CacheManager)
    (p : Process σ) : Prop :=
  ∃ cacheManager' p', cacheManagerReleases os cacheManager (releases + 1) p = .ok cacheManager' p' ∧
    Ledger.run [] (p'.calls.flatMap SysCall.ops) = some [] ∧
    (∀ r, acquired r (p'.calls.flatMap SysCall.ops) = released r (p'.calls.flatMap SysCall.ops)) ∧
    released .cells (p'.calls.flatMap SysCall.ops) = if ret = 0 then 1 else 0

/-- However the system calls turn out, an open returns, with 0 if it comes to `cache_init` behind a
mapping. Releasing it then releases everything that it has acquired, if and only if no call has mapped a
file whose header counts more cells than the file has slots for. -/
theorem open_release_resources (hos : os.Regular) {cacheSize : Nat}
    (hsize : cacheManagerMb ≤ cacheSize) (releases : Nat) (sys : σ) (store : Store) :
    ∃ ret cacheManager p,
      cacheManagerOpenCache os cacheManagerInit cacheSize ⟨sys, [], store⟩ =
        .ok (ret, cacheManager) p ∧
      (ret = 0 ↔ ∃ length fd ptr bytes, .mmap length fd (.mapped ptr bytes) ∈ p.calls) ∧
      (ret = 0 ↔ ∃ ptr, .cacheInit ptr ∈ p.calls) ∧
      (ReleasesAll os releases ret cacheManager p ↔ ∀ call ∈ p.calls, call.HeaderCounts) := by
  obtain ⟨ret, cacheManager, p, ms, hopen, hheaded, hcounts, hopened, hsteps⟩ :=
    cacheManagerOpenCache_steps hos hsize ⟨sys, [], store⟩
  obtain ⟨calls, hcalls, -, hms⟩ := id hsteps
  rw [List.nil_append] at hcalls
  have hmem : ∀ call : SysCall, call.isMilestone = true → (call ∈ p.calls ↔ call ∈ ms) := by
    intro call hcall
    rw [hcalls, ← hms, List.mem_filter, and_iff_left hcall]
  refine ⟨ret, cacheManager, p, hopen, ?_, ?_, ?_⟩
  · cases hopened with
    | @reached length ptr fd bytes hret =>
        exact iff_of_true hret ⟨length, fd, ptr, bytes, (hmem _ rfl).2 List.mem_cons_self⟩
    | failed hret _ =>
        refine iff_of_false hret ?_
        rintro ⟨length, fd, ptr, bytes, h⟩
        exact List.not_mem_nil ((hmem _ rfl).1 h)
  · cases hopened with
    | @reached length ptr fd bytes hret =>
        exact iff_of_true hret
          ⟨ptr, (hmem _ rfl).2 (List.mem_cons_of_mem _ List.mem_cons_self)⟩
    | failed hret _ =>
        refine iff_of_false hret ?_
        rintro ⟨ptr, h⟩
        exact List.not_mem_nil ((hmem _ rfl).1 h)
  · rw [headerCounts_milestones, hcalls, hms, ← hcounts]
    constructor
    · -- a release that runs past the cells does not return
      rintro ⟨cacheManager', p', hrelease, -⟩
      by_contra hnot
      rw [cacheManagerReleases, sys_bind_error (cacheManagerRelease_outOfBounds hnot)] at hrelease
      cases hrelease
    · intro hcount
      obtain ⟨cacheManager', p', hrelease, hsteps'⟩ :=
        cacheManagerReleases_steps hos releases p hheaded hcount
      obtain ⟨calls', hcalls', hrun, hms'⟩ := hsteps.trans hsteps'
      rw [List.nil_append] at hcalls'
      rw [List.append_nil] at hms'
      have hbalance : ∀ r, acquired r (calls'.flatMap SysCall.ops) =
          released r (calls'.flatMap SysCall.ops) := by
        intro r
        have := run_balance hrun r
        rwa [List.count_nil, Nat.zero_add, Nat.zero_add] at this
      refine ⟨cacheManager', p', hrelease, ?_, ?_, ?_⟩
      · rw [hcalls', hrun]
      · rw [hcalls']
        exact hbalance
      · rw [hcalls', ← hbalance, acquired_cells, hms']
        cases hopened with
        | reached hret =>
            rw [if_pos hret]
            rfl
        | failed hret _ =>
            rw [if_neg hret]
            rfl

/-! ## A file of 2 MB -/

/-- A file system with a file of 2 MB, on which each call succeeds at once. -/
def msysFile (bytes : Mem) : Msys Unit where
  stat _ := (some (2 * cacheManagerMb), ())
  unlink _ := (0, ())
  openFile _ _ := (3, ())
  write _ bytes _ := (bytes.length, ())
  fsync _ _ := (0, ())
  close _ _ := (0, ())
  mmap _ _ _ _ := (.mapped 4096 bytes, ())
  munmap _ _ _ _ := (0, ())

theorem msysFile_regular (bytes : Mem) : (msysFile bytes).Regular where
  openFile _ _ := Or.inr (show (0 : Int) ≤ 3 by decide)
  write _ bytes _ hne := by
    have hlength := List.length_pos_of_ne_nil hne
    exact Or.inr ⟨Int.natCast_pos.2 hlength, Int.le_refl _⟩
  fsync _ _ := rfl
  close _ _ := rfl
  munmap _ _ _ _ := rfl
  mmap := by
    rintro length sync fd s ptr bytes h
    cases h
    decide

/-- A cache manager with that file open. -/
def managerFile : CacheManager :=
  { cacheManagerInit with
    memorySize := 2 * cacheManagerMb
    fd := 3 }

def processFile : Process Unit :=
  ⟨(), [.stat (some (2 * cacheManagerMb)), .openFile false 3], zeroed⟩

/-- The file has the required size, and is opened as it is. -/
theorem msysFile_checked (bytes : Mem) :
    cacheManagerOpenCache (msysFile bytes) cacheManagerInit cacheManagerMb ⟨(), [], zeroed⟩ =
      cacheManagerMap (msysFile bytes) managerFile processFile := by
  have hsize : cacheManagerFilesize cacheManagerMb = 2 * cacheManagerMb := rfl
  have hstat : msysStat (msysFile bytes) ⟨(), [], zeroed⟩ =
      .ok (some (2 * cacheManagerMb)) ⟨(), [.stat (some (2 * cacheManagerMb))], zeroed⟩ := rfl
  have hcheck : cacheManagerCheckFile (msysFile bytes) (2 * cacheManagerMb) ⟨(), [], zeroed⟩ =
      .ok 0 ⟨(), [.stat (some (2 * cacheManagerMb))], zeroed⟩ := by
    rw [cacheManagerCheckFile, sys_bind_ok hstat]
    simp only
    rw [if_neg (not_not_intro rfl)]
    rfl
  have hopen : msysOpen (msysFile bytes) false ⟨(), [.stat (some (2 * cacheManagerMb))], zeroed⟩ =
      .ok 3 processFile := rfl
  rw [cacheManagerOpenCache, hsize, sys_bind_ok hcheck, if_neg (not_not_intro rfl), sys_bind_ok hopen,
    if_neg (by decide)]
  rfl

/-- A cache of one cell is opened on the file, whatever header the file has. -/
theorem msysFile_open (bytes : Mem) : ∃ cacheManager p,
    cacheManagerOpenCache (msysFile bytes) cacheManagerInit cacheManagerMb ⟨(), [], zeroed⟩ =
      .ok (0, cacheManager) p ∧
    Ledger.run [] (p.calls.flatMap SysCall.ops) =
      some [.cells, .mapping 4096 (2 * cacheManagerMb), .fd 3] ∧
    (cacheManager.Counts p.store.mem ↔ ∀ call ∈ p.calls, call.HeaderCounts) ∧
    ((∀ call ∈ p.calls, call.HeaderCounts) ↔
      (SysCall.mmap (2 * cacheManagerMb) 3 (.mapped 4096 bytes)).HeaderCounts) := by
  have hfile : managerFile.HasFile := ⟨rfl, rfl, show (0 : Int) ≤ 3 by decide, 1, Nat.le_refl 1, rfl⟩
  have hmap : ((msysFile bytes).mmap managerFile.memorySize true managerFile.fd processFile.sys).1 =
      .mapped 4096 bytes := rfl
  obtain ⟨p₁, cacheManager, p, hrun₁, hrun, -, hholding, hcounts, hsteps⟩ :=
    cacheManagerMapped_steps (msysFile_regular bytes) hfile hmap
  have hsteps₀ : Steps ⟨(), [], zeroed⟩ processFile [] [.fd 3] [] := ⟨_, rfl, rfl, rfl⟩
  obtain ⟨calls, hcalls, hledger, hms⟩ := hsteps₀.trans hsteps
  rw [List.nil_append] at hcalls hms
  refine ⟨{ cacheManager with dax := true }, p, ?_, ?_, ?_, ?_⟩
  · rw [msysFile_checked, cacheManagerMap, sys_bind_ok hrun₁]
    exact hrun true
  · rw [hcalls, hledger, hholding]
    rfl
  · rw [headerCounts_milestones, hcalls, hms]
    exact hcounts
  · rw [headerCounts_milestones, hcalls, hms, List.forall_mem_cons, List.forall_mem_singleton]
    exact and_iff_left trivial

/-- The first bytes of a file for `n` cells. -/
def headerFor (n : Nat) : Mem :=
  (zeroed.mem.write 0 (Mem.bytes64 cacheHeaderMagic)).write 8 (Mem.bytes64 n)

/-- The file of a cache of one cell, released twice. -/
theorem open_release_resources_file : ∃ cacheManager p,
    cacheManagerOpenCache (msysFile (headerFor 1)) cacheManagerInit cacheManagerMb ⟨(), [], zeroed⟩ =
      .ok (0, cacheManager) p ∧
    ReleasesAll (msysFile (headerFor 1)) 1 0 cacheManager p := by
  obtain ⟨ret, cacheManager, p, hopen, -, -, hreleases⟩ :=
    open_release_resources (msysFile_regular (headerFor 1)) (Nat.le_refl _) 1 () zeroed
  obtain ⟨cacheManager', p', hopen', -, -, hheader⟩ := msysFile_open (headerFor 1)
  obtain ⟨hret, rfl⟩ := EStateM.Result.ok.inj (hopen.symm.trans hopen')
  obtain ⟨rfl, rfl⟩ := Prod.mk.inj hret
  exact ⟨cacheManager, p, hopen, hreleases.2 (hheader.2 fun _ => by decide)⟩

/-- With the header of five cells in that file, the release runs past the only cell, with the cells, the
mapping and the descriptor held. -/
theorem release_outOfBounds : ∃ cacheManager p,
    cacheManagerOpenCache (msysFile (headerFor 5)) cacheManagerInit cacheManagerMb ⟨(), [], zeroed⟩ =
      .ok (0, cacheManager) p ∧
    Ledger.run [] (p.calls.flatMap SysCall.ops) =
      some [.cells, .mapping 4096 (2 * cacheManagerMb), .fd 3] ∧
    ∀ releases, cacheManagerReleases (msysFile (headerFor 5)) cacheManager (releases + 1) p =
        .error .outOfBounds p ∧
      ¬ReleasesAll (msysFile (headerFor 5)) releases 0 cacheManager p := by
  obtain ⟨cacheManager, p, hopen, hledger, hcounts, hheader⟩ := msysFile_open (headerFor 5)
  have hshort : ¬cacheManager.Counts p.store.mem := by
    intro h
    have hfive := hheader.1 (hcounts.1 h)
    exact absurd (hfive (by decide)) (by decide)
  have hrelease : ∀ releases,
      cacheManagerReleases (msysFile (headerFor 5)) cacheManager (releases + 1) p =
        .error .outOfBounds p := fun releases => by
    rw [cacheManagerReleases, sys_bind_error (cacheManagerRelease_outOfBounds hshort)]
  refine ⟨cacheManager, p, hopen, hledger, fun releases => ⟨hrelease releases, ?_⟩⟩
  rintro ⟨cacheManager', p', h, -⟩
  rw [hrelease] at h
  cases h

end

end Theo
